/-!
# Operators of the source language

Binary operators fall into three families, because the three are lowered in
three ways: arithmetic is one machine instruction, a comparison subtracts
and then branches on the sign of the difference, and the logical operators
combine their operands arithmetically and test the result for zero.

`ArithOp` and `Comparison` are also the operand of the arithmetic and of the
branch instructions, so that lowering an operator does not change its name.
-/

namespace JasminGen

/-- Integer arithmetic, with wrap-around at 32 bits. -/
inductive ArithOp where
  | mul
  | div
  | rem
  | add
  | sub
  deriving DecidableEq

/-- The six order relations; on the machine each compares with zero. -/
inductive Comparison where
  | eq
  | ne
  | le
  | lt
  | ge
  | gt
  deriving DecidableEq

inductive BinaryOp where
  | arith (op : ArithOp)
  | compare (c : Comparison)
  | and
  | or
  deriving DecidableEq

inductive UnaryOp where
  | neg
  | not
  | increment
  | decrement
  deriving DecidableEq

namespace ArithOp

def text : ArithOp → String
  | mul => "*"
  | div => "/"
  | rem => "%"
  | add => "+"
  | sub => "-"

end ArithOp

namespace Comparison

def text : Comparison → String
  | eq => "=="
  | ne => "!="
  | le => "<="
  | lt => "<"
  | ge => ">="
  | gt => ">"

end Comparison

namespace BinaryOp

def text : BinaryOp → String
  | arith op => op.text
  | compare c => c.text
  | and => "and"
  | or => "or"

def isArithmetic : BinaryOp → Bool
  | arith _ => true
  | _ => false

def isRelational : BinaryOp → Bool
  | compare _ => true
  | _ => false

def isLogical : BinaryOp → Bool
  | and => true
  | or => true
  | _ => false

end BinaryOp

namespace UnaryOp

def text : UnaryOp → String
  | neg => "-"
  | not => "!"
  | increment => "++"
  | decrement => "--"

end UnaryOp

end JasminGen
