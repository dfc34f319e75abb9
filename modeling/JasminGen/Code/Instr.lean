import JasminGen.Syntax.Operator

/-!
# Instructions

The machine instructions that the generator uses, under the machine's own
mnemonics. Members of classes are named by their text, as the assembler reads
them.
-/

namespace JasminGen

/-- Labels are numbered; one numbering runs through a whole class. -/
abbrev Label := Nat

def Label.text (l : Label) : String := "L" ++ toString l

namespace ArithOp

def mnemonic : ArithOp → String
  | mul => "imul"
  | div => "idiv"
  | rem => "irem"
  | add => "iadd"
  | sub => "isub"

end ArithOp

namespace Comparison

/-- The branch that is taken when the top of the stack compares so with zero. -/
def mnemonic : Comparison → String
  | eq => "ifeq"
  | ne => "ifne"
  | le => "ifle"
  | lt => "iflt"
  | ge => "ifge"
  | gt => "ifgt"

end Comparison

inductive Instr where
  | ldc (value : Int32)
  | iload (slot : Nat)
  | istore (slot : Nat)
  | arith (op : ArithOp)
  | ineg
  | dup
  | pop
  | branch (c : Comparison) (target : Label)
  | goto (target : Label)
  | getstatic (field descriptor : String)
  | putstatic (field descriptor : String)
  | invokestatic (method : String)
  | invokevirtual (method : String)
  | ireturn
  | vreturn
  deriving DecidableEq

namespace Instr

/-- Slots up to three have short forms of their own. -/
def slotText (mnemonic : String) (slot : Nat) : String :=
  mnemonic ++ (if slot ≤ 3 then "_" else " ") ++ toString slot

def text : Instr → String
  | ldc v => "ldc " ++ toString v.toInt
  | iload n => slotText "iload" n
  | istore n => slotText "istore" n
  | arith op => op.mnemonic
  | ineg => "ineg"
  | dup => "dup"
  | pop => "pop"
  | branch c l => c.mnemonic ++ " " ++ l.text
  | goto l => "goto " ++ l.text
  | getstatic f d => "getstatic " ++ f ++ " " ++ d
  | putstatic f d => "putstatic " ++ f ++ " " ++ d
  | invokestatic m => "invokestatic " ++ m
  | invokevirtual m => "invokevirtual " ++ m
  | ireturn => "ireturn"
  | vreturn => "return"

/-- The label that control may continue at instead of the next line. -/
def target? : Instr → Option Label
  | branch _ l => some l
  | goto l => some l
  | _ => none

def isReturn : Instr → Bool
  | ireturn => true
  | vreturn => true
  | _ => false

end Instr

end JasminGen
