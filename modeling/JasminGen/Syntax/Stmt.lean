import JasminGen.Syntax.DataType
import JasminGen.Syntax.Expr

/-!
# Variable declarations and statements

The same three forms of declaration serve globals and locals. A block has its
declarations before its statements; it opens no scope of its own, so a name
declared in a block stays bound to the end of the function.
-/

namespace JasminGen

/-- How a variable is declared: without a value, with one, or as an array of
the given size. -/
inductive VarForm where
  | plain
  | init (value : Int32)
  | array (size : Int32)
  deriving DecidableEq

structure VarDecl where
  name : String
  form : VarForm
  deriving DecidableEq

namespace VarDecl

def type (d : VarDecl) : DataType :=
  match d.form with
  | .array _ => .intArray
  | _ => .int

def init? (d : VarDecl) : Option Int32 :=
  match d.form with
  | .init v => some v
  | _ => none

def isArray (d : VarDecl) : Bool := d.type == .intArray

end VarDecl

inductive Stmt where
  | expr (e : Expr)
  | block (locals : List VarDecl) (body : List Stmt)
  | ifThen (cond : Expr) (yes : Stmt)
  | ifElse (cond : Expr) (yes no : Stmt)
  | loop (cond : Expr) (body : Stmt)
  | ret (value : Option Expr)

namespace Stmt

def isReturn : Stmt → Bool
  | ret _ => true
  | _ => false

/-! ## Equality -/

mutual

def same : Stmt → Stmt → Bool
  | expr e, expr f => e == f
  | block ds ss, block es ts => ds == es && sameAll ss ts
  | ifThen c s, ifThen d t => c == d && same s t
  | ifElse c s s', ifElse d t t' => c == d && same s t && same s' t'
  | loop c s, loop d t => c == d && same s t
  | ret v, ret w => v == w
  | _, _ => false

def sameAll : List Stmt → List Stmt → Bool
  | [], [] => true
  | s :: ss, t :: ts => same s t && sameAll ss ts
  | _, _ => false

end

mutual

theorem same_iff : (s t : Stmt) → (same s t = true ↔ s = t)
  | expr _, t => by cases t <;> simp [same]
  | block _ ss, t => by cases t <;> simp [same, sameAll_iff ss]
  | ifThen _ s, t => by cases t <;> simp [same, same_iff s]
  | ifElse _ s s', t => by cases t <;> simp [same, same_iff s, same_iff s', and_assoc]
  | loop _ s, t => by cases t <;> simp [same, same_iff s]
  | ret _, t => by cases t <;> simp [same]

theorem sameAll_iff : (ss ts : List Stmt) → (sameAll ss ts = true ↔ ss = ts)
  | [], ts => by cases ts <;> simp [sameAll]
  | s :: ss, ts => by cases ts <;> simp [sameAll, same_iff s, sameAll_iff ss]

end

instance : DecidableEq Stmt := fun s t => decidable_of_iff (same s t = true) (same_iff s t)

end Stmt

end JasminGen
