import JasminGen.Syntax.Operator

/-!
# Expressions

Parentheses are part of the tree. They carry no code of their own, but two
rules of lowering look at whether an operand is a *bare* name or literal:
`++` and `--` write back to a bare name only, and `or` reloads a bare left
operand instead of duplicating it. `ident?` and `isLeaf` are those two tests,
and neither looks through parentheses.
-/

namespace JasminGen

inductive Expr where
  | ident (name : String)
  | lit (value : Int32)
  | paren (inner : Expr)
  | assign (name : String) (value : Expr)
  | unary (op : UnaryOp) (operand : Expr)
  | binary (op : BinaryOp) (left right : Expr)
  | call (callee : String) (args : List Expr)
  | index (array : String) (position : Expr)
  | indexAssign (array : String) (position value : Expr)

namespace Expr

/-- The name, if the expression is a bare name. -/
def ident? : Expr → Option String
  | ident x => some x
  | _ => none

/-- A bare name or a bare literal. -/
def isLeaf : Expr → Bool
  | ident _ => true
  | lit _ => true
  | _ => false

@[simp] theorem ident?_eq_some_iff {e : Expr} {x : String} :
    e.ident? = some x ↔ e = ident x := by
  cases e <;> simp [ident?]

/-! ## Equality

Trees are compared node by node. The argument lists of calls have a companion
function, which keeps the recursion structural. -/

mutual

def same : Expr → Expr → Bool
  | ident x, ident y => x == y
  | lit v, lit w => v == w
  | paren a, paren b => same a b
  | assign x a, assign y b => x == y && same a b
  | unary o a, unary p b => o == p && same a b
  | binary o a c, binary p b d => o == p && same a b && same c d
  | call f as, call g bs => f == g && sameAll as bs
  | index x a, index y b => x == y && same a b
  | indexAssign x a c, indexAssign y b d => x == y && same a b && same c d
  | _, _ => false

def sameAll : List Expr → List Expr → Bool
  | [], [] => true
  | a :: as, b :: bs => same a b && sameAll as bs
  | _, _ => false

end

mutual

theorem same_iff : (a b : Expr) → (same a b = true ↔ a = b)
  | ident _, b => by cases b <;> simp [same]
  | lit _, b => by cases b <;> simp [same]
  | paren a, b => by cases b <;> simp [same, same_iff a]
  | assign _ a, b => by cases b <;> simp [same, same_iff a]
  | unary _ a, b => by cases b <;> simp [same, same_iff a]
  | binary _ a c, b => by cases b <;> simp [same, same_iff a, same_iff c, and_assoc]
  | call _ as, b => by cases b <;> simp [same, sameAll_iff as]
  | index _ a, b => by cases b <;> simp [same, same_iff a]
  | indexAssign _ a c, b => by cases b <;> simp [same, same_iff a, same_iff c, and_assoc]

theorem sameAll_iff : (as bs : List Expr) → (sameAll as bs = true ↔ as = bs)
  | [], bs => by cases bs <;> simp [sameAll]
  | a :: as, bs => by cases bs <;> simp [sameAll, same_iff a, sameAll_iff as]

end

instance : DecidableEq Expr := fun a b => decidable_of_iff (same a b = true) (same_iff a b)

end Expr

end JasminGen
