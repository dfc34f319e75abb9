import JasminGen.Lowering.Stmt

/-!
# Parentheses

Parentheses have no code of their own, but they hide a bare name or literal from the two
rules of lowering that look for one: `++` and `--` write back to a bare name only, and `or`
reloads a bare left operand. The operands of `++` and `--` and the left operands of `or` are
*watched*. All other parentheses are without effect, and at a watched operand it only
matters whether there are any.

`lowering_ignores_parens` says so. Two texts that are the same without their parentheses
(`bare`), and of which the same watched operands are parenthesised (`marks`), are lowered to
the same code, or fail with the same error, and leave the same context.

Both halves of the argument go through the text with no parentheses but one pair at every
watched operand that has some (`tidy`). It is lowered as the text is (`lower_tidy`), and it
can be restored from the bare text and the marks (`restore_bare`). So it is enough that
these two agree, and the two texts are never compared with each other.
-/

namespace JasminGen

def UnaryOp.watches : UnaryOp → Bool
  | increment => true
  | decrement => true
  | _ => false

/-- Whether the left operand is watched. -/
def BinaryOp.watches : BinaryOp → Bool
  | or => true
  | _ => false

namespace Expr

/-! ## Expressions -/

def isParen : Expr → Bool
  | paren _ => true
  | _ => false

/-- Whether a watched operand is parenthesised; nothing of one that is not watched. -/
def mark (watched : Bool) (operand : Expr) : List Bool :=
  if watched then [operand.isParen] else []

mutual

/-- The expression without its parentheses. -/
def bare : Expr → Expr
  | ident x => ident x
  | lit v => lit v
  | paren e => e.bare
  | assign x e => assign x e.bare
  | unary op e => unary op e.bare
  | binary op l r => binary op l.bare r.bare
  | call f es => call f (bareAll es)
  | index a e => index a e.bare
  | indexAssign a e v => indexAssign a e.bare v.bare

def bareAll : List Expr → List Expr
  | [] => []
  | e :: es => e.bare :: bareAll es

end

mutual

/-- Which of the watched operands are parenthesised, in text order. -/
def marks : Expr → List Bool
  | ident _ => []
  | lit _ => []
  | paren e => e.marks
  | assign _ e => e.marks
  | unary op e => mark op.watches e ++ e.marks
  | binary op l r => mark op.watches l ++ l.marks ++ r.marks
  | call _ es => marksAll es
  | index _ e => e.marks
  | indexAssign _ e v => e.marks ++ v.marks

def marksAll : List Expr → List Bool
  | [] => []
  | e :: es => e.marks ++ marksAll es

end

def wrap (b : Bool) (e : Expr) : Expr := if b then paren e else e

mutual

/-- The expression with one pair of parentheses at every watched operand that has some,
and no others. -/
def tidy : Expr → Expr
  | ident x => ident x
  | lit v => lit v
  | paren e => e.tidy
  | assign x e => assign x e.tidy
  | unary op e => unary op (wrap (op.watches && e.isParen) e.tidy)
  | binary op l r => binary op (wrap (op.watches && l.isParen) l.tidy) r.tidy
  | call f es => call f (tidyAll es)
  | index a e => index a e.tidy
  | indexAssign a e v => indexAssign a e.tidy v.tidy

def tidyAll : List Expr → List Expr
  | [] => []
  | e :: es => e.tidy :: tidyAll es

end

/-- The next mark, if the operand is watched, and the marks after it. -/
def next : Bool → List Bool → Bool × List Bool
  | true, b :: marks => (b, marks)
  | _, marks => (false, marks)

mutual

/-- Puts parentheses where the marks say, and returns the marks that are left. -/
def restore : Expr → List Bool → Expr × List Bool
  | ident x, marks => (ident x, marks)
  | lit v, marks => (lit v, marks)
  | paren e, marks => e.restore marks
  | assign x e, marks =>
    let (e, marks) := e.restore marks
    (assign x e, marks)
  | unary op e, marks =>
    let (b, marks) := next op.watches marks
    let (e, marks) := e.restore marks
    (unary op (wrap b e), marks)
  | binary op l r, marks =>
    let (b, marks) := next op.watches marks
    let (l, marks) := l.restore marks
    let (r, marks) := r.restore marks
    (binary op (wrap b l) r, marks)
  | call f es, marks =>
    let (es, marks) := restoreAll es marks
    (call f es, marks)
  | index a e, marks =>
    let (e, marks) := e.restore marks
    (index a e, marks)
  | indexAssign a e v, marks =>
    let (e, marks) := e.restore marks
    let (v, marks) := v.restore marks
    (indexAssign a e v, marks)

def restoreAll : List Expr → List Bool → List Expr × List Bool
  | [], marks => ([], marks)
  | e :: es, marks =>
    let (e, marks) := e.restore marks
    let (es, marks) := restoreAll es marks
    (e :: es, marks)

end

theorem next_mark (watched : Bool) (e : Expr) (rest : List Bool) :
    next watched (mark watched e ++ rest) = (watched && e.isParen, rest) := by
  cases watched <;> rfl

mutual

theorem restore_bare : ∀ (e : Expr) (rest : List Bool),
    e.bare.restore (e.marks ++ rest) = (e.tidy, rest)
  | ident _, _ => rfl
  | lit _, _ => rfl
  | paren e, rest => by
      rw [bare, marks, tidy]
      exact restore_bare e rest
  | assign x e, rest => by
      rw [bare, marks, tidy, restore, restore_bare e]
  | unary op e, rest => by
      rw [bare, marks, tidy, restore, List.append_assoc, next_mark]
      simp only [restore_bare e]
  | binary op l r, rest => by
      rw [bare, marks, tidy, restore, List.append_assoc, List.append_assoc, next_mark]
      simp only [restore_bare l, restore_bare r]
  | call f es, rest => by
      rw [bare, marks, tidy, restore, restoreAll_bareAll es]
  | index a e, rest => by
      rw [bare, marks, tidy, restore, restore_bare e]
  | indexAssign a e v, rest => by
      rw [bare, marks, tidy, restore, List.append_assoc, restore_bare e]
      simp only [restore_bare v]

theorem restoreAll_bareAll : ∀ (es : List Expr) (rest : List Bool),
    restoreAll (bareAll es) (marksAll es ++ rest) = (tidyAll es, rest)
  | [], _ => rfl
  | e :: es, rest => by
      rw [bareAll, marksAll, tidyAll, restoreAll, List.append_assoc, restore_bare e]
      simp only [restoreAll_bareAll es]

end

theorem tidy_eq_of_bare_eq {e e' : Expr} (hbare : e.bare = e'.bare) (hmarks : e.marks = e'.marks) :
    e.tidy = e'.tidy := by
  have h := restore_bare e []
  rw [hbare, hmarks, restore_bare e'] at h
  exact (Prod.mk.inj h).1.symm

/-! ### Lowering sees as much -/

theorem lower_wrap (Γ : Names) (b : Bool) (e : Expr) : (wrap b e).lower Γ = e.lower Γ := by
  cases b with
  | true =>
      change (paren e).lower Γ = _
      rw [lower]
  | false => rfl

/-- What lowering looks for at a watched operand. -/
theorem ident?_wrap_tidy (e : Expr) : (wrap e.isParen e.tidy).ident? = e.ident? := by
  cases e <;> rfl

theorem isLeaf_wrap_tidy (e : Expr) : (wrap e.isParen e.tidy).isLeaf = e.isLeaf := by
  cases e <;> rfl

theorem length_tidyAll (es : List Expr) : (tidyAll es).length = es.length := by
  induction es with
  | nil => rfl
  | cons e es ih => rw [tidyAll, List.length_cons, List.length_cons, ih]

theorem unary_wrap_tidy (Γ : Names) (op : UnaryOp) (e : Expr) :
    EmitM.unary Γ op (wrap (op.watches && e.isParen) e.tidy) = EmitM.unary Γ op e := by
  have hback : EmitM.writeBack Γ (wrap e.isParen e.tidy) = EmitM.writeBack Γ e := by
    rw [EmitM.writeBack, EmitM.writeBack, ident?_wrap_tidy]
  have hstep (op : ArithOp) :
      EmitM.step Γ op (wrap e.isParen e.tidy) = EmitM.step Γ op e := by
    rw [EmitM.step, EmitM.step, hback]
  cases op with
  | neg => rfl
  | not => rfl
  | increment => exact hstep .add
  | decrement => exact hstep .sub

mutual

theorem lower_tidy (Γ : Names) : ∀ e : Expr, e.tidy.lower Γ = e.lower Γ
  | ident _ => rfl
  | lit _ => rfl
  | paren e => by
      rw [tidy, lower]
      exact lower_tidy Γ e
  | assign x e => by
      rw [tidy, lower, lower, lower_tidy Γ e]
  | unary op e => by
      rw [tidy, lower, lower, lower_wrap, lower_tidy Γ e, unary_wrap_tidy]
  | binary op l r => by
      cases op with
      | arith op => rw [tidy, lower, lower, lower_wrap, lower_tidy Γ l, lower_tidy Γ r]
      | compare c => rw [tidy, lower, lower, lower_wrap, lower_tidy Γ l, lower_tidy Γ r]
      | and => rw [tidy, lower, lower, lower_wrap, lower_tidy Γ l, lower_tidy Γ r]
      | or =>
          rw [tidy, lower, lower, lower_wrap, lower_tidy Γ l, lower_tidy Γ r]
          have hleaf : (wrap (BinaryOp.or.watches && l.isParen) l.tidy).isLeaf = l.isLeaf :=
            isLeaf_wrap_tidy l
          rw [hleaf]
  | call f es => by
      rw [tidy, lower, lower, length_tidyAll, lowerAll_tidyAll Γ es]
  | index _ _ => by
      rw [tidy, lower, lower]
  | indexAssign _ _ _ => by
      rw [tidy, lower, lower]

theorem lowerAll_tidyAll (Γ : Names) : ∀ es : List Expr, lowerAll Γ (tidyAll es) = lowerAll Γ es
  | [] => rfl
  | e :: es => by
      rw [tidyAll, lowerAll, lowerAll, lower_tidy Γ e, lowerAll_tidyAll Γ es]

end

theorem lowerHere_tidy (e : Expr) : e.tidy.lowerHere = e.lowerHere :=
  bind_congr fun Γ => congrArg LowerM.emit (lower_tidy Γ e)

end Expr

/-! ## Statements -/

namespace Stmt

mutual

/-- The statement without the parentheses of its expressions. -/
def bare : Stmt → Stmt
  | expr e => expr e.bare
  | block ds ss => block ds (bareAll ss)
  | ifThen e s => ifThen e.bare s.bare
  | ifElse e s s' => ifElse e.bare s.bare s'.bare
  | loop e s => loop e.bare s.bare
  | ret e? => ret (e?.map Expr.bare)

def bareAll : List Stmt → List Stmt
  | [] => []
  | s :: ss => s.bare :: bareAll ss

end

mutual

/-- Which of the watched operands are parenthesised, in text order. -/
def marks : Stmt → List Bool
  | expr e => e.marks
  | block _ ss => marksAll ss
  | ifThen e s => e.marks ++ s.marks
  | ifElse e s s' => e.marks ++ s.marks ++ s'.marks
  | loop e s => e.marks ++ s.marks
  | ret e? => e?.toList.flatMap Expr.marks

def marksAll : List Stmt → List Bool
  | [] => []
  | s :: ss => s.marks ++ marksAll ss

end

mutual

/-- The statement with tidy expressions. -/
def tidy : Stmt → Stmt
  | expr e => expr e.tidy
  | block ds ss => block ds (tidyAll ss)
  | ifThen e s => ifThen e.tidy s.tidy
  | ifElse e s s' => ifElse e.tidy s.tidy s'.tidy
  | loop e s => loop e.tidy s.tidy
  | ret e? => ret (e?.map Expr.tidy)

def tidyAll : List Stmt → List Stmt
  | [] => []
  | s :: ss => s.tidy :: tidyAll ss

end

mutual

def restore : Stmt → List Bool → Stmt × List Bool
  | expr e, marks =>
    let (e, marks) := e.restore marks
    (expr e, marks)
  | block ds ss, marks =>
    let (ss, marks) := restoreAll ss marks
    (block ds ss, marks)
  | ifThen e s, marks =>
    let (e, marks) := e.restore marks
    let (s, marks) := s.restore marks
    (ifThen e s, marks)
  | ifElse e s s', marks =>
    let (e, marks) := e.restore marks
    let (s, marks) := s.restore marks
    let (s', marks) := s'.restore marks
    (ifElse e s s', marks)
  | loop e s, marks =>
    let (e, marks) := e.restore marks
    let (s, marks) := s.restore marks
    (loop e s, marks)
  | ret none, marks => (ret none, marks)
  | ret (some e), marks =>
    let (e, marks) := e.restore marks
    (ret (some e), marks)

def restoreAll : List Stmt → List Bool → List Stmt × List Bool
  | [], marks => ([], marks)
  | s :: ss, marks =>
    let (s, marks) := s.restore marks
    let (ss, marks) := restoreAll ss marks
    (s :: ss, marks)

end

mutual

theorem restore_bare : ∀ (s : Stmt) (rest : List Bool),
    s.bare.restore (s.marks ++ rest) = (s.tidy, rest)
  | expr e, rest => by
      rw [bare, marks, tidy, restore, e.restore_bare]
  | block ds ss, rest => by
      rw [bare, marks, tidy, restore, restoreAll_bareAll ss]
  | ifThen e s, rest => by
      rw [bare, marks, tidy, restore, List.append_assoc, e.restore_bare]
      simp only [restore_bare s]
  | ifElse e s s', rest => by
      rw [bare, marks, tidy, restore, List.append_assoc, List.append_assoc, e.restore_bare]
      simp only [restore_bare s, restore_bare s']
  | loop e s, rest => by
      rw [bare, marks, tidy, restore, List.append_assoc, e.restore_bare]
      simp only [restore_bare s]
  | ret none, _ => rfl
  | ret (some e), rest => by
      rw [bare, marks, tidy, Option.toList_some, List.flatMap_singleton, Option.map_some,
        Option.map_some, restore, e.restore_bare]

theorem restoreAll_bareAll : ∀ (ss : List Stmt) (rest : List Bool),
    restoreAll (bareAll ss) (marksAll ss ++ rest) = (tidyAll ss, rest)
  | [], _ => rfl
  | s :: ss, rest => by
      rw [bareAll, marksAll, tidyAll, restoreAll, List.append_assoc, restore_bare s]
      simp only [restoreAll_bareAll ss]

end

theorem tidy_eq_of_bare_eq {s s' : Stmt} (hbare : s.bare = s'.bare) (hmarks : s.marks = s'.marks) :
    s.tidy = s'.tidy := by
  have h := restore_bare s []
  rw [hbare, hmarks, restore_bare s'] at h
  exact (Prod.mk.inj h).1.symm

mutual

theorem lower_tidy : ∀ s : Stmt, s.tidy.lower = s.lower
  | expr e => by
      rw [tidy, lower, lower, e.lowerHere_tidy]
  | block ds ss => by
      rw [tidy, lower, lower, lowerAll_tidyAll ss]
  | ifThen e s => by
      rw [tidy, lower, lower, e.lowerHere_tidy, lower_tidy s]
  | ifElse e s s' => by
      rw [tidy, lower, lower, e.lowerHere_tidy, lower_tidy s, lower_tidy s']
  | loop e s => by
      rw [tidy, lower, lower, e.lowerHere_tidy, lower_tidy s]
  | ret none => rfl
  | ret (some e) => by
      rw [tidy, Option.map_some, lower, lower, lowerReturn, lowerReturn, e.lowerHere_tidy]

theorem lowerAll_tidyAll : ∀ ss : List Stmt, lowerAll (tidyAll ss) = lowerAll ss
  | [] => rfl
  | s :: ss => by
      rw [tidyAll, lowerAll, lowerAll, lower_tidy s, lowerAll_tidyAll ss]

end

end Stmt

/-- Texts that are the same without parentheses, and of which the same watched operands are
parenthesised, are lowered alike: to the same code or with the same error, and to the same
context. -/
theorem lowering_ignores_parens :
    (∀ e e' : Expr, e.bare = e'.bare → e.marks = e'.marks →
      ∀ c : Context, e.lowerHere.on c = e'.lowerHere.on c)
    ∧ ∀ s s' : Stmt, s.bare = s'.bare → s.marks = s'.marks →
      ∀ c : Context, s.lower.on c = s'.lower.on c := by
  refine ⟨fun e e' hbare hmarks c => ?_, fun s s' hbare hmarks c => ?_⟩
  · rw [← e.lowerHere_tidy, ← e'.lowerHere_tidy, Expr.tidy_eq_of_bare_eq hbare hmarks]
  · rw [← s.lower_tidy, ← s'.lower_tidy, Stmt.tidy_eq_of_bare_eq hbare hmarks]

/-- `(x) or (++y)`. -/
def Expr.parenthesised : Expr :=
  .binary .or (.paren (.ident "x")) (.paren (.unary .increment (.ident "y")))

/-- `(((x)) or ++y)`: more parentheses, and fewer. -/
def Expr.reparenthesised : Expr :=
  .paren (.binary .or (.paren (.paren (.ident "x"))) (.unary .increment (.ident "y")))

theorem reparenthesised_lowers_alike : ∃ c : Context,
    (Expr.parenthesised.lowerHere.on c).1.isOk = true
    ∧ Expr.parenthesised.lowerHere.on c = Expr.reparenthesised.lowerHere.on c
    ∧ (Stmt.ret (some .parenthesised)).lower.on c =
      (Stmt.ret (some .reparenthesised)).lower.on c := by
  refine ⟨((VarDecl.lowerAll [⟨"x", .plain⟩, ⟨"y", .plain⟩]).on (.start {})).2, ?_, ?_, ?_⟩
  · decide +kernel
  · exact lowering_ignores_parens.1 _ _ rfl rfl _
  · exact lowering_ignores_parens.2 _ _ rfl rfl _

/-- A pair of parentheses around the operand of `++` is seen. -/
example : (Expr.unary .increment (.paren (.ident "x"))).marks ≠
    (Expr.unary .increment (.ident "x")).marks := by
  decide

end JasminGen
