import JasminGen.Proofs.Scope

/-!
# Admissible programs

Whether a program can be lowered is a matter of its text alone. A function's text
is a list of declarations and expressions (`FunDecl.items`). `Item.sites` walks
through it once and notes every expression, with all its parts, together with what
has been declared before it. `Site.Admitted` says what is asked of one such
expression, apart from its parts, and `Program.Admissible` adds that names are
distinct.

The judgement on a text in two parts is the judgement on the first part and then, in
the scope that the first part leaves, on the second (`Item.accepted_append`).
-/

namespace JasminGen

/-! ## The text of a function -/

mutual

/-- The expression and all its parts. -/
def Expr.parts : Expr → List Expr
  | .ident x => [.ident x]
  | .lit v => [.lit v]
  | .paren e => .paren e :: e.parts
  | .assign x e => .assign x e :: e.parts
  | .unary op e => .unary op e :: e.parts
  | .binary op l r => .binary op l r :: (l.parts ++ r.parts)
  | .call f es => .call f es :: Expr.partsAll es
  | .index a e => .index a e :: e.parts
  | .indexAssign a e v => .indexAssign a e v :: (e.parts ++ v.parts)

def Expr.partsAll : List Expr → List Expr
  | [] => []
  | e :: es => e.parts ++ Expr.partsAll es

end

/-- A function's text consists of declarations and expressions. -/
inductive Item where
  | declaration (d : VarDecl)
  | expression (e : Expr)

mutual

/-- The declarations and expressions of a statement, in text order. -/
def Stmt.items : Stmt → List Item
  | .expr e => [.expression e]
  | .block ds ss => ds.map .declaration ++ Stmt.itemsAll ss
  | .ifThen c s => .expression c :: s.items
  | .ifElse c s s' => .expression c :: (s.items ++ s'.items)
  | .loop c s => .expression c :: s.items
  | .ret none => []
  | .ret (some e) => [.expression e]

def Stmt.itemsAll : List Stmt → List Item
  | [] => []
  | s :: ss => s.items ++ Stmt.itemsAll ss

end

namespace FunDecl

/-- The text of a function after its parameters. -/
def items (f : FunDecl) : List Item := f.locals.map .declaration ++ Stmt.itemsAll f.body

/-- The variables of a function in text order: the strings of the entry point, the
parameters, and what is declared in the body, at any depth. -/
def bindings (f : FunDecl) : List Variable :=
  (if f.name = Signature.entryName then [{ name := "args", type := .intArray }] else []) ++
    f.params.map Param.toVariable ++
    (f.locals ++ Stmt.declaredAll f.body).map VarDecl.toVariable

end FunDecl

/-- An expression, with what can be named where it stands. -/
structure Site where
  scope : Scope
  expr : Expr

namespace Item

def declared : List Item → List VarDecl
  | [] => []
  | .declaration d :: rest => d :: declared rest
  | .expression _ :: rest => declared rest

/-- Every expression of a text and all its parts, each with the declarations that
stand before it. -/
def sites (S : Scope) : List Item → List Site
  | [] => []
  | .declaration d :: rest => sites (S.extend [d]) rest
  | .expression e :: rest => e.parts.map (Site.mk S) ++ sites S rest

end Item

/-! ## What is asked of an expression -/

namespace Expr

/-- The variable that the expression itself names. -/
def named? : Expr → Option String
  | ident x => some x
  | assign x _ => some x
  | index a _ => some a
  | indexAssign a _ _ => some a
  | _ => none

/-- The variable that the expression itself stores into. -/
def target? : Expr → Option String
  | assign x _ => some x
  | unary .increment e => e.ident?
  | unary .decrement e => e.ident?
  | _ => none

/-- Whether the expression itself reads or writes an element of an array. -/
def isElement : Expr → Bool
  | index _ _ => true
  | indexAssign _ _ _ => true
  | _ => false

/-- The callee and the number of arguments, if the expression is a call. -/
def call? : Expr → Option (String × Nat)
  | call f es => some (f, es.length)
  | _ => none

end Expr

/-- What is asked of one expression, apart from its parts; `takes g n` says that a
call of `g` may have `n` arguments. -/
@[mk_iff]
structure Site.Admitted (takes : String → Nat → Prop) (u : Site) : Prop where
  /-- What is named has been declared before, or is a global. -/
  bound : ∀ x ∈ u.expr.named?, (u.scope.type? x).isSome = true
  /-- What is stored into is a scalar. -/
  scalar : ∀ x ∈ u.expr.target?, u.scope.type? x = some .int
  noElement : u.expr.isElement = false
  calls : ∀ c ∈ u.expr.call?, takes c.1 c.2

/-- Whether a call of `g` may have `n` arguments. The print routine hides a function
of its name, and the entry point takes one argument whatever its declaration says. -/
def Program.Takes (config : Config) (p : Program) (g : String) (n : Nat) : Prop :=
  if g = config.printBuiltin then n = 1
  else ∃ f ∈ p.functions, f.name = g
    ∧ n = if f.name = Signature.entryName then 1 else f.params.length

structure FunDecl.Admissible (config : Config) (p : Program) (f : FunDecl) : Prop where
  distinct : (f.bindings.map Variable.name).Nodup
  admitted : ∀ u ∈ Item.sites (p.scope config f) f.items, u.Admitted (p.Takes config)

structure Program.Admissible (config : Config) (p : Program) : Prop where
  globals : (p.globals.map VarDecl.name).Nodup
  functions : (p.functions.map FunDecl.name).Nodup
  bodies : ∀ f ∈ p.functions, f.Admissible config p

/-! The judgement can be computed. -/

instance (config : Config) (p : Program) (g : String) (n : Nat) :
    Decidable (p.Takes config g n) :=
  inferInstanceAs (Decidable (ite _ _ _))

instance (config : Config) (p : Program) (u : Site) : Decidable (u.Admitted (p.Takes config)) :=
  decidable_of_iff' _ (Site.admitted_iff _ _)

instance (config : Config) (p : Program) (f : FunDecl) : Decidable (f.Admissible config p) :=
  decidable_of_iff ((f.bindings.map Variable.name).Nodup ∧
      ∀ u ∈ Item.sites (p.scope config f) f.items, u.Admitted (p.Takes config))
    ⟨fun h => ⟨h.1, h.2⟩, fun h => ⟨h.distinct, h.admitted⟩⟩

instance (config : Config) (p : Program) : Decidable (p.Admissible config) :=
  decidable_of_iff ((p.globals.map VarDecl.name).Nodup ∧ (p.functions.map FunDecl.name).Nodup ∧
      ∀ f ∈ p.functions, f.Admissible config p)
    ⟨fun h => ⟨h.1, h.2.1, h.2.2⟩, fun h => ⟨h.globals, h.functions, h.bodies⟩⟩

/-! ## Texts in sequence -/

namespace Scope

def Distinct (S : Scope) : Prop := (S.locals.map Variable.name).Nodup

@[simp] theorem extend_nil (S : Scope) : S.extend [] = S := by
  simp [extend]

theorem extend_append (S : Scope) (ds es : List VarDecl) :
    S.extend (ds ++ es) = (S.extend ds).extend es := by
  simp [extend]

theorem Distinct.of_extend {S : Scope} {ds : List VarDecl} (h : (S.extend ds).Distinct) :
    S.Distinct := by
  rw [Distinct, extend, List.map_append] at h
  exact (List.nodup_append.mp h).1

end Scope

namespace Item

@[simp] theorem declared_append (a b : List Item) :
    declared (a ++ b) = declared a ++ declared b := by
  induction a with
  | nil => rfl
  | cons i a ih => cases i <;> simp [declared, ih]

@[simp] theorem declared_map (ds : List VarDecl) : declared (ds.map .declaration) = ds := by
  induction ds with
  | nil => rfl
  | cons d ds ih => simp [declared, ih]

theorem sites_append (S : Scope) (a b : List Item) :
    sites S (a ++ b) = sites S a ++ sites (S.extend (declared a)) b := by
  induction a generalizing S with
  | nil => simp [sites, declared]
  | cons i a ih =>
      cases i with
      | declaration d =>
          simp only [List.cons_append, sites, declared, ih]
          rw [← Scope.extend_append, List.singleton_append]
      | expression e => simp [sites, declared, ih]

/-- A text that lowers where `S` is the scope: it declares new and distinct names,
and every expression in it is admitted. -/
def Accepted (takes : String → Nat → Prop) (S : Scope) (items : List Item) : Prop :=
  (S.extend (declared items)).Distinct ∧ ∀ u ∈ sites S items, u.Admitted takes

variable {takes : String → Nat → Prop} {S : Scope}

theorem accepted_append {a b : List Item} :
    Accepted takes S (a ++ b) ↔
      Accepted takes S a ∧ Accepted takes (S.extend (declared a)) b := by
  rw [Accepted, declared_append, Scope.extend_append, sites_append, List.forall_mem_append]
  constructor
  · rintro ⟨hb, hsa, hsb⟩
    exact ⟨⟨hb.of_extend, hsa⟩, hb, hsb⟩
  · rintro ⟨⟨-, hsa⟩, hb, hsb⟩
    exact ⟨hb, hsa, hsb⟩

theorem accepted_nil : Accepted takes S [] ↔ S.Distinct := by
  simp [Accepted, declared, sites]

theorem accepted_expression {e : Expr} :
    Accepted takes S [.expression e] ↔
      S.Distinct ∧ ∀ e' ∈ e.parts, Site.Admitted takes ⟨S, e'⟩ := by
  simp [Accepted, declared, sites]

theorem accepted_declaration {d : VarDecl} :
    Accepted takes S [.declaration d] ↔ (S.extend [d]).Distinct := by
  simp [Accepted, declared, sites]

end Item

mutual

theorem Stmt.declared_items : ∀ s : Stmt, Item.declared s.items = s.declared
  | .expr e => rfl
  | .block ds ss => by
      rw [Stmt.items, Item.declared_append, Item.declared_map, Stmt.declared_itemsAll ss,
        Stmt.declared]
  | .ifThen c s => by
      rw [Stmt.items, Item.declared, Stmt.declared_items s, Stmt.declared]
  | .ifElse c s s' => by
      rw [Stmt.items, Item.declared, Item.declared_append, Stmt.declared_items s,
        Stmt.declared_items s', Stmt.declared]
  | .loop c s => by
      rw [Stmt.items, Item.declared, Stmt.declared_items s, Stmt.declared]
  | .ret none => rfl
  | .ret (some e) => rfl

theorem Stmt.declared_itemsAll : ∀ ss : List Stmt, Item.declared (itemsAll ss) = declaredAll ss
  | [] => rfl
  | s :: ss => by
      rw [Stmt.itemsAll, Item.declared_append, Stmt.declared_items s, Stmt.declared_itemsAll ss,
        Stmt.declaredAll]

end

theorem FunDecl.bindings_eq (f : FunDecl) :
    f.bindings = f.arguments f.signature ++
      (f.locals ++ Stmt.declaredAll f.body).map VarDecl.toVariable := by
  unfold bindings arguments signature
  split <;> simp [Signature.isEntryPoint]

theorem FunDecl.declared_items (f : FunDecl) :
    Item.declared f.items = f.locals ++ Stmt.declaredAll f.body := by
  rw [items, Item.declared_append, Item.declared_map, Stmt.declared_itemsAll]

/-- A function is admissible if its text is accepted after its parameters. -/
theorem FunDecl.admissible_iff {config : Config} {p : Program} {f : FunDecl} :
    f.Admissible config p ↔
      Item.Accepted (p.Takes config) (p.scope config f) f.items := by
  have hlocals : ((p.scope config f).extend (Item.declared f.items)).locals = f.bindings := by
    rw [f.declared_items, f.bindings_eq]
    rfl
  rw [Item.Accepted, Scope.Distinct, hlocals]
  exact ⟨fun h => ⟨h.distinct, h.admitted⟩, fun h => ⟨h.1, h.2⟩⟩

end JasminGen
