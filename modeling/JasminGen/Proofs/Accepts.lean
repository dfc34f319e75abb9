import JasminGen.Proofs.Admissible
import JasminGen.Proofs.Runs

/-!
# What is accepted

Errors are raised in many places: where a declaration meets a name that is taken,
where a name, a target or a callee is looked up, and where an element of an array
occurs. `generate_ok_iff_admissible` says that they come down to one judgement on the
text, `Program.Admissible`: a class is generated for every program that meets it, and
for no other.

No run is taken apart for this. `Attempt.succeeds_bind_iff` turns the success of a
sequence into the success of its parts; judgements on texts are put together in the
same way, because lowering grows a scope by what the text declares and by nothing
else (`Lowers.grows`). Only success is looked at: which error is raised, if several
could be, does not matter here.
-/

namespace JasminGen

/-! ## Attempts that succeed -/

namespace Attempt

variable {σ ε α β : Type}

def Succeeds (x : Attempt σ ε α) (s : σ) : Prop := ∃ a t, x.on s = (.ok a, t)

theorem succeeds_liftM_iff {r : Except ε α} {s : σ} :
    (liftM r : Attempt σ ε α).Succeeds s ↔ ∃ a, r = .ok a := by
  constructor
  · rintro ⟨a, t, h⟩
    rw [on_liftM] at h
    exact ⟨a, (Prod.mk.inj h).1⟩
  · rintro ⟨a, rfl⟩
    exact ⟨a, s, on_liftM ..⟩

theorem succeeds_bind_of_eq {x : Attempt σ ε α} {f : α → Attempt σ ε β} {s t : σ} {a : α}
    (h : x.on s = (.ok a, t)) : (x >>= f).Succeeds s ↔ (f a).Succeeds t := by
  rw [Succeeds, on_bind, h]
  rfl

/-- A sequence succeeds if its first part does and its second part does from
whatever the first has left. -/
theorem succeeds_bind_iff {x : Attempt σ ε α} {f : α → Attempt σ ε β} {s : σ} {P Q : Prop}
    (hx : x.Succeeds s ↔ P) (hf : ∀ a t, x.on s = (.ok a, t) → ((f a).Succeeds t ↔ Q)) :
    (x >>= f).Succeeds s ↔ P ∧ Q := by
  constructor
  · rintro ⟨b, u, h⟩
    obtain ⟨a, t, ha, hb⟩ := on_bind_eq_ok.mp h
    exact ⟨hx.mp ⟨a, t, ha⟩, (hf a t ha).mp ⟨b, u, hb⟩⟩
  · rintro ⟨hp, hq⟩
    obtain ⟨a, t, ha⟩ := hx.mpr hp
    obtain ⟨b, u, hb⟩ := (hf a t ha).mpr hq
    exact ⟨b, u, on_bind_eq_ok.mpr ⟨a, t, ha, hb⟩⟩

/-- What cannot fail may follow. -/
theorem succeeds_bind_of_total {x : Attempt σ ε α} {f : α → Attempt σ ε β} {s : σ} {P : Prop}
    (hx : x.Succeeds s ↔ P) (hf : ∀ a t, (f a).Succeeds t) : (x >>= f).Succeeds s ↔ P := by
  rw [succeeds_bind_iff (Q := True) hx fun a t _ => iff_true_intro (hf a t), and_true]

/-- Two parts, whose outcomes are put together by what cannot fail. -/
theorem succeeds_pair_iff {γ : Type} {x : Attempt σ ε α} {y : Attempt σ ε β}
    {f : α → β → Attempt σ ε γ} {s : σ} {P Q : Prop} (hx : x.Succeeds s ↔ P)
    (hy : ∀ a t, x.on s = (.ok a, t) → (y.Succeeds t ↔ Q)) (hf : ∀ a b t, (f a b).Succeeds t) :
    (do let a ← x; let b ← y; f a b).Succeeds s ↔ P ∧ Q :=
  succeeds_bind_iff hx fun a t ha => succeeds_bind_of_total (hy a t ha) (hf a)

end Attempt

/-! ## Looking names up -/

namespace Names

theorem resolve_iff_type? {Γ : Names} {x : String} {t : DataType} :
    ((∃ s, Γ.resolve x = .ok (.slot s t)) ∨ Γ.resolve x = .ok (.field t)) ↔
      Γ.scope.type? x = some t := by
  constructor
  · rintro (⟨s, hs⟩ | hf)
    · exact (scope_of_slot hs).2
    · exact (scope_of_field hf).2
  · intro h
    rw [Scope.type?, scope_local?, scope_global?, Registry.find?] at h
    rw [resolve]
    cases hframe : Γ.frame.locate? x with
    | some r =>
        rw [hframe] at h
        exact Or.inl ⟨r.2, by simpa using h⟩
    | none =>
        rw [hframe] at h
        cases hfield : Γ.fields.find? x with
        | none => rw [hfield] at h; cases h
        | some v =>
            rw [hfield] at h
            exact Or.inr (by simpa using h)

theorem exists_load?_iff {Γ : Names} {x : String} :
    (∃ i?, Γ.load? x = .ok i?) ↔ (Γ.scope.type? x).isSome = true := by
  constructor
  · rintro ⟨i?, h⟩
    cases i? with
    | none => rw [type?_of_load_none h]; rfl
    | some i => rw [type?_of_load h]; rfl
  · intro h
    obtain ⟨t, ht⟩ := Option.isSome_iff_exists.mp h
    rw [load?]
    rcases resolve_iff_type?.mpr ht with ⟨s, hs⟩ | hf
    · rw [hs]
      cases t <;> exact ⟨_, rfl⟩
    · rw [hf]
      cases t <;> exact ⟨_, rfl⟩

theorem exists_store_iff {Γ : Names} {x : String} :
    (∃ i, Γ.store x = .ok i) ↔ Γ.scope.type? x = some .int := by
  constructor
  · rintro ⟨i, h⟩
    rcases store_eq_ok h with ⟨s, hs, -⟩ | ⟨hf, -⟩
    · exact (scope_of_slot hs).2
    · exact (scope_of_field hf).2
  · intro h
    rw [store]
    rcases resolve_iff_type?.mpr h with ⟨s, hs⟩ | hf
    · rw [hs]
      exact ⟨_, rfl⟩
    · rw [hf]
      exact ⟨_, rfl⟩

/-- Whether a call can be resolved under these names. -/
def Takes (Γ : Names) (f : String) (n : Nat) : Prop := ∃ t, Γ.calleeFor f n = .ok t

theorem takes_iff {Γ : Names} {f : String} {n : Nat} :
    Γ.Takes f n ↔ if f = Γ.config.printBuiltin then n = 1
      else ∃ s, Γ.functions.find? f = some s ∧ n = s.arity := by
  constructor
  · rintro ⟨t, h⟩
    rcases calleeFor_eq_ok h with ⟨hf, hn, -⟩ | ⟨hf, s, hs, hn, -⟩
    · rwa [if_pos hf]
    · rw [if_neg hf]
      exact ⟨s, hs, hn.symm⟩
  · intro h
    rw [Takes, calleeFor, callee]
    split at h
    · rename_i hf
      subst h
      rw [if_pos hf]
      exact ⟨printRoutine, rfl⟩
    · rename_i hf
      obtain ⟨s, hs, rfl⟩ := h
      rw [if_neg hf, signature, hs]
      exact ⟨Γ.method s, if_pos rfl⟩

end Names

/-! ## Expressions -/

namespace EmitM

theorem succeeds_store_iff {Γ : Names} {x : String} {k : Counters} :
    (store Γ x).Succeeds k ↔ Γ.scope.type? x = some .int :=
  Attempt.succeeds_bind_of_total (Attempt.succeeds_liftM_iff.trans Names.exists_store_iff)
    fun _ _ => ⟨_, _, rfl⟩

theorem succeeds_step_iff {Γ : Names} {op : ArithOp} {e : Expr} {k : Counters} :
    (step Γ op e).Succeeds k ↔ ∀ x ∈ e.ident?, Γ.scope.type? x = some .int := by
  refine (Attempt.succeeds_bind_of_eq (on_push k)).trans
    ((Attempt.succeeds_bind_of_eq (on_pop _)).trans ?_)
  refine Attempt.succeeds_bind_of_total ?_ fun _ _ => ⟨_, _, rfl⟩
  rw [writeBack]
  cases e.ident? with
  | none => exact iff_of_true ⟨_, _, rfl⟩ (by simp)
  | some x =>
      refine (Attempt.succeeds_bind_of_eq (on_push _)).trans ?_
      refine Attempt.succeeds_bind_of_total ?_ fun _ _ => ⟨_, _, rfl⟩
      simpa using succeeds_store_iff

theorem succeeds_unary_iff {Γ : Names} {op : UnaryOp} {e : Expr} {k : Counters} :
    (unary Γ op e).Succeeds k ↔ ∀ x ∈ (Expr.unary op e).target?, Γ.scope.type? x = some .int := by
  cases op with
  | neg => exact iff_of_true ⟨_, _, rfl⟩ (by simp [Expr.target?])
  | not => exact iff_of_true ⟨_, _, rfl⟩ (by simp [Expr.target?])
  | increment => exact succeeds_step_iff
  | decrement => exact succeeds_step_iff

end EmitM

namespace Site

variable {takes : String → Nat → Prop} {S : Scope}

@[simp] theorem admitted_ident {x : String} :
    Admitted takes ⟨S, .ident x⟩ ↔ (S.type? x).isSome = true := by
  simp [admitted_iff, Expr.named?, Expr.target?, Expr.isElement, Expr.call?]

@[simp] theorem admitted_lit {v : Int32} : Admitted takes ⟨S, .lit v⟩ := by
  simp [admitted_iff, Expr.named?, Expr.target?, Expr.isElement, Expr.call?]

@[simp] theorem admitted_paren {e : Expr} : Admitted takes ⟨S, .paren e⟩ := by
  simp [admitted_iff, Expr.named?, Expr.target?, Expr.isElement, Expr.call?]

@[simp] theorem admitted_assign {x : String} {e : Expr} :
    Admitted takes ⟨S, .assign x e⟩ ↔ S.type? x = some .int := by
  simp +contextual [admitted_iff, Expr.named?, Expr.target?, Expr.isElement, Expr.call?]

@[simp] theorem admitted_unary {op : UnaryOp} {e : Expr} :
    Admitted takes ⟨S, .unary op e⟩ ↔
      ∀ x ∈ (Expr.unary op e).target?, S.type? x = some .int := by
  simp [admitted_iff, Expr.named?, Expr.isElement, Expr.call?]

@[simp] theorem admitted_binary {op : BinaryOp} {l r : Expr} :
    Admitted takes ⟨S, .binary op l r⟩ := by
  simp [admitted_iff, Expr.named?, Expr.target?, Expr.isElement, Expr.call?]

@[simp] theorem admitted_call {f : String} {es : List Expr} :
    Admitted takes ⟨S, .call f es⟩ ↔ takes f es.length := by
  simp [admitted_iff, Expr.named?, Expr.target?, Expr.isElement, Expr.call?]

@[simp] theorem not_admitted_index {a : String} {e : Expr} :
    ¬Admitted takes ⟨S, .index a e⟩ := by
  simp [admitted_iff, Expr.isElement]

@[simp] theorem not_admitted_indexAssign {a : String} {e v : Expr} :
    ¬Admitted takes ⟨S, .indexAssign a e v⟩ := by
  simp [admitted_iff, Expr.isElement]

end Site

mutual

/-- Lowering an expression succeeds, whatever the counters show, if the expression
and all its parts are admitted. -/
theorem Expr.succeeds_lower_iff {Γ : Names} : ∀ (e : Expr) (k : Counters),
    (e.lower Γ).Succeeds k ↔ ∀ e' ∈ e.parts, Site.Admitted Γ.Takes ⟨Γ.scope, e'⟩
  | .ident x, k => by
      rw [Expr.lower, Expr.parts, List.forall_mem_singleton, Site.admitted_ident]
      refine Attempt.succeeds_bind_of_total
        (Attempt.succeeds_liftM_iff.trans Names.exists_load?_iff) ?_
      rintro (_ | i) t
      · exact ⟨_, _, rfl⟩
      · exact ⟨_, _, rfl⟩
  | .lit v, k => by
      rw [Expr.lower, Expr.parts, List.forall_mem_singleton]
      exact iff_of_true ⟨_, _, rfl⟩ Site.admitted_lit
  | .paren e, k => by
      rw [Expr.lower, Expr.parts, List.forall_mem_cons, Expr.succeeds_lower_iff e k]
      exact (and_iff_right Site.admitted_paren).symm
  | .assign x e, k => by
      rw [Expr.lower, Expr.parts, List.forall_mem_cons, Site.admitted_assign, and_comm]
      exact Attempt.succeeds_pair_iff (Expr.succeeds_lower_iff e k)
        (fun _ _ _ => EmitM.succeeds_store_iff) fun _ _ _ => ⟨_, _, rfl⟩
  | .unary op e, k => by
      rw [Expr.lower, Expr.parts, List.forall_mem_cons, Site.admitted_unary, and_comm]
      exact Attempt.succeeds_pair_iff (Expr.succeeds_lower_iff e k)
        (fun _ _ _ => EmitM.succeeds_unary_iff) fun _ _ _ => ⟨_, _, rfl⟩
  | .binary (.arith op) l r, k => by
      rw [Expr.lower, Expr.parts, List.forall_mem_cons, List.forall_mem_append]
      refine Iff.trans ?_ (and_iff_right Site.admitted_binary).symm
      exact Attempt.succeeds_pair_iff (Expr.succeeds_lower_iff l k)
        (fun _ _ _ => Expr.succeeds_lower_iff r _) fun _ _ _ => ⟨_, _, rfl⟩
  | .binary (.compare c) l r, k => by
      rw [Expr.lower, Expr.parts, List.forall_mem_cons, List.forall_mem_append]
      refine Iff.trans ?_ (and_iff_right Site.admitted_binary).symm
      exact Attempt.succeeds_pair_iff (Expr.succeeds_lower_iff l k)
        (fun _ _ _ => Expr.succeeds_lower_iff r _) fun _ _ _ => ⟨_, _, rfl⟩
  | .binary .and l r, k => by
      rw [Expr.lower, Expr.parts, List.forall_mem_cons, List.forall_mem_append]
      refine Iff.trans ?_ (and_iff_right Site.admitted_binary).symm
      exact Attempt.succeeds_pair_iff (Expr.succeeds_lower_iff l k)
        (fun _ _ _ => Expr.succeeds_lower_iff r _) fun _ _ _ => ⟨_, _, rfl⟩
  | .binary .or l r, k => by
      rw [Expr.lower, Expr.parts, List.forall_mem_cons, List.forall_mem_append]
      refine Iff.trans ?_ (and_iff_right Site.admitted_binary).symm
      refine Attempt.succeeds_bind_iff (Expr.succeeds_lower_iff l k) fun _ _ _ => ?_
      split
      · exact Attempt.succeeds_bind_of_total (Expr.succeeds_lower_iff r _) fun _ _ => ⟨_, _, rfl⟩
      · refine (Attempt.succeeds_bind_of_eq (EmitM.on_push _)).trans ?_
        exact Attempt.succeeds_bind_of_total (Expr.succeeds_lower_iff r _) fun _ _ => ⟨_, _, rfl⟩
  | .call f es, k => by
      rw [Expr.lower, Expr.parts, List.forall_mem_cons, Site.admitted_call]
      refine Attempt.succeeds_bind_iff Attempt.succeeds_liftM_iff fun c t _ => ?_
      refine (Attempt.succeeds_bind_of_eq (EmitM.on_push _)).trans ?_
      refine Attempt.succeeds_bind_of_total (Expr.succeeds_lowerAll_iff es _) fun _ _ => ?_
      cases c.returns <;> exact ⟨_, _, rfl⟩
  | .index a e, k => by
      rw [Expr.lower, Expr.parts, List.forall_mem_cons]
      exact iff_of_false (by rintro ⟨_, _, ⟨⟩⟩) fun h => Site.not_admitted_index h.1
  | .indexAssign a e v, k => by
      rw [Expr.lower, Expr.parts, List.forall_mem_cons]
      exact iff_of_false (by rintro ⟨_, _, ⟨⟩⟩) fun h => Site.not_admitted_indexAssign h.1

theorem Expr.succeeds_lowerAll_iff {Γ : Names} : ∀ (es : List Expr) (k : Counters),
    (Expr.lowerAll Γ es).Succeeds k ↔
      ∀ e' ∈ Expr.partsAll es, Site.Admitted Γ.Takes ⟨Γ.scope, e'⟩
  | [], k => by
      rw [Expr.lowerAll, Expr.partsAll]
      exact iff_of_true ⟨_, _, rfl⟩ (List.forall_mem_nil _)
  | e :: es, k => by
      rw [Expr.lowerAll, Expr.partsAll, List.forall_mem_append]
      exact Attempt.succeeds_pair_iff (Expr.succeeds_lower_iff e k)
        (fun _ _ _ => Expr.succeeds_lowerAll_iff es _) fun _ _ _ => ⟨_, _, rfl⟩

end

/-! ## Statements -/

theorem Names.distinct_scope (Γ : Names) : Γ.scope.Distinct := Γ.frame.nodup_entries

/-- The text can be lowered in this context. -/
def Context.Accepts (c : Context) (items : List Item) : Prop :=
  Item.Accepted c.toNames.Takes c.toNames.scope items

theorem Context.Grows.takes_eq {c c' : Context} {ds : List VarDecl} (h : c.Grows ds c') :
    c'.toNames.Takes = c.toNames.Takes := by
  funext f n
  rw [eq_iff_iff, Names.takes_iff, Names.takes_iff, h.config, h.functions]

/-- A context that has grown by the first part of a text accepts what can follow it. -/
theorem Context.Grows.accepts_append {c c' : Context} {a b : List Item}
    (h : c.Grows (Item.declared a) c') : c.Accepts (a ++ b) ↔ c.Accepts a ∧ c'.Accepts b := by
  rw [Context.Accepts, Context.Accepts, Context.Accepts, h.takes_eq, h.scope]
  exact Item.accepted_append

/-- A sequence of two steps succeeds on one text after the other. -/
theorem LowerM.succeeds_bind_iff {α β : Type} {x : LowerM α} {f : α → LowerM β} {c : Context}
    {a b : List Item} (hx : x.Succeeds c ↔ c.Accepts a)
    (hgrows : ∀ v t, x.on c = (.ok v, t) → c.Grows (Item.declared a) t)
    (hf : ∀ v t, (f v).Succeeds t ↔ t.Accepts b) :
    (x >>= f).Succeeds c ↔ c.Accepts (a ++ b) := by
  constructor
  · rintro ⟨w, u, h⟩
    obtain ⟨v, t, hv, hw⟩ := Attempt.on_bind_eq_ok.mp h
    exact (hgrows v t hv).accepts_append.mpr ⟨hx.mp ⟨v, t, hv⟩, (hf v t).mp ⟨w, u, hw⟩⟩
  · intro h
    have ha : c.Accepts a := (Item.accepted_append.mp h).1
    obtain ⟨v, t, hv⟩ := hx.mpr ha
    obtain ⟨w, u, hw⟩ := (hf v t).mpr ((hgrows v t hv).accepts_append.mp h).2
    exact ⟨w, u, Attempt.on_bind_eq_ok.mpr ⟨v, t, hv, hw⟩⟩

/-- Registering an entry succeeds if its name is not taken. -/
theorem Attempt.succeeds_insert_iff {σ ε α β : Type} {nameOf : α → String} {x : Attempt σ ε β}
    {s : σ} {r : Registry α nameOf} {a : α} {b : β} {e : ε} {after : Registry α nameOf → σ}
    (hsome : ∀ {r'}, r.insert? a = some r' → x.on s = (.ok b, after r'))
    (hnone : r.insert? a = none → x.on s = (.error e, s)) :
    x.Succeeds s ↔ ((r.entries ++ [a]).map nameOf).Nodup := by
  cases hinsert : r.insert? a with
  | some r' =>
      refine iff_of_true ⟨b, _, hsome hinsert⟩ ?_
      rw [← (Registry.insert?_eq_some_iff.mp hinsert).2]
      exact r'.nodup_entries
  | none =>
      refine iff_of_false ?_ fun hnodup => ?_
      · rintro ⟨_, _, h⟩
        rw [hnone hinsert] at h
        cases h
      · have hmem := Registry.insert?_eq_none_iff.mp hinsert
        rw [List.map_append, List.nodup_append] at hnodup
        exact hnodup.2.2 _ hmem (nameOf a) (by simp) rfl

namespace LowerM

theorem succeeds_declare_iff {v : Variable} {c : Context} :
    (declare v).Succeeds c ↔ ((c.frame.entries ++ [v]).map Variable.name).Nodup :=
  Attempt.succeeds_insert_iff on_declare_of_some on_declare_of_none

theorem succeeds_declareField_iff {v : Variable} {c : Context} :
    (declareField v).Succeeds c ↔ ((c.fields.entries ++ [v]).map Variable.name).Nodup :=
  Attempt.succeeds_insert_iff on_declareField_of_some on_declareField_of_none

theorem succeeds_declareFunction_iff {s : Signature} {c : Context} :
    (declareFunction s).Succeeds c ↔ ((c.functions.entries ++ [s]).map Signature.name).Nodup :=
  Attempt.succeeds_insert_iff on_declareFunction_of_some on_declareFunction_of_none

end LowerM

theorem VarDecl.succeeds_lower_iff {d : VarDecl} {c : Context} :
    d.lower.Succeeds c ↔ c.Accepts [.declaration d] := by
  refine Iff.trans ?_ Item.accepted_declaration.symm
  refine Attempt.succeeds_bind_of_total LowerM.succeeds_declare_iff fun slot t => ?_
  cases d.init? <;> exact ⟨_, _, rfl⟩

theorem VarDecl.succeeds_lowerAll_iff : ∀ (ds : List VarDecl) (c : Context),
    (VarDecl.lowerAll ds).Succeeds c ↔ c.Accepts (ds.map .declaration)
  | [], c => by
      rw [VarDecl.lowerAll]
      exact iff_of_true ⟨_, _, rfl⟩ (Item.accepted_nil.mpr c.toNames.distinct_scope)
  | d :: ds, c => by
      rw [VarDecl.lowerAll]
      refine LowerM.succeeds_bind_iff VarDecl.succeeds_lower_iff ?_ fun _ t => ?_
      · exact fun _ _ h => (VarDecl.declares_of_lower h).grows
      · exact Attempt.succeeds_bind_of_total (VarDecl.succeeds_lowerAll_iff ds t)
          fun _ _ => ⟨_, _, rfl⟩

theorem Expr.succeeds_lowerHere_iff {e : Expr} {c : Context} :
    e.lowerHere.Succeeds c ↔ c.Accepts [.expression e] := by
  rw [Context.Accepts, Item.accepted_expression, and_iff_right c.toNames.distinct_scope,
    ← Expr.succeeds_lower_iff e c.toCounters]
  refine (Attempt.succeeds_bind_of_eq (LowerM.on_names c)).trans ?_
  constructor
  · rintro ⟨code, t, h⟩
    exact ⟨code, _, Prod.ext (Prod.mk.inj h).1 rfl⟩
  · rintro ⟨code, k, h⟩
    exact ⟨code, { c with toCounters := k }, by rw [LowerM.on_emit, h]⟩

/-- An expression declares nothing. -/
theorem Expr.grows_of_lowerHere {e : Expr} {c t : Context} {code : Code}
    (h : e.lowerHere.on c = (.ok code, t)) : c.Grows [] t := by
  obtain ⟨k, hemits, rfl⟩ := Expr.emits_of_lowerHere h
  exact .withCounters c hemits.archived

theorem succeeds_lowerReturn_iff {value : Option Expr} {c : Context} :
    (lowerReturn value).Succeeds c ↔ c.Accepts (Stmt.ret value).items := by
  cases value with
  | none => exact iff_of_true ⟨_, _, rfl⟩ (Item.accepted_nil.mpr c.toNames.distinct_scope)
  | some e =>
      exact Attempt.succeeds_bind_of_total Expr.succeeds_lowerHere_iff fun _ _ => ⟨_, _, rfl⟩

mutual

/-- A statement is lowered exactly where its text is accepted. -/
theorem Stmt.succeeds_lower_iff : ∀ (s : Stmt) (c : Context),
    s.lower.Succeeds c ↔ c.Accepts s.items
  | .expr e, c => by
      rw [Stmt.lower, Stmt.items]
      refine (Attempt.succeeds_bind_of_eq (LowerM.on_depth c)).trans ?_
      exact Attempt.succeeds_bind_of_total Expr.succeeds_lowerHere_iff fun _ _ => ⟨_, _, rfl⟩
  | .block ds ss, c => by
      rw [Stmt.lower, Stmt.items]
      refine LowerM.succeeds_bind_iff (VarDecl.succeeds_lowerAll_iff ds c) ?_ fun _ t => ?_
      · intro _ _ h
        rw [Item.declared_map]
        exact (VarDecl.declaresAll_of_lowerAll h).grows
      · exact Attempt.succeeds_bind_of_total (Stmt.succeeds_lowerAll_iff ss t)
          fun _ _ => ⟨_, _, rfl⟩
  | .ifThen e s, c => by
      rw [Stmt.lower, Stmt.items]
      refine LowerM.succeeds_bind_iff (a := [.expression e]) Expr.succeeds_lowerHere_iff
        (fun _ _ => Expr.grows_of_lowerHere) fun _ t => ?_
      exact Attempt.succeeds_bind_of_total (Stmt.succeeds_lower_iff s t) fun _ _ => ⟨_, _, rfl⟩
  | .ifElse e s s', c => by
      rw [Stmt.lower, Stmt.items]
      refine LowerM.succeeds_bind_iff (a := [.expression e]) Expr.succeeds_lowerHere_iff
        (fun _ _ => Expr.grows_of_lowerHere) fun _ t => ?_
      refine LowerM.succeeds_bind_iff (Stmt.succeeds_lower_iff s t) ?_ fun _ u => ?_
      · intro _ _ h
        rw [Stmt.declared_items]
        exact (Stmt.lowers_of_lower h).grows
      · exact Attempt.succeeds_bind_of_total (Stmt.succeeds_lower_iff s' u) fun _ _ => ⟨_, _, rfl⟩
  | .loop e s, c => by
      rw [Stmt.lower, Stmt.items]
      refine LowerM.succeeds_bind_iff (a := [.expression e]) Expr.succeeds_lowerHere_iff
        (fun _ _ => Expr.grows_of_lowerHere) fun _ t => ?_
      exact Attempt.succeeds_bind_of_total (Stmt.succeeds_lower_iff s t) fun _ _ => ⟨_, _, rfl⟩
  | .ret value, c => by
      rw [Stmt.lower]
      exact succeeds_lowerReturn_iff

theorem Stmt.succeeds_lowerAll_iff : ∀ (ss : List Stmt) (c : Context),
    (Stmt.lowerAll ss).Succeeds c ↔ c.Accepts (Stmt.itemsAll ss)
  | [], c => by
      rw [Stmt.lowerAll, Stmt.itemsAll]
      exact iff_of_true ⟨_, _, rfl⟩ (Item.accepted_nil.mpr c.toNames.distinct_scope)
  | s :: ss, c => by
      rw [Stmt.lowerAll, Stmt.itemsAll]
      refine LowerM.succeeds_bind_iff (Stmt.succeeds_lower_iff s c) ?_ fun _ t => ?_
      · intro _ _ h
        rw [Stmt.declared_items]
        exact (Stmt.lowers_of_lower h).grows
      · exact Attempt.succeeds_bind_of_total (Stmt.succeeds_lowerAll_iff ss t)
          fun _ _ => ⟨_, _, rfl⟩

end

/-! ## Functions -/

theorem FunDecl.arity_signature (f : FunDecl) :
    f.signature.arity = if f.name = Signature.entryName then 1 else f.params.length := by
  unfold signature
  split
  · rfl
  · simp [Signature.arity, Signature.params]

/-- Calls are resolved as the program says. -/
theorem Context.Ready.takes_eq {config : Config} {p : Program} {c : Context}
    (h : c.Ready config p) : c.toNames.Takes = p.Takes config := by
  funext g n
  rw [eq_iff_iff, Names.takes_iff, Program.Takes, h.config]
  split
  · rfl
  · constructor
    · rintro ⟨s, hs, hn⟩
      obtain ⟨hmem, hname⟩ := Registry.find?_eq_some_iff.mp hs
      rw [h.functions] at hmem
      obtain ⟨f, hf, rfl⟩ := List.mem_map.mp hmem
      exact ⟨f, hf, f.name_signature ▸ hname, f.arity_signature ▸ hn⟩
    · rintro ⟨f, hf, rfl, hn⟩
      exact ⟨f.signature, h.signature hf, f.arity_signature ▸ hn⟩

theorem LowerM.succeeds_declareAll_iff : ∀ (vs : List Variable) (c : Context),
    (declareAll vs).Succeeds c ↔ ((c.frame.entries ++ vs).map Variable.name).Nodup
  | [], c => by
      rw [declareAll, List.append_nil]
      exact iff_of_true ⟨_, _, rfl⟩ c.frame.nodup_entries
  | v :: vs, c => by
      rw [declareAll, List.append_cons]
      refine (Attempt.succeeds_bind_iff
        (Q := ((c.frame.entries ++ [v] ++ vs).map Variable.name).Nodup)
        succeeds_declare_iff fun slot t h => ?_).trans (and_iff_right_of_imp fun h => ?_)
      · obtain ⟨frame, hinsert, -, rfl⟩ := on_declare_eq_ok h
        rw [succeeds_declareAll_iff vs, Context.frame_withFrame,
          (Registry.insert?_eq_some_iff.mp hinsert).2]
      · rw [List.map_append] at h
        exact (List.nodup_append.mp h).1

/-- A function of the program is compiled exactly if it is admissible, wherever it
stands among the others. -/
theorem FunDecl.succeeds_compile_iff {config : Config} {p : Program} {f : FunDecl} {c : Context}
    (hready : c.Ready config p) (hf : f ∈ p.functions) :
    f.compile.Succeeds c ↔ f.Admissible config p := by
  have hsignature : (liftM (c.toNames.signature f.name) : LowerM Signature).on c =
      (.ok f.signature, c) := by
    rw [Attempt.on_liftM, Names.signature, hready.signature hf]
  have hbody : ∀ t, (LowerM.declareAll (f.arguments f.signature)).on c.fresh = (.ok (), t) →
      ((f.lowerClosed f.signature).Succeeds t ↔
        Item.Accepted (p.Takes config) (p.scope config f) f.items) := by
    intro t ht
    obtain ⟨frame, hframe, rfl⟩ := LowerM.on_declareAll_eq_ok ht
    have hready' : (c.fresh.withFrame frame).Ready config p :=
      ⟨hready.config, hready.fields, hready.functions, hready.archived⟩
    rw [← hready'.takes_eq, ← hready.scope hframe]
    rw [lowerClosed_eq]
    exact Attempt.succeeds_bind_of_total (Stmt.succeeds_lower_iff (.block f.locals f.body) _)
      fun _ _ => ⟨_, _, rfl⟩
  rw [compile]
  refine (Attempt.succeeds_bind_of_eq (LowerM.on_names c)).trans
    ((Attempt.succeeds_bind_of_eq hsignature).trans ?_)
  refine (Attempt.succeeds_bind_of_eq (t := c.fresh) rfl).trans ?_
  refine (Attempt.succeeds_bind_iff (LowerM.succeeds_declareAll_iff _ _) fun _ t ht =>
    Attempt.succeeds_bind_of_total (hbody t ht) fun _ _ => ⟨_, _, rfl⟩).trans ?_
  -- distinct arguments are the least of what the text asks for
  rw [admissible_iff]
  exact and_iff_right_of_imp fun h => h.1.of_extend

theorem FunDecl.succeeds_mapM_iff {config : Config} {p : Program} :
    ∀ (fs : List FunDecl) (c : Context), c.Ready config p → (∀ f ∈ fs, f ∈ p.functions) →
      ((fs.mapM FunDecl.compile).Succeeds c ↔ ∀ f ∈ fs, f.Admissible config p)
  | [], c, _, _ => by
      rw [List.mapM_nil]
      exact iff_of_true ⟨_, _, rfl⟩ (List.forall_mem_nil _)
  | f :: fs, c, hready, hfs => by
      rw [List.forall_mem_cons] at hfs ⊢
      rw [List.mapM_cons]
      refine Attempt.succeeds_pair_iff (succeeds_compile_iff hready hfs.1) (fun m t ht => ?_)
        fun _ _ _ => ⟨_, _, rfl⟩
      exact succeeds_mapM_iff fs t ((compiles_of_compile ht).ready hready) hfs.2

/-! ## Programs -/

/-- Registering one name after the other succeeds if all of them are distinct. -/
theorem Attempt.succeeds_forM_iff {σ ε β : Type} {g : β → Attempt σ ε PUnit}
    {N : σ → List String} {nameOf : β → String} (hnodup : ∀ s, (N s).Nodup)
    (hstep : ∀ b s, (g b).Succeeds s ↔ (N s ++ [nameOf b]).Nodup)
    (hnames : ∀ b s t, (g b).on s = (.ok ⟨⟩, t) → N t = N s ++ [nameOf b]) :
    ∀ (l : List β) (s : σ), (l.forM g).Succeeds s ↔ (N s ++ l.map nameOf).Nodup
  | [], s => by
      rw [List.map_nil, List.append_nil]
      exact iff_of_true ⟨_, _, rfl⟩ (hnodup s)
  | b :: l, s => by
      rw [List.map_cons, List.append_cons]
      refine (Attempt.succeeds_bind_iff (Q := (N s ++ [nameOf b] ++ l.map nameOf).Nodup)
        (hstep b s) fun _ t ht => ?_).trans
        (and_iff_right_of_imp fun h => (List.nodup_append.mp h).1)
      rw [succeeds_forM_iff hnodup hstep hnames l t, hnames b s t ht]

theorem VarDecl.succeeds_forM_iff (ds : List VarDecl) (c : Context) :
    (ds.forM fun d => LowerM.declareField d.toVariable).Succeeds c ↔
      (c.fields.entries.map Variable.name ++ ds.map VarDecl.name).Nodup := by
  refine Attempt.succeeds_forM_iff (N := fun c => c.fields.entries.map Variable.name)
    (fun c => c.fields.nodup_entries) (fun d c => ?_) (fun d c t h => ?_) ds c
  · rw [LowerM.succeeds_declareField_iff, List.map_append]
    rfl
  · obtain ⟨fields, hfields, rfl⟩ := LowerM.on_declareField_eq_ok h
    rw [hfields, List.map_append]
    rfl

theorem FunDecl.succeeds_forM_iff (fs : List FunDecl) (c : Context) :
    (fs.forM fun f => LowerM.declareFunction f.signature).Succeeds c ↔
      (c.functions.entries.map Signature.name ++ fs.map FunDecl.name).Nodup := by
  refine Attempt.succeeds_forM_iff (N := fun c => c.functions.entries.map Signature.name)
    (fun c => c.functions.nodup_entries) (fun f c => ?_) (fun f c t h => ?_) fs c
  · rw [LowerM.succeeds_declareFunction_iff, List.map_append, List.map_singleton,
      f.name_signature]
  · obtain ⟨functions, hfunctions, rfl⟩ := LowerM.on_declareFunction_eq_ok h
    rw [hfunctions, List.map_append, List.map_singleton, f.name_signature]

theorem Program.succeeds_declare_iff {config : Config} {p : Program} :
    p.declare.Succeeds (.start config) ↔
      (p.globals.map VarDecl.name).Nodup ∧ (p.functions.map FunDecl.name).Nodup := by
  refine Attempt.succeeds_bind_iff (VarDecl.succeeds_forM_iff _ _) fun _ t h => ?_
  obtain ⟨fields, -, rfl⟩ := VarDecl.fields_of_forM h
  exact FunDecl.succeeds_forM_iff _ _

namespace StaticInit

theorem succeeds_lowerAll_iff {Γ : Names} : ∀ (inits : List (String × Int32)) (k : Counters),
    (lowerAll Γ inits).Succeeds k ↔ ∀ i ∈ inits, Γ.scope.type? i.1 = some .int
  | [], k => by
      rw [lowerAll]
      exact iff_of_true ⟨_, _, rfl⟩ (List.forall_mem_nil _)
  | (x, v) :: rest, k => by
      rw [lowerAll, List.forall_mem_cons]
      refine Attempt.succeeds_pair_iff ?_ (fun _ t _ => succeeds_lowerAll_iff rest t)
        fun _ _ _ => ⟨_, _, rfl⟩
      refine (Attempt.succeeds_bind_of_eq (EmitM.on_push k)).trans ?_
      exact Attempt.succeeds_bind_of_total EmitM.succeeds_store_iff fun _ _ => ⟨_, _, rfl⟩

/-- In the empty frame of the initialiser every name denotes the field itself. -/
theorem type?_of_initialised {c : Context} (h : c.fields.ScalarInits) :
    ∀ i ∈ initialised c.fields, c.fresh.toNames.scope.type? i.1 = some .int := by
  rintro ⟨x, v⟩ hi
  obtain ⟨w, hw, hinit⟩ := List.mem_filterMap.mp hi
  obtain ⟨v', hv, rfl, rfl⟩ : ∃ v', w.init? = some v' ∧ w.name = x ∧ v' = v := by
    simpa using hinit
  have hfind : c.fields.find? w.name = some w := Registry.find?_eq_some_iff.mpr ⟨hw, rfl⟩
  have hfield : c.fresh.toNames.resolve w.name = .ok (.field w.type) :=
    Names.resolve_of_field rfl hfind
  rw [h w hw (Option.isSome_of_eq_some hv)] at hfield
  exact (Names.scope_of_field hfield).2

theorem succeeds_compile {c : Context} (h : c.fields.ScalarInits) : compile.Succeeds c := by
  rw [compile]
  refine (Attempt.succeeds_bind_of_eq (LowerM.on_names c)).mpr ?_
  split
  · exact ⟨_, _, rfl⟩
  · refine (Attempt.succeeds_bind_of_eq (t := c.fresh) rfl).mpr ?_
    refine (Attempt.succeeds_bind_of_eq (LowerM.on_names c.fresh)).mpr ?_
    obtain ⟨stores, k, hstores⟩ :=
      (succeeds_lowerAll_iff _ c.fresh.toCounters).mpr (type?_of_initialised h)
    have hemit : (LowerM.emit (lowerAll c.fresh.toNames (initialised c.fields))).on c.fresh =
        (.ok stores, c.fresh.withCounters k) := by
      rw [LowerM.on_emit, hstores]
      rfl
    exact (Attempt.succeeds_bind_of_eq hemit).mpr ⟨_, _, rfl⟩

end StaticInit

theorem Program.succeeds_compile_iff {config : Config} {p : Program} :
    p.compile.Succeeds (.start config) ↔ p.Admissible config := by
  rw [compile]
  refine (Attempt.succeeds_bind_iff (Q := ∀ f ∈ p.functions, f.Admissible config p)
    succeeds_declare_iff fun _ c hc => ?_).trans ?_
  · have hready := (declared_of_declare hc).ready
    obtain ⟨init, c₁, hinit⟩ := StaticInit.succeeds_compile hready.scalarInits
    refine (Attempt.succeeds_bind_of_eq hinit).trans ?_
    refine Attempt.succeeds_bind_of_total ?_ fun _ _ => ⟨_, _, rfl⟩
    exact FunDecl.succeeds_mapM_iff _ _
      ((StaticInit.staticInitialises_of_compile hinit).ready hready) fun _ h => h
  · exact ⟨fun ⟨⟨hg, hf⟩, hb⟩ => ⟨hg, hf, hb⟩, fun h => ⟨⟨h.globals, h.functions⟩, h.bodies⟩⟩

/-- **Acceptance.** A class is generated exactly for the admissible programs. -/
theorem generate_ok_iff_admissible (config : Config) (p : Program) :
    (∃ cls, p.generate config = .ok cls) ↔ p.Admissible config := by
  rw [← Program.succeeds_compile_iff]
  constructor
  · rintro ⟨cls, h⟩
    exact ⟨cls, _, Prod.ext h rfl⟩
  · rintro ⟨cls, c, h⟩
    exact ⟨cls, congrArg Prod.fst h⟩

example : Program.euclid.Admissible {} := by decide +kernel

end JasminGen
