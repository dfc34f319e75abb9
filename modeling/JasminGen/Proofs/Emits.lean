import JasminGen.Lowering.Expr

/-!
# What lowering an expression emits

`Expr.lower` is a program: it advances counters and may fail half way. The
facts about emitted code need none of that. They are about the runs that
succeed, and for those `Emits Γ e k code k'` says everything: under the names
`Γ` and from the counters `k`, the expression `e` becomes `code` and leaves the
counters at `k'`. There is one rule for each shape of code that an expression
can have, and `Expr.emits_of_lower` is the only place where the lowering
function itself is taken apart. Every later fact about emitted code is an
induction over this relation.
-/

namespace JasminGen

namespace Counters

/-- The counters after the depth has moved by `d`. -/
def move (k : Counters) (d : Int) : Counters := { k with meter := k.meter.move d }

/-- The counters after `n` more labels. -/
def issue (k : Counters) (n : Nat) : Counters := { k with labels := k.labels + n }

@[simp] theorem labels_move (k : Counters) (d : Int) : (k.move d).labels = k.labels := rfl

@[simp] theorem meter_move (k : Counters) (d : Int) : (k.move d).meter = k.meter.move d := rfl

@[simp] theorem labels_issue (k : Counters) (n : Nat) : (k.issue n).labels = k.labels + n := rfl

@[simp] theorem meter_issue (k : Counters) (n : Nat) : (k.issue n).meter = k.meter := rfl

end Counters

/-- The instruction behind `++` and `--`. -/
def UnaryOp.step? : UnaryOp → Option ArithOp
  | neg => none
  | not => none
  | increment => some .add
  | decrement => some .sub

/-- How many values a call leaves. -/
def ReturnType.results : ReturnType → Nat
  | int => 1
  | void => 0

/-! ## What a name loads, stores and calls -/

namespace Names

theorem resolve_eq_slot_iff {Γ : Names} {x : String} {s : Nat} {t : DataType} :
    Γ.resolve x = .ok (.slot s t) ↔ ∃ v, Γ.frame.locate? x = some (v, s) ∧ v.type = t := by
  unfold resolve
  split
  · rename_i v i hv
    simp [hv, and_comm]
  · rename_i hnone
    split <;> simp [hnone]

theorem resolve_eq_field_iff {Γ : Names} {x : String} {t : DataType} :
    Γ.resolve x = .ok (.field t) ↔
      Γ.frame.locate? x = none ∧ ∃ v, Γ.fields.find? x = some v ∧ v.type = t := by
  unfold resolve
  split
  · rename_i v i hv
    simp [hv]
  · rename_i hnone
    split <;> simp_all

theorem load?_eq_some {Γ : Names} {x : String} {i : Instr} (h : Γ.load? x = .ok (some i)) :
    (∃ s, Γ.resolve x = .ok (.slot s .int) ∧ i = .iload s)
      ∨ (Γ.resolve x = .ok (.field .int)
        ∧ i = .getstatic (Γ.config.qualified x) DataType.int.descriptor) := by
  rw [load?] at h
  cases hplace : Γ.resolve x with
  | error e => rw [hplace] at h; cases h
  | ok place =>
      rw [hplace] at h
      rcases place with ⟨s, _ | _⟩ | ⟨_ | _⟩
      · cases h; exact Or.inl ⟨s, rfl, rfl⟩
      · cases h
      · cases h; exact Or.inr ⟨rfl, rfl⟩
      · cases h

theorem load?_eq_none {Γ : Names} {x : String} (h : Γ.load? x = .ok none) :
    (∃ s, Γ.resolve x = .ok (.slot s .intArray)) ∨ Γ.resolve x = .ok (.field .intArray) := by
  rw [load?] at h
  cases hplace : Γ.resolve x with
  | error e => rw [hplace] at h; cases h
  | ok place =>
      rw [hplace] at h
      rcases place with ⟨s, _ | _⟩ | ⟨_ | _⟩
      · cases h
      · exact Or.inl ⟨s, rfl⟩
      · cases h
      · exact Or.inr rfl

theorem store_eq_ok {Γ : Names} {x : String} {i : Instr} (h : Γ.store x = .ok i) :
    (∃ s, Γ.resolve x = .ok (.slot s .int) ∧ i = .istore s)
      ∨ (Γ.resolve x = .ok (.field .int)
        ∧ i = .putstatic (Γ.config.qualified x) DataType.int.descriptor) := by
  rw [store] at h
  cases hplace : Γ.resolve x with
  | error e => rw [hplace] at h; cases h
  | ok place =>
      rw [hplace] at h
      rcases place with ⟨s, _ | _⟩ | ⟨_ | _⟩
      · cases h; exact Or.inl ⟨s, rfl, rfl⟩
      · cases h
      · cases h; exact Or.inr ⟨rfl, rfl⟩
      · cases h

/-- A call runs the print routine, or the method of a declared function with as
many parameters as there are arguments. -/
theorem calleeFor_eq_ok {Γ : Names} {f : String} {n : Nat} {t : Callee}
    (h : Γ.calleeFor f n = .ok t) :
    (f = Γ.config.printBuiltin ∧ n = 1 ∧ t = printRoutine)
      ∨ (f ≠ Γ.config.printBuiltin ∧ ∃ s, Γ.functions.find? f = some s ∧ s.arity = n
        ∧ t = Γ.method s) := by
  rw [calleeFor, callee] at h
  split at h
  · rename_i hprint
    change (if printRoutine.arity = n then Except.ok printRoutine
      else .error (LowerError.argumentCount f printRoutine.arity n)) = .ok t at h
    split at h
    · rename_i hn
      cases h
      exact Or.inl ⟨hprint, hn.symm, rfl⟩
    · cases h
  · rename_i hprint
    rw [signature] at h
    split at h
    · rename_i s hs
      change (if s.arity = n then Except.ok (Γ.method s)
        else .error (LowerError.argumentCount f s.arity n)) = .ok t at h
      split at h
      · rename_i hn
        cases h
        exact Or.inr ⟨hprint, s, hs, hn, rfl⟩
      · cases h
    · cases h

end Names

mutual

/-- Under the names `Γ`, from the counters `k`, the expression becomes `code`
and leaves the counters `k'`. -/
inductive Emits (Γ : Names) : Expr → Counters → Code → Counters → Prop where
  | scalar {x i k} : Γ.load? x = .ok (some i) → Emits Γ (.ident x) k [.instr i] (k.move 1)
  | array {x k} : Γ.load? x = .ok none → Emits Γ (.ident x) k [] k
  | lit {v k} : Emits Γ (.lit v) k [.instr (.ldc v)] (k.move 1)
  | paren {e k code k'} : Emits Γ e k code k' → Emits Γ (.paren e) k code k'
  | assign {x e i k code k'} : Emits Γ e k code k' → Γ.store x = .ok i →
      Emits Γ (.assign x e) k (code ++ [.instr i]) (k'.move (-1))
  | neg {e k code k'} : Emits Γ e k code k' →
      Emits Γ (.unary .neg e) k (code ++ [.instr .ineg]) k'
  | not {e k code k'} : Emits Γ e k code k' →
      Emits Γ (.unary .not e) k
        (code ++ Code.negate k'.labels (k'.labels + 1) (k'.labels + 2)) (k'.issue 3)
  | stepName {u op x i k code k'} : u.step? = some op → Emits Γ (.ident x) k code k' →
      Γ.store x = .ok i →
      Emits Γ (.unary u (.ident x)) k
        (code ++ [.instr (.ldc 1), .instr (.arith op), .instr .dup, .instr i])
        ((((k'.move 1).move (-1)).move 1).move (-1))
  | step {u op e k code k'} : u.step? = some op → e.ident? = none → Emits Γ e k code k' →
      Emits Γ (.unary u e) k (code ++ [.instr (.ldc 1), .instr (.arith op)])
        ((k'.move 1).move (-1))
  | arith {op l r k left k₁ right k₂} : Emits Γ l k left k₁ → Emits Γ r k₁ right k₂ →
      Emits Γ (.binary (.arith op) l r) k (left ++ right ++ [.instr (.arith op)]) (k₂.move (-1))
  | compare {c l r k left k₁ right k₂} : Emits Γ l k left k₁ → Emits Γ r k₁ right k₂ →
      Emits Γ (.binary (.compare c) l r) k
        (left ++ right ++ Code.compare c k₂.labels (k₂.labels + 1)) ((k₂.move (-1)).issue 2)
  | and {l r k left k₁ right k₂} : Emits Γ l k left k₁ → Emits Γ r k₁ right k₂ →
      Emits Γ (.binary .and l r) k
        (left ++ right ++ .instr (.arith .mul) :: Code.truth k₂.labels (k₂.labels + 1))
        ((k₂.move (-1)).issue 2)
  | orReload {l r k left k₁ right k₂} : l.isLeaf = true →
      Emits Γ l k left k₁ → Emits Γ r k₁ right k₂ →
      Emits Γ (.binary .or l r) k
        (left ++ right ++ .instr (.arith .add) :: left ++
          .instr (.arith .add) :: Code.truth k₂.labels (k₂.labels + 1))
        ((k₂.move (-1)).issue 2)
  | orDup {l r k left k₁ right k₂} : l.isLeaf = false →
      Emits Γ l k left k₁ → Emits Γ r (k₁.move 1) right k₂ →
      Emits Γ (.binary .or l r) k
        (left ++ .instr .dup :: right ++
          .instr (.arith .add) :: .instr (.arith .add) :: Code.truth k₂.labels (k₂.labels + 1))
        ((k₂.move (-2)).issue 2)
  | call {f es t k args k'} : Γ.calleeFor f es.length = .ok t →
      EmitsAll Γ es (k.move 1) args k' →
      Emits Γ (.call f es) k (t.opening ++ args ++ [.instr t.invoke])
        ((k'.move (-(es.length + 1))).move t.returns.results)

/-- The same for the arguments of a call, in order. -/
inductive EmitsAll (Γ : Names) : List Expr → Counters → Code → Counters → Prop where
  | nil {k} : EmitsAll Γ [] k [] k
  | cons {e es k first k₁ rest k₂} : Emits Γ e k first k₁ → EmitsAll Γ es k₁ rest k₂ →
      EmitsAll Γ (e :: es) k (first ++ rest) k₂

end

/-! ## The lowering function emits what the relation says -/

theorem Attempt.on_liftM_eq_ok {σ ε α : Type} {r : Except ε α} {s t : σ} {a : α}
    (h : (liftM r : Attempt σ ε α).on s = (.ok a, t)) : r = .ok a ∧ t = s := by
  rw [Attempt.on_liftM] at h
  exact ⟨(Prod.mk.inj h).1, (Prod.mk.inj h).2.symm⟩

namespace EmitM

theorem on_store_eq_ok {Γ : Names} {x : String} {k k' : Counters} {code : Code}
    (h : (store Γ x).on k = (.ok code, k')) :
    ∃ i, Γ.store x = .ok i ∧ code = [.instr i] ∧ k' = k.move (-1) := by
  obtain ⟨i, k₁, hlift, hrest⟩ := Attempt.on_bind_eq_ok.mp h
  obtain ⟨hi, rfl⟩ := Attempt.on_liftM_eq_ok hlift
  cases hrest
  exact ⟨i, hi, rfl, rfl⟩

/-- What `++` and `--` add to the code of their operand. -/
theorem on_step_eq_ok {Γ : Names} {op : ArithOp} {e : Expr} {k k' : Counters} {tail : Code}
    (h : (step Γ op e).on k = (.ok tail, k')) :
    (∃ x i, e = .ident x ∧ Γ.store x = .ok i
        ∧ tail = [.instr (.ldc 1), .instr (.arith op), .instr .dup, .instr i]
        ∧ k' = (((k.move 1).move (-1)).move 1).move (-1))
      ∨ (e.ident? = none ∧ tail = [.instr (.ldc 1), .instr (.arith op)]
        ∧ k' = (k.move 1).move (-1)) := by
  obtain ⟨_, _, ⟨⟩, hpop⟩ := Attempt.on_bind_eq_ok.mp h
  obtain ⟨_, _, ⟨⟩, hcode⟩ := Attempt.on_bind_eq_ok.mp hpop
  obtain ⟨back, k₁, hback, hrest⟩ := Attempt.on_bind_eq_ok.mp hcode
  cases hrest
  rw [writeBack] at hback
  split at hback
  · rename_i x hx
    obtain ⟨_, _, ⟨⟩, hstore⟩ := Attempt.on_bind_eq_ok.mp hback
    obtain ⟨put, k₂, hput, hrest⟩ := Attempt.on_bind_eq_ok.mp hstore
    cases hrest
    obtain ⟨i, hi, rfl, rfl⟩ := on_store_eq_ok hput
    exact Or.inl ⟨x, i, Expr.ident?_eq_some_iff.mp hx, hi, rfl, rfl⟩
  · rename_i hnone
    cases hback
    exact Or.inr ⟨hnone, rfl, rfl⟩

/-- A call that returns nothing leaves the meter alone, which a move by zero
after any other move does too. -/
theorem on_result (t : ReturnType) (k : Counters) (d : Int) :
    (result t).on (k.move d) = (.ok (), (k.move d).move t.results) := by
  cases t with
  | int => rfl
  | void =>
      have hmeter : (k.meter.move d).move 0 = k.meter.move d := by
        simp [StackMeter.move]
      simp [result, Counters.move, ReturnType.results, hmeter]

end EmitM

mutual

/-- Every successful lowering is an emission. -/
theorem Expr.emits_of_lower {Γ : Names} : ∀ {e : Expr} {k k' : Counters} {code : Code},
    (e.lower Γ).on k = (.ok code, k') → Emits Γ e k code k'
  | .ident x, k, k', code, h => by
      rw [Expr.lower] at h
      obtain ⟨i?, k₁, hlift, hrest⟩ := Attempt.on_bind_eq_ok.mp h
      obtain ⟨hload, rfl⟩ := Attempt.on_liftM_eq_ok hlift
      cases i? with
      | none => cases hrest; exact .array hload
      | some i => cases hrest; exact .scalar hload
  | .lit v, k, k', code, h => by
      rw [Expr.lower] at h
      cases h
      exact .lit
  | .paren e, k, k', code, h => by
      rw [Expr.lower] at h
      exact .paren (Expr.emits_of_lower h)
  | .assign x e, k, k', code, h => by
      rw [Expr.lower] at h
      obtain ⟨value, k₁, he, hput⟩ := Attempt.on_bind_eq_ok.mp h
      obtain ⟨put, k₂, hstore, hrest⟩ := Attempt.on_bind_eq_ok.mp hput
      obtain ⟨i, hi, rfl, rfl⟩ := EmitM.on_store_eq_ok hstore
      cases hrest
      exact .assign (Expr.emits_of_lower he) hi
  | .unary op e, k, k', code, h => by
      rw [Expr.lower] at h
      obtain ⟨operand, k₁, he, hop⟩ := Attempt.on_bind_eq_ok.mp h
      obtain ⟨tail, k₂, htail, hrest⟩ := Attempt.on_bind_eq_ok.mp hop
      cases hrest
      have hoperand := Expr.emits_of_lower he
      -- `++` and `--` differ in the instruction only
      have hstep : ∀ {a}, op.step? = some a → (EmitM.step Γ a e).on k₁ = (.ok tail, k') →
          Emits Γ (.unary op e) k (operand ++ tail) k' := by
        intro a ha hs
        rcases EmitM.on_step_eq_ok hs with ⟨x, i, rfl, hi, rfl, rfl⟩ | ⟨hbare, rfl, rfl⟩
        · exact .stepName ha hoperand hi
        · exact .step ha hbare hoperand
      cases op with
      | neg => cases htail; exact .neg hoperand
      | not => cases htail; exact .not hoperand
      | increment => exact hstep rfl htail
      | decrement => exact hstep rfl htail
  | .binary (.arith op) l r, k, k', code, h => by
      rw [Expr.lower] at h
      obtain ⟨left, k₁, hl, hright⟩ := Attempt.on_bind_eq_ok.mp h
      obtain ⟨right, k₂, hr, hrest⟩ := Attempt.on_bind_eq_ok.mp hright
      cases hrest
      exact .arith (Expr.emits_of_lower hl) (Expr.emits_of_lower hr)
  | .binary (.compare c) l r, k, k', code, h => by
      rw [Expr.lower] at h
      obtain ⟨left, k₁, hl, hright⟩ := Attempt.on_bind_eq_ok.mp h
      obtain ⟨right, k₂, hr, hrest⟩ := Attempt.on_bind_eq_ok.mp hright
      cases hrest
      exact .compare (Expr.emits_of_lower hl) (Expr.emits_of_lower hr)
  | .binary .and l r, k, k', code, h => by
      rw [Expr.lower] at h
      obtain ⟨left, k₁, hl, hright⟩ := Attempt.on_bind_eq_ok.mp h
      obtain ⟨right, k₂, hr, hrest⟩ := Attempt.on_bind_eq_ok.mp hright
      cases hrest
      exact .and (Expr.emits_of_lower hl) (Expr.emits_of_lower hr)
  | .binary .or l r, k, k', code, h => by
      rw [Expr.lower] at h
      obtain ⟨left, k₁, hl, hright⟩ := Attempt.on_bind_eq_ok.mp h
      split at hright
      · rename_i hleaf
        obtain ⟨right, k₂, hr, hrest⟩ := Attempt.on_bind_eq_ok.mp hright
        cases hrest
        exact .orReload hleaf (Expr.emits_of_lower hl) (Expr.emits_of_lower hr)
      · rename_i hleaf
        obtain ⟨_, _, ⟨⟩, hright⟩ := Attempt.on_bind_eq_ok.mp hright
        obtain ⟨right, k₂, hr, hrest⟩ := Attempt.on_bind_eq_ok.mp hright
        cases hrest
        exact .orDup (Bool.not_eq_true _ ▸ hleaf) (Expr.emits_of_lower hl) (Expr.emits_of_lower hr)
  | .call f es, k, k', code, h => by
      rw [Expr.lower] at h
      obtain ⟨t, k₁, hlift, hargs⟩ := Attempt.on_bind_eq_ok.mp h
      obtain ⟨ht, rfl⟩ := Attempt.on_liftM_eq_ok hlift
      obtain ⟨_, _, ⟨⟩, hargs⟩ := Attempt.on_bind_eq_ok.mp hargs
      obtain ⟨args, k₂, hes, hinvoke⟩ := Attempt.on_bind_eq_ok.mp hargs
      obtain ⟨_, _, ⟨⟩, hinvoke⟩ := Attempt.on_bind_eq_ok.mp hinvoke
      obtain ⟨_, k₃, hresult, hrest⟩ := Attempt.on_bind_eq_ok.mp hinvoke
      cases hrest
      have hres := EmitM.on_result t.returns k₂ (-(es.length + 1))
      obtain rfl := congrArg Prod.snd (hresult.symm.trans hres)
      exact .call ht (Expr.emitsAll_of_lowerAll hes)
  | .index a e, k, k', code, h => by
      rw [Expr.lower] at h
      cases h
  | .indexAssign a e v, k, k', code, h => by
      rw [Expr.lower] at h
      cases h

theorem Expr.emitsAll_of_lowerAll {Γ : Names} : ∀ {es : List Expr} {k k' : Counters} {code : Code},
    (Expr.lowerAll Γ es).on k = (.ok code, k') → EmitsAll Γ es k code k'
  | [], k, k', code, h => by
      rw [Expr.lowerAll] at h
      cases h
      exact .nil
  | e :: es, k, k', code, h => by
      rw [Expr.lowerAll] at h
      obtain ⟨first, k₁, he, hes⟩ := Attempt.on_bind_eq_ok.mp h
      obtain ⟨rest, k₂, hes, hrest⟩ := Attempt.on_bind_eq_ok.mp hes
      cases hrest
      exact .cons (Expr.emits_of_lower he) (Expr.emitsAll_of_lowerAll hes)

end

end JasminGen
