import JasminGen.Proofs.Reference

/-!
# The code of an expression computes its value

Wherever the code of an expression stands, and whatever lies on the stack below,
running it puts the value of the expression on top, if it has one, and changes
variables and world as the reference semantics says. It does so without leaving
its place, and halts where the reference semantics has no value.

The machine holds the variables of an activation in slots, the reference
semantics holds them by name. `Store.slots` gives the slots that a store stands
for, so a store and a stack determine the machine's frame, and there is no
relation to carry along. The registry of variables that it takes may be larger
than the one under which an expression was lowered: a function's frame grows as
its text goes on, but its slots are there from the start.
-/

namespace JasminGen

/-! ## Slots -/

namespace Store

/-- The slots of an activation: those of the variables in `R` hold their values,
the others hold what `rest` says. -/
def slots (st : Store) (R : Variables) (rest : Nat → Int32) (s : Nat) : Int32 :=
  match R.entries[s]? with
  | some v => st.locals v.name
  | none => rest s

/-- The machine at a position, with the given stack and the store's variables. -/
def running (st : Store) (R : Variables) (rest : Nat → Int32) (pos : Nat) (stack : List Cell) :
    Status :=
  .running ⟨pos, stack, st.slots R rest⟩ st.world

theorem slots_of_entry {R : Variables} {v : Variable} {s : Nat} (h : R.entries[s]? = some v)
    (st : Store) (rest : Nat → Int32) : st.slots R rest s = st.locals v.name := by
  rw [slots, h]

/-- A variable has one slot, so storing in the slot is assigning to the variable. -/
theorem slots_update {R : Variables} {v : Variable} {s : Nat} (h : R.entries[s]? = some v)
    (st : Store) (rest : Nat → Int32) (a : Int32) :
    ({ st with locals := Function.update st.locals v.name a } : Store).slots R rest =
      Function.update (st.slots R rest) s a := by
  funext t
  by_cases hts : t = s
  · subst hts
    rw [slots_of_entry h, Function.update_self]
    exact Function.update_self ..
  · rw [Function.update_of_ne hts, slots, slots]
    cases ht : R.entries[t]? with
    | none => rfl
    | some u =>
        have hname : u.name ≠ v.name := by
          intro heq
          have hu := Registry.locate?_eq_some_iff.mpr ⟨ht, heq⟩
          have hv := Registry.locate?_eq_some_iff.mpr ⟨h, rfl⟩
          rw [hu] at hv
          exact hts (Prod.mk.inj (Option.some.inj hv)).2
        exact Function.update_of_ne hname ..

end Store

/-! ## Names -/

/-- The machine runs code that was lowered under the names `Γ`, with `R` for all
the variables that the frame will have. -/
structure Machine.Hosts (M : Machine) (Γ : Names) (R : Variables) : Prop where
  cls : M.cls = Γ.config.className
  functions : M.functions = Γ.functions.entries
  labels : (Code.labels M.code).Nodup
  frame : Γ.frame.entries <+: R.entries

namespace Machine.Hosts

variable {M : Machine} {Γ : Names} {R : Variables} {rest : Nat → Int32} {lo hi pos : Nat}
  {F : Code} {stack : List Cell}

theorem entry_of_slot (hM : M.Hosts Γ R) {x : String} {s : Nat} {t : DataType}
    (h : Γ.resolve x = .ok (.slot s t)) :
    ∃ v, R.entries[s]? = some v ∧ v.name = x := by
  obtain ⟨v, hv, -⟩ := Names.resolve_eq_slot_iff.mp h
  obtain ⟨hentry, hname⟩ := Registry.locate?_eq_some_iff.mp hv
  obtain ⟨hlt, -⟩ := List.getElem?_eq_some_iff.mp hentry
  obtain ⟨more, hmore⟩ := hM.frame
  refine ⟨v, ?_, hname⟩
  rw [← hmore, List.getElem?_append_left hlt]
  exact hentry

/-- The load of a variable. -/
theorem runs_load (hM : M.Hosts Γ R) {x : String} {i : Instr} (h : Γ.load? x = .ok (some i))
    (hF : Placed M.code lo hi pos (.instr i :: F)) (st : Store) :
    M.Runs lo hi (st.running R rest pos stack)
      (st.running R rest (pos + 1) (.int (Γ.scope.read st x) :: stack)) := by
  refine M.runs_instr hF ?_
  rcases Names.load?_eq_some h with ⟨s, hs, rfl⟩ | ⟨hf, rfl⟩
  · obtain ⟨v, hv, rfl⟩ := hM.entry_of_slot hs
    rw [Scope.read, if_pos (Names.scope_of_slot hs).1]
    simp only [Instr.act, Store.slots_of_entry hv]
    rfl
  · rw [Scope.read, (Names.scope_of_field hf).1]
    simp only [Instr.act, hM.cls, memberOf?_qualified]
    rfl

/-- The store of the value on top into a variable. -/
theorem runs_store (hM : M.Hosts Γ R) {x : String} {i : Instr} (h : Γ.store x = .ok i)
    (hF : Placed M.code lo hi pos (.instr i :: F)) (st : Store) (a : Int32) :
    M.Runs lo hi (st.running R rest pos (.int a :: stack))
      ((Γ.scope.write st x a).running R rest (pos + 1) stack) := by
  refine M.runs_instr hF ?_
  rcases Names.store_eq_ok h with ⟨s, hs, rfl⟩ | ⟨hf, rfl⟩
  · obtain ⟨v, hv, rfl⟩ := hM.entry_of_slot hs
    rw [Scope.write, if_pos (Names.scope_of_slot hs).1]
    simp only [Instr.act, Cell.popInt, ← Store.slots_update hv]
    rfl
  · rw [Scope.write, (Names.scope_of_field hf).1]
    simp only [Instr.act, Cell.popInt, hM.cls, memberOf?_qualified]
    rfl

end Machine.Hosts

/-! ## Values on the stack -/

/-- Where the code of an expression ends: at `pos`, with the value of the
expression on the stack, if there should be one. -/
def Store.Ends (R : Variables) (rest : Nat → Int32) (pos : Nat) (stack : List Cell) (yields : Bool)
    (result : Option Int32 × Store) (c : Status) : Prop :=
  result.1.isSome = yields ∧ c = result.2.running R rest pos (Cell.onTop result.1 stack)

/-- The same for an operand, which has a value. -/
def Store.EndsWith (R : Variables) (rest : Nat → Int32) (pos : Nat) (stack : List Cell)
    (result : Int32 × Store) (c : Status) : Prop :=
  c = result.2.running R rest pos (.int result.1 :: stack)

theorem Machine.Meets.operand {M : Machine} {R : Variables} {rest : Nat → Int32} {lo hi pos : Nat}
    {stack : List Cell} {a : Status} {r : Except Halt (Option Int32 × Store)} {yields : Bool}
    (h : M.Meets lo hi a r (Store.Ends R rest pos stack yields)) (hy : yields = true) :
    M.Meets lo hi a (operandOf r) (Store.EndsWith R rest pos stack) := by
  subst hy
  cases r with
  | error e => exact h
  | ok result =>
      obtain ⟨v?, st⟩ := result
      obtain ⟨c, hruns, hsome, rfl⟩ := h
      cases v? with
      | none => cases hsome
      | some v => exact ⟨_, hruns, rfl⟩

theorem Machine.runs_arith {M : Machine} {lo hi pos : Nat} {F : Code} {stack : List Cell}
    {slots : Nat → Int32} {w : World} {op : ArithOp} {a b v : Int32}
    (hF : Placed M.code lo hi pos (.instr (.arith op) :: F)) (happly : op.apply a b = .ok v) :
    M.Runs lo hi (.running ⟨pos, .int b :: .int a :: stack, slots⟩ w)
      (.running ⟨pos + 1, .int v :: stack, slots⟩ w) := by
  refine M.runs_instr hF ?_
  simp only [Instr.act, Cell.popInt, happly]
  rfl

/-- An arithmetic instruction has the operator's result, or halts as it does. -/
theorem Machine.meets_arith {M : Machine} {lo hi pos : Nat} {F : Code} {stack : List Cell}
    {slots : Nat → Int32} {w : World} {op : ArithOp}
    (hF : Placed M.code lo hi pos (.instr (.arith op) :: F)) (a b : Int32) :
    M.Meets lo hi (.running ⟨pos, .int b :: .int a :: stack, slots⟩ w) (op.apply a b)
      fun v c => c = .running ⟨pos + 1, .int v :: stack, slots⟩ w := by
  cases happly : op.apply a b with
  | error e =>
      have hact : (Instr.arith op).act M.cls M.code ⟨pos, .int b :: .int a :: stack, slots⟩ w =
          .halt e := by
        simp only [Instr.act, Cell.popInt, happly]
      exact M.runs_of_act hF hact rfl
  | ok v => exact ⟨_, M.runs_arith hF happly, rfl⟩

/-- A call of a function takes its arguments from the stack and leaves what the
interpretation gives. -/
theorem Machine.Hosts.meets_invoke {M : Machine} {Γ : Names} {R : Variables} {rest : Nat → Int32}
    {lo hi pos : Nat} {F : Code} {stack : List Cell} (hM : M.Hosts Γ R) {s : Signature}
    (hs : s ∈ Γ.functions.entries)
    (hF : Placed M.code lo hi pos (.instr (Γ.method s).invoke :: F)) {args : List Int32}
    (hargs : args.length = s.arity) (st : Store) :
    M.Meets lo hi (st.running R rest pos (Cell.pile args stack)) (M.calls s.name args st.world)
      fun (v, w) c => c = ({ st with world := w } : Store).running R rest (pos + 1)
        (Cell.onTop (s.returns.given v) stack) := by
  have hact : (Γ.method s).invoke.act M.cls M.code
      ⟨pos, Cell.pile args stack, st.slots R rest⟩ st.world =
        .call s.descriptor args ⟨pos + 1, stack, st.slots R rest⟩ := by
    simp only [Names.method, Instr.act, hM.cls, memberOf?_qualified,
      MethodSymbol.ofText_descriptor, ← hargs, Cell.takeInts_pile]
    rfl
  have hfind := Signatures.find?_descriptor hs
  rw [← hM.functions] at hfind
  cases hcall : M.calls s.name args st.world with
  | error e =>
      refine M.runs_of_act hF hact ?_
      simp only [perform, answer, hfind, hcall]
  | ok result =>
      obtain ⟨v, w⟩ := result
      refine ⟨_, M.runs_of_act hF hact ?_, rfl⟩
      simp only [perform, answer, hfind, hcall]
      rfl

/-! ## Expressions -/

theorem UnaryOp.apply_of_step {u : UnaryOp} {op : ArithOp} (h : u.step? = some op) (v : Int32) :
    op.apply v 1 = .ok (u.apply v) := by
  cases u <;> cases h <;> rfl

section Operators

variable {M : Machine} {R : Variables} {rest : Nat → Int32} {lo hi pos pos₁ pos₂ pos₃ : Nat}
  {stack : List Cell} {S : Scope} {st : Store}

/-- The operand of a unary operator is computed, and then the operator is applied
and may store its result. -/
theorem Machine.meets_unary {u : UnaryOp} {e : Expr}
    (he : M.Meets lo hi (st.running R rest pos stack) (operandOf (e.eval S M.calls st))
      (Store.EndsWith R rest pos₁ stack))
    (hop : ∀ (v : Int32) (st₁ : Store), M.Runs lo hi (st₁.running R rest pos₁ (.int v :: stack))
      ((u.update S e (u.apply v) st₁).running R rest pos₂ (.int (u.apply v) :: stack))) :
    M.Meets lo hi (st.running R rest pos stack) ((Expr.unary u e).eval S M.calls st)
      (Store.Ends R rest pos₂ stack true) := by
  rw [Expr.eval_unary]
  refine he.bind ?_
  rintro ⟨v, st₁⟩ _ - rfl
  exact ⟨_, hop v st₁, rfl, rfl⟩

/-- Both operands of a binary operator are computed, one on top of what is held
of the other, and then the operator is applied. -/
theorem Machine.meets_binary {op : BinaryOp} {l r : Expr} {held : Int32 → List Cell}
    (hl : M.Meets lo hi (st.running R rest pos stack) (operandOf (l.eval S M.calls st))
      (Store.EndsWith R rest pos₁ stack))
    (hr : ∀ a st₁, M.Meets lo hi (st₁.running R rest pos₁ (.int a :: stack))
      (operandOf (r.eval S M.calls st₁)) (Store.EndsWith R rest pos₂ (held a)))
    (hop : ∀ a b st₁ st₂, operandOf (l.eval S M.calls st) = .ok (a, st₁) →
      M.Meets lo hi (st₂.running R rest pos₂ (.int b :: held a))
        (op.apply a b ((l.ident?.map (S.read st₂)).getD a))
        fun v c => c = st₂.running R rest pos₃ (.int v :: stack)) :
    M.Meets lo hi (st.running R rest pos stack) ((Expr.binary op l r).eval S M.calls st)
      (Store.Ends R rest pos₃ stack true) := by
  rw [Expr.eval_binary]
  refine hl.bind ?_
  rintro ⟨a, st₁⟩ _ heval rfl
  refine (hr a st₁).bind ?_
  rintro ⟨b, st₂⟩ _ - rfl
  refine (hop a b st₁ st₂ heval).bind ?_
  rintro v _ - rfl
  exact ⟨_, .refl, rfl, rfl⟩

/-- Reading the left operand of an `or` again. -/
theorem Machine.Hosts.runs_again {Γ : Names} (hM : M.Hosts Γ R) {l : Expr} {k k' : Counters}
    {left : Code} (hleaf : l.isLeaf = true) (h : Emits Γ l k left k')
    (hl : l.yields Γ.scope = true) (hF : Placed M.code lo hi pos left) {a : Int32}
    {st₁ : Store} (ha : operandOf (l.eval Γ.scope M.calls st) = .ok (a, st₁)) (st₂ : Store) :
    M.Runs lo hi (st₂.running R rest pos stack) (st₂.running R rest (pos + left.length)
      (.int ((l.ident?.map (Γ.scope.read st₂)).getD a) :: stack)) := by
  cases h with
  | scalar hload => exact hM.runs_load hload hF st₂
  | array hload =>
      rw [Expr.yields, Names.type?_of_load_none hload] at hl
      cases hl
  | lit =>
      cases ha
      exact M.runs_instr hF rfl
  | _ => cases hleaf

end Operators

mutual

/-- Running the code of an expression puts its value on the stack. -/
theorem Emits.computes {M : Machine} {Γ : Names} {R : Variables} {rest : Nat → Int32} {lo hi : Nat}
    (hM : M.Hosts Γ R) : ∀ {e : Expr} {k k' : Counters} {F : Code}, Emits Γ e k F k' →
      e.valued Γ.scope = true → ∀ {pos : Nat} {stack : List Cell} (st : Store),
        Placed M.code lo hi pos F →
          M.Meets lo hi (st.running R rest pos stack) (e.eval Γ.scope M.calls st)
            (Store.Ends R rest (pos + F.length) stack (e.yields Γ.scope))
  | _, _, _, _, .scalar hload, _, _, _, st, hF => by
      have htype := Names.type?_of_load hload
      rw [Expr.eval, if_pos htype, Expr.yields, htype]
      exact ⟨_, hM.runs_load hload hF st, rfl, rfl⟩
  | _, _, _, _, .array hload, _, _, _, st, hF => by
      rw [Expr.eval, Expr.yields, Names.type?_of_load_none hload]
      exact ⟨_, .refl, rfl, rfl⟩
  | _, _, _, _, .lit, _, _, _, st, hF => ⟨_, M.runs_instr hF rfl, rfl, rfl⟩
  | _, _, _, _, .paren h, hv, _, _, st, hF => by
      rw [Expr.valued] at hv
      rw [Expr.eval, Expr.yields]
      exact h.computes hM hv st hF
  | _, _, _, _, .assign h hstore, hv, _, _, st, hF => by
      rw [Expr.valued, Bool.and_eq_true] at hv
      obtain ⟨hvalue, hput⟩ := hF.append
      rw [Expr.eval, List.length_append]
      refine ((h.computes hM hv.2 st hvalue).operand hv.1).bind ?_
      rintro ⟨v, st₁⟩ _ - rfl
      exact ⟨_, hM.runs_store hstore hput st₁ v, rfl, rfl⟩
  | _, _, _, _, .neg h, hv, _, _, st, hF => by
      rw [Expr.valued, Bool.and_eq_true] at hv
      obtain ⟨hvalue, htail⟩ := hF.append
      rw [List.length_append, ← Nat.add_assoc]
      refine M.meets_unary ((h.computes hM hv.2 st hvalue).operand hv.1) ?_
      intro v st₁
      exact M.runs_instr htail rfl
  | _, _, _, _, .not h, hv, _, _, st, hF => by
      rw [Expr.valued, Bool.and_eq_true] at hv
      obtain ⟨hvalue, htail⟩ := hF.append
      rw [List.length_append, ← Nat.add_assoc]
      refine M.meets_unary ((h.computes hM hv.2 st hvalue).operand hv.1) ?_
      intro v st₁
      exact M.runs_negate hM.labels htail
  | _, _, _, _, .stepName hu h hstore, hv, _, _, st, hF => by
      rw [Expr.valued, Bool.and_eq_true] at hv
      obtain ⟨hvalue, htail⟩ := hF.append
      rw [List.length_append, ← Nat.add_assoc]
      refine M.meets_unary ((h.computes hM hv.2 st hvalue).operand hv.1) ?_
      intro v st₁
      rw [UnaryOp.update, hu]
      refine (M.runs_instr htail rfl).trans ?_
      refine (M.runs_arith htail.tail (UnaryOp.apply_of_step hu v)).trans ?_
      refine (M.runs_instr htail.tail.tail rfl).trans ?_
      exact hM.runs_store hstore htail.tail.tail.tail st₁ _
  | _, _, _, _, .step hu hbare h, hv, _, _, st, hF => by
      rw [Expr.valued, Bool.and_eq_true] at hv
      obtain ⟨hvalue, htail⟩ := hF.append
      rw [List.length_append, ← Nat.add_assoc]
      refine M.meets_unary ((h.computes hM hv.2 st hvalue).operand hv.1) ?_
      intro v st₁
      rw [UnaryOp.update, hu, hbare]
      refine (M.runs_instr htail rfl).trans ?_
      exact M.runs_arith htail.tail (UnaryOp.apply_of_step hu v)
  | _, _, _, _, .arith hl hr, hv, _, _, st, hF => by
      rw [Expr.valued, Bool.and_eq_true, Bool.and_eq_true, Bool.and_eq_true] at hv
      obtain ⟨hleft, hright, htail⟩ := hF.append_append
      simp only [List.length_append, ← Nat.add_assoc]
      refine M.meets_binary ((hl.computes hM hv.1.2 st hleft).operand hv.1.1)
        (fun a st₁ => (hr.computes hM hv.2.2 st₁ hright).operand hv.2.1) ?_
      intro a b st₁ st₂ _
      exact M.meets_arith htail a b
  | _, _, _, _, .compare hl hr, hv, _, _, st, hF => by
      rw [Expr.valued, Bool.and_eq_true, Bool.and_eq_true, Bool.and_eq_true] at hv
      obtain ⟨hleft, hright, htail⟩ := hF.append_append
      simp only [List.length_append, ← Nat.add_assoc]
      refine M.meets_binary ((hl.computes hM hv.1.2 st hleft).operand hv.1.1)
        (fun a st₁ => (hr.computes hM hv.2.2 st₁ hright).operand hv.2.1) ?_
      intro a b st₁ st₂ _
      exact ⟨_, M.runs_compare hM.labels htail, rfl⟩
  | _, _, _, _, .and hl hr, hv, _, _, st, hF => by
      rw [Expr.valued, Bool.and_eq_true, Bool.and_eq_true, Bool.and_eq_true] at hv
      obtain ⟨hleft, hright, htail⟩ := hF.append_append
      simp only [List.length_append, ← Nat.add_assoc]
      refine M.meets_binary ((hl.computes hM hv.1.2 st hleft).operand hv.1.1)
        (fun a st₁ => (hr.computes hM hv.2.2 st₁ hright).operand hv.2.1) ?_
      intro a b st₁ st₂ _
      exact ⟨_, (M.runs_arith htail rfl).trans (M.runs_truth hM.labels htail.tail), rfl⟩
  | _, _, _, _, @Emits.orReload _ l r k left k₁ right k₂ hleaf hl hr, hv, pos, _, st, hF => by
      rw [Expr.valued, Bool.and_eq_true, Bool.and_eq_true, Bool.and_eq_true] at hv
      obtain ⟨hagain, htruth⟩ := hF.append
      obtain ⟨hleft, hright, hadd⟩ := hagain.append_append
      have hpos : pos + (left ++ right ++ .instr (.arith .add) :: left).length =
          pos + left.length + right.length + 1 + left.length := by
        simp only [List.length_append, List.length_cons]
        omega
      rw [hpos] at htruth
      rw [List.length_append, ← Nat.add_assoc, hpos]
      refine M.meets_binary ((hl.computes hM hv.1.2 st hleft).operand hv.1.1)
        (fun a st₁ => (hr.computes hM hv.2.2 st₁ hright).operand hv.2.1) ?_
      intro a b st₁ st₂ ha
      refine ⟨_, (M.runs_arith hadd rfl).trans ?_, rfl⟩
      refine (hM.runs_again hleaf hl hv.1.1 hadd.tail ha st₂).trans ?_
      exact (M.runs_arith htruth rfl).trans (M.runs_truth hM.labels htruth.tail)
  | _, _, _, _, @Emits.orDup _ l r k left k₁ right k₂ hleaf hl hr, hv, pos, _, st, hF => by
      rw [Expr.valued, Bool.and_eq_true, Bool.and_eq_true, Bool.and_eq_true] at hv
      obtain ⟨hoperands, hadd⟩ := hF.append
      obtain ⟨hleft, hdup⟩ := hoperands.append
      have hpos : pos + (left ++ .instr .dup :: right).length =
          pos + left.length + 1 + right.length := by
        simp only [List.length_append, List.length_cons]
        omega
      rw [hpos] at hadd
      rw [List.length_append, ← Nat.add_assoc, hpos]
      refine M.meets_binary ((hl.computes hM hv.1.2 st hleft).operand hv.1.1)
        (fun a st₁ => .after (M.runs_instr hdup rfl)
          ((hr.computes hM hv.2.2 st₁ hdup.tail).operand hv.2.1)) ?_
      intro a b st₁ st₂ _
      have hbare : l.ident? = none := by
        cases l <;> first | rfl | cases hleaf
      rw [hbare]
      refine ⟨_, (M.runs_arith hadd rfl).trans ?_, rfl⟩
      refine (M.runs_arith hadd.tail ?_).trans (M.runs_truth hM.labels hadd.tail.tail)
      exact congrArg Except.ok (Int32.add_comm a (a + b))
  | _, _, _, _, @Emits.call _ f es t k args k' ht h, hv, pos, stack, st, hF => by
      rw [Expr.valued] at hv
      obtain ⟨hopening, hargs, hinvoke⟩ := hF.append_append
      rw [Expr.eval_call, Expr.yields, Names.returns?_of_calleeFor ht]
      simp only [List.length_append, ← Nat.add_assoc]
      rcases Names.calleeFor_eq_ok ht with ⟨hprint, hone, rfl⟩ | ⟨hprint, s, hs, harity, rfl⟩
      · -- the stream lies below the argument
        refine .after (M.runs_instr hopening rfl) ?_
        refine (h.computes hM hv st hargs).bind ?_
        rintro ⟨vs, st₁⟩ _ - ⟨hlength, rfl⟩
        rw [if_pos (show f = Γ.scope.print from hprint)]
        obtain ⟨v, rfl⟩ := List.length_eq_one_iff.mp (hlength.trans hone)
        exact ⟨_, M.runs_instr hinvoke rfl, rfl, rfl⟩
      · refine (h.computes hM hv st hargs).bind ?_
        rintro ⟨vs, st₁⟩ _ - ⟨hlength, rfl⟩
        rw [if_neg (show ¬f = Γ.scope.print from hprint)]
        obtain ⟨hmem, rfl⟩ := Registry.find?_eq_some_iff.mp hs
        refine (hM.meets_invoke hmem hinvoke (hlength.trans harity.symm) st₁).bind ?_
        rintro ⟨v, w⟩ _ - rfl
        exact ⟨_, .refl, ReturnType.isSome_given _ v, rfl⟩

theorem EmitsAll.computes {M : Machine} {Γ : Names} {R : Variables} {rest : Nat → Int32}
    {lo hi : Nat} (hM : M.Hosts Γ R) : ∀ {es : List Expr} {k k' : Counters} {F : Code},
      EmitsAll Γ es k F k' → Expr.valuedAll Γ.scope es = true →
        ∀ {pos : Nat} {stack : List Cell} (st : Store), Placed M.code lo hi pos F →
          M.Meets lo hi (st.running R rest pos stack) (Expr.evalAll Γ.scope M.calls es st)
            fun (vs, st') c => vs.length = es.length
              ∧ c = st'.running R rest (pos + F.length) (Cell.pile vs stack)
  | _, _, _, _, .nil, _, _, _, st, _ => by
      rw [Expr.evalAll]
      exact ⟨_, .refl, rfl, rfl⟩
  | _, _, _, _, .cons h hs, hv, _, _, st, hF => by
      rw [Expr.valuedAll, Bool.and_eq_true, Bool.and_eq_true] at hv
      obtain ⟨hfirst, hrest⟩ := hF.append
      rw [Expr.evalAll]
      simp only [List.length_append, ← Nat.add_assoc]
      refine ((h.computes hM hv.1.2 st hfirst).operand hv.1.1).bind ?_
      rintro ⟨v, st₁⟩ _ - rfl
      refine (hs.computes hM hv.2 st₁ hrest).bind ?_
      rintro ⟨vs, st₂⟩ _ - ⟨hlength, rfl⟩
      refine ⟨_, .refl, congrArg (· + 1) hlength, ?_⟩
      rw [Cell.pile_cons]

end

/-- Slots that agree with a store are the store's. -/
theorem Store.slots_eq {st : Store} {R : Variables} {slots : Nat → Int32}
    (h : ∀ x v s, R.locate? x = some (v, s) → slots s = st.locals x) :
    st.slots R slots = slots := by
  funext s
  rw [Store.slots]
  cases hs : R.entries[s]? with
  | none => rfl
  | some v => exact (h v.name v s (Registry.locate?_eq_some_iff.mpr ⟨hs, rfl⟩)).symm

/-- **Expressions.** Let the code `F` of an expression stand anywhere in code that
defines no label twice, and let calls mean anything. A run that enters `F` at its
beginning stays in `F`. If the expression has a value, or is to have none, the run
comes to the end of `F` with just that added to the stack, and with the variables
and the world that the reference semantics gives; slots that belong to no variable
keep what they hold. And it halts in `F` exactly if the reference semantics does,
for the same reason. -/
theorem Expr.code_computes_value {Γ : Names} {e : Expr} {k k' : Counters} {F : Code}
    (h : (e.lower Γ).on k = (.ok F, k')) (hv : e.valued Γ.scope = true) {before after : Code}
    (hlabels : (Code.labels (before ++ F ++ after)).Nodup) (I : Interp) (stack : List Cell)
    (slots : Nat → Int32) (st : Store)
    (hslots : ∀ x v s, Γ.frame.locate? x = some (v, s) → slots s = st.locals x) :
    let M : Machine := ⟨Γ.config.className, Γ.functions.entries, I, before ++ F ++ after⟩
    let runs := M.Runs before.length (before ++ F).length
    let start := Status.running ⟨before.length, stack, slots⟩ st.world
    (∀ v? st', e.eval Γ.scope I st = .ok (v?, st') →
        v?.isSome = e.yields Γ.scope
          ∧ runs start (.running
              ⟨(before ++ F).length, Cell.onTop v? stack, st'.slots Γ.frame slots⟩ st'.world))
      ∧ ∀ reason, e.eval Γ.scope I st = .error reason ↔ runs start (.halted reason) := by
  intro M runs start
  have hM : M.Hosts Γ Γ.frame := ⟨rfl, rfl, hlabels, List.prefix_refl _⟩
  have hF : Placed M.code before.length (before ++ F).length before.length F :=
    ⟨⟨before, after, rfl, rfl⟩, Nat.le_refl _, by simp⟩
  have hmeets : M.Meets before.length (before ++ F).length
      (st.running Γ.frame slots before.length stack) (e.eval Γ.scope I st)
      (Store.Ends Γ.frame slots (before.length + F.length) stack (e.yields Γ.scope)) :=
    (Expr.emits_of_lower h).computes hM hv st hF
  rw [Store.running, Store.slots_eq hslots, ← List.length_append] at hmeets
  cases heval : e.eval Γ.scope I st with
  | error cause =>
      rw [heval] at hmeets
      refine ⟨fun _ _ hok => (by cases hok), fun reason => ⟨?_, ?_⟩⟩
      · rintro ⟨⟩
        exact hmeets
      · intro hruns
        have heq := hmeets.unique hruns (M.not_stepsIn_halted _) (M.not_stepsIn_halted _)
        cases heq
        rfl
  | ok result =>
      obtain ⟨v?, st'⟩ := result
      rw [heval] at hmeets
      obtain ⟨c, hruns, hsome, rfl⟩ := hmeets
      refine ⟨?_, fun reason => ⟨fun herror => (by cases herror), ?_⟩⟩
      · rintro _ _ ⟨⟩
        exact ⟨hsome, hruns⟩
      · intro hhalted
        have heq := hruns.unique hhalted (M.not_stepsIn_of_le (Nat.le_refl _))
          (M.not_stepsIn_halted _)
        cases heq

/-- One variable, in the first slot. -/
def Names.counter : Names where
  frame := ((Registry.empty : Variables).insert? ⟨"n", .int, none⟩).getD .empty

/-- In `n or --n` the left operand is read again when the right one has changed
it. -/
theorem Expr.or_reads_left_again :
    let e : Expr := .binary .or (.ident "n") (.unary .decrement (.ident "n"))
    let st : Store := ⟨fun _ => 5, ⟨fun _ => 0, []⟩⟩
    ∃ F k', (e.lower Names.counter).on {} = (.ok F, k') ∧ ∃ st' : Store, st'.locals "n" = 4
      ∧ (Machine.mk "Test" [] (fun _ _ w => .ok (0, w)) ([] ++ F ++ [])).Runs 0 ([] ++ F).length
          (.running ⟨0, [], fun _ => 5⟩ st.world)
          (.running ⟨([] ++ F).length, [.int 1], st'.slots Names.counter.frame fun _ => 5⟩
            st'.world) := by
  intro e st
  have hok : ((e.lower Names.counter).on {}).1.isOk = true := by decide +kernel
  have hnodup : ((e.lower Names.counter).on {}).1.toOption.all
      (fun F => decide (Code.labels ([] ++ F ++ [])).Nodup) = true := by decide +kernel
  have hvalued : e.valued Names.counter.scope = true := by decide +kernel
  have hresult : (e.eval Names.counter.scope (fun _ _ w => .ok (0, w)) st).toOption.map
      (fun r => (r.1, r.2.locals "n")) = some (some 1, 4) := by decide +kernel
  cases h : (e.lower Names.counter).on {} with
  | mk r k' =>
      rw [h] at hok hnodup
      cases r with
      | error cause => cases hok
      | ok F =>
          have hcode := Expr.code_computes_value h hvalued (of_decide_eq_true hnodup)
            (fun _ _ w => .ok (0, w)) [] (fun _ => 5) st (fun _ _ _ _ => rfl)
          cases heval : e.eval Names.counter.scope (fun _ _ w => .ok (0, w)) st with
          | error cause =>
              rw [heval] at hresult
              cases hresult
          | ok result =>
              rw [heval] at hresult
              obtain ⟨hone, hn⟩ := Prod.mk.inj (Option.some.inj hresult)
              refine ⟨F, k', rfl, result.2, hn, (hcode.1 (some 1) result.2 ?_).2⟩
              rw [heval, ← hone]

end JasminGen
