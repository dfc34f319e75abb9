import JasminGen.Proofs.Computes
import JasminGen.Proofs.Labels
import JasminGen.Proofs.Need

/-!
# The code of a function executes its body

The counterpart of `Computes` for statements, and then for whole functions.
Between statements the operand stack is empty, so a store and a position say all
about the machine. A statement ends in one of two ways, and its code does too:
control arrives at the end of the code, or the method returns. `Signal.Ends`
pairs the two.

Everything here is about one activation, whose calls are answered by any
interpretation. The rounds of a loop are the only thing to be counted.
-/

namespace JasminGen

/-! ## Returns -/

mutual

/-- Every `return` within the statement has a value if `t` is `int`, and has none
if `t` is `void`. -/
def Stmt.returnsAs (t : ReturnType) : Stmt → Bool
  | .expr _ => true
  | .block _ ss => Stmt.returnsAsAll t ss
  | .ifThen _ s => s.returnsAs t
  | .ifElse _ s s' => s.returnsAs t && s'.returnsAs t
  | .loop _ s => s.returnsAs t
  | .ret v? => v?.isSome == (t == .int)

def Stmt.returnsAsAll (t : ReturnType) : List Stmt → Bool
  | [] => true
  | s :: ss => s.returnsAs t && Stmt.returnsAsAll t ss

end

/-- Where the code of a statement ends: at `pos`, or with a return of the type
`t`. -/
def Signal.Ends (R : Variables) (rest : Nat → Int32) (pos : Nat) (t : ReturnType)
    (result : Signal × Store) (c : Status) : Prop :=
  match result.1 with
  | .done => c = result.2.running R rest pos []
  | .returned v? => v?.isSome = (t == .int) ∧ c = .returned v? result.2.world

namespace Machine

variable {M : Machine} {R : Variables} {rest : Nat → Int32} {lo hi pos pos' : Nat}
  {t : ReturnType} {a : Status} {r : Except Halt (Signal × Store)}

/-- The machine does what `r` says, unless the bound of `r` was too small to say
anything. -/
def Follows (M : Machine) (lo hi : Nat) {β : Type} (a : Status) (r : Except Halt β)
    (P : β → Status → Prop) : Prop :=
  r ≠ .error .outOfFuel → M.Meets lo hi a r P

theorem Meets.follows {β : Type} {P : β → Status → Prop} {r : Except Halt β}
    (h : M.Meets lo hi a r P) : M.Follows lo hi a r P :=
  fun _ => h

namespace Follows

theorem after {β : Type} {P : β → Status → Prop} {r : Except Halt β} {a c : Status}
    (hruns : M.Runs lo hi a c) (h : M.Follows lo hi c r P) : M.Follows lo hi a r P :=
  fun hr => .after hruns (h hr)

theorem bind {β γ : Type} {P : β → Status → Prop} {Q : γ → Status → Prop} {r : Except Halt β}
    {f : β → Except Halt γ} (h : M.Follows lo hi a r P)
    (hf : ∀ b c, r = .ok b → P b c → M.Follows lo hi c (f b) Q) :
    M.Follows lo hi a (r >>= f) Q := by
  intro hne
  have hr : r ≠ .error .outOfFuel := by
    rintro rfl
    exact hne rfl
  refine (h hr).bind ?_
  rintro b c rfl hc
  exact hf b c rfl hc hne

/-- One statement after another. -/
theorem andThen {k : Store → Except Halt (Signal × Store)}
    (h : M.Follows lo hi a r (Signal.Ends R rest pos t))
    (hk : ∀ st, M.Follows lo hi (st.running R rest pos []) (k st) (Signal.Ends R rest pos' t)) :
    M.Follows lo hi a (Signal.andThen r k) (Signal.Ends R rest pos' t) := by
  refine h.bind ?_
  rintro ⟨signal, st⟩ c - hc
  cases signal with
  | done =>
      subst hc
      exact hk st
  | returned v? => exact fun _ => ⟨c, .refl, hc⟩

/-- Lines after a statement that only lead on to another position. -/
theorem pass (h : M.Follows lo hi a r (Signal.Ends R rest pos t))
    (hruns : ∀ st : Store, M.Runs lo hi (st.running R rest pos []) (st.running R rest pos' [])) :
    M.Follows lo hi a r (Signal.Ends R rest pos' t) := by
  intro hr
  have hmeets := h hr
  cases r with
  | error e => exact hmeets
  | ok result =>
      obtain ⟨signal, st⟩ := result
      obtain ⟨c, hc, hends⟩ := hmeets
      cases signal with
      | done =>
          subst hends
          exact ⟨_, hc.trans (hruns st), rfl⟩
      | returned v? => exact ⟨c, hc, hends⟩

end Follows

/-- Names keep their meaning while a frame grows. -/
theorem Hosts.of_grows {c c' : Context} {ds : List VarDecl} (hM : M.Hosts c'.toNames R)
    (h : c.Grows ds c') : M.Hosts c.toNames R where
  cls := by rw [hM.cls, h.config]
  functions := by rw [hM.functions, h.functions]
  labels := hM.labels
  frame := List.IsPrefix.trans ⟨_, h.entries.symm⟩ hM.frame

end Machine

/-! ## Declarations -/

theorem Store.initialise_cons (st : Store) (d : VarDecl) (ds : List VarDecl) :
    st.initialise (d :: ds) = (st.initialise [d]).initialise ds := by
  simp only [Store.initialise]
  cases d.init? <;> rfl

theorem Declares.runs {M : Machine} {R : Variables} {rest : Nat → Int32} {lo hi pos : Nat}
    {d : VarDecl} {c c' : Context} {F : Code} (h : Declares d c F c') (hM : M.Hosts c'.toNames R)
    (hF : Placed M.code lo hi pos F) (st : Store) :
    M.Runs lo hi (st.running R rest pos [])
      ((st.initialise [d]).running R rest (pos + F.length) []) := by
  have hentries := h.grows.entries
  cases h with
  | bare _ hinit =>
      simp only [Store.initialise, hinit]
      exact .refl
  | init _ hinit =>
      have hentry : R.entries[c.frame.size]? = some d.toVariable := by
        obtain ⟨more, hmore⟩ := hM.frame
        rw [← hmore, hentries, Registry.size_eq]
        simp
      simp only [Store.initialise, hinit]
      refine (M.runs_instr hF rfl).trans (M.runs_instr hF.tail ?_)
      simp only [Instr.act, Cell.popInt, ← Store.slots_update hentry]
      rfl

theorem DeclaresAll.runs {M : Machine} {R : Variables} {rest : Nat → Int32} {lo hi : Nat} :
    ∀ {ds : List VarDecl} {c c' : Context} {F : Code}, DeclaresAll ds c F c' →
      M.Hosts c'.toNames R → ∀ {pos : Nat} (st : Store), Placed M.code lo hi pos F →
        M.Runs lo hi (st.running R rest pos [])
          ((st.initialise ds).running R rest (pos + F.length) [])
  | _, _, _, _, .nil, _, _, _, _ => .refl
  | _, _, _, _, .cons h hs, hM, _, st, hF => by
      obtain ⟨hfirst, hrest⟩ := hF.append
      rw [Store.initialise_cons, List.length_append, ← Nat.add_assoc]
      exact (h.runs (hM.of_grows hs.grows) hfirst st).trans (hs.runs hM _ hrest)

/-! ## Statements -/

/-- A condition that is zero. -/
theorem Machine.runs_if_zero {M : Machine} {lo hi pos target : Nat} {F : Code} {l : Label}
    {stack : List Cell} {slots : Nat → Int32} {w : World}
    (hF : Placed M.code lo hi pos (.instr (.branch .eq l) :: F))
    (hl : M.code.position? l = some target) :
    M.Runs lo hi (.running ⟨pos, .int 0 :: stack, slots⟩ w) (.running ⟨target, stack, slots⟩ w) :=
  M.runs_branch_taken hF hl rfl

theorem Machine.runs_if_nonzero {M : Machine} {lo hi pos : Nat} {F : Code} {l : Label}
    {stack : List Cell} {slots : Nat → Int32} {w : World} {v : Int32}
    (hF : Placed M.code lo hi pos (.instr (.branch .eq l) :: F)) (hv : ¬v = 0) :
    M.Runs lo hi (.running ⟨pos, .int v :: stack, slots⟩ w)
      (.running ⟨pos + 1, stack, slots⟩ w) := by
  refine M.runs_branch_passed hF ?_
  simpa [Comparison.holds] using hv

/-- The code of a loop runs the loop, by induction on the rounds. -/
theorem Machine.follows_loop {M : Machine} {R : Variables} {rest : Nat → Int32} {lo hi pos : Nat}
    {t : ReturnType} {cond body : Code} {start done : Label} (hnodup : (Code.labels M.code).Nodup)
    (hF : Placed M.code lo hi pos (Code.loop cond body start done))
    {test : Store → Except Halt (Int32 × Store)} {act : Store → Except Halt (Signal × Store)}
    (htest : ∀ st : Store, M.Meets lo hi (st.running R rest (pos + 1) []) (test st)
      (Store.EndsWith R rest (pos + 1 + cond.length) []))
    (hact : ∀ st : Store, M.Follows lo hi (st.running R rest (pos + 1 + cond.length + 1) [])
      (act st) (Signal.Ends R rest (pos + 1 + cond.length + 1 + body.length) t)) :
    ∀ (n : Nat) (st : Store), M.Follows lo hi (st.running R rest pos [])
      (repeatWhile test act n st)
      (Signal.Ends R rest (pos + (Code.loop cond body start done).length) t) := by
  obtain ⟨hstart, -, hbranch, -, hback⟩ := hF.loop
  have hdone := hback.tail
  have hend : pos + (Code.loop cond body start done).length =
      pos + 1 + cond.length + 1 + body.length + 2 := by
    simp only [Code.loop, List.length_append, List.length_cons, List.length_nil]
    omega
  rw [hend]
  intro n
  induction n with
  | zero =>
      intro st hne
      exact absurd rfl hne
  | succ n ih =>
      intro st
      refine .after (M.runs_label hstart) ((htest st).follows.bind ?_)
      rintro ⟨v, st₁⟩ _ - rfl
      by_cases hv : v = 0
      · subst hv
        exact fun _ =>
          ⟨_, (M.runs_if_zero hbranch (hdone.position? hnodup)).trans (M.runs_label hdone), rfl⟩
      · dsimp only
        rw [if_neg hv]
        refine .after (M.runs_if_nonzero hbranch hv) ((hact st₁).andThen ?_)
        intro st₂
        exact .after (M.runs_goto hback (hstart.position? hnodup)) (ih st₂)

mutual

/-- Running the code of a statement executes it. -/
theorem Lowers.executes {M : Machine} {R : Variables} {rest : Nat → Int32} {lo hi n : Nat}
    {t : ReturnType} : ∀ {s : Stmt} {c c' : Context} {F : Code}, Lowers s c F c' →
      M.Hosts c'.toNames R → s.valued c.toNames.scope = true → s.returnsAs t = true →
        c.meter.Settled → ∀ {pos : Nat} (st : Store), Placed M.code lo hi pos F →
          M.Follows lo hi (st.running R rest pos []) (s.exec M.calls n c.toNames.scope st)
            (Signal.Ends R rest (pos + F.length) t)
  | _, _, _, _, @Lowers.expr e c F k h, hM, hv, _, hc, pos, st, hF => by
      rw [Stmt.valued] at hv
      have hrise : c.meter.rise k.meter = e.results c.toNames.scope := h.rise_eq hv hc
      have hM₀ : M.Hosts c.toNames R := hM
      obtain ⟨hvalue, hpops⟩ := hF.append
      rw [List.length_append, ← Nat.add_assoc, Stmt.exec]
      refine (h.computes hM₀ hv st hvalue).follows.bind ?_
      rintro ⟨v?, st₁⟩ _ - ⟨hsome, rfl⟩
      -- there is a value to pop if the expression yields one
      rw [hrise, Expr.results, ← hsome] at hpops ⊢
      cases v? with
      | none => exact fun _ => ⟨_, .refl, rfl⟩
      | some v => exact fun _ => ⟨_, M.runs_instr hpops rfl, rfl⟩
  | _, _, _, _, .block hds hss, hM, hv, hr, hc, pos, st, hF => by
      have hscope := hds.grows.scope
      rw [Stmt.valued, ← hscope] at hv
      rw [Stmt.returnsAs] at hr
      obtain ⟨hdecls, hbody⟩ := hF.append
      rw [List.length_append, ← Nat.add_assoc, Stmt.exec, ← hscope]
      have hsettled := StackMeter.settled_of_climb (hds.meter_eq hc) (Nat.zero_le _)
      exact .after (hds.runs (hM.of_grows hss.grows) st hdecls)
        (hss.executes hM hv hr hsettled _ hbody)
  | _, _, _, _, @Lowers.ifThen e s c cond k yes c₁ he hs, hM, hv, hr, hc, pos, st, hF => by
      rw [Stmt.valued, Bool.and_eq_true] at hv
      rw [Stmt.returnsAs] at hr
      obtain ⟨hy, hve⟩ := Expr.isOperand_iff.mp hv.1
      obtain ⟨hmeter, hneed⟩ := he.condition_meter_eq hv.1 hc
      have hM₁ : M.Hosts c₁.toNames R := hM
      have hM₀ : M.Hosts (c.withCounters k).toNames R := hM₁.of_grows hs.grows
      obtain ⟨hcond, hbranch, hyes, hdone⟩ := hF.ifThen
      have hend : pos + (Code.ifThen cond yes c₁.labels).length =
          pos + cond.length + 1 + yes.length + 1 := by
        simp only [Code.ifThen, List.length_append, List.length_cons, List.length_nil]
        omega
      rw [Stmt.exec, hend]
      refine ((he.computes hM₀ hve st hcond).operand hy).follows.bind ?_
      rintro ⟨v, st₁⟩ _ - rfl
      by_cases hzero : v = 0
      · subst hzero
        exact fun _ => ⟨_, (M.runs_if_zero hbranch (hdone.position? hM.labels)).trans
          (M.runs_label hdone), rfl⟩
      · dsimp only
        rw [if_neg hzero]
        have hsettled := StackMeter.settled_of_climb hmeter hneed
        exact .after (M.runs_if_nonzero hbranch hzero)
          ((hs.executes hM₁ hv.2 hr hsettled st₁ hyes).pass fun _ => M.runs_label hdone)
  | _, _, _, _, @Lowers.ifElse e s s' c cond k yes c₁ no c₂ he hs hs', hM, hv, hr, hc, pos, st,
      hF => by
      rw [Stmt.valued, Bool.and_eq_true, Bool.and_eq_true] at hv
      rw [Stmt.returnsAs, Bool.and_eq_true] at hr
      obtain ⟨hy, hve⟩ := Expr.isOperand_iff.mp hv.1.1
      obtain ⟨hmeter, hneed⟩ := he.condition_meter_eq hv.1.1 hc
      have hsettled := StackMeter.settled_of_climb hmeter hneed
      have hscope : c₁.toNames.scope = c.toNames.scope.extend s.declared := hs.grows.scope
      have hM₂ : M.Hosts c₂.toNames R := hM
      have hM₁ : M.Hosts c₁.toNames R := hM₂.of_grows hs'.grows
      have hM₀ : M.Hosts (c.withCounters k).toNames R := hM₁.of_grows hs.grows
      obtain ⟨hcond, hbranch, hyes, hgoto, hno, hdone⟩ := hF.ifElse
      have hend : pos + (Code.ifElse cond yes no (c₂.labels + 1) c₂.labels).length =
          pos + cond.length + 1 + yes.length + 2 + no.length + 1 := by
        simp only [Code.ifElse, List.length_append, List.length_cons, List.length_nil]
        omega
      rw [Stmt.exec, hend]
      refine ((he.computes hM₀ hve st hcond).operand hy).follows.bind ?_
      rintro ⟨v, st₁⟩ _ - rfl
      by_cases hzero : v = 0
      · subst hzero
        have hsettled' := StackMeter.settled_of_climb (hs.meter_eq hv.1.2 hsettled) (Nat.zero_le _)
        have hexec : M.Follows lo hi
            (st₁.running R rest (pos + cond.length + 1 + yes.length + 2) [])
            (s'.exec M.calls n c₁.toNames.scope st₁)
            (Signal.Ends R rest (pos + cond.length + 1 + yes.length + 2 + no.length) t) :=
          hs'.executes hM₂ (hscope ▸ hv.2) hr.2 hsettled' st₁ hno
        rw [hscope] at hexec
        refine .after (M.runs_if_zero hbranch (hgoto.tail.position? hM.labels)) ?_
        exact .after (M.runs_label hgoto.tail) (hexec.pass fun _ => M.runs_label hdone)
      · dsimp only
        rw [if_neg hzero]
        refine .after (M.runs_if_nonzero hbranch hzero) ?_
        refine (hs.executes hM₁ hv.1.2 hr.1 hsettled st₁ hyes).pass fun st₂ => ?_
        exact (M.runs_goto hgoto (hdone.position? hM.labels)).trans (M.runs_label hdone)
  | _, _, _, _, @Lowers.loop e s c cond k body c₁ he hs, hM, hv, hr, hc, pos, st, hF => by
      rw [Stmt.valued, Bool.and_eq_true] at hv
      rw [Stmt.returnsAs] at hr
      obtain ⟨hy, hve⟩ := Expr.isOperand_iff.mp hv.1
      obtain ⟨hmeter, hneed⟩ := he.condition_meter_eq hv.1 hc
      have hM₁ : M.Hosts c₁.toNames R := hM
      have hM₀ : M.Hosts (c.withCounters k).toNames R := hM₁.of_grows hs.grows
      obtain ⟨-, hcond, -, hbody, -⟩ := hF.loop
      rw [Stmt.exec]
      refine M.follows_loop hM.labels hF ?_ ?_ n st
      · intro st₁
        exact (he.computes hM₀ hve st₁ hcond).operand hy
      · intro st₁
        exact hs.executes hM₁ hv.2 hr (StackMeter.settled_of_climb hmeter hneed) st₁ hbody
  | _, _, _, _, .retValue h, hM, hv, hr, hc, pos, st, hF => by
      rw [Stmt.valued] at hv
      obtain ⟨hy, hve⟩ := Expr.isOperand_iff.mp hv
      obtain ⟨hvalue, hreturn⟩ := hF.append
      rw [Stmt.exec]
      refine ((h.computes hM hve st hvalue).operand hy).follows.bind ?_
      rintro ⟨v, st₁⟩ _ - rfl
      exact fun _ => ⟨_, M.runs_of_act hreturn rfl rfl, beq_iff_eq.mp hr, rfl⟩
  | _, _, _, _, .retVoid, hM, _, hr, _, pos, st, hF => by
      rw [Stmt.exec]
      exact fun _ => ⟨_, M.runs_of_act hF rfl rfl, beq_iff_eq.mp hr, rfl⟩

theorem LowersAll.executes {M : Machine} {R : Variables} {rest : Nat → Int32} {lo hi n : Nat}
    {t : ReturnType} : ∀ {ss : List Stmt} {c c' : Context} {F : Code}, LowersAll ss c F c' →
      M.Hosts c'.toNames R → Stmt.valuedAll c.toNames.scope ss = true →
        Stmt.returnsAsAll t ss = true → c.meter.Settled → ∀ {pos : Nat} (st : Store),
          Placed M.code lo hi pos F →
            M.Follows lo hi (st.running R rest pos [])
              (Stmt.execAll M.calls n c.toNames.scope ss st)
              (Signal.Ends R rest (pos + F.length) t)
  | _, _, _, _, .nil, _, _, _, _, _, st, _ => by
      rw [Stmt.execAll]
      exact fun _ => ⟨_, .refl, rfl⟩
  | _, _, _, _, .cons h hs, hM, hv, hr, hc, _, st, hF => by
      rw [Stmt.valuedAll, Bool.and_eq_true] at hv
      rw [Stmt.returnsAsAll, Bool.and_eq_true] at hr
      have hscope := h.grows.scope
      have hsettled := StackMeter.settled_of_climb (h.meter_eq hv.1 hc) (Nat.zero_le _)
      obtain ⟨hfirst, hrest⟩ := hF.append
      rw [Stmt.execAll, List.length_append, ← Nat.add_assoc, ← hscope]
      refine (h.executes (hM.of_grows hs.grows) hv.1 hr.1 hc st hfirst).andThen ?_
      intro st₁
      exact hs.executes hM (hscope ▸ hv.2) hr.2 hsettled st₁ hrest

end

/-! ## Functions -/

/-- Control does not get past a `return`. -/
theorem Stmt.execAll_ne_done {I : Interp} {n : Nat} :
    ∀ {ss : List Stmt} {S : Scope} {st st' : Store},
    endsInReturn ss = true → Stmt.execAll I n S ss st ≠ .ok (.done, st')
  | [], _, _, _, h => by cases h
  | [s], S, st, st', h => by
      rw [Stmt.execAll]
      cases s with
      | ret v? =>
          cases v? with
          | none =>
              rw [Stmt.exec]
              rintro ⟨⟩
          | some e =>
              rw [Stmt.exec]
              cases operandOf (e.eval S I st) <;> rintro ⟨⟩
      | _ => cases h
  | s :: s' :: ss, S, st, st', h => by
      have hrest : endsInReturn (s' :: ss) = true := by
        rwa [endsInReturn, List.getLast?_cons_cons] at h
      rw [Stmt.execAll]
      cases s.exec I n S st with
      | error e => rintro ⟨⟩
      | ok result =>
          obtain ⟨signal, st₁⟩ := result
          cases signal with
          | done => exact Stmt.execAll_ne_done hrest
          | returned v? => rintro ⟨⟩

theorem lookup_zip_of_getElem? {names : List String} {x : String} :
    ∀ {args : List Int32} {s : Nat}, names.Nodup → names[s]? = some x →
      (names.zip args).lookup x = args[s]? := by
  induction names with
  | nil =>
      intro args s _ h
      cases h
  | cons y names ih =>
      intro args s hnodup h
      obtain ⟨hy, hnames⟩ := List.nodup_cons.mp hnodup
      cases args with
      | nil => rfl
      | cons a args =>
          cases s with
          | zero =>
              cases h
              exact List.lookup_cons_self
          | succ s =>
              have hne : (x == y) = false := by
                rw [beq_eq_false_iff_ne]
                rintro rfl
                exact hy (List.mem_of_getElem? h)
              rw [List.zip_cons_cons, List.lookup_cons, hne]
              exact ih hnames h

/-- A new activation holds the arguments where the store at entry has them. -/
theorem FunDecl.slots_entry {f : FunDecl} {R : Variables} {args : List Int32}
    (hR : f.arguments f.signature <+: R.entries)
    (hargs : args.length = (f.arguments f.signature).length) (w : World) :
    (f.entry args w).slots R (Frame.fresh args).slots = (Frame.fresh args).slots := by
  refine Store.slots_eq fun x v s hlocate => ?_
  obtain ⟨hentry, rfl⟩ := Registry.locate?_eq_some_iff.mp hlocate
  obtain ⟨more, hmore⟩ := hR
  -- there are no arguments beyond the parameters, so all variables may be listed
  have hzip : (R.entries.map Variable.name).zip args =
      ((f.arguments f.signature).map Variable.name).zip args := by
    have hlength : ((f.arguments f.signature).map Variable.name).length = args.length := by
      rw [List.length_map, hargs]
    calc (R.entries.map Variable.name).zip args
        = ((f.arguments f.signature).map Variable.name ++ more.map Variable.name).zip
            (args ++ []) := by rw [← hmore, List.map_append, List.append_nil]
      _ = ((f.arguments f.signature).map Variable.name).zip args ++ List.zip _ [] :=
          List.zip_append hlength
      _ = ((f.arguments f.signature).map Variable.name).zip args := by
          rw [List.zip_nil_right, List.append_nil]
  have hname : (R.entries.map Variable.name)[s]? = some v.name := by
    rw [List.getElem?_map, hentry]
    rfl
  change args[s]?.getD 0 = (List.lookup _ _).getD 0
  rw [← hzip, lookup_zip_of_getElem? R.nodup_entries hname]

/-- What the reference semantics asks of a program: operands yield values, and
every `return` has a value just if the function is to return one. The entry point
has a signature of its own, so its declaration must not say otherwise. -/
structure Program.WellFormed (config : Config) (p : Program) : Prop where
  valued : p.WellValued config
  returns : ∀ f ∈ p.functions, Stmt.returnsAsAll f.returns f.body = true
  entry : ∀ f ∈ p.functions, f.name = Signature.entryName → f.params = [] ∧ f.returns = .void

instance (config : Config) (p : Program) : Decidable (p.WellFormed config) :=
  decidable_of_iff (p.WellValued config
      ∧ (∀ f ∈ p.functions, Stmt.returnsAsAll f.returns f.body = true)
      ∧ ∀ f ∈ p.functions, f.name = Signature.entryName → f.params = [] ∧ f.returns = .void)
    ⟨fun ⟨hv, hr, he⟩ => ⟨hv, hr, he⟩, fun ⟨hv, hr, he⟩ => ⟨hv, hr, he⟩⟩

namespace Program.WellFormed

variable {config : Config} {p : Program} {f : FunDecl}

theorem returns_signature (h : p.WellFormed config) (hf : f ∈ p.functions) :
    f.signature.returns = f.returns := by
  unfold FunDecl.signature
  split
  · rename_i hname
    exact (h.entry f hf hname).2.symm
  · rfl

/-- As many slots are taken at entry as there are arguments to fill them. -/
theorem length_arguments (h : p.WellFormed config) (hf : f ∈ p.functions) :
    (f.arguments f.signature).length = f.signature.arity := by
  unfold FunDecl.signature
  split
  · rename_i hname
    rw [FunDecl.arguments, (h.entry f hf hname).1]
    rfl
  · simp [FunDecl.arguments, Signature.isEntryPoint, Signature.arity, Signature.params]

end Program.WellFormed

/-- Where a method ends: it returns the result. -/
def FunDecl.Ends (f : FunDecl) (result : Option Int32 × World) (c : Status) : Prop :=
  result.1.isSome = (f.returns == .int) ∧ c = .returned result.1 result.2

/-- The header of a method does nothing. -/
theorem Machine.runs_header {M : Machine} {lo hi pos stackLimit localsLimit : Nat}
    {access descriptor : String} {stack : List Cell} {slots : Nat → Int32} {w : World}
    (h : Placed M.code lo hi pos (Method.header access descriptor stackLimit localsLimit)) :
    M.Runs lo hi (.running ⟨pos, stack, slots⟩ w) (.running ⟨pos + 3, stack, slots⟩ w) := by
  refine (M.runs_directive h (by simp)).trans ?_
  exact (M.runs_directive h.tail (by simp)).trans (M.runs_directive h.tail.tail (by simp))

/-- The end of a method: the `return` that was supplied, or the line that control
must not reach. -/
theorem Machine.follows_ending {M : Machine} {R : Variables} {rest : Nat → Int32}
    {lo hi pos : Nat} {f : FunDecl} (hreturns : f.signature.returns = f.returns)
    (hopen : ¬endsInReturn f.body = true)
    (hF : Placed M.code lo hi pos (f.ending f.signature ++ Code.methodEnd)) (st : Store) :
    M.Follows lo hi (st.running R rest pos [])
      (if f.returns = .void then .ok (none, st.world) else .error .noResult) f.Ends := by
  rw [FunDecl.ending, if_neg hopen, hreturns] at hF
  by_cases hvoid : f.returns = .void
  · rw [if_pos hvoid] at hF ⊢
    refine fun _ => ⟨_, M.runs_of_act hF rfl rfl, ?_, rfl⟩
    rw [hvoid]
    rfl
  · rw [if_neg hvoid] at hF ⊢
    exact fun _ => M.runs_endMethod hF

/-- The method of a function does what the function does. -/
theorem Compiles.executes {config : Config} {p : Program} {f : FunDecl} {c c' : Context}
    {m : Method} {M : Machine} (h : Compiles f c m c') (hready : c.Ready config p)
    (hf : f ∈ p.functions) (hp : p.WellFormed config) (hcls : M.cls = config.className)
    (hfunctions : M.functions = p.functions.map FunDecl.signature) (hcode : M.code = m.code)
    {args : List Int32} (hargs : args.length = f.signature.arity) (n : Nat) (w : World) :
    M.Follows 0 M.code.length (.running (.fresh args) w) (f.run config p M.calls n args w)
      f.Ends := by
  have hnodup : (Code.labels M.code).Nodup := hcode ▸ h.labelled.nodup
  have hplaced := Placed.of_eq hcode
  cases h with
  | @intro s frame decls c₁ lines c₂ hs hframe hdecls hlines =>
      obtain rfl : f.signature = s := Option.some.inj ((hready.signature hf).symm.trans hs)
      have hscope := hdecls.grows.scope
      rw [hready.scope hframe] at hscope
      have hvalued := hp.valued f hf
      rw [← hscope] at hvalued
      have hzero : (c.fresh.withFrame frame).meter.Settled := Int.le_refl 0
      have hsettled := StackMeter.settled_of_climb (hdecls.meter_eq hzero) (Nat.zero_le _)
      have hgrows := hdecls.grows.trans hlines.grows
      have hR : f.arguments f.signature <+: c₂.frame.entries := by
        rw [← hframe]
        exact ⟨_, hgrows.entries.symm⟩
      have hM : M.Hosts c₂.toNames c₂.frame := {
        cls := by rw [hcls, hgrows.config, ← hready.config]; rfl
        functions := by rw [hfunctions, hgrows.functions, ← hready.functions]; rfl
        labels := hnodup
        frame := List.prefix_refl _ }
      obtain ⟨hheader, hbody⟩ := hplaced.append
      rw [List.append_assoc (decls ++ lines)] at hbody
      obtain ⟨hinits, hstmts, hending⟩ := hbody.append_append
      have hentry := f.slots_entry hR (hargs.trans (hp.length_arguments hf).symm) w
      have hstart : Status.running (.fresh args) w =
          (f.entry args w).running c₂.frame (Frame.fresh args).slots 0 [] := by
        rw [Store.running, hentry]
        rfl
      rw [hstart]
      refine .after (M.runs_header hheader) ?_
      refine .after (hdecls.runs (hM.of_grows hlines.grows) _ hinits) ?_
      rw [FunDecl.run, ← hscope]
      refine (hlines.executes hM hvalued (hp.returns f hf) hsettled _ hstmts).bind ?_
      rintro ⟨signal, st⟩ c hexec hc
      cases signal with
      | returned v? => exact fun _ => ⟨c, .refl, hc⟩
      | done =>
          subst hc
          have hopen : ¬endsInReturn f.body = true := fun hlast =>
            Stmt.execAll_ne_done hlast hexec
          exact M.follows_ending (hp.returns_signature hf) hopen hending st

end JasminGen
