import JasminGen.Proofs.Scope

/-!
# How much stack the meter finds

The meter never looks at the code. It is told of pushes and pops, by every
construct in turn, and a condition stays counted while the body it guards is
lowered. `need` says on the tree what comes of that: how far above its starting
point the depth gets. `StackMeter.climb` is the effect on the meter: the depth
ends `rise` higher, having been `need` higher in between. Two climbs in sequence
are one (`StackMeter.climb_climb`), so the effect of a construct follows from
those of its parts, and the stack limit of a method is the need of its body
(`Compiles.stackLimit_eq`; `stackLimits_eq_need` for a whole class).
-/

namespace JasminGen

/-! ## Need -/

def UnaryOp.need : UnaryOp → Nat → Nat
  | neg, n => n
  | not, n => n
  | increment, n => max n 2
  | decrement, n => max n 2

/-- What lies on the stack while the right operand is computed: the left operand,
and its duplicate where `or` makes one. -/
def BinaryOp.held (op : BinaryOp) (l : Expr) : Nat :=
  if op = .or ∧ l.isLeaf = false then 2 else 1

mutual

def Expr.need (S : Scope) : Expr → Nat
  | .ident x => if S.type? x = some .int then 1 else 0
  | .lit _ => 1
  | .paren e => e.need S
  | .assign _ e => e.need S
  | .unary op e => op.need (e.need S)
  | .binary op l r => max (l.need S) (op.held l + r.need S)
  | .call _ es => 1 + Expr.needAll S es
  | .index _ _ => 0
  | .indexAssign _ _ _ => 0

/-- The need of arguments, each computed on top of those before it. -/
def Expr.needAll (S : Scope) : List Expr → Nat
  | [] => 0
  | e :: es => max (e.need S) (1 + Expr.needAll S es)

end

def VarDecl.need (d : VarDecl) : Nat :=
  match d.init? with
  | some _ => 1
  | none => 0

def VarDecl.needAll : List VarDecl → Nat
  | [] => 0
  | d :: ds => max d.need (VarDecl.needAll ds)

mutual

def Stmt.need (S : Scope) : Stmt → Nat
  | .expr e => e.need S
  | .block ds ss => max (VarDecl.needAll ds) (Stmt.needAll (S.extend ds) ss)
  | .ifThen c s => max (c.need S) (1 + s.need S)
  | .ifElse c s s' =>
      max (c.need S) (max (1 + s.need S) (1 + s'.need (S.extend s.declared)))
  | .loop c s => max (c.need S) (1 + s.need S)
  | .ret none => 0
  | .ret (some e) => e.need S

def Stmt.needAll (S : Scope) : List Stmt → Nat
  | [] => 0
  | s :: ss => max (s.need S) (Stmt.needAll (S.extend s.declared) ss)

end

/-- The need of a function's body. -/
def FunDecl.need (S : Scope) (f : FunDecl) : Nat :=
  max (VarDecl.needAll f.locals) (Stmt.needAll (S.extend f.locals) f.body)

/-- How many values an expression leaves. -/
def Expr.results (S : Scope) (e : Expr) : Nat := (e.yields S).toNat

theorem Expr.results_of_yields {S : Scope} {e : Expr} (h : e.yields S = true) :
    e.results S = 1 := by
  rw [results, h]
  rfl

theorem ReturnType.results_le_one (t : ReturnType) : t.results ≤ 1 := by
  cases t <;> decide

theorem BinaryOp.one_le_held (op : BinaryOp) (l : Expr) : 1 ≤ op.held l := by
  unfold held
  split <;> omega

/-- What an expression leaves has been on the stack. -/
theorem Expr.results_le_need {S : Scope} : ∀ {e : Expr}, e.valued S = true →
    e.results S ≤ e.need S
  | .ident x, _ => by
      by_cases hx : S.type? x = some .int <;> simp [results, yields, need, hx]
  | .lit _, _ => by simp [results, yields, need]
  | .paren e, h => by
      rw [Expr.valued] at h
      exact Expr.results_le_need (e := e) h
  | .assign _ _, _ => Nat.zero_le _
  | .unary op e, h => by
      rw [Expr.valued, Bool.and_eq_true] at h
      have hone := Expr.results_of_yields h.1
      have hle := Expr.results_le_need h.2
      cases op <;> simp only [results, yields, need, UnaryOp.need, Bool.toNat_true] <;> omega
  | .binary op l r, _ => by
      have hheld := op.one_le_held l
      simp only [results, yields, need, Bool.toNat_true]
      omega
  | .call f es, _ => by
      have hone := Bool.toNat_le (Expr.yields S (.call f es))
      simp only [results, need]
      omega
  | .index _ _, _ => Nat.zero_le _
  | .indexAssign _ _ _, _ => Nat.zero_le _

theorem Expr.length_le_needAll (S : Scope) (es : List Expr) :
    es.length ≤ Expr.needAll S es := by
  induction es with
  | nil => exact Nat.zero_le _
  | cons e es ih =>
      rw [List.length_cons, Expr.needAll]
      omega

/-! ## The meter -/

namespace StackMeter

/-- The meter after code that ends `rise` higher and was `need` higher in
between. -/
def climb (m : StackMeter) (need rise : Nat) : StackMeter :=
  { m with
    current := m.current + rise
    maximum := max m.maximum (m.current + need) }

/-- The maximum covers the depth. -/
def Settled (m : StackMeter) : Prop := m.current ≤ m.maximum

theorem climb_zero {m : StackMeter} (h : m.Settled) : m.climb 0 0 = m := by
  have hmax : max m.maximum (m.current + (0 : Nat)) = m.maximum := by
    unfold Settled at h
    omega
  unfold climb
  rw [hmax]
  simp

theorem climb_one (m : StackMeter) : m.move 1 = m.climb 1 1 := rfl

theorem settled_of_climb {m m' : StackMeter} {need rise : Nat} (hm : m' = m.climb need rise)
    (h : rise ≤ need) : m'.Settled := by
  rw [hm]
  unfold Settled climb
  dsimp only
  omega

theorem climb_climb (m : StackMeter) (need rise need' rise' : Nat) :
    (m.climb need rise).climb need' rise' =
      m.climb (max need (rise + need')) (rise + rise') := by
  unfold climb
  congr 1
  · dsimp only
    omega
  · dsimp only
    omega

theorem climb_rise (m : StackMeter) (need rise d : Nat) :
    (m.climb need rise).move d = m.climb (max need (rise + d)) (rise + d) := by
  unfold climb move
  congr 1
  · dsimp only
    omega
  · dsimp only
    omega

/-- Taking values off again does not raise the maximum. -/
theorem climb_move (m : StackMeter) {need rise : Nat} (d : Nat) (hd : d ≤ rise)
    (h : rise ≤ need) : (m.climb need rise).move (-d) = m.climb need (rise - d) := by
  unfold climb move
  congr 1
  · dsimp only
    omega
  · dsimp only
    omega

/-- A value that comes and goes may raise the maximum. -/
theorem climb_push_pop (m : StackMeter) (need rise : Nat) :
    ((m.climb need rise).move 1).move (-1) = m.climb (max need (rise + 1)) rise := by
  rw [climb_one, climb_climb]
  exact climb_move m 1 (by omega) (by omega)

end StackMeter

/-! ## Expressions -/

theorem Expr.isOperand_iff {S : Scope} {e : Expr} :
    e.isOperand S = true ↔ e.yields S = true ∧ e.valued S = true := by
  rw [isOperand, Bool.and_eq_true]

theorem Expr.one_le_need {S : Scope} {e : Expr} (h : e.isOperand S = true) : 1 ≤ e.need S := by
  obtain ⟨hy, hv⟩ := Expr.isOperand_iff.mp h
  exact Expr.results_of_yields hy ▸ Expr.results_le_need hv

/-- Two operands and the operator that makes one value of them. -/
theorem StackMeter.climb_operands {S : Scope} {op : BinaryOp} {l r : Expr}
    {m m₁ m₂ : StackMeter} (hheld : op.held l = 1)
    (hv : (Expr.binary op l r).valued S = true)
    (hl : l.valued S = true → m₁ = m.climb (l.need S) (l.results S))
    (hr : r.valued S = true → m₁.Settled → m₂ = m₁.climb (r.need S) (r.results S)) :
    m₂.move (-1) =
      m.climb ((Expr.binary op l r).need S) ((Expr.binary op l r).results S) := by
  rw [Expr.valued, Bool.and_eq_true, ← Expr.isOperand, ← Expr.isOperand, Expr.isOperand_iff,
    Expr.isOperand_iff] at hv
  obtain ⟨⟨hyl, hvl⟩, hyr, hvr⟩ := hv
  have hleft := hl hvl
  have hsettled := settled_of_climb hleft (Expr.results_le_need hvl)
  have hneed := Expr.results_le_need hvr
  rw [Expr.results_of_yields hyr] at hneed
  rw [hr hvr hsettled, hleft, Expr.results_of_yields hyl, Expr.results_of_yields hyr, climb_climb,
    Expr.need, hheld]
  exact climb_move m 1 (by omega) (by omega)

mutual

/-- Lowering an expression climbs by its need, and ends as much higher as it
leaves values. -/
theorem Emits.meter_eq {Γ : Names} : ∀ {e : Expr} {k k' : Counters} {code : Code},
    Emits Γ e k code k' → e.valued Γ.scope = true → k.meter.Settled →
      k'.meter = k.meter.climb (e.need Γ.scope) (e.results Γ.scope)
  | _, k, _, _, .scalar hload, _, _ => by
      have htype := Names.type?_of_load hload
      rw [Expr.need, if_pos htype, Expr.results, Expr.yields, htype]
      rfl
  | _, k, _, _, .array hload, _, hk => by
      have htype := Names.type?_of_load_none hload
      rw [Expr.need, Expr.results, Expr.yields, htype]
      exact (StackMeter.climb_zero hk).symm
  | _, _, _, _, .lit, _, _ => rfl
  | _, _, _, _, .paren h, hv, hk => by
      rw [Expr.valued] at hv
      exact h.meter_eq hv hk
  | _, k, _, _, .assign (e := e) h _, hv, hk => by
      rw [Expr.valued, ← Expr.isOperand, Expr.isOperand_iff] at hv
      have hle := Expr.results_le_need hv.2
      have hone := Expr.results_of_yields hv.1
      rw [Counters.meter_move, h.meter_eq hv.2 hk, hone]
      exact StackMeter.climb_move _ 1 (Nat.le_refl 1) (hone ▸ hle)
  | _, k, _, _, .neg h, hv, hk => by
      rw [Expr.valued, ← Expr.isOperand, Expr.isOperand_iff] at hv
      rw [h.meter_eq hv.2 hk, Expr.results_of_yields hv.1]
      rfl
  | _, k, _, _, .not h, hv, hk => by
      rw [Expr.valued, ← Expr.isOperand, Expr.isOperand_iff] at hv
      rw [Counters.meter_issue, h.meter_eq hv.2 hk, Expr.results_of_yields hv.1]
      rfl
  | _, k, _, _, .stepName (u := u) (x := x) hu h _, hv, hk => by
      rw [Expr.valued, ← Expr.isOperand, Expr.isOperand_iff] at hv
      have hone := Expr.results_of_yields hv.1
      have hneed : u.need ((Expr.ident x).need Γ.scope) = max ((Expr.ident x).need Γ.scope) 2 := by
        cases u <;> first | rfl | cases hu
      simp only [Counters.meter_move]
      -- the constant comes and goes, then the duplicate does
      rw [Expr.need, hneed, h.meter_eq hv.2 hk, hone, StackMeter.climb_push_pop,
        StackMeter.climb_push_pop]
      exact congrArg (k.meter.climb · 1) (by omega)
  | _, k, _, _, .step (u := u) (e := e) hu _ h, hv, hk => by
      rw [Expr.valued, ← Expr.isOperand, Expr.isOperand_iff] at hv
      have hone := Expr.results_of_yields hv.1
      have hneed : u.need (e.need Γ.scope) = max (e.need Γ.scope) 2 := by
        cases u <;> first | rfl | cases hu
      simp only [Counters.meter_move]
      rw [Expr.need, hneed, h.meter_eq hv.2 hk, hone, StackMeter.climb_push_pop]
      rfl
  | _, _, _, _, .arith hl hr, hv, hk =>
      StackMeter.climb_operands (by simp [BinaryOp.held]) hv (hl.meter_eq · hk) hr.meter_eq
  | _, _, _, _, .compare hl hr, hv, hk =>
      StackMeter.climb_operands (by simp [BinaryOp.held]) hv (hl.meter_eq · hk) hr.meter_eq
  | _, _, _, _, .and hl hr, hv, hk =>
      StackMeter.climb_operands (by simp [BinaryOp.held]) hv (hl.meter_eq · hk) hr.meter_eq
  | _, _, _, _, .orReload hleaf hl hr, hv, hk =>
      StackMeter.climb_operands (by simp [BinaryOp.held, hleaf]) hv (hl.meter_eq · hk) hr.meter_eq
  | _, _, _, _, @Emits.orDup _ l r k _ k₁ _ _ hleaf hl hr, hv, hk => by
      rw [Expr.valued, Bool.and_eq_true, ← Expr.isOperand, ← Expr.isOperand, Expr.isOperand_iff,
        Expr.isOperand_iff] at hv
      obtain ⟨⟨hyl, hvl⟩, hyr, hvr⟩ := hv
      have hdup : (k₁.move 1).meter = k.meter.climb (max (l.need Γ.scope) 2) 2 := by
        rw [Counters.meter_move, hl.meter_eq hvl hk, Expr.results_of_yields hyl]
        exact StackMeter.climb_rise _ _ 1 1
      have hright := hr.meter_eq hvr (StackMeter.settled_of_climb hdup (by omega))
      have hneed := Expr.results_le_need hvr
      rw [Expr.results_of_yields hyr] at hneed
      have hheld : BinaryOp.or.held l = 2 := by simp [BinaryOp.held, hleaf]
      rw [Counters.meter_issue, Counters.meter_move, hright, hdup, Expr.results_of_yields hyr,
        StackMeter.climb_climb, Expr.need, hheld, show (-2 : Int) = -(2 : Nat) from rfl,
        StackMeter.climb_move _ 2 (by omega) (by omega)]
      exact congrArg (k.meter.climb · 1) (by omega)
  | _, _, _, _, @Emits.call _ f es t k _ k' ht h, hv, hk => by
      rw [Expr.valued] at hv
      have hargs : k'.meter = k.meter.climb (1 + Expr.needAll Γ.scope es) (1 + es.length) := by
        rw [h.meter_eq hv (StackMeter.settled_of_climb rfl (Nat.le_refl 1)), Counters.meter_move,
          StackMeter.climb_one, StackMeter.climb_climb, Nat.max_eq_right (by omega)]
      have hlen := Expr.length_le_needAll Γ.scope es
      have hresults : (Expr.call f es).results Γ.scope = t.returns.results := by
        rw [Expr.results, Expr.yields, Names.returns?_of_calleeFor ht]
        cases t.returns <;> rfl
      have hone := t.returns.results_le_one
      rw [Counters.meter_move, Counters.meter_move, hargs, hresults, Expr.need,
        show (-((es.length : Int) + 1)) = -((es.length + 1 : Nat) : Int) from rfl,
        StackMeter.climb_move _ _ (by omega) (by omega), StackMeter.climb_rise]
      congr 1 <;> omega

theorem EmitsAll.meter_eq {Γ : Names} : ∀ {es : List Expr} {k k' : Counters} {code : Code},
    EmitsAll Γ es k code k' → Expr.valuedAll Γ.scope es = true → k.meter.Settled →
      k'.meter = k.meter.climb (Expr.needAll Γ.scope es) es.length
  | _, _, _, _, .nil, _, hk => (StackMeter.climb_zero hk).symm
  | _, k, _, _, @EmitsAll.cons _ e es _ _ _ _ _ h hs, hv, hk => by
      rw [Expr.valuedAll, Bool.and_eq_true, ← Expr.isOperand, Expr.isOperand_iff] at hv
      obtain ⟨⟨hy, hve⟩, hvs⟩ := hv
      have hfirst := h.meter_eq hve hk
      have hsettled := StackMeter.settled_of_climb hfirst (Expr.results_le_need hve)
      rw [hs.meter_eq hvs hsettled, hfirst, Expr.results_of_yields hy,
        StackMeter.climb_climb, Expr.needAll, List.length_cons, Nat.add_comm es.length]

end

/-! ## Statements -/

theorem Declares.meter_eq {d : VarDecl} {c c' : Context} {code : Code} (h : Declares d c code c')
    (hc : c.meter.Settled) : c'.meter = c.meter.climb d.need 0 := by
  cases h with
  | bare _ hinit =>
      rw [VarDecl.need, hinit]
      exact (StackMeter.climb_zero hc).symm
  | init _ hinit =>
      rw [VarDecl.need, hinit]
      exact StackMeter.climb_move c.meter 1 (Nat.le_refl 1) (Nat.le_refl 1)

theorem DeclaresAll.meter_eq : ∀ {ds : List VarDecl} {c c' : Context} {code : Code},
    DeclaresAll ds c code c' → c.meter.Settled →
      c'.meter = c.meter.climb (VarDecl.needAll ds) 0
  | _, _, _, _, .nil, hc => (StackMeter.climb_zero hc).symm
  | _, c, _, _, .cons h hs, hc => by
      have hfirst := h.meter_eq hc
      have hsettled := StackMeter.settled_of_climb hfirst (Nat.zero_le _)
      rw [hs.meter_eq hsettled, hfirst, StackMeter.climb_climb, VarDecl.needAll, Nat.zero_add]

/-- A condition is counted until the statement it guards has been lowered. -/
theorem Emits.condition_meter_eq {Γ : Names} {e : Expr} {k k' : Counters} {code : Code}
    (h : Emits Γ e k code k') (hv : e.isOperand Γ.scope = true) (hk : k.meter.Settled) :
    k'.meter = k.meter.climb (e.need Γ.scope) 1 ∧ 1 ≤ e.need Γ.scope := by
  obtain ⟨hy, hvalued⟩ := Expr.isOperand_iff.mp hv
  exact ⟨Expr.results_of_yields hy ▸ h.meter_eq hvalued hk, Expr.one_le_need hv⟩

/-- What an expression statement pops is what the expression leaves. -/
theorem Emits.rise_eq {Γ : Names} {e : Expr} {k k' : Counters} {code : Code}
    (h : Emits Γ e k code k') (hv : e.valued Γ.scope = true) (hk : k.meter.Settled) :
    k.meter.rise k'.meter = e.results Γ.scope := by
  rw [StackMeter.rise, h.meter_eq hv hk, StackMeter.climb]
  dsimp only
  omega

mutual

/-- A statement climbs by its need and ends where it started. -/
theorem Lowers.meter_eq : ∀ {s : Stmt} {c c' : Context} {code : Code},
    Lowers s c code c' → s.valued c.toNames.scope = true → c.meter.Settled →
      c'.meter = c.meter.climb (s.need c.toNames.scope) 0
  | _, _, _, _, @Lowers.expr e c _ k h, hv, hc => by
      rw [Stmt.valued] at hv
      have hmeter := h.meter_eq hv hc
      have hrise : c.meter.rise k.meter = e.results c.toNames.scope := h.rise_eq hv hc
      have hpop := StackMeter.climb_move c.meter _ (Nat.le_refl _) (Expr.results_le_need hv)
      rw [Nat.sub_self] at hpop
      rw [hrise, Stmt.need]
      exact (congrArg (StackMeter.move · _) hmeter).trans hpop
  | _, c, _, _, .block hds hss, hv, hc => by
      have hscope := hds.grows.scope
      rw [Stmt.valued, ← hscope] at hv
      have hdecls := hds.meter_eq hc
      have hsettled := StackMeter.settled_of_climb hdecls (Nat.zero_le _)
      rw [hss.meter_eq hv hsettled, hdecls, StackMeter.climb_climb, hscope, Stmt.need,
        Nat.zero_add]
  | _, _, _, _, @Lowers.ifThen e s c _ k _ c₁ he hs, hv, hc => by
      rw [Stmt.valued, Bool.and_eq_true] at hv
      obtain ⟨hcond, hone⟩ := he.condition_meter_eq hv.1 hc
      have hsettled := StackMeter.settled_of_climb hcond hone
      have hyes : c₁.meter = k.meter.climb (s.need c.toNames.scope) 0 := hs.meter_eq hv.2 hsettled
      change c₁.meter.move (-1) = _
      rw [hyes, hcond, StackMeter.climb_climb, Stmt.need]
      exact StackMeter.climb_move c.meter 1 (Nat.le_refl 1) (by omega)
  | _, _, _, _, @Lowers.ifElse e s s' c _ k _ c₁ _ c₂ he hs hs', hv, hc => by
      rw [Stmt.valued, Bool.and_eq_true, Bool.and_eq_true] at hv
      obtain ⟨hcond, hone⟩ := he.condition_meter_eq hv.1.1 hc
      have hsettled := StackMeter.settled_of_climb hcond hone
      have hyes : c₁.meter = k.meter.climb (s.need c.toNames.scope) 0 :=
        hs.meter_eq hv.1.2 hsettled
      have hscope : c₁.toNames.scope = c.toNames.scope.extend s.declared := hs.grows.scope
      rw [hcond, StackMeter.climb_climb] at hyes
      have hno := hs'.meter_eq (hscope ▸ hv.2)
        (StackMeter.settled_of_climb hyes (by omega))
      change c₂.meter.move (-1) = _
      rw [hno, hyes, StackMeter.climb_climb, hscope, Stmt.need]
      refine (StackMeter.climb_move c.meter 1 (Nat.le_refl 1) (by omega)).trans ?_
      exact congrArg (c.meter.climb · 0) (by omega)
  | _, _, _, _, @Lowers.loop e s c _ k _ c₁ he hs, hv, hc => by
      rw [Stmt.valued, Bool.and_eq_true] at hv
      obtain ⟨hcond, hone⟩ := he.condition_meter_eq hv.1 hc
      have hsettled := StackMeter.settled_of_climb hcond hone
      have hbody : c₁.meter = k.meter.climb (s.need c.toNames.scope) 0 := hs.meter_eq hv.2 hsettled
      change c₁.meter.move (-1) = _
      rw [hbody, hcond, StackMeter.climb_climb, Stmt.need]
      exact StackMeter.climb_move c.meter 1 (Nat.le_refl 1) (by omega)
  | _, _, _, _, @Lowers.retValue e c _ k h, hv, hc => by
      rw [Stmt.valued] at hv
      obtain ⟨hvalue, hone⟩ := h.condition_meter_eq hv hc
      change k.meter.move (-1) = _
      rw [hvalue, Stmt.need]
      exact StackMeter.climb_move c.meter 1 (Nat.le_refl 1) hone
  | _, _, _, _, .retVoid, _, hc => (StackMeter.climb_zero hc).symm

theorem LowersAll.meter_eq : ∀ {ss : List Stmt} {c c' : Context} {code : Code},
    LowersAll ss c code c' → Stmt.valuedAll c.toNames.scope ss = true → c.meter.Settled →
      c'.meter = c.meter.climb (Stmt.needAll c.toNames.scope ss) 0
  | _, _, _, _, .nil, _, hc => (StackMeter.climb_zero hc).symm
  | _, c, _, _, .cons h hs, hv, hc => by
      rw [Stmt.valuedAll, Bool.and_eq_true] at hv
      have hfirst := h.meter_eq hv.1 hc
      have hscope := h.grows.scope
      have hsettled := StackMeter.settled_of_climb hfirst (Nat.zero_le _)
      rw [hs.meter_eq (hscope ▸ hv.2) hsettled, hfirst, StackMeter.climb_climb, hscope,
        Stmt.needAll, Nat.zero_add]

end

/-! ## Methods -/

/-- The declared limit of a method is the need of the body it was lowered from. -/
theorem Compiles.stackLimit_eq {config : Config} {p : Program} {f : FunDecl} {c c' : Context}
    {m : Method} (h : Compiles f c m c') (hready : c.Ready config p) (hf : f ∈ p.functions)
    (hv : p.WellValued config) : m.stackLimit = f.need (p.scope config f) := by
  cases h with
  | @intro s frame decls c₁ lines c₂ hs hframe hdecls hlines =>
      obtain rfl : f.signature = s := Option.some.inj ((hready.signature hf).symm.trans hs)
      have hscope := hdecls.grows.scope
      rw [hready.scope hframe] at hscope
      have hvalued := hv f hf
      rw [← hscope] at hvalued
      have hzero : (c.fresh.withFrame frame).meter.Settled := Int.le_refl 0
      have hmeter := hdecls.meter_eq hzero
      have hbody := hlines.meter_eq hvalued (StackMeter.settled_of_climb hmeter (Nat.zero_le _))
      rw [hmeter, StackMeter.climb_climb, hscope] at hbody
      have harchived : c₂.meter.archived = [] :=
        (hdecls.grows.trans hlines.grows).archived.trans hready.archived
      change c₂.limit.1 = _
      rw [(Context.limit_of_archived harchived).1, hbody, FunDecl.need, Nat.zero_add]
      -- the meter started at zero
      change (max 0 ((0 : Int) + _)).toNat = _
      omega

/-- Computed above `n` other values, an argument needs its own room and that of the values
below it. -/
theorem Expr.max_zipIdx_need {S : Scope} : ∀ {es : List Expr} (n : Nat),
    Expr.valuedAll S es = true →
      max (1 + n) (((es.zipIdx n).map fun a => 1 + a.2 + a.1.need S).foldr max 0) =
        1 + n + Expr.needAll S es
  | [], n, _ => by simp [Expr.needAll]
  | e :: es, n, hv => by
      rw [Expr.valuedAll, Bool.and_eq_true, ← Expr.isOperand] at hv
      have hone := Expr.one_le_need hv.1
      have hrest := Expr.max_zipIdx_need (n + 1) hv.2
      rw [List.zipIdx_cons, List.map_cons, List.foldr_cons, Expr.needAll]
      dsimp only
      omega

/-- **Limits.** In every generated class whose operands yield values, the declared stack
limit of a function is the need of its body. A call needs one place, and for each argument
that place, those of the arguments before it and the need of the argument. -/
theorem stackLimits_eq_need {config : Config} {p : Program} {cls : ClassFile}
    (h : p.generate config = .ok cls) (hv : p.WellValued config) :
    cls.functions.map Method.stackLimit = p.functions.map (fun f => f.need (p.scope config f))
    ∧ ∀ (S : Scope) (g : String) (es : List Expr), Expr.valuedAll S es = true →
      (Expr.call g es).need S =
        max 1 ((es.zipIdx.map fun a => 1 + a.2 + a.1.need S).foldr max 0) := by
  obtain ⟨c₀, c₁, c₂, hgen⟩ := Program.generates h
  refine ⟨?_, fun S g es hes => ?_⟩
  · refine List.ext_getElem (by simp [hgen.forall₂.length_eq]) fun n hn hn' => ?_
    rw [List.length_map] at hn hn'
    obtain ⟨c, c', hready, hcompiles⟩ :=
      hgen.compiles_at (List.getElem?_eq_getElem hn') (List.getElem?_eq_getElem hn)
    rw [List.getElem_map, List.getElem_map]
    exact hcompiles.stackLimit_eq hready (List.getElem_mem hn') hv
  · rw [Expr.need]
    exact (Expr.max_zipIdx_need 0 hes).symm

/-- In Euclid's program the entry point prints inside a branch, so that its deepest point
is the computation of the second argument under a condition and a print. -/
theorem euclid_stackLimits : Program.euclid.WellValued {} ∧ ∃ cls,
    Program.euclid.generate {} = .ok cls ∧ cls.functions.map Method.stackLimit = [3, 5] := by
  have hv : Program.euclid.WellValued {} := by decide
  obtain ⟨cls, hcls⟩ := Program.exists_generate_euclid
  refine ⟨hv, cls, hcls, ?_⟩
  rw [(stackLimits_eq_need hcls hv).1]
  decide

end JasminGen
