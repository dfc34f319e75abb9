import JasminGen.Proofs.Computes

/-!
# What operators mean

There is no instruction that compares two integers and leaves the answer, so operators that
give a truth value are made of arithmetic and of a branch on zero. The arithmetic wraps
around, and what an operator means for operands far apart is not what its name says in every
case. This file says for which operands it is.

A comparison looks at the difference of its operands. Wrapped around, a difference is zero
only if the operands are equal, but it has the wrong sign exactly if it does not fit into 32
bits (`Comparison.holds_sub_of_not_fits`). So equality is always decided rightly, and order
whenever the difference fits (`comparison_pushes_order`).
-/

namespace JasminGen

/-! ## Comparison by difference -/

namespace Comparison

/-- The comparison of two integers. -/
def relates (o : Comparison) (a b : Int) : Bool :=
  match o with
  | eq => a == b
  | ne => a != b
  | le => decide (a ≤ b)
  | lt => decide (a < b)
  | ge => decide (b ≤ a)
  | gt => decide (b < a)

/-- Whether it matters which of the two is the larger. -/
def isOrder : Comparison → Bool
  | eq => false
  | ne => false
  | _ => true

theorem holds_eq_relates (o : Comparison) (a : Int32) : o.holds a = o.relates a.toInt 0 := by
  cases o with
  | eq => simp [holds, relates, ← Int32.toInt_inj]
  | ne => simp [holds, relates, bne, ← Int32.toInt_inj]
  | _ => simp [holds, relates, Int32.le_iff_toInt_le, Int32.lt_iff_toInt_lt]

theorem relates_sub (o : Comparison) (a b : Int) : o.relates (a - b) 0 = o.relates a b := by
  cases o <;> simp [relates, bne] <;> omega

/-- With the sign turned, order is reversed, and what differs still does. -/
theorem relates_of_opposite (o : Comparison) {a b d : Int}
    (h : (a < b ∧ 0 < d) ∨ (b < a ∧ d < 0)) : o.relates d 0 = (o.isOrder ^^ o.relates a b) := by
  rw [Bool.eq_iff_iff]
  cases o <;> simp [relates, isOrder] <;> omega

end Comparison

/-- The difference is a 32-bit integer. -/
def DifferenceFits (a b : Int32) : Prop :=
  -2147483648 ≤ a.toInt - b.toInt ∧ a.toInt - b.toInt ≤ 2147483647

instance (a b : Int32) : Decidable (DifferenceFits a b) := inferInstanceAs (Decidable (_ ∧ _))

theorem DifferenceFits.toInt_sub {a b : Int32} (h : DifferenceFits a b) :
    (a - b).toInt = a.toInt - b.toInt := by
  obtain ⟨hlow, hhigh⟩ := h
  rw [Int32.toInt_sub, Int.bmod_eq_of_le (by omega) (by omega)]

/-- A difference that does not fit changes its sign when it is wrapped around. -/
theorem toInt_sub_of_not_fits {a b : Int32} (h : ¬DifferenceFits a b) :
    (a.toInt < b.toInt ∧ 0 < (a - b).toInt) ∨ (b.toInt < a.toInt ∧ (a - b).toInt < 0) := by
  have ha := a.le_toInt
  have ha' := a.toInt_lt
  have hb := b.le_toInt
  have hb' := b.toInt_lt
  unfold DifferenceFits at h
  rw [Int32.toInt_sub, Int.bmod_eq_emod]
  split <;> omega

namespace Comparison

variable {a b : Int32}

theorem holds_sub_of_fits (o : Comparison) (h : DifferenceFits a b) :
    o.holds (a - b) = o.relates a.toInt b.toInt := by
  rw [holds_eq_relates, h.toInt_sub, relates_sub]

theorem holds_sub_of_not_fits (o : Comparison) (h : ¬DifferenceFits a b) :
    o.holds (a - b) = (o.isOrder ^^ o.relates a.toInt b.toInt) := by
  rw [holds_eq_relates, o.relates_of_opposite (toInt_sub_of_not_fits h)]

theorem holds_sub_of_not_isOrder {o : Comparison} (ho : o.isOrder = false) (a b : Int32) :
    o.holds (a - b) = o.relates a.toInt b.toInt := by
  by_cases h : DifferenceFits a b
  · exact o.holds_sub_of_fits h
  · rw [o.holds_sub_of_not_fits h, ho, Bool.false_xor]

end Comparison

/-! ## Relational operators -/

/-- The code of a comparison, after that of its operands. -/
theorem Expr.on_lower_compare {Γ : Names} (o : Comparison) {l r : Expr} {k k₁ k₂ : Counters}
    {left right : Code} (hl : (l.lower Γ).on k = (.ok left, k₁))
    (hr : (r.lower Γ).on k₁ = (.ok right, k₂)) :
    ((Expr.binary (.compare o) l r).lower Γ).on k =
      (.ok (left ++ right ++ Code.compare o k₂.labels (k₂.labels + 1)),
        (k₂.move (-1)).issue 2) := by
  rw [Expr.lower]
  simp only [Attempt.on_bind, hl, hr]
  rfl

/-- A machine for code that calls nothing. -/
def Machine.alone (code : Code) : Machine := ⟨"Test", [], fun _ _ w => .ok (0, w), code⟩

/-- The code that compares two literals. -/
def Code.compareLiterals (o : Comparison) (a b : Int32) : Code :=
  [.instr (.ldc a)] ++ [.instr (.ldc b)] ++ Code.compare o 0 1

theorem Expr.on_lower_literals (o : Comparison) (a b : Int32) :
    ((Expr.binary (.compare o) (.lit a) (.lit b)).lower {}).on {} =
      (.ok (Code.compareLiterals o a b), (((({} : Counters).move 1).move 1).move (-1)).issue 2) :=
  rfl

section Literals

variable (o : Comparison) (a b : Int32) (slots : Nat → Int32) (w : World)

theorem Code.nodup_labels_compareLiterals : (Code.labels (Code.compareLiterals o a b)).Nodup := by
  change [0, 1].Nodup
  decide

/-- Two literals are pushed, one after the other. -/
theorem Machine.runs_literals :
    (alone (Code.compareLiterals o a b)).Runs 0 9 (.running ⟨0, [], slots⟩ w)
      (.running ⟨1, [.int a], slots⟩ w)
    ∧ (alone (Code.compareLiterals o a b)).Runs 0 9 (.running ⟨1, [.int a], slots⟩ w)
      (.running ⟨2, [.int b, .int a], slots⟩ w) := by
  have hF : Placed (alone (Code.compareLiterals o a b)).code 0 9 0 (Code.compareLiterals o a b) :=
    .of_eq rfl
  exact ⟨Machine.runs_instr hF rfl, Machine.runs_instr hF.tail rfl⟩

end Literals

/-- **Comparisons.** Let the code of a comparison stand anywhere in code that defines no
label twice, and let its left operand push `a` and its right operand then push `b`. For `==`
and `!=`, and for the others if the difference of `a` and `b` fits, the comparison pushes 1
or 0 as the two stand to each other as signed integers. For the others, if the difference
does not fit, it pushes the opposite. -/
theorem comparison_pushes_order {Γ : Names} (o : Comparison) {l r : Expr} {k k₁ k₂ : Counters}
    {left right : Code} (hl : (l.lower Γ).on k = (.ok left, k₁))
    (hr : (r.lower Γ).on k₁ = (.ok right, k₂)) :
    ∃ tail k₃, ((Expr.binary (.compare o) l r).lower Γ).on k = (.ok (left ++ right ++ tail), k₃)
      ∧ ∀ (M : Machine) (lo hi pos : Nat), Placed M.code lo hi pos (left ++ right ++ tail) →
        (Code.labels M.code).Nodup →
        ∀ (stack : List Cell) (slots slots₁ slots₂ : Nat → Int32) (w w₁ w₂ : World) (a b : Int32),
          let start := Status.running ⟨pos, stack, slots⟩ w
          let middle := Status.running ⟨pos + left.length, .int a :: stack, slots₁⟩ w₁
          let operands := Status.running
            ⟨pos + left.length + right.length, .int b :: .int a :: stack, slots₂⟩ w₂
          let pushes (v : Bool) : Prop := M.Runs lo hi start (.running
            ⟨pos + (left ++ right ++ tail).length, .int v.toInt32 :: stack, slots₂⟩ w₂)
          M.Runs lo hi start middle → M.Runs lo hi middle operands →
            (o.isOrder = false ∨ DifferenceFits a b → pushes (o.relates a.toInt b.toInt))
            ∧ (o.isOrder = true ∧ ¬DifferenceFits a b → pushes (!o.relates a.toInt b.toInt)) := by
  refine ⟨_, _, Expr.on_lower_compare o hl hr, ?_⟩
  intro M lo hi pos hF hlabels stack slots slots₁ slots₂ w w₁ w₂ a b start middle operands pushes
    hleft hright
  obtain ⟨-, -, htail⟩ := hF.append_append
  have hpushes : pushes (o.holds (a - b)) := by
    simp only [pushes, List.length_append, ← Nat.add_assoc]
    exact (hleft.trans hright).trans (M.runs_compare hlabels htail)
  refine ⟨?_, ?_⟩
  · rintro (ho | hfits)
    · rwa [Comparison.holds_sub_of_not_isOrder ho] at hpushes
    · rwa [o.holds_sub_of_fits hfits] at hpushes
  · rintro ⟨ho, hfits⟩
    rwa [o.holds_sub_of_not_fits hfits, ho, Bool.true_xor] at hpushes

/-- The least integer is at most zero, and their difference just fits. -/
theorem least_le_zero_pushes_one :
    ∃ F k',
      ((Expr.binary (.compare .le) (.lit (-2147483648)) (.lit 0)).lower {}).on {} = (.ok F, k')
      ∧ (Machine.alone F).Runs 0 F.length (.running ⟨0, [], fun _ => 0⟩ ⟨fun _ => 0, []⟩)
          (.running ⟨F.length, [.int 1], fun _ => 0⟩ ⟨fun _ => 0, []⟩) := by
  have hl : ((Expr.lit (-2147483648)).lower {}).on {} =
      (.ok [.instr (.ldc (-2147483648))], ({} : Counters).move 1) := rfl
  have hr : ((Expr.lit 0).lower {}).on (({} : Counters).move 1) =
      (.ok [.instr (.ldc 0)], (({} : Counters).move 1).move 1) := rfl
  obtain ⟨tail, k', hlower, hpushes⟩ := comparison_pushes_order .le hl hr
  have hcode : [.instr (.ldc (-2147483648))] ++ [.instr (.ldc 0)] ++ tail =
      Code.compareLiterals .le (-2147483648) 0 :=
    Except.ok.inj (Prod.mk.inj (hlower.symm.trans (Expr.on_lower_literals ..))).1
  obtain ⟨hleft, hright⟩ :=
    Machine.runs_literals .le (-2147483648) 0 (fun _ => 0) ⟨fun _ => 0, []⟩
  rw [hcode] at hlower hpushes
  refine ⟨_, k', hlower, ?_⟩
  exact (hpushes (.alone (Code.compareLiterals .le (-2147483648) 0)) 0 9 0 (.of_eq rfl)
    (Code.nodup_labels_compareLiterals ..) [] _ _ _ _ _ _ _ _ hleft hright).1 (.inr (by decide))

/-- The least integer is less than one, but their comparison gives 0: the difference
wraps around to the greatest integer. -/
theorem least_lt_one_pushes_zero :
    ∃ F k',
      ((Expr.binary (.compare .lt) (.lit (-2147483648)) (.lit 1)).lower {}).on {} = (.ok F, k')
      ∧ let w : World := ⟨fun _ => 0, []⟩
        let slots : Nat → Int32 := fun _ => 0
        let runs := (Machine.alone F).Runs 0 F.length
        let start := Status.running ⟨0, [], slots⟩ w
        let middle := Status.running ⟨1, [.int (-2147483648)], slots⟩ w
        runs start middle ∧ runs middle (.running ⟨2, [.int 1, .int (-2147483648)], slots⟩ w)
        ∧ (-2147483648 : Int32).toInt < (1 : Int32).toInt
        ∧ runs start (.running ⟨F.length, [.int 0], slots⟩ w)
        ∧ ¬runs start (.running ⟨F.length, [.int 1], slots⟩ w) := by
  refine ⟨_, _, Expr.on_lower_literals .lt (-2147483648) 1, ?_⟩
  intro w slots runs start middle
  obtain ⟨hleft, hright⟩ := Machine.runs_literals .lt (-2147483648) 1 slots w
  have hF : Placed (Machine.alone (Code.compareLiterals .lt (-2147483648) 1)).code 0 9 0
      (Code.compareLiterals .lt (-2147483648) 1) := .of_eq rfl
  have hzero : runs start (.running ⟨9, [.int 0], slots⟩ w) :=
    (hleft.trans hright).trans
      (Machine.runs_compare (Code.nodup_labels_compareLiterals ..) hF.append_append.2.2)
  refine ⟨hleft, hright, by decide, hzero, fun hone => ?_⟩
  have hsame := hzero.unique hone (Machine.not_stepsIn_of_le (Nat.le_refl _))
    (Machine.not_stepsIn_of_le (Nat.le_refl _))
  cases hsame

end JasminGen
