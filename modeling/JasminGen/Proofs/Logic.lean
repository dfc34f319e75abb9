import JasminGen.Proofs.Labels
import JasminGen.Proofs.Operators

/-!
# Conjunction and disjunction

`and` multiplies its operands, `or` adds them up with the left one counted twice, and both
then ask whether the result is zero. This is conjunction and disjunction of truth values
except where the arithmetic wraps around to a zero: a product of non-zero operands does so
exactly if it is a multiple of `2 ^ 32` (`ProductVanishes`), and a sum can only if the right
operand is the negative of twice the left one (`DoubleCancels`). Away from those the
operators mean what their names say (`logical_operators_push_truth`).

A left operand that is a bare name or literal is counted twice by reading it twice, before
and after the right operand; of any other, a copy is kept. So `x or e` and `(x) or e` are
different code. They leave the same variables, world and output, and the same value as long
as `e` does not change `x` (`or_reload_agrees_with_copy`).

The values that operands push are given here by runs of their code (`Machine.Pushes`), not
by the reference semantics, so that nothing is said about how the operands come to them.
-/

namespace JasminGen

/-! ## Wrapped products and sums -/

/-- The product of the two wraps around to zero, though neither is zero. -/
def ProductVanishes (a b : Int32) : Prop :=
  a ≠ 0 ∧ b ≠ 0 ∧ (4294967296 : Int) ∣ a.toInt * b.toInt

/-- Twice the left operand and the right one add up to zero, though the left one is not
zero. -/
def DoubleCancels (a b : Int32) : Prop :=
  a ≠ 0 ∧ (4294967296 : Int) ∣ 2 * a.toInt + b.toInt

instance (a b : Int32) : Decidable (ProductVanishes a b) := inferInstanceAs (Decidable (_ ∧ _))

instance (a b : Int32) : Decidable (DoubleCancels a b) := inferInstanceAs (Decidable (_ ∧ _))

theorem eq_zero_iff_dvd {v : Int32} {n : Int} (h : v.toInt = n.bmod 4294967296) :
    v = 0 ↔ (4294967296 : Int) ∣ n := by
  rw [← Int32.toInt_inj, h]
  exact Int.dvd_iff_bmod_eq_zero.symm

theorem product_eq_zero_iff (a b : Int32) :
    a * b = 0 ↔ (4294967296 : Int) ∣ a.toInt * b.toInt :=
  eq_zero_iff_dvd (Int32.toInt_mul a b)

theorem double_add_eq_zero_iff (a b : Int32) :
    a + b + a = 0 ↔ (4294967296 : Int) ∣ 2 * a.toInt + b.toInt := by
  refine eq_zero_iff_dvd ?_
  have hsum : a.toInt + b.toInt + a.toInt = 2 * a.toInt + b.toInt := by omega
  rw [Int32.toInt_add, Int32.toInt_add, Int.bmod_add_bmod, hsum]

theorem product_ne_zero_eq {a b : Int32} (h : ¬ProductVanishes a b) :
    (a * b != 0) = (a != 0 && b != 0) := by
  rw [Bool.eq_iff_iff, Bool.and_eq_true, bne_iff_ne, bne_iff_ne, bne_iff_ne]
  constructor
  · intro hab
    refine ⟨?_, ?_⟩
    · rintro rfl
      exact hab Int32.zero_mul
    · rintro rfl
      exact hab Int32.mul_zero
  · rintro ⟨ha, hb⟩ hab
    exact h ⟨ha, hb, (product_eq_zero_iff a b).mp hab⟩

theorem double_add_ne_zero_eq {a b : Int32} (h : ¬DoubleCancels a b) :
    (a + b + a != 0) = (a != 0 || b != 0) := by
  rw [Bool.eq_iff_iff, Bool.or_eq_true, bne_iff_ne, bne_iff_ne, bne_iff_ne]
  by_cases ha : a = 0
  · subst ha
    simp
  · have hsum : a + b + a ≠ 0 := fun hab => h ⟨ha, (double_add_eq_zero_iff a b).mp hab⟩
    exact iff_of_true hsum (.inl ha)

/-! ## Memory -/

/-- What the code of an expression can change: the slots of its activation, and the world. -/
structure Memory where
  slots : Nat → Int32
  world : World

namespace Memory

/-- The machine at a position, with the given stack. -/
def running (m : Memory) (pos : Nat) (stack : List Cell) : Status :=
  .running ⟨pos, stack, m.slots⟩ m.world

/-- The variables that the slots hold, by name. -/
def store (m : Memory) (R : Variables) : Store where
  locals x := ((R.locate? x).map fun (_, s) => m.slots s).getD 0
  world := m.world

/-- The value of a variable. -/
def read (m : Memory) (Γ : Names) (x : String) : Int32 := Γ.scope.read (m.store Γ.frame) x

theorem slots_store (m : Memory) (R : Variables) : (m.store R).slots R m.slots = m.slots := by
  refine Store.slots_eq ?_
  intro x v s hx
  simp [store, hx]

theorem running_store (m : Memory) (R : Variables) (pos : Nat) (stack : List Cell) :
    (m.store R).running R m.slots pos stack = m.running pos stack := by
  rw [Store.running, slots_store]
  rfl

theorem running_inj {m m' : Memory} {pos pos' : Nat} {stack stack' : List Cell}
    (h : m.running pos stack = m'.running pos' stack') : m = m' ∧ stack = stack' := by
  cases m
  cases m'
  cases h
  exact ⟨rfl, rfl⟩

end Memory

/-! ## Code that pushes a value -/

/-- Calls that do nothing. -/
def Interp.silent : Interp := fun _ _ w => .ok (0, w)

/-- The machine for code that was lowered under the names `Γ`. -/
def Names.machine (Γ : Names) (I : Interp) (code : Code) : Machine :=
  ⟨Γ.config.className, Γ.functions.entries, I, code⟩

/-- The code of an expression can stand by itself. -/
theorem Expr.nodup_labels_alone {Γ : Names} {e : Expr} {k k' : Counters} {F : Code}
    (h : (e.lower Γ).on k = (.ok F, k')) : (Code.labels ([] ++ F ++ [])).Nodup := by
  rw [List.nil_append, List.append_nil]
  exact (Expr.emits_of_lower h).labelled.nodup

theorem Names.hosts_machine {Γ : Names} {code : Code} (h : (Code.labels code).Nodup) (I : Interp) :
    (Γ.machine I code).Hosts Γ Γ.frame :=
  ⟨rfl, rfl, h, List.prefix_refl _⟩

namespace Machine

variable {M : Machine} {lo hi pos : Nat} {F : Code} {stack : List Cell} {m m' : Memory} {v : Int32}

/-- Run from its beginning at `pos`, the code `F` comes to its end and adds `v` to the stack,
and turns the memory `m` into `m'`. -/
def Pushes (M : Machine) (pos : Nat) (F : Code) (stack : List Cell) (m : Memory) (v : Int32)
    (m' : Memory) : Prop :=
  M.Runs pos (pos + F.length) (m.running pos stack) (m'.running (pos + F.length) (.int v :: stack))

theorem Runs.mono {lo' hi' : Nat} {a c : Status} (h : M.Runs lo hi a c) (hlo : lo' ≤ lo)
    (hhi : hi ≤ hi') : M.Runs lo' hi' a c := by
  refine Relation.ReflTransGen.mono ?_ _ _ h
  rintro _ _ ⟨hle, hlt, hstep⟩
  exact .intro (Nat.le_trans hlo hle) (Nat.lt_of_lt_of_le hlt hhi) hstep

theorem Pushes.runs (h : M.Pushes pos F stack m v m') (hF : Placed M.code lo hi pos F) :
    M.Runs lo hi (m.running pos stack) (m'.running (pos + F.length) (.int v :: stack)) :=
  Runs.mono h hF.lo_le hF.le_hi

/-- Code that pushes a value cannot push another one. -/
theorem Pushes.unique {u : Int32} {m'' : Memory} (h : M.Pushes pos F stack m v m')
    (h' : M.Pushes pos F stack m u m'') : u = v ∧ m'' = m' := by
  have heq := Runs.unique h h' (not_stepsIn_of_le (Nat.le_refl _))
    (not_stepsIn_of_le (Nat.le_refl _))
  obtain ⟨hm, hstack⟩ := Memory.running_inj heq
  cases hstack
  exact ⟨rfl, hm.symm⟩

theorem Pushes.iff {u : Int32} {m'' : Memory} (h : M.Pushes pos F stack m v m') :
    M.Pushes pos F stack m u m'' ↔ u = v ∧ m'' = m' := by
  constructor
  · exact h.unique
  · rintro ⟨rfl, rfl⟩
    exact h

theorem Pushes.exists_iff {m'' : Memory} (h : M.Pushes pos F stack m v m') :
    (∃ u, M.Pushes pos F stack m u m'') ↔ m'' = m' := by
  simp only [h.iff, exists_eq_left]

/-- Code that pushes a value does not halt, and code that halts pushes none. -/
theorem Pushes.not_halts {reason : Halt} (h : M.Pushes pos F stack m v m') :
    ¬M.Runs pos (pos + F.length) (m.running pos stack) (.halted reason) := by
  intro hhalts
  have heq := Runs.unique h hhalts (not_stepsIn_of_le (Nat.le_refl _)) (not_stepsIn_halted _)
  cases heq

theorem Runs.halts_iff {reason reason' : Halt} {a : Status} (h : M.Runs lo hi a (.halted reason)) :
    M.Runs lo hi a (.halted reason') ↔ reason' = reason := by
  constructor
  · intro h'
    have heq := h'.unique h (not_stepsIn_halted _) (not_stepsIn_halted _)
    cases heq
    rfl
  · rintro rfl
    exact h

theorem pushes_lit (hF : Placed M.code lo hi pos [.instr (.ldc v)]) (stack : List Cell)
    (m : Memory) : M.Pushes pos [.instr (.ldc v)] stack m v m :=
  runs_instr ⟨hF.segment, Nat.le_refl _, Nat.le_refl _⟩ rfl

/-- Code without lines pushes nothing. -/
theorem not_pushes_nil : ¬M.Pushes pos [] stack m v m' := by
  intro h
  have heq := Runs.unique h .refl (not_stepsIn_of_le (Nat.le_refl _))
    (not_stepsIn_of_le (Nat.le_refl _))
  exact List.cons_ne_self _ _ (Memory.running_inj heq).2

end Machine

namespace Machine.Hosts

variable {M : Machine} {Γ : Names} (hM : M.Hosts Γ Γ.frame) {lo hi pos : Nat}

include hM

theorem pushes_load {x : String} {i : Instr} (h : Γ.load? x = .ok (some i))
    (hF : Placed M.code lo hi pos [.instr i]) (stack : List Cell) (m : Memory) :
    M.Pushes pos [.instr i] stack m (m.read Γ x) m := by
  have hF' : Placed M.code pos (pos + 1) pos [.instr i] :=
    ⟨hF.segment, Nat.le_refl _, Nat.le_refl _⟩
  have hruns : M.Runs pos (pos + 1) ((m.store Γ.frame).running Γ.frame m.slots pos stack)
      ((m.store Γ.frame).running Γ.frame m.slots (pos + 1) (.int (m.read Γ x) :: stack)) :=
    hM.runs_load h hF' (m.store Γ.frame)
  rwa [Memory.running_store, Memory.running_store] at hruns

/-- A bare name or literal is read again: unless the variable was changed in between, its
code pushes what it pushed before. -/
theorem pushes_again {l : Expr} {k k' : Counters} {left : Code} (hleaf : l.isLeaf = true)
    (h : Emits Γ l k left k') {lo' hi' pos' : Nat} (hF : Placed M.code lo hi pos left)
    (hF' : Placed M.code lo' hi' pos' left) {stack : List Cell} {m m₁ m₂ : Memory} {a : Int32}
    (hleft : M.Pushes pos left stack m a m₁)
    (hkept : ∀ x, l = .ident x → m₂.read Γ x = m₁.read Γ x) (stack' : List Cell) :
    M.Pushes pos' left stack' m₂ a m₂ := by
  cases h with
  | @scalar x i k hload =>
      obtain ⟨rfl, rfl⟩ := hleft.unique (hM.pushes_load hload hF stack m)
      rw [← hkept x rfl]
      exact hM.pushes_load hload hF' stack' m₂
  | array hload => exact absurd hleft not_pushes_nil
  | lit =>
      obtain ⟨rfl, rfl⟩ := hleft.unique (pushes_lit hF stack m)
      exact pushes_lit hF' stack' m₂
  | _ => cases hleaf

end Machine.Hosts

/-! ## Operators on the values of their operands -/

/-- What `or` puts between its operands: a copy of the left one, unless that is read again. -/
def BinaryOp.copy (op : BinaryOp) (l : Expr) : Code :=
  if op = .or ∧ l.isLeaf = false then [.instr .dup] else []

/-- The counters with which the right operand is met. -/
def BinaryOp.afterCopy (op : BinaryOp) (l : Expr) (k : Counters) : Counters :=
  if op = .or ∧ l.isLeaf = false then k.move 1 else k

/-- The code `left ++ copy ++ right ++ tail` makes `v` of its operands' values `a` and `b`,
wherever it stands and whatever calls do. The left operand pushes `a`, then the right one
pushes `b` on top of it and its copy. If the left operand `l` is a bare name, the right one
leaves that variable as it was. -/
def Names.Combines (Γ : Names) (l : Expr) (left copy right tail : Code) (a b v : Int32) : Prop :=
  ∀ (I : Interp) (before after : Code),
    let F := left ++ copy ++ right ++ tail
    let M := Γ.machine I (before ++ F ++ after)
    (Code.labels M.code).Nodup → ∀ (stack : List Cell) (m m₁ m₂ : Memory),
      M.Pushes before.length left stack m a m₁ →
      M.Pushes (before.length + left.length + copy.length) right
        (List.replicate (copy.length + 1) (.int a) ++ stack) m₁ b m₂ →
      (∀ x, l = .ident x → m₂.read Γ x = m₁.read Γ x) →
        M.Pushes before.length F stack m v m₂

section Lowering

variable {Γ : Names} {l r : Expr} {k k₁ k₂ : Counters} {left right : Code}
  (hl : (l.lower Γ).on k = (.ok left, k₁))

include hl

theorem Expr.on_lower_and (hr : (r.lower Γ).on k₁ = (.ok right, k₂)) :
    ((Expr.binary .and l r).lower Γ).on k =
      (.ok (left ++ right ++ .instr (.arith .mul) :: Code.truth k₂.labels (k₂.labels + 1)),
        (k₂.move (-1)).issue 2) := by
  rw [Expr.lower]
  simp only [Attempt.on_bind, hl, hr]
  rfl

theorem Expr.on_lower_or_reload (hleaf : l.isLeaf = true)
    (hr : (r.lower Γ).on k₁ = (.ok right, k₂)) :
    ((Expr.binary .or l r).lower Γ).on k =
      (.ok (left ++ right ++ .instr (.arith .add) :: left ++
          .instr (.arith .add) :: Code.truth k₂.labels (k₂.labels + 1)),
        (k₂.move (-1)).issue 2) := by
  rw [Expr.lower]
  simp only [Attempt.on_bind, hl, hleaf, if_true, hr]
  rfl

theorem Expr.on_lower_or_copy (hleaf : l.isLeaf = false)
    (hr : (r.lower Γ).on (k₁.move 1) = (.ok right, k₂)) :
    ((Expr.binary .or l r).lower Γ).on k =
      (.ok (left ++ .instr .dup :: right ++
          .instr (.arith .add) :: .instr (.arith .add) :: Code.truth k₂.labels (k₂.labels + 1)),
        (k₂.move (-2)).issue 2) := by
  have hpush : EmitM.push.on k₁ = (.ok (), k₁.move 1) := rfl
  rw [Expr.lower]
  simp only [Attempt.on_bind, hl, hleaf, Bool.false_eq_true, if_false, hpush, hr]
  rfl

end Lowering

theorem Placed.between (before F after : Code) :
    Placed (before ++ F ++ after) before.length (before.length + F.length) before.length F :=
  ⟨⟨before, after, rfl, rfl⟩, Nat.le_refl _, Nat.le_refl _⟩

namespace Names

variable {Γ : Names} {l : Expr} {left right : Code} {onZero done : Label}

/-- The operands are run one after the other, and the operator's own lines are left. -/
theorem combines_of_tail {copy tail : Code} {a b v : Int32}
    (hcopy : copy = [] ∨ copy = [.instr .dup])
    (htail : ∀ {M : Machine} {lo hi pos pos' : Nat}, M.Hosts Γ Γ.frame →
      Placed M.code lo hi pos left → Placed M.code lo hi pos' tail →
      ∀ {stack : List Cell} {m m₁ m₂ : Memory}, M.Pushes pos left stack m a m₁ →
        (∀ x, l = .ident x → m₂.read Γ x = m₁.read Γ x) →
        M.Runs lo hi
          (m₂.running pos' (.int b :: (List.replicate (copy.length + 1) (.int a) ++ stack)))
          (m₂.running (pos' + tail.length) (.int v :: stack))) :
    Γ.Combines l left copy right tail a b v := by
  intro I before after F M hlabels stack m m₁ m₂ hleft hright hkept
  have hM : M.Hosts Γ Γ.frame := Names.hosts_machine hlabels I
  obtain ⟨hoperands, htailAt⟩ := (Placed.between before F after).append
  obtain ⟨hleftAt, hcopyAt, hrightAt⟩ := hoperands.append_append
  have hdup : M.Runs before.length (before.length + F.length)
      (m₁.running (before.length + left.length) (.int a :: stack))
      (m₁.running (before.length + left.length + copy.length)
        (List.replicate (copy.length + 1) (.int a) ++ stack)) := by
    rcases hcopy with rfl | rfl
    · exact .refl
    · exact Machine.runs_instr hcopyAt rfl
  have hoperator := htail hM hleftAt htailAt hleft hkept
  simp only [List.length_append, ← Nat.add_assoc] at hoperator
  have hruns := (((hleft.runs hleftAt).trans hdup).trans (hright.runs hrightAt)).trans hoperator
  simpa only [Machine.Pushes, F, List.length_append, ← Nat.add_assoc] using hruns

theorem combines_and (a b : Int32) :
    Γ.Combines l left [] right (.instr (.arith .mul) :: Code.truth onZero done) a b
      (a * b != 0).toInt32 := by
  refine combines_of_tail (.inl rfl) ?_
  intro M lo hi pos pos' hM _ htail stack m m₁ m₂ _ _
  exact (M.runs_arith htail rfl).trans (M.runs_truth hM.labels htail.tail)

theorem combines_or_reload {k k' : Counters} (hleaf : l.isLeaf = true) (h : Emits Γ l k left k')
    (a b : Int32) :
    Γ.Combines l left [] right
      (.instr (.arith .add) :: left ++ .instr (.arith .add) :: Code.truth onZero done) a b
      (a + b + a != 0).toInt32 := by
  refine combines_of_tail (.inl rfl) ?_
  intro M lo hi pos pos' hM hleftAt htail stack m m₁ m₂ hleft hkept
  obtain ⟨hadd, htruth⟩ := htail.append
  have hagain := hM.pushes_again hleaf h hleftAt hadd.tail hleft hkept (.int (a + b) :: stack)
  have hsum : M.Runs lo hi (m₂.running pos' (.int b :: .int a :: stack))
      (m₂.running (pos' + 1 + left.length) (.int a :: .int (a + b) :: stack)) :=
    (M.runs_arith hadd rfl).trans (hagain.runs hadd.tail)
  have hpos : pos' + (Line.instr (.arith .add) :: left).length = pos' + 1 + left.length := by
    rw [List.length_cons]
    omega
  rw [hpos] at htruth
  rw [List.length_append, ← Nat.add_assoc, hpos]
  exact (hsum.trans (M.runs_arith htruth rfl)).trans (M.runs_truth hM.labels htruth.tail)

theorem combines_or_copy (a b : Int32) :
    Γ.Combines l left [.instr .dup] right
      (.instr (.arith .add) :: .instr (.arith .add) :: Code.truth onZero done) a b
      (a + b + a != 0).toInt32 := by
  refine combines_of_tail (.inr rfl) ?_
  intro M lo hi pos pos' hM _ htail stack m m₁ m₂ _ _
  have hsum : ArithOp.apply .add a (a + b) = .ok (a + b + a) :=
    congrArg Except.ok (Int32.add_comm a (a + b))
  refine (M.runs_arith htail rfl).trans ?_
  exact (M.runs_arith htail.tail hsum).trans (M.runs_truth hM.labels htail.tail.tail)

end Names

/-- The code of a logical operator has the operator's value, with the left operand's value
for what is read again. -/
theorem Expr.lower_logical {Γ : Names} {op : BinaryOp} (hop : op.isLogical = true) {l r : Expr}
    {k k₁ k₂ : Counters} {left right : Code} (hl : (l.lower Γ).on k = (.ok left, k₁))
    (hr : (r.lower Γ).on (op.afterCopy l k₁) = (.ok right, k₂)) :
    ∃ tail k₃,
      ((Expr.binary op l r).lower Γ).on k = (.ok (left ++ op.copy l ++ right ++ tail), k₃)
      ∧ ∀ a b v, op.apply a b a = .ok v → Γ.Combines l left (op.copy l) right tail a b v := by
  cases op with
  | arith o => cases hop
  | compare o => cases hop
  | and =>
      have hcopy : BinaryOp.copy .and l = [] := rfl
      have hlower := Expr.on_lower_and hl hr
      rw [hcopy, List.append_nil]
      refine ⟨_, _, hlower, ?_⟩
      rintro a b _ ⟨⟩
      exact Names.combines_and a b
  | or =>
      cases hleaf : l.isLeaf with
      | true =>
          have hcopy : BinaryOp.copy .or l = [] := if_neg (by simp [hleaf])
          have hmet : BinaryOp.afterCopy .or l k₁ = k₁ := if_neg (by simp [hleaf])
          rw [hmet] at hr
          have hlower := Expr.on_lower_or_reload hl hleaf hr
          rw [List.append_assoc (left ++ right)] at hlower
          rw [hcopy, List.append_nil]
          refine ⟨_, _, hlower, ?_⟩
          rintro a b _ ⟨⟩
          exact Names.combines_or_reload hleaf (Expr.emits_of_lower hl) a b
      | false =>
          have hcopy : BinaryOp.copy .or l = [.instr .dup] := if_pos ⟨rfl, hleaf⟩
          have hmet : BinaryOp.afterCopy .or l k₁ = k₁.move 1 := if_pos ⟨rfl, hleaf⟩
          rw [hmet] at hr
          have hlower := Expr.on_lower_or_copy hl hleaf hr
          rw [hcopy, List.append_assoc left]
          refine ⟨_, _, hlower, ?_⟩
          rintro a b _ ⟨⟩
          exact Names.combines_or_copy a b

/-- **Conjunction and disjunction.** Let the left operand push `a` and the right one then
push `b`, and leave the left one's variable alone if that is a bare name. Then `and` pushes
1 if both are non-zero and 0 otherwise, except that it pushes 0 where a product of non-zero
values vanishes; and `or` pushes 1 if one of them is non-zero and 0 otherwise, unless the
right one cancels the double of the left one. -/
theorem logical_operators_push_truth {Γ : Names} {op : BinaryOp} (hop : op.isLogical = true)
    {l r : Expr} {k k₁ k₂ : Counters} {left right : Code}
    (hl : (l.lower Γ).on k = (.ok left, k₁))
    (hr : (r.lower Γ).on (op.afterCopy l k₁) = (.ok right, k₂)) :
    ∃ tail k₃,
      ((Expr.binary op l r).lower Γ).on k = (.ok (left ++ op.copy l ++ right ++ tail), k₃)
      ∧ ∀ a b : Int32,
        let pushes (v : Bool) : Prop := Γ.Combines l left (op.copy l) right tail a b v.toInt32
        (op = .and → (¬ProductVanishes a b → pushes (a != 0 && b != 0))
          ∧ (ProductVanishes a b → pushes false))
        ∧ (op = .or → ¬DoubleCancels a b → pushes (a != 0 || b != 0)) := by
  obtain ⟨tail, k₃, hlower, hcombines⟩ := Expr.lower_logical hop hl hr
  refine ⟨tail, k₃, hlower, fun a b => ⟨?_, ?_⟩⟩
  · rintro rfl
    refine ⟨fun h => ?_, fun h => ?_⟩
    · rw [← product_ne_zero_eq h]
      exact hcombines a b _ rfl
    · have hzero : a * b = 0 := (product_eq_zero_iff a b).mpr h.2.2
      refine hcombines a b _ ?_
      rw [BinaryOp.apply, hzero]
      rfl
  · rintro rfl h
    rw [← double_add_ne_zero_eq h]
    exact hcombines a b _ rfl

/-- An operand and its opposite do not cancel: `n or -5` pushes 1 where `n` is 5. -/
theorem opposite_operands_push_one :
    ∃ F k', ((Expr.binary .or (.ident "n") (.lit (-5))).lower Names.counter).on {} = (.ok F, k')
      ∧ ∀ w, (Names.counter.machine .silent ([] ++ F ++ [])).Pushes 0 F []
          ⟨fun _ => 5, w⟩ 1 ⟨fun _ => 5, w⟩ := by
  have hl : ((Expr.ident "n").lower Names.counter).on {} =
      (.ok [.instr (.iload 0)], ({} : Counters).move 1) := rfl
  have hr : ((Expr.lit (-5)).lower Names.counter).on (({} : Counters).move 1) =
      (.ok [.instr (.ldc (-5))], (({} : Counters).move 1).move 1) := rfl
  have hop : BinaryOp.isLogical .or = true := rfl
  obtain ⟨tail, k', hlower, hpushes⟩ := logical_operators_push_truth hop hl hr
  have hlabels := Expr.nodup_labels_alone hlower
  refine ⟨_, k', hlower, fun w => ?_⟩
  obtain ⟨hleftAt, -, hrightAt⟩ := (Placed.between [] (_ ++ tail) []).append.1.append_append
  have hM := Names.hosts_machine (Γ := Names.counter) hlabels .silent
  have hload := hM.pushes_load (x := "n") rfl hleftAt [] ⟨fun _ => 5, w⟩
  refine (hpushes 5 (-5)).2 rfl (by decide) _ [] [] hlabels [] _ _ _ hload ?_ (fun _ _ => rfl)
  exact Machine.pushes_lit hrightAt _ _

/-- Two literals push their values, one after the other, and the operator between them then
pushes `v` and nothing else. -/
def BinaryOp.GivesOnLiterals (op : BinaryOp) (a b v : Int32) : Prop :=
  ∃ tail k', ((Expr.binary op (.lit a) (.lit b)).lower {}).on {} =
      (.ok ([.instr (.ldc a)] ++ [.instr (.ldc b)] ++ tail), k')
    ∧ ∀ m : Memory,
      let F := [.instr (.ldc a)] ++ [.instr (.ldc b)] ++ tail
      let M := Names.machine {} .silent ([] ++ F ++ [])
      M.Pushes 0 [.instr (.ldc a)] [] m a m
      ∧ M.Pushes 1 [.instr (.ldc b)] [.int a] m b m
      ∧ ∀ u m', M.Pushes 0 F [] m u m' ↔ u = v ∧ m' = m

theorem BinaryOp.givesOnLiterals {op : BinaryOp} (hop : op.isLogical = true) {a b v : Int32}
    (hv : op.apply a b a = .ok v) : op.GivesOnLiterals a b v := by
  have hcopy : op.copy (.lit a) = [] := if_neg (by simp [Expr.isLeaf])
  have hmet : op.afterCopy (.lit a) (({} : Counters).move 1) = ({} : Counters).move 1 :=
    if_neg (by simp [Expr.isLeaf])
  have hl : ((Expr.lit a).lower {}).on {} = (.ok [.instr (.ldc a)], ({} : Counters).move 1) := rfl
  have hr : ((Expr.lit b).lower {}).on (op.afterCopy (.lit a) (({} : Counters).move 1)) =
      (.ok [.instr (.ldc b)], (({} : Counters).move 1).move 1) := by
    rw [hmet]
    rfl
  obtain ⟨tail, k', hlower, hcombines⟩ := Expr.lower_logical hop hl hr
  rw [hcopy] at hlower hcombines
  refine ⟨tail, k', hlower, fun m => ?_⟩
  intro F M
  have hlabels : (Code.labels M.code).Nodup := Expr.nodup_labels_alone hlower
  obtain ⟨hfirst, hsecond, -⟩ := (Placed.between [] F []).append_append
  have hleft := Machine.pushes_lit (M := M) hfirst [] m
  have hright := Machine.pushes_lit (M := M) hsecond [.int a] m
  refine ⟨hleft, hright, ?_⟩
  have hpushes := hcombines a b v hv .silent [] [] hlabels [] m m m hleft hright (fun _ _ => rfl)
  exact fun u m' => hpushes.iff

/-- Both operands are non-zero, and so is one of them: but `65536 and 65536` gives 0, because
the product wraps around, and so does `1 or -2`, because the double of 1 is cancelled. -/
theorem logical_operators_lose_truth :
    BinaryOp.GivesOnLiterals .and 65536 65536 0 ∧ BinaryOp.GivesOnLiterals .or 1 (-2) 0 :=
  ⟨BinaryOp.givesOnLiterals rfl (by decide), BinaryOp.givesOnLiterals rfl (by decide)⟩

/-! ## Reading again and keeping a copy -/

/-- The memory that a store stands for, with `rest` in the slots that belong to no variable. -/
def Store.memory (st : Store) (R : Variables) (rest : Nat → Int32) : Memory :=
  ⟨st.slots R rest, st.world⟩

theorem Store.read_memory (st : Store) (Γ : Names) (rest : Nat → Int32) (x : String) :
    (st.memory Γ.frame rest).read Γ x = Γ.scope.read st x := by
  rw [Memory.read, Scope.read, Scope.read]
  split
  · rename_i hlocal
    rw [Names.scope_local?, Registry.find?] at hlocal
    cases hx : Γ.frame.locate? x with
    | none =>
        rw [hx] at hlocal
        cases hlocal
    | some place =>
        obtain ⟨v, s⟩ := place
        obtain ⟨hentry, rfl⟩ := Registry.locate?_eq_some_iff.mp hx
        simp only [Memory.store, hx, Option.map_some, Option.getD_some, Store.memory]
        exact Store.slots_of_entry hentry st rest
  · rfl

namespace Machine

variable {M : Machine} {Γ : Names} {pos : Nat} {F : Code} {stack : List Cell} {m : Memory}

/-- The code of an expression does what the expression means, from any memory. -/
theorem Hosts.meets_eval (hM : M.Hosts Γ Γ.frame) {e : Expr} {k k' : Counters}
    (h : Emits Γ e k F k') (hv : e.valued Γ.scope = true)
    (hF : Placed M.code pos (pos + F.length) pos F) (stack : List Cell) (m : Memory) :
    M.Meets pos (pos + F.length) (m.running pos stack)
      (e.eval Γ.scope M.calls (m.store Γ.frame))
      (Store.Ends Γ.frame m.slots (pos + F.length) stack (e.yields Γ.scope)) := by
  rw [← m.running_store Γ.frame]
  exact h.computes hM hv (m.store Γ.frame) hF

theorem Meets.pushes {yields : Bool} {r : Except Halt (Option Int32 × Store)} {v : Int32}
    {st : Store} (h : M.Meets pos (pos + F.length) (m.running pos stack) r
      (Store.Ends Γ.frame m.slots (pos + F.length) stack yields)) (hr : r = .ok (some v, st)) :
    M.Pushes pos F stack m v (st.memory Γ.frame m.slots) := by
  subst hr
  obtain ⟨c, hruns, -, rfl⟩ := h
  exact hruns

/-- Two codes that follow the same computation and differ in the value they make of its
result. They agree on everything else, and on the value where it is the same. -/
theorem Meets.agree {N : Machine} {pos' : Nat} {G : Code} {yields yields' : Bool}
    {r : Except Halt (Int32 × Store)} {u w : Int32 × Store → Int32}
    (hM : M.Meets pos (pos + F.length) (m.running pos stack)
      (r.map fun result => (some (u result), result.2))
      (Store.Ends Γ.frame m.slots (pos + F.length) stack yields))
    (hN : N.Meets pos' (pos' + G.length) (m.running pos' stack)
      (r.map fun result => (some (w result), result.2))
      (Store.Ends Γ.frame m.slots (pos' + G.length) stack yields')) :
    (∀ v m', (∀ result : Int32 × Store, m' = result.2.memory Γ.frame m.slots →
        u result = w result) →
      (M.Pushes pos F stack m v m' ↔ N.Pushes pos' G stack m v m'))
    ∧ (∀ m', (∃ v, M.Pushes pos F stack m v m') ↔ ∃ v, N.Pushes pos' G stack m v m')
    ∧ ∀ reason, M.Runs pos (pos + F.length) (m.running pos stack) (.halted reason) ↔
        N.Runs pos' (pos' + G.length) (m.running pos' stack) (.halted reason) := by
  cases r with
  | error reason =>
      have hnone (v : Int32) (m' : Memory) : ¬M.Pushes pos F stack m v m' :=
        fun h => h.not_halts hM
      have hnone' (v : Int32) (m' : Memory) : ¬N.Pushes pos' G stack m v m' :=
        fun h => h.not_halts hN
      refine ⟨fun v m' _ => ?_, fun m' => ?_, fun reason' => ?_⟩
      · exact iff_of_false (hnone v m') (hnone' v m')
      · exact iff_of_false (fun ⟨v, h⟩ => hnone v m' h) (fun ⟨v, h⟩ => hnone' v m' h)
      · rw [Runs.halts_iff hM, Runs.halts_iff hN]
  | ok result =>
      have hpushes := hM.pushes rfl
      have hpushes' := hN.pushes rfl
      refine ⟨fun v m' hsame => ?_, fun m' => ?_, fun reason => ?_⟩
      · rw [hpushes.iff, hpushes'.iff]
        refine and_congr_left fun hm => ?_
        rw [hsame result hm]
      · exact hpushes.exists_iff.trans hpushes'.exists_iff.symm
      · exact iff_of_false hpushes.not_halts hpushes'.not_halts

end Machine

/-- The code of an expression, by itself. -/
theorem Expr.pushes_alone {Γ : Names} {e : Expr} (hok : ((e.lower Γ).on {}).1.isOk = true)
    (hv : e.valued Γ.scope = true) {I : Interp} {m : Memory} {v : Int32} {st : Store}
    (heval : e.eval Γ.scope I (m.store Γ.frame) = .ok (some v, st)) :
    ∃ F k', (e.lower Γ).on {} = (.ok F, k') ∧ (Code.labels ([] ++ F ++ [])).Nodup
      ∧ (Γ.machine I ([] ++ F ++ [])).Pushes 0 F [] m v (st.memory Γ.frame m.slots) := by
  rcases hlower : (e.lower Γ).on {} with ⟨cause | F, k'⟩
  · rw [hlower] at hok
    cases hok
  · have hlabels := Expr.nodup_labels_alone hlower
    have hmeets := (Names.hosts_machine hlabels I).meets_eval (Expr.emits_of_lower hlower) hv
      (.between [] F []) [] m
    exact ⟨F, k', rfl, hlabels, hmeets.pushes heval⟩

/-- A bare name or literal that has a value changes nothing. -/
theorem Expr.eval_leaf {S : Scope} {l : Expr} (hleaf : l.isLeaf = true)
    (hl : l.yields S = true) (I : Interp) (st : Store) :
    ∃ a, operandOf (l.eval S I st) = .ok (a, st)
      ∧ ∀ st' : Store, (∀ x, l = .ident x → S.read st' x = S.read st x) →
        (l.ident?.map (S.read st')).getD a = a := by
  cases l with
  | ident x =>
      have htype : S.type? x = some .int := by simpa [Expr.yields] using hl
      refine ⟨S.read st x, ?_, fun st' hkept => hkept x rfl⟩
      rw [Expr.eval, if_pos htype]
      rfl
  | lit v => exact ⟨v, rfl, fun _ _ => rfl⟩
  | _ => cases hleaf

/-- The value of an `or` whose left operand changes nothing. -/
theorem Expr.eval_or {S : Scope} {I : Interp} {l r : Expr} {st : Store} {a : Int32}
    (hl : operandOf (l.eval S I st) = .ok (a, st)) :
    (Expr.binary .or l r).eval S I st = (operandOf (r.eval S I st)).map fun right =>
      (some (a + right.1 + (l.ident?.map (S.read right.2)).getD a != 0).toInt32, right.2) := by
  rw [Expr.eval_binary, hl]
  change (operandOf (r.eval S I st) >>= _) = _
  cases operandOf (r.eval S I st) with
  | error reason => rfl
  | ok result => rfl

/-- **Reading again or keeping a copy.** Let `l` be a bare name or literal, and let the codes
of `l or r` and `(l) or r` run from the same stack and memory. They halt for the same
reasons and leave the same memory. They push the same value too, if the variable that `l`
names, if any, is left as it was. -/
theorem or_reload_agrees_with_copy {Γ : Names} {l r : Expr} {k k₁ k₂ : Counters} {F G : Code}
    (hleaf : l.isLeaf = true) (hF : ((Expr.binary .or l r).lower Γ).on k = (.ok F, k₁))
    (hG : ((Expr.binary .or (.paren l) r).lower Γ).on k = (.ok G, k₂))
    (hv : (Expr.binary .or l r).valued Γ.scope = true) {before after before' after' : Code}
    (hlabels : (Code.labels (before ++ F ++ after)).Nodup)
    (hlabels' : (Code.labels (before' ++ G ++ after')).Nodup) (I : Interp) (stack : List Cell)
    (m : Memory) :
    let M := Γ.machine I (before ++ F ++ after)
    let N := Γ.machine I (before' ++ G ++ after')
    let start := m.running before.length stack
    let start' := m.running before'.length stack
    (∀ v m', (∀ x, l = .ident x → m'.read Γ x = m.read Γ x) →
      (M.Pushes before.length F stack m v m' ↔ N.Pushes before'.length G stack m v m'))
    ∧ (∀ m', (∃ v, M.Pushes before.length F stack m v m') ↔
        ∃ v, N.Pushes before'.length G stack m v m')
    ∧ ∀ reason, M.Runs before.length (before.length + F.length) start (.halted reason) ↔
        N.Runs before'.length (before'.length + G.length) start' (.halted reason) := by
  intro M N start start'
  have hv' : (Expr.binary .or (.paren l) r).valued Γ.scope = true := hv
  have hM := (Names.hosts_machine hlabels I).meets_eval (Expr.emits_of_lower hF) hv
    (.between before F after) stack m
  have hN := (Names.hosts_machine hlabels' I).meets_eval (Expr.emits_of_lower hG) hv'
    (.between before' G after') stack m
  have hyields : l.yields Γ.scope = true := by
    simp only [Expr.valued, Bool.and_eq_true] at hv
    exact hv.1.1
  obtain ⟨a, ha, hagain⟩ := Expr.eval_leaf hleaf hyields I (m.store Γ.frame)
  have hcopy : operandOf ((Expr.paren l).eval Γ.scope I (m.store Γ.frame)) =
      .ok (a, m.store Γ.frame) := by
    rwa [Expr.eval]
  change Machine.Meets _ _ _ _ (Expr.eval _ I _ _) _ at hM hN
  rw [Expr.eval_or ha] at hM
  rw [Expr.eval_or hcopy] at hN
  obtain ⟨hvalues, hmemories, hhalts⟩ := hM.agree hN
  refine ⟨fun v m' hkept => hvalues v m' ?_, hmemories, hhalts⟩
  rintro ⟨b, st⟩ rfl
  have hsame := hagain st fun x hx => by
    rw [← Store.read_memory st Γ m.slots x, hkept x hx]
    rfl
  rw [hsame]
  rfl

/-- One variable in the first slot, and one field. -/
def Names.counterAndField : Names where
  frame := Names.counter.frame
  fields := ((Registry.empty : Variables).insert? ⟨"g", .int, none⟩).getD .empty

/-- The right operand changes the field `g`, but not `n`: read again or copied, `n` counts
twice. -/
theorem or_increment_of_field_agrees :
    let Γ := Names.counterAndField
    let r : Expr := .unary .increment (.ident "g")
    let m : Memory := ⟨fun _ => 5, ⟨fun _ => 6, []⟩⟩
    ∃ F G k₁ k₂ m', ((Expr.binary .or (.ident "n") r).lower Γ).on {} = (.ok F, k₁)
      ∧ ((Expr.binary .or (.paren (.ident "n")) r).lower Γ).on {} = (.ok G, k₂)
      ∧ m'.read Γ "g" = 7
      ∧ (Γ.machine .silent ([] ++ F ++ [])).Pushes 0 F [] m 1 m'
      ∧ (Γ.machine .silent ([] ++ G ++ [])).Pushes 0 G [] m 1 m' := by
  intro Γ r m
  have hv : (Expr.binary .or (.ident "n") r).valued Γ.scope = true := by decide +kernel
  have hv' : (Expr.binary .or (.paren (.ident "n")) r).valued Γ.scope = true := hv
  have heval : (Expr.binary .or (.ident "n") r).eval Γ.scope .silent (m.store Γ.frame) =
      .ok (some 1, Γ.scope.write (m.store Γ.frame) "g" 7) := rfl
  have heval' : (Expr.binary .or (.paren (.ident "n")) r).eval Γ.scope .silent (m.store Γ.frame) =
      .ok (some 1, Γ.scope.write (m.store Γ.frame) "g" 7) := rfl
  obtain ⟨F, k₁, hF, hlabels, hpushes⟩ := Expr.pushes_alone (by decide +kernel) hv heval
  obtain ⟨G, k₂, hG, hlabels', -⟩ := Expr.pushes_alone (by decide +kernel) hv' heval'
  obtain ⟨hsame, -⟩ := or_reload_agrees_with_copy rfl hF hG hv hlabels hlabels' .silent [] m
  refine ⟨F, G, k₁, k₂, _, hF, hG, ?_, hpushes, (hsame 1 _ ?_).mp hpushes⟩
  · rw [Store.read_memory]
    rfl
  · rintro x ⟨⟩
    rw [Store.read_memory]
    rfl

/-- The right operand changes `n` itself: where `n` is 1, `n or (++n - 4)` pushes 1, because
the 2 is read again, and `(n) or (++n - 4)` pushes 0. -/
theorem or_increment_of_operand_disagrees :
    let Γ := Names.counter
    let r : Expr := .binary (.arith .sub) (.unary .increment (.ident "n")) (.lit 4)
    let m : Memory := ⟨fun _ => 1, ⟨fun _ => 0, []⟩⟩
    ∃ F G k₁ k₂ m', ((Expr.binary .or (.ident "n") r).lower Γ).on {} = (.ok F, k₁)
      ∧ ((Expr.binary .or (.paren (.ident "n")) r).lower Γ).on {} = (.ok G, k₂)
      ∧ (Γ.machine .silent ([] ++ F ++ [])).Pushes 0 F [] m 1 m'
      ∧ (Γ.machine .silent ([] ++ G ++ [])).Pushes 0 G [] m 0 m'
      ∧ ¬(Γ.machine .silent ([] ++ G ++ [])).Pushes 0 G [] m 1 m' := by
  intro Γ r m
  have hleft : operandOf ((Expr.ident "n").eval Γ.scope .silent (m.store Γ.frame)) =
      .ok (1, m.store Γ.frame) := rfl
  have hleft' : operandOf ((Expr.paren (.ident "n")).eval Γ.scope .silent (m.store Γ.frame)) =
      .ok (1, m.store Γ.frame) := rfl
  have hright : operandOf (r.eval Γ.scope .silent (m.store Γ.frame)) =
      .ok (-2, Γ.scope.write (m.store Γ.frame) "n" 2) := rfl
  have hagain : (1 + -2 + 2 != (0 : Int32)).toInt32 = 1 := by decide
  have hcopy : (1 + -2 + 1 != (0 : Int32)).toInt32 = 0 := by decide
  have heval : (Expr.binary .or (.ident "n") r).eval Γ.scope .silent (m.store Γ.frame) =
      .ok (some 1, Γ.scope.write (m.store Γ.frame) "n" 2) := by
    rw [Expr.eval_or hleft, hright]
    exact congrArg (fun v => Except.ok (some v, Γ.scope.write (m.store Γ.frame) "n" 2)) hagain
  have heval' : (Expr.binary .or (.paren (.ident "n")) r).eval Γ.scope .silent (m.store Γ.frame) =
      .ok (some 0, Γ.scope.write (m.store Γ.frame) "n" 2) := by
    rw [Expr.eval_or hleft', hright]
    exact congrArg (fun v => Except.ok (some v, Γ.scope.write (m.store Γ.frame) "n" 2)) hcopy
  obtain ⟨F, k₁, hF, -, hone⟩ := Expr.pushes_alone (by decide +kernel) (by decide +kernel) heval
  obtain ⟨G, k₂, hG, -, hzero⟩ := Expr.pushes_alone (by decide +kernel) (by decide +kernel) heval'
  refine ⟨F, G, k₁, k₂, _, hF, hG, hone, hzero, fun h => ?_⟩
  have hvalue := (hzero.unique h).1
  contradiction

end JasminGen
