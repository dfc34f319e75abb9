import JasminGen.Proofs.Labels
import JasminGen.Proofs.Need
import JasminGen.Proofs.Symbol

/-!
# Depths of the operand stack

The machine's operand stack must have one depth at each position of a method,
however control gets there, and that depth must not exceed the declared limit.
`StackDepths` says so of an assignment of depths to the positions of a code: the
effect of every instruction is respected along fall-through and along jumps.

The assignment is built piece by piece. `Flows L limit d c d'` runs through the
lines of `c` once, from depth `d` to depth `d'`, with the depths at labels given
by `L`. A piece of code is `Balanced` if it flows for every `L` that has the right
depths at the labels that the piece itself defines. Since all labels of a class
are distinct, the pieces of a method agree on one `L` in the end.

The bound comes from `need`: an expression at depth `d` stays within
`d + e.need`, and the declared limit of a method is the need of its body. The
depth that the machine sees and the depth that the meter counts differ by the
conditions under way and by the extra push of a call, and both differences are
on the safe side.
-/

namespace JasminGen

/-! ## Effects of instructions -/

namespace Instr

/-- The operands that an instruction takes off the stack. -/
def takes : Instr → Nat
  | ldc _ => 0
  | iload _ => 0
  | istore _ => 1
  | arith _ => 2
  | ineg => 1
  | dup => 1
  | pop => 1
  | branch _ _ => 1
  | goto _ => 0
  | getstatic _ _ => 0
  | putstatic _ _ => 1
  | invokestatic m => (MethodSymbol.ofText m).params
  | invokevirtual m => (MethodSymbol.ofText m).params + 1
  | ireturn => 1
  | vreturn => 0

/-- The values that an instruction puts on the stack. -/
def leaves : Instr → Nat
  | ldc _ => 1
  | iload _ => 1
  | istore _ => 0
  | arith _ => 1
  | ineg => 1
  | dup => 2
  | pop => 0
  | branch _ _ => 0
  | goto _ => 0
  | getstatic _ _ => 1
  | putstatic _ _ => 0
  | invokestatic m => (MethodSymbol.ofText m).returns.results
  | invokevirtual m => (MethodSymbol.ofText m).returns.results
  | ireturn => 0
  | vreturn => 0

/-- Whether control can go on to the next line. -/
def fallsThrough : Instr → Bool
  | goto _ => false
  | ireturn => false
  | vreturn => false
  | _ => true

end Instr

/-- `depth` gives the depth of the operand stack before every line of `code`, and
after the last one. -/
structure StackDepths (code : Code) (limit : Nat) (depth : Nat → Nat) : Prop where
  start : depth 0 = 0
  bounded : ∀ i ≤ code.length, depth i ≤ limit
  /-- Every instruction finds its operands. -/
  enough : ∀ i ins, code[i]? = some (.instr ins) → ins.takes ≤ depth i
  /-- An instruction has its effect on the next line, if control goes on there. -/
  falls : ∀ i ins, code[i]? = some (.instr ins) → ins.fallsThrough = true →
    depth (i + 1) = depth i - ins.takes + ins.leaves
  /-- Other lines have no effect. -/
  passes : ∀ i line, code[i]? = some line → line.instr? = none → depth (i + 1) = depth i
  /-- A jump has the instruction's effect at the label. -/
  jumps : ∀ i j ins l, code[i]? = some (.instr ins) → ins.target? = some l →
    code[j]? = some (.label l) → depth j = depth i - ins.takes + ins.leaves
  /-- A method is left with nothing on the stack but the value it returns. -/
  returns : ∀ i ins, code[i]? = some (.instr ins) → ins.isReturn = true → depth i = ins.takes

/-! ## Flows -/

/-- Through the lines of the code from one depth to another, never above `limit`;
`L` gives the depths at labels. What follows an instruction that control does not
pass may start at any depth. -/
inductive Flows (L : Label → Nat) (limit : Nat) : Nat → Code → Nat → Prop where
  | nil {d} : d ≤ limit → Flows L limit d [] d
  | label {l d c d'} : L l = d → Flows L limit d c d' → Flows L limit d (.label l :: c) d'
  | directive {i d c d'} : Flows L limit d c d' → Flows L limit d (.directive i :: c) d'
  | blank {d c d'} : Flows L limit d c d' → Flows L limit d (.blank :: c) d'
  | instr {i b d c d'} : d = b + i.takes → d ≤ limit → i.fallsThrough = true →
      (∀ l, i.target? = some l → L l = b + i.leaves) →
      Flows L limit (b + i.leaves) c d' → Flows L limit d (.instr i :: c) d'
  | leave {i b d e c d'} : d = b + i.takes → d ≤ limit → i.fallsThrough = false →
      (∀ l, i.target? = some l → L l = b + i.leaves) → (i.isReturn = true → b = 0) →
      Flows L limit e c d' → Flows L limit d (.instr i :: c) d'

namespace Flows

variable {L : Label → Nat} {limit : Nat}

theorem le_limit : ∀ {d d' : Nat} {c : Code}, Flows L limit d c d' → d ≤ limit
  | _, _, _, .nil h => h
  | _, _, _, .label _ h => h.le_limit
  | _, _, _, .directive h => h.le_limit
  | _, _, _, .blank h => h.le_limit
  | _, _, _, .instr _ h _ _ _ => h
  | _, _, _, .leave _ h _ _ _ _ => h

theorem append : ∀ {d e d' : Nat} {c c' : Code}, Flows L limit d c e → Flows L limit e c' d' →
    Flows L limit d (c ++ c') d'
  | _, _, _, _, _, .nil _, h' => h'
  | _, _, _, _, _, .label hl h, h' => .label hl (h.append h')
  | _, _, _, _, _, .directive h, h' => .directive (h.append h')
  | _, _, _, _, _, .blank h, h' => .blank (h.append h')
  | _, _, _, _, _, .instr hd hle hf hL h, h' => .instr hd hle hf hL (h.append h')
  | _, _, _, _, _, .leave hd hle hf hL hr h, h' => .leave hd hle hf hL hr (h.append h')

/-- What a flow says of the depths along it. The depths at labels are still
separate here, so that jumps out of the piece make sense. -/
structure Depths (L : Label → Nat) (limit : Nat) (code : Code) (depth : Nat → Nat) : Prop where
  bounded : ∀ i ≤ code.length, depth i ≤ limit
  enough : ∀ i ins, code[i]? = some (.instr ins) → ins.takes ≤ depth i
  falls : ∀ i ins, code[i]? = some (.instr ins) → ins.fallsThrough = true →
    depth (i + 1) = depth i - ins.takes + ins.leaves
  passes : ∀ i line, code[i]? = some line → line.instr? = none → depth (i + 1) = depth i
  labels : ∀ i l, code[i]? = some (.label l) → depth i = L l
  jumps : ∀ i ins l, code[i]? = some (.instr ins) → ins.target? = some l →
    L l = depth i - ins.takes + ins.leaves
  returns : ∀ i ins, code[i]? = some (.instr ins) → ins.isReturn = true → depth i = ins.takes

/-- The depths of a code with one more line in front. -/
def consDepth (d : Nat) (depth : Nat → Nat) : Nat → Nat
  | 0 => d
  | i + 1 => depth i

theorem Depths.cons_line {c : Code} {depth : Nat → Nat} (h : Depths L limit c depth) (line : Line)
    (hline : line.instr? = none) (hlabel : ∀ l, line = .label l → depth 0 = L l) :
    Depths L limit (line :: c) (consDepth (depth 0) depth) := by
  have hnot : ∀ ins, line ≠ .instr ins := by
    rintro ins rfl
    cases hline
  constructor
  · intro i hi
    cases i with
    | zero => exact h.bounded 0 (Nat.zero_le _)
    | succ i => exact h.bounded i (Nat.le_of_succ_le_succ hi)
  · intro i ins hi
    cases i with
    | zero => exact absurd (Option.some.inj hi) (hnot ins)
    | succ i => exact h.enough i ins hi
  · intro i ins hi hf
    cases i with
    | zero => exact absurd (Option.some.inj hi) (hnot ins)
    | succ i => exact h.falls i ins hi hf
  · intro i l hi hl
    cases i with
    | zero => rfl
    | succ i => exact h.passes i l hi hl
  · intro i l hi
    cases i with
    | zero => exact hlabel l (Option.some.inj hi)
    | succ i => exact h.labels i l hi
  · intro i ins l hi hl
    cases i with
    | zero => exact absurd (Option.some.inj hi) (hnot ins)
    | succ i => exact h.jumps i ins l hi hl
  · intro i ins hi hr
    cases i with
    | zero => exact absurd (Option.some.inj hi) (hnot ins)
    | succ i => exact h.returns i ins hi hr

theorem Depths.cons_instr {c : Code} {depth : Nat → Nat} (h : Depths L limit c depth) {ins : Instr}
    {b : Nat} (hle : b + ins.takes ≤ limit)
    (hfalls : ins.fallsThrough = true → depth 0 = b + ins.leaves)
    (hjumps : ∀ l, ins.target? = some l → L l = b + ins.leaves)
    (hreturns : ins.isReturn = true → b = 0) :
    Depths L limit (.instr ins :: c) (consDepth (b + ins.takes) depth) := by
  constructor
  · intro i hi
    cases i with
    | zero => exact hle
    | succ i => exact h.bounded i (Nat.le_of_succ_le_succ hi)
  · intro i ins' hi
    cases i with
    | zero => cases hi; exact Nat.le_add_left _ _
    | succ i => exact h.enough i ins' hi
  · intro i ins' hi hf
    cases i with
    | zero =>
        cases hi
        change depth 0 = b + ins.takes - ins.takes + ins.leaves
        rw [hfalls hf, Nat.add_sub_cancel]
    | succ i => exact h.falls i ins' hi hf
  · intro i l hi hl
    cases i with
    | zero => cases hi; cases hl
    | succ i => exact h.passes i l hi hl
  · intro i l hi
    cases i with
    | zero => cases hi
    | succ i => exact h.labels i l hi
  · intro i ins' l hi hl
    cases i with
    | zero =>
        cases hi
        change L l = b + ins.takes - ins.takes + ins.leaves
        rw [hjumps l hl, Nat.add_sub_cancel]
    | succ i => exact h.jumps i ins' l hi hl
  · intro i ins' hi hr
    cases i with
    | zero =>
        cases hi
        change b + ins.takes = ins.takes
        rw [hreturns hr, Nat.zero_add]
    | succ i => exact h.returns i ins' hi hr

theorem exists_depths : ∀ {d d' : Nat} {c : Code}, Flows L limit d c d' →
    ∃ depth, depth 0 = d ∧ Depths L limit c depth
  | d, _, _, .nil h => by
      refine ⟨fun _ => d, rfl, ?_⟩
      constructor <;> intros <;> first | exact h | simp_all
  | _, _, _, .label hl h => by
      obtain ⟨depth, hd, hdepth⟩ := h.exists_depths
      refine ⟨consDepth (depth 0) depth, hd, hdepth.cons_line _ rfl ?_⟩
      rintro l ⟨⟩
      exact hd.trans hl.symm
  | _, _, _, .directive h => by
      obtain ⟨depth, hd, hdepth⟩ := h.exists_depths
      exact ⟨consDepth (depth 0) depth, hd, hdepth.cons_line _ rfl (by rintro l ⟨⟩)⟩
  | _, _, _, .blank h => by
      obtain ⟨depth, hd, hdepth⟩ := h.exists_depths
      exact ⟨consDepth (depth 0) depth, hd, hdepth.cons_line _ rfl (by rintro l ⟨⟩)⟩
  | _, _, _, @Flows.instr _ _ i _ _ _ _ hd hle hf hL h => by
      obtain ⟨depth, hstart, hdepth⟩ := h.exists_depths
      refine ⟨_, hd.symm, hdepth.cons_instr (hd ▸ hle) (fun _ => hstart) hL ?_⟩
      intro hr
      cases i <;> cases hr <;> cases hf
  | _, _, _, .leave hd hle hf hL hr h => by
      obtain ⟨depth, -, hdepth⟩ := h.exists_depths
      refine ⟨_, hd.symm, hdepth.cons_instr (hd ▸ hle) ?_ hL hr⟩
      intro hf'
      rw [hf] at hf'
      cases hf'

theorem stackDepths {d' : Nat} {c : Code} (h : Flows L limit 0 c d') :
    ∃ depth, StackDepths c limit depth := by
  obtain ⟨depth, hstart, hdepth⟩ := h.exists_depths
  refine ⟨depth, hstart, hdepth.bounded, hdepth.enough, hdepth.falls, hdepth.passes, ?_,
    hdepth.returns⟩
  intro i j ins l hi hl hj
  rw [hdepth.labels j l hj, hdepth.jumps i ins l hi hl]

end Flows

/-! ## Balanced pieces -/

/-- From depth `d` to depth `d'` within `limit`, if the labels that the piece
defines have the depths it needs. -/
def Balanced (limit d : Nat) (c : Code) (d' : Nat) : Prop :=
  ∃ points : List (Label × Nat), points.map Prod.fst = Code.labels c
    ∧ ∀ L : Label → Nat, (∀ point ∈ points, L point.1 = point.2) → Flows L limit d c d'

namespace Balanced

variable {limit d d' e : Nat} {c c' : Code}

theorem straight (hlabels : Code.labels c = []) (h : ∀ L, Flows L limit d c d') :
    Balanced limit d c d' :=
  ⟨[], hlabels.symm, fun L _ => h L⟩

theorem nil (h : d ≤ limit) : Balanced limit d [] d :=
  straight rfl fun _ => .nil h

theorem instr {i : Instr} {b t l : Nat} (htakes : i.takes = t) (hleaves : i.leaves = l)
    (hfalls : i.fallsThrough = true) (htarget : i.target? = none) (hlimit : b + t ≤ limit)
    (hlimit' : b + l ≤ limit) : Balanced limit (b + t) [.instr i] (b + l) := by
  subst htakes hleaves
  refine straight rfl fun L => .instr rfl hlimit hfalls ?_ (.nil hlimit')
  intro l hl
  rw [htarget] at hl
  cases hl

theorem ldc (v : Int32) (hlimit : d + 1 ≤ limit) :
    Balanced limit d [.instr (.ldc v)] (d + 1) :=
  instr (b := d) (t := 0) (l := 1) rfl rfl rfl rfl (Nat.le_of_succ_le hlimit) hlimit

theorem arith (op : ArithOp) (hlimit : d + 2 ≤ limit) :
    Balanced limit (d + 2) [.instr (.arith op)] (d + 1) :=
  instr (b := d) (t := 2) (l := 1) rfl rfl rfl rfl hlimit (Nat.le_of_succ_le hlimit)

theorem dup (hlimit : d + 2 ≤ limit) : Balanced limit (d + 1) [.instr .dup] (d + 2) :=
  instr (b := d) (t := 1) (l := 2) rfl rfl rfl rfl (Nat.le_of_succ_le hlimit) hlimit

theorem one {n : Nat} (h : Balanced limit d c (d + n)) (hn : n = 1) : Balanced limit d c (d + 1) :=
  hn ▸ h

theorem append (h : Balanced limit d c e) (h' : Balanced limit e c' d') :
    Balanced limit d (c ++ c') d' := by
  obtain ⟨points, hmap, hflows⟩ := h
  obtain ⟨points', hmap', hflows'⟩ := h'
  refine ⟨points ++ points', by simp [hmap, hmap'], ?_⟩
  intro L hL
  rw [List.forall_mem_append] at hL
  exact (hflows L hL.1).append (hflows' L hL.2)

theorem choose {L : Label → Nat} {fall taken : Int32} {hit done : Label} (hhit : L hit = d)
    (hdone : L done = d + 1) (hlimit : d + 1 ≤ limit) :
    Flows L limit d (Code.choose fall taken hit done) (d + 1) := by
  have hd : d ≤ limit := by omega
  refine .instr (b := d) rfl hd rfl (by rintro l ⟨⟩) ?_
  refine .leave (b := d + 1) (e := d) rfl hlimit rfl (by rintro l ⟨⟩; exact hdone) (by rintro ⟨⟩) ?_
  refine .label hhit (.instr (b := d) rfl hd rfl (by rintro l ⟨⟩) ?_)
  exact .label hdone (.nil hlimit)

theorem truth (onZero done : Label) (hlimit : d + 1 ≤ limit) :
    Balanced limit (d + 1) (Code.truth onZero done) (d + 1) := by
  refine ⟨[(onZero, d), (done, d + 1)], rfl, ?_⟩
  intro L hL
  simp only [List.forall_mem_cons] at hL
  obtain ⟨honZero, hdone, -⟩ := hL
  refine .instr (b := d) rfl hlimit rfl (by rintro l ⟨⟩; exact honZero) ?_
  exact choose honZero hdone hlimit

theorem compare (o : Comparison) (hit done : Label) (hlimit : d + 2 ≤ limit) :
    Balanced limit (d + 2) (Code.compare o hit done) (d + 1) := by
  refine ⟨[(hit, d), (done, d + 1)], rfl, ?_⟩
  intro L hL
  simp only [List.forall_mem_cons] at hL
  obtain ⟨hhit, hdone, -⟩ := hL
  have hlimit' : d + 1 ≤ limit := by omega
  refine .instr (b := d) rfl hlimit rfl (by rintro l ⟨⟩) ?_
  refine .instr (b := d) rfl hlimit' rfl (by rintro l ⟨⟩; exact hhit) ?_
  exact choose hhit hdone hlimit'

theorem negate (entry onZero done : Label) (hlimit : d + 1 ≤ limit) :
    Balanced limit (d + 1) (Code.negate entry onZero done) (d + 1) := by
  refine ⟨[(entry, d), (onZero, d), (done, d + 1)], rfl, ?_⟩
  intro L hL
  simp only [List.forall_mem_cons] at hL
  obtain ⟨hentry, honZero, hdone, -⟩ := hL
  refine .instr (b := d) rfl hlimit rfl (by rintro l ⟨⟩; exact honZero) ?_
  exact .label hentry (choose honZero hdone hlimit)

theorem ifThen {cond yes : Code} (hcond : Balanced limit d cond (d + 1))
    (hyes : Balanced limit d yes d) (done : Label) (hlimit : d + 1 ≤ limit) :
    Balanced limit d (Code.ifThen cond yes done) d := by
  obtain ⟨points, hmap, hflows⟩ := hcond
  obtain ⟨points', hmap', hflows'⟩ := hyes
  refine ⟨points ++ (points' ++ [(done, d)]), by simp [Code.ifThen, hmap, hmap'], ?_⟩
  intro L hL
  simp only [List.forall_mem_append, List.forall_mem_singleton] at hL
  obtain ⟨hLcond, hLyes, hdone⟩ := hL
  rw [Code.ifThen, List.append_assoc]
  refine (hflows L hLcond).append ?_
  refine .instr (b := d) rfl hlimit rfl (by rintro l ⟨⟩; exact hdone) ?_
  exact (hflows' L hLyes).append (.label hdone (.nil (by omega)))

theorem ifElse {cond yes no : Code} (hcond : Balanced limit d cond (d + 1))
    (hyes : Balanced limit d yes d) (hno : Balanced limit d no d) (otherwise done : Label)
    (hlimit : d + 1 ≤ limit) :
    Balanced limit d (Code.ifElse cond yes no otherwise done) d := by
  obtain ⟨points, hmap, hflows⟩ := hcond
  obtain ⟨points', hmap', hflows'⟩ := hyes
  obtain ⟨points'', hmap'', hflows''⟩ := hno
  refine ⟨points ++ (points' ++ ((otherwise, d) :: (points'' ++ [(done, d)]))),
    by simp [Code.ifElse, hmap, hmap', hmap''], ?_⟩
  intro L hL
  simp only [List.forall_mem_append, List.forall_mem_cons] at hL
  obtain ⟨hLcond, hLyes, hotherwise, hLno, hdone, -⟩ := hL
  have hd : d ≤ limit := by omega
  simp only [Code.ifElse, List.append_assoc, List.cons_append]
  refine (hflows L hLcond).append ?_
  refine .instr (b := d) rfl hlimit rfl (by rintro l ⟨⟩; exact hotherwise) ?_
  refine (hflows' L hLyes).append ?_
  refine .leave (b := d) (e := d) rfl hd rfl (by rintro l ⟨⟩; exact hdone) (by rintro ⟨⟩) ?_
  exact .label hotherwise ((hflows'' L hLno).append (.label hdone (.nil hd)))

theorem loop {cond body : Code} (hcond : Balanced limit d cond (d + 1))
    (hbody : Balanced limit d body d) (start done : Label) (hlimit : d + 1 ≤ limit) :
    Balanced limit d (Code.loop cond body start done) d := by
  obtain ⟨points, hmap, hflows⟩ := hcond
  obtain ⟨points', hmap', hflows'⟩ := hbody
  refine ⟨(start, d) :: (points ++ (points' ++ [(done, d)])),
    by simp [Code.loop, hmap, hmap'], ?_⟩
  intro L hL
  simp only [List.forall_mem_append, List.forall_mem_cons] at hL
  obtain ⟨hstart, hLcond, hLbody, hdone, -⟩ := hL
  have hd : d ≤ limit := by omega
  simp only [Code.loop, List.append_assoc, List.cons_append]
  refine .label hstart ((hflows L hLcond).append ?_)
  refine .instr (b := d) rfl hlimit rfl (by rintro l ⟨⟩; exact hdone) ?_
  refine (hflows' L hLbody).append ?_
  refine .leave (b := d) (e := d) rfl hd rfl (by rintro l ⟨⟩; exact hstart) (by rintro ⟨⟩) ?_
  exact .label hdone (.nil hd)

/-- Where no label is defined twice, some `L` suits all the points. -/
theorem exists_flows (h : Balanced limit d c d') (hnodup : (Code.labels c).Nodup) :
    ∃ L, Flows L limit d c d' := by
  obtain ⟨points, hmap, hflows⟩ := h
  rw [← hmap] at hnodup
  have hL : ∃ L : Label → Nat, ∀ point ∈ points, L point.1 = point.2 := by
    clear hflows hmap
    induction points with
    | nil => exact ⟨fun _ => 0, by simp⟩
    | cons point points ih =>
        rw [List.map_cons, List.nodup_cons] at hnodup
        obtain ⟨L, hL⟩ := ih hnodup.2
        refine ⟨Function.update L point.1 point.2, ?_⟩
        rw [List.forall_mem_cons]
        refine ⟨Function.update_self .., ?_⟩
        intro q hq
        have hne : q.1 ≠ point.1 := by
          intro heq
          exact hnodup.1 (heq ▸ List.mem_map_of_mem hq)
        rw [Function.update_of_ne hne, hL q hq]
  obtain ⟨L, hL⟩ := hL
  exact ⟨L, hflows L hL⟩

end Balanced

/-! ## Expressions -/

namespace Names

variable {Γ : Names} {limit d : Nat}

theorem balanced_of_load {x : String} {i : Instr} (h : Γ.load? x = .ok (some i))
    (hlimit : d + 1 ≤ limit) : Balanced limit d [.instr i] (d + 1) := by
  rcases load?_eq_some h with ⟨s, -, rfl⟩ | ⟨-, rfl⟩ <;>
    exact Balanced.instr (b := d) (t := 0) rfl rfl rfl rfl (Nat.le_of_succ_le hlimit) hlimit

theorem balanced_of_store {x : String} {i : Instr} (h : Γ.store x = .ok i)
    (hlimit : d + 1 ≤ limit) : Balanced limit (d + 1) [.instr i] d := by
  rcases store_eq_ok h with ⟨s, -, rfl⟩ | ⟨-, rfl⟩ <;>
    exact Balanced.instr (b := d) (l := 0) rfl rfl rfl rfl hlimit (Nat.le_of_succ_le hlimit)

/-- The arguments of a call lie on the stream, for the print routine, or on
nothing. Either way the invocation leaves the results alone. -/
theorem balanced_of_calleeFor {f : String} {n need : Nat} {t : Callee}
    (h : Γ.calleeFor f n = .ok t) (hn : n ≤ need) (hlimit : d + (1 + need) ≤ limit) :
    ∃ base, base ≤ d + 1 ∧ Balanced limit d t.opening base
      ∧ Balanced limit (base + n) [.instr t.invoke] (d + t.returns.results) := by
  have hone := t.returns.results_le_one
  rcases calleeFor_eq_ok h with ⟨-, rfl, rfl⟩ | ⟨-, s, -, rfl, rfl⟩
  · have hsymbol : MethodSymbol.ofText "java/io/PrintStream/println(I)V" =
        ⟨"java/io/PrintStream/println", 1, .void⟩ := by decide +kernel
    refine ⟨d + 1, Nat.le_refl _, ?_, ?_⟩
    · exact Balanced.instr (b := d) (t := 0) rfl rfl rfl rfl (by omega) (by omega)
    · refine Balanced.instr (b := d) (t := 2) ?_ ?_ rfl rfl (by omega) (by omega)
      · rw [printRoutine, Instr.takes, hsymbol]
      · rw [printRoutine, Instr.leaves, hsymbol]
  · have hsymbol : MethodSymbol.ofText (Γ.config.qualified s.descriptor) =
        ⟨Γ.config.className ++ "/" ++ s.name, s.arity, s.returns⟩ :=
      MethodSymbol.ofText_append_descriptor (Γ.config.className ++ "/") s
    refine ⟨d, Nat.le_succ d, Balanced.nil (by omega), ?_⟩
    refine Balanced.instr (b := d) ?_ ?_ rfl rfl (by omega) (by omega)
    · rw [method, Instr.takes, hsymbol]
    · rw [method, Instr.leaves, hsymbol]

end Names

/-- The second load of a left operand finds the room that the right one had. -/
theorem Expr.need_le_one_of_isLeaf {S : Scope} {e : Expr} (h : e.isLeaf = true) : e.need S ≤ 1 := by
  cases e with
  | ident x =>
      rw [Expr.need]
      split <;> omega
  | lit v => exact Nat.le_refl 1
  | _ => cases h

/-- Both operands of a binary operator, the right one on top of what is held of
the left one. -/
theorem Expr.operands_room {S : Scope} {op : BinaryOp} {l r : Expr} {limit d : Nat}
    (hv : (Expr.binary op l r).valued S = true) (hlimit : d + (Expr.binary op l r).need S ≤ limit) :
    (l.valued S = true ∧ l.results S = 1 ∧ d + l.need S ≤ limit)
      ∧ (r.valued S = true ∧ r.results S = 1 ∧ d + op.held l + r.need S ≤ limit)
      ∧ d + op.held l + 1 ≤ limit := by
  rw [Expr.valued, Bool.and_eq_true, ← Expr.isOperand, ← Expr.isOperand, Expr.isOperand_iff,
    Expr.isOperand_iff] at hv
  obtain ⟨⟨hyl, hvl⟩, hyr, hvr⟩ := hv
  have hone := Expr.results_of_yields hyr
  have hle := Expr.results_le_need hvr
  rw [Expr.need] at hlimit
  refine ⟨⟨hvl, Expr.results_of_yields hyl, by omega⟩, ⟨hvr, hone, by omega⟩, by omega⟩

mutual

/-- Within its need, the code of an expression adds what the expression leaves. -/
theorem Emits.balanced {Γ : Names} {limit : Nat} : ∀ {e : Expr} {k k' : Counters} {code : Code},
    Emits Γ e k code k' → ∀ {d : Nat}, e.valued Γ.scope = true → d + e.need Γ.scope ≤ limit →
      Balanced limit d code (d + e.results Γ.scope)
  | _, _, _, _, .scalar hload, d, _, hlimit => by
      have htype := Names.type?_of_load hload
      rw [Expr.need, if_pos htype] at hlimit
      rw [Expr.results, Expr.yields, htype]
      exact Names.balanced_of_load hload hlimit
  | _, _, _, _, .array hload, d, _, hlimit => by
      rw [Expr.results, Expr.yields, Names.type?_of_load_none hload]
      exact Balanced.nil (by omega)
  | _, _, _, _, .lit, d, _, hlimit => Balanced.ldc _ hlimit
  | _, _, _, _, .paren h, d, hv, hlimit => by
      rw [Expr.valued] at hv
      exact h.balanced hv hlimit
  | _, _, _, _, .assign (e := e) h hstore, d, hv, hlimit => by
      rw [Expr.valued, ← Expr.isOperand, Expr.isOperand_iff] at hv
      have hone := Expr.results_of_yields hv.1
      have hroom := Expr.results_le_need hv.2
      rw [Expr.need] at hlimit
      exact ((h.balanced hv.2 hlimit).one hone).append
        (Names.balanced_of_store hstore (by omega))
  | _, _, _, _, .neg h, d, hv, hlimit => by
      rw [Expr.valued, ← Expr.isOperand, Expr.isOperand_iff] at hv
      have hone := Expr.results_of_yields hv.1
      have hroom := Expr.results_le_need hv.2
      rw [Expr.need, UnaryOp.need] at hlimit
      exact ((h.balanced hv.2 hlimit).one hone).append
        (Balanced.instr (b := d) (l := 1) rfl rfl rfl rfl (by omega) (by omega))
  | _, _, _, _, .not h, d, hv, hlimit => by
      rw [Expr.valued, ← Expr.isOperand, Expr.isOperand_iff] at hv
      have hone := Expr.results_of_yields hv.1
      have hroom := Expr.results_le_need hv.2
      rw [Expr.need, UnaryOp.need] at hlimit
      exact ((h.balanced hv.2 hlimit).one hone).append (Balanced.negate _ _ _ (by omega))
  | _, _, _, _, @Emits.stepName _ u op x i _ code _ hu h hstore, d, hv, hlimit => by
      rw [Expr.valued, ← Expr.isOperand, Expr.isOperand_iff] at hv
      have hone := Expr.results_of_yields hv.1
      have hneed : u.need ((Expr.ident x).need Γ.scope) = max ((Expr.ident x).need Γ.scope) 2 := by
        cases u <;> first | rfl | cases hu
      rw [Expr.need, hneed] at hlimit
      have hroom : d + 2 ≤ limit := by omega
      have hvalue : Balanced limit d code (d + 1) := (h.balanced hv.2 (by omega)).one hone
      have hput : Balanced limit (d + 2) [.instr i] (d + 1) := Names.balanced_of_store hstore hroom
      exact hvalue.append ((Balanced.ldc 1 hroom).append
        ((Balanced.arith op hroom).append ((Balanced.dup hroom).append hput)))
  | _, _, _, _, @Emits.step _ u op e _ code _ hu _ h, d, hv, hlimit => by
      rw [Expr.valued, ← Expr.isOperand, Expr.isOperand_iff] at hv
      have hone := Expr.results_of_yields hv.1
      have hneed : u.need (e.need Γ.scope) = max (e.need Γ.scope) 2 := by
        cases u <;> first | rfl | cases hu
      rw [Expr.need, hneed] at hlimit
      have hroom : d + 2 ≤ limit := by omega
      have hvalue : Balanced limit d code (d + 1) := (h.balanced hv.2 (by omega)).one hone
      exact hvalue.append ((Balanced.ldc 1 hroom).append (Balanced.arith op hroom))
  | _, _, _, _, @Emits.arith _ op l _ _ _ _ _ _ hl hr, d, hv, hlimit => by
      obtain ⟨⟨hvl, hl1, hleft⟩, ⟨hvr, hr1, hright⟩, hroom⟩ := Expr.operands_room hv hlimit
      have hheld : (BinaryOp.arith op).held l = 1 := by simp [BinaryOp.held]
      rw [hheld] at hright hroom
      exact (((hl.balanced hvl hleft).one hl1).append ((hr.balanced hvr hright).one hr1)).append
        (Balanced.arith op hroom)
  | _, _, _, _, @Emits.compare _ o l _ _ _ _ _ _ hl hr, d, hv, hlimit => by
      obtain ⟨⟨hvl, hl1, hleft⟩, ⟨hvr, hr1, hright⟩, hroom⟩ := Expr.operands_room hv hlimit
      have hheld : (BinaryOp.compare o).held l = 1 := by simp [BinaryOp.held]
      rw [hheld] at hright hroom
      exact (((hl.balanced hvl hleft).one hl1).append ((hr.balanced hvr hright).one hr1)).append
        (Balanced.compare _ _ _ hroom)
  | _, _, _, _, @Emits.and _ l _ _ _ _ _ _ hl hr, d, hv, hlimit => by
      obtain ⟨⟨hvl, hl1, hleft⟩, ⟨hvr, hr1, hright⟩, hroom⟩ := Expr.operands_room hv hlimit
      have hheld : BinaryOp.and.held l = 1 := by simp [BinaryOp.held]
      rw [hheld] at hright hroom
      exact (((hl.balanced hvl hleft).one hl1).append ((hr.balanced hvr hright).one hr1)).append
        ((Balanced.arith .mul hroom).append (Balanced.truth _ _ (by omega)))
  | _, _, _, _, @Emits.orReload _ l r _ left _ right _ hleaf hl hr, d, hv, hlimit => by
      obtain ⟨⟨hvl, hl1, hleft⟩, ⟨hvr, hr1, hright⟩, hroom⟩ := Expr.operands_room hv hlimit
      have hheld : BinaryOp.or.held l = 1 := by simp [BinaryOp.held, hleaf]
      rw [hheld] at hright hroom
      have hleaf := Expr.need_le_one_of_isLeaf (S := Γ.scope) hleaf
      have hadd := Balanced.arith .add hroom
      have hagain : Balanced limit (d + 1) left (d + 2) := (hl.balanced hvl (by omega)).one hl1
      have hsum : Balanced limit d (left ++ right ++ .instr (.arith .add) :: left) (d + 2) :=
        (((hl.balanced hvl hleft).one hl1).append ((hr.balanced hvr hright).one hr1)).append
          (hadd.append hagain)
      exact hsum.append (hadd.append (Balanced.truth _ _ (by omega)))
  | _, _, _, _, @Emits.orDup _ l r _ left _ right _ hleaf hl hr, d, hv, hlimit => by
      obtain ⟨⟨hvl, hl1, hleft⟩, ⟨hvr, hr1, hright⟩, hroom⟩ := Expr.operands_room hv hlimit
      have hheld : BinaryOp.or.held l = 2 := by simp [BinaryOp.held, hleaf]
      rw [hheld] at hright hroom
      have hroom' : d + 2 ≤ limit := by omega
      have hoperands : Balanced limit d (left ++ .instr .dup :: right) (d + 3) :=
        ((hl.balanced hvl hleft).one hl1).append
          ((Balanced.dup hroom').append ((hr.balanced hvr hright).one hr1))
      exact hoperands.append ((Balanced.arith .add hroom).append
        ((Balanced.arith .add hroom').append (Balanced.truth _ _ (by omega))))
  | _, _, _, _, @Emits.call _ f es t _ args _ ht h, d, hv, hlimit => by
      rw [Expr.valued] at hv
      rw [Expr.need] at hlimit
      have hresults : (Expr.call f es).results Γ.scope = t.returns.results := by
        rw [Expr.results, Expr.yields, Names.returns?_of_calleeFor ht]
        cases t.returns <;> rfl
      obtain ⟨base, hbase, hopening, hinvoke⟩ :=
        Names.balanced_of_calleeFor ht (Expr.length_le_needAll Γ.scope es) hlimit
      rw [hresults]
      exact (hopening.append (h.balanced hv (by omega))).append hinvoke

theorem EmitsAll.balanced {Γ : Names} {limit : Nat} :
    ∀ {es : List Expr} {k k' : Counters} {code : Code}, EmitsAll Γ es k code k' →
      ∀ {d : Nat}, Expr.valuedAll Γ.scope es = true → d + Expr.needAll Γ.scope es ≤ limit →
        Balanced limit d code (d + es.length)
  | _, _, _, _, .nil, d, _, hlimit => Balanced.nil hlimit
  | _, _, _, _, @EmitsAll.cons _ e es _ first _ rest _ h hs, d, hv, hlimit => by
      rw [Expr.valuedAll, Bool.and_eq_true, ← Expr.isOperand, Expr.isOperand_iff] at hv
      obtain ⟨⟨hy, hve⟩, hvs⟩ := hv
      rw [Expr.needAll] at hlimit
      have hfirst : Balanced limit d first (d + 1) :=
        (h.balanced hve (by omega)).one (Expr.results_of_yields hy)
      have hrest : Balanced limit (d + 1) rest (d + 1 + es.length) := hs.balanced hvs (by omega)
      rw [List.length_cons, Nat.add_comm es.length, ← Nat.add_assoc]
      exact hfirst.append hrest

end

/-! ## Statements -/

theorem Balanced.pops (limit n : Nat) (h : n ≤ limit) :
    Balanced limit n (List.replicate n (.instr .pop)) 0 := by
  induction n with
  | zero => exact Balanced.nil h
  | succ n ih =>
      have hn : n ≤ limit := Nat.le_of_succ_le h
      exact (Balanced.instr (b := n) (l := 0) rfl rfl rfl rfl h hn).append (ih hn)

/-- A method is left with the returned value alone on the stack; the code after
it starts anew. -/
theorem Balanced.leave {limit : Nat} {i : Instr} (hreturn : i.isReturn = true)
    (hlimit : i.takes ≤ limit) : Balanced limit i.takes [.instr i] 0 := by
  refine straight rfl fun L => ?_
  refine .leave (b := 0) (Nat.zero_add _).symm hlimit ?_ ?_ (fun _ => rfl) (.nil (Nat.zero_le _))
  · cases i <;> first | rfl | cases hreturn
  · intro l hl
    cases i <;> cases hreturn <;> cases hl

theorem Declares.balanced {limit : Nat} {d : VarDecl} {c c' : Context} {code : Code}
    (h : Declares d c code c') (hlimit : d.need ≤ limit) : Balanced limit 0 code 0 := by
  cases h with
  | bare => exact Balanced.nil (Nat.zero_le _)
  | init _ hinit =>
      rw [VarDecl.need, hinit] at hlimit
      exact (Balanced.ldc _ hlimit).append
        (Balanced.instr (b := 0) (t := 1) (l := 0) rfl rfl rfl rfl hlimit (Nat.zero_le _))

theorem DeclaresAll.balanced {limit : Nat} {ds : List VarDecl} {c c' : Context} {code : Code}
    (h : DeclaresAll ds c code c') (hlimit : VarDecl.needAll ds ≤ limit) :
    Balanced limit 0 code 0 := by
  induction h with
  | nil => exact Balanced.nil (Nat.zero_le _)
  | cons h _ ih =>
      rw [VarDecl.needAll] at hlimit
      obtain ⟨hfirst, hrest⟩ := Nat.max_le.mp hlimit
      exact (h.balanced hfirst).append (ih hrest)

/-- A condition or a returned value, with nothing below it. -/
theorem Emits.balanced_operand {Γ : Names} {limit : Nat} {e : Expr} {k k' : Counters} {code : Code}
    (h : Emits Γ e k code k') (hv : e.isOperand Γ.scope = true) (hlimit : e.need Γ.scope ≤ limit) :
    Balanced limit 0 code 1 ∧ 1 ≤ limit := by
  obtain ⟨hy, hvalued⟩ := Expr.isOperand_iff.mp hv
  have hone := Expr.results_of_yields hy
  have hroom := Expr.results_le_need hvalued
  rw [hone] at hroom
  exact ⟨(h.balanced hvalued (by omega)).one hone, Nat.le_trans hroom hlimit⟩

mutual

/-- Between statements the stack is empty. -/
theorem Lowers.balanced {limit : Nat} : ∀ {s : Stmt} {c c' : Context} {code : Code},
    Lowers s c code c' → s.valued c.toNames.scope = true → c.meter.Settled →
      s.need c.toNames.scope ≤ limit → Balanced limit 0 code 0
  | _, _, _, _, @Lowers.expr e c code k h, hv, hc, hlimit => by
      rw [Stmt.valued] at hv
      rw [Stmt.need] at hlimit
      have hrise : c.meter.rise k.meter = e.results c.toNames.scope := h.rise_eq hv hc
      have hvalue : Balanced limit 0 code (0 + e.results c.toNames.scope) :=
        h.balanced hv (by omega)
      rw [Nat.zero_add] at hvalue
      rw [hrise]
      exact hvalue.append (Balanced.pops _ _ (Nat.le_trans (Expr.results_le_need hv) hlimit))
  | _, c, _, _, .block hds hss, hv, hc, hlimit => by
      have hscope := hds.grows.scope
      rw [Stmt.valued, ← hscope] at hv
      rw [Stmt.need, ← hscope] at hlimit
      have hsettled := StackMeter.settled_of_climb (hds.meter_eq hc) (Nat.zero_le _)
      exact (hds.balanced (by omega)).append (hss.balanced hv hsettled (by omega))
  | _, _, _, _, @Lowers.ifThen _ s c _ _ yes _ he hs, hv, hc, hlimit => by
      rw [Stmt.valued, Bool.and_eq_true] at hv
      rw [Stmt.need] at hlimit
      obtain ⟨hmeter, hneed⟩ := he.condition_meter_eq hv.1 hc
      obtain ⟨hcond, hone⟩ := he.balanced_operand hv.1 (show _ ≤ limit by omega)
      have hlimit' : s.need c.toNames.scope ≤ limit := by omega
      have hyes : Balanced limit 0 yes 0 :=
        hs.balanced hv.2 (StackMeter.settled_of_climb hmeter hneed) hlimit'
      exact hcond.ifThen hyes _ hone
  | _, _, _, _, @Lowers.ifElse _ s s' c _ k yes c₁ no _ he hs hs', hv, hc, hlimit => by
      rw [Stmt.valued, Bool.and_eq_true, Bool.and_eq_true] at hv
      have hscope : c₁.toNames.scope = c.toNames.scope.extend s.declared := hs.grows.scope
      rw [Stmt.need, ← hscope] at hlimit
      obtain ⟨hmeter, hneed⟩ := he.condition_meter_eq hv.1.1 hc
      obtain ⟨hcond, hone⟩ := he.balanced_operand hv.1.1 (show _ ≤ limit by omega)
      have hlimit' : s.need c.toNames.scope ≤ limit := by omega
      have hsettled : (c.withCounters k).meter.Settled :=
        StackMeter.settled_of_climb hmeter hneed
      have hyes : Balanced limit 0 yes 0 := hs.balanced hv.1.2 hsettled hlimit'
      have hsettled' := StackMeter.settled_of_climb (hs.meter_eq hv.1.2 hsettled) (Nat.zero_le _)
      have hno : Balanced limit 0 no 0 := hs'.balanced (hscope ▸ hv.2) hsettled' (by omega)
      exact hcond.ifElse hyes hno _ _ hone
  | _, _, _, _, @Lowers.loop _ s c _ _ body _ he hs, hv, hc, hlimit => by
      rw [Stmt.valued, Bool.and_eq_true] at hv
      rw [Stmt.need] at hlimit
      obtain ⟨hmeter, hneed⟩ := he.condition_meter_eq hv.1 hc
      obtain ⟨hcond, hone⟩ := he.balanced_operand hv.1 (show _ ≤ limit by omega)
      have hlimit' : s.need c.toNames.scope ≤ limit := by omega
      have hbody : Balanced limit 0 body 0 :=
        hs.balanced hv.2 (StackMeter.settled_of_climb hmeter hneed) hlimit'
      exact hcond.loop hbody _ _ hone
  | _, _, _, _, .retValue h, hv, _, hlimit => by
      rw [Stmt.valued] at hv
      obtain ⟨hvalue, hone⟩ := h.balanced_operand hv hlimit
      exact hvalue.append (Balanced.leave rfl hone)
  | _, _, _, _, .retVoid, _, _, _ => Balanced.leave rfl (Nat.zero_le _)

theorem LowersAll.balanced {limit : Nat} : ∀ {ss : List Stmt} {c c' : Context} {code : Code},
    LowersAll ss c code c' → Stmt.valuedAll c.toNames.scope ss = true → c.meter.Settled →
      Stmt.needAll c.toNames.scope ss ≤ limit → Balanced limit 0 code 0
  | _, _, _, _, .nil, _, _, _ => Balanced.nil (Nat.zero_le _)
  | _, c, _, _, .cons h hs, hv, hc, hlimit => by
      rw [Stmt.valuedAll, Bool.and_eq_true] at hv
      rw [Stmt.needAll] at hlimit
      have hscope := h.grows.scope
      have hsettled := StackMeter.settled_of_climb (h.meter_eq hv.1 hc) (Nat.zero_le _)
      exact (h.balanced hv.1 hc (by omega)).append
        (hs.balanced (hscope ▸ hv.2) hsettled (by rw [hscope]; omega))

end

/-! ## Methods -/

/-- Between its header and its end, a method starts and stops with an empty
stack. -/
theorem Balanced.method {limit : Nat} {c : Code} (h : Balanced limit 0 c 0)
    (access descriptor : String) (stackLimit localsLimit : Nat) :
    Balanced limit 0
      (Method.header access descriptor stackLimit localsLimit ++ (c ++ Code.methodEnd)) 0 := by
  have hzero : 0 ≤ limit := Nat.zero_le limit
  have hheader : Balanced limit 0 (Method.header access descriptor stackLimit localsLimit) 0 :=
    straight rfl fun _ => .directive (.directive (.directive (.nil hzero)))
  have hend : Balanced limit 0 Code.methodEnd 0 :=
    straight rfl fun _ => .directive (.blank (.nil hzero))
  exact hheader.append (h.append hend)

theorem FunDecl.balanced_ending (f : FunDecl) (s : Signature) (limit : Nat) :
    Balanced limit 0 (f.ending s) 0 := by
  have hzero : 0 ≤ limit := Nat.zero_le limit
  unfold ending
  split
  · exact Balanced.nil hzero
  · split
    · exact Balanced.leave rfl hzero
    · exact Balanced.nil hzero

/-- The declared limit suffices for the whole method. -/
theorem Compiles.balanced {config : Config} {p : Program} {f : FunDecl} {c c' : Context}
    {m : Method} (h : Compiles f c m c') (hready : c.Ready config p) (hf : f ∈ p.functions)
    (hv : p.WellValued config) : Balanced m.stackLimit 0 m.code 0 := by
  have hlimit := h.stackLimit_eq hready hf hv
  cases h with
  | @intro s frame decls c₁ lines c₂ hs hframe hdecls hlines =>
      obtain rfl : f.signature = s := Option.some.inj ((hready.signature hf).symm.trans hs)
      have hscope := hdecls.grows.scope
      rw [hready.scope hframe] at hscope
      have hvalued := hv f hf
      rw [← hscope] at hvalued
      rw [FunDecl.need, ← hscope] at hlimit
      have hzero : (c.fresh.withFrame frame).meter.Settled := Int.le_refl 0
      have hsettled := StackMeter.settled_of_climb (hdecls.meter_eq hzero) (Nat.zero_le _)
      dsimp only at hlimit ⊢
      have hlocals : Balanced c₂.limit.1 0 decls 0 := hdecls.balanced (by omega)
      have hbody : Balanced c₂.limit.1 0 lines 0 := hlines.balanced hvalued hsettled (by omega)
      exact ((hlocals.append hbody).append (f.balanced_ending _ _)).method _ _ _ _

theorem Initialises.balanced {Γ : Names} {limit : Nat} (hlimit : 1 ≤ limit) :
    ∀ {inits : List (String × Int32)} {k k' : Counters} {code : Code},
      Initialises Γ inits k code k' → Balanced limit 0 code 0
  | _, _, _, _, .nil => Balanced.nil (Nat.zero_le _)
  | _, _, _, _, .cons hstore h =>
      ((Balanced.ldc _ hlimit).append (Names.balanced_of_store hstore hlimit)).append
        (h.balanced hlimit)

theorem Initialises.meter_eq {Γ : Names} :
    ∀ {inits : List (String × Int32)} {k k' : Counters} {code : Code},
      Initialises Γ inits k code k' → k.meter.Settled →
        k'.meter = k.meter.climb (min 1 inits.length) 0
  | _, _, _, _, .nil, hk => (StackMeter.climb_zero hk).symm
  | _, k, _, _, .cons _ h, hk => by
      have hfirst : ((k.move 1).move (-1)).meter = k.meter.climb 1 0 :=
        StackMeter.climb_move k.meter 1 (Nat.le_refl 1) (Nat.le_refl 1)
      rw [h.meter_eq (StackMeter.settled_of_climb hfirst (Nat.zero_le 1)), hfirst,
        StackMeter.climb_climb, List.length_cons]
      exact congrArg (k.meter.climb · 0) (by omega)

/-- A static initialiser holds one constant at a time. -/
theorem StaticInitialises.stackLimit_eq {c c' : Context} {m : Method}
    (h : StaticInitialises c (.some m) c') (hempty : c.meter.archived = []) :
    m.stackLimit = 1 := by
  cases h with
  | @some stores k hne hstores =>
      have hzero : c.fresh.toCounters.meter.Settled := Int.le_refl 0
      have harchived : (c.fresh.withCounters k).meter.archived = [] :=
        hstores.archived.trans hempty
      have hlength := List.length_pos_iff.mpr hne
      change (c.fresh.withCounters k).limit.1 = 1
      rw [(Context.limit_of_archived harchived).1]
      change k.meter.watermark = 1
      rw [hstores.meter_eq hzero]
      change (max 0 ((0 : Int) + _)).toNat = _
      omega

theorem StaticInitialises.balanced {config : Config} {p : Program} {c c' : Context} {m : Method}
    (h : StaticInitialises c (.some m) c') (hready : c.Ready config p) :
    Balanced m.stackLimit 0 m.code 0 := by
  have hlimit := h.stackLimit_eq hready.archived
  cases h with
  | some _ hstores =>
      dsimp only at hlimit ⊢
      have hbody := hstores.balanced (Nat.le_of_eq hlimit.symm)
      exact (hbody.append (Balanced.leave rfl (Nat.zero_le _))).method _ _ _ _

theorem Generates.balanced {config : Config} {p : Program} {cls : ClassFile} {c₀ c₁ c₂ : Context}
    (h : Generates config p cls c₀ c₁ c₂) (hv : p.WellValued config) {m : Method}
    (hm : m ∈ cls.methods) : Balanced m.stackLimit 0 m.code 0 := by
  rcases List.mem_append.mp hm with hinit | hfun
  · have hstatic := h.staticInit
    rw [Option.mem_toList.mp hinit] at hstatic
    exact hstatic.balanced h.declared.ready
  · obtain ⟨f, hf, c, c', hready, hcompiles⟩ := h.exists_function hfun
    exact hcompiles.balanced hready hf hv

/-- **Stack balance.** If all operands yield values, every method has one depth
of the operand stack at each of its positions, on every path to it: instructions
find their operands and have their effects along fall-through and jumps, the
stack is empty at the start and at a `return`, and the declared limit is never
exceeded. -/
theorem methods_have_stackDepths {config : Config} {p : Program} {cls : ClassFile}
    (hv : p.WellValued config) (h : p.generate config = .ok cls) :
    ∀ m ∈ cls.methods, ∃ depth, StackDepths m.code m.stackLimit depth := by
  intro m hm
  obtain ⟨c₀, c₁, c₂, hgen⟩ := Program.generates h
  have hnodup : (Code.labels m.code).Nodup := by
    obtain ⟨before, after, hsplit⟩ := List.append_of_mem hm
    have hlabelled := hgen.labelled.2
    rw [hsplit] at hlabelled
    obtain ⟨r, w, hm⟩ := hlabelled.split
    exact hm.nodup
  obtain ⟨L, hflows⟩ := (hgen.balanced hv hm).exists_flows hnodup
  exact hflows.stackDepths

theorem euclid_methods_have_stackDepths : Program.euclid.WellValued {}
    ∧ ∃ cls, Program.euclid.generate {} = .ok cls
      ∧ ∀ m ∈ cls.methods, ∃ depth, StackDepths m.code m.stackLimit depth := by
  have hv : Program.euclid.WellValued {} := by decide +kernel
  obtain ⟨cls, hcls⟩ := Program.exists_generate_euclid
  exact ⟨hv, cls, hcls, methods_have_stackDepths hv hcls⟩

end JasminGen
