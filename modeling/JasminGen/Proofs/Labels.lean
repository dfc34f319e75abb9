import JasminGen.Proofs.Compiles

/-!
# Labels

One numbering runs through a class, and a construct takes its labels after its
parts have taken theirs, but places them before, between and after the code of
those parts. So neither the order of definition nor the order of jumps is the
order of issue. What holds of every piece of code is `Labelled n m unjumped c`:
`c` defines exactly the labels from `n` up to `m`, each once, and jumps to
each of them exactly once, except to those in `unjumped`. The statement composes
(`Labelled.append`), which carries it through whole classes.

The only labels that nothing jumps to are the first labels of negations.
`Expr.unjumped` finds their numbers on the tree, by counting.
-/

namespace JasminGen

/-! ## Counting labels on trees -/

def UnaryOp.labelCount : UnaryOp → Nat
  | neg => 0
  | not => 3
  | increment => 0
  | decrement => 0

def BinaryOp.labelCount : BinaryOp → Nat
  | arith _ => 0
  | compare _ => 2
  | and => 2
  | or => 2

mutual

def Expr.labelCount : Expr → Nat
  | .ident _ => 0
  | .lit _ => 0
  | .paren e => e.labelCount
  | .assign _ e => e.labelCount
  | .unary op e => e.labelCount + op.labelCount
  | .binary op l r => l.labelCount + r.labelCount + op.labelCount
  | .call _ es => Expr.labelCountAll es
  | .index _ e => e.labelCount
  | .indexAssign _ e v => e.labelCount + v.labelCount

def Expr.labelCountAll : List Expr → Nat
  | [] => 0
  | e :: es => e.labelCount + Expr.labelCountAll es

end

mutual

def Stmt.labelCount : Stmt → Nat
  | .expr e => e.labelCount
  | .block _ ss => Stmt.labelCountAll ss
  | .ifThen c s => c.labelCount + s.labelCount + 1
  | .ifElse c s s' => c.labelCount + s.labelCount + s'.labelCount + 2
  | .loop c s => c.labelCount + s.labelCount + 2
  | .ret none => 0
  | .ret (some e) => e.labelCount

def Stmt.labelCountAll : List Stmt → Nat
  | [] => 0
  | s :: ss => s.labelCount + Stmt.labelCountAll ss

end

def FunDecl.labelCountAll : List FunDecl → Nat
  | [] => 0
  | f :: fs => Stmt.labelCountAll f.body + FunDecl.labelCountAll fs

/-- Two labels for every relational, `and`, `or`, loop and two-armed `if` node
of the bodies, three for every negation, one for every one-armed `if`. -/
def Program.labelCount (p : Program) : Nat := FunDecl.labelCountAll p.functions

/-! ## Finding the first labels of negations -/

mutual

/-- The first labels of the negations in an expression that is lowered when `n`
labels have been issued. -/
def Expr.unjumped (n : Label) : Expr → List Label
  | .ident _ => []
  | .lit _ => []
  | .paren e => e.unjumped n
  | .assign _ e => e.unjumped n
  | .unary op e => e.unjumped n ++ (if op = .not then [n + e.labelCount] else [])
  | .binary _ l r => l.unjumped n ++ r.unjumped (n + l.labelCount)
  | .call _ es => Expr.unjumpedAll n es
  | .index _ e => e.unjumped n
  | .indexAssign _ e v => e.unjumped n ++ v.unjumped (n + e.labelCount)

def Expr.unjumpedAll (n : Label) : List Expr → List Label
  | [] => []
  | e :: es => e.unjumped n ++ Expr.unjumpedAll (n + e.labelCount) es

end

mutual

def Stmt.unjumped (n : Label) : Stmt → List Label
  | .expr e => e.unjumped n
  | .block _ ss => Stmt.unjumpedAll n ss
  | .ifThen c s => c.unjumped n ++ s.unjumped (n + c.labelCount)
  | .ifElse c s s' => c.unjumped n ++ s.unjumped (n + c.labelCount) ++
      s'.unjumped (n + c.labelCount + s.labelCount)
  | .loop c s => c.unjumped n ++ s.unjumped (n + c.labelCount)
  | .ret none => []
  | .ret (some e) => e.unjumped n

def Stmt.unjumpedAll (n : Label) : List Stmt → List Label
  | [] => []
  | s :: ss => s.unjumped n ++ Stmt.unjumpedAll (n + s.labelCount) ss

end

/-- The same through the bodies of several functions. -/
def FunDecl.unjumpedAll (n : Label) : List FunDecl → List Label
  | [] => []
  | f :: fs => Stmt.unjumpedAll n f.body ++
      FunDecl.unjumpedAll (n + Stmt.labelCountAll f.body) fs

def Program.unjumped (p : Program) : List Label := FunDecl.unjumpedAll 0 p.functions

/-! ## Labels and jumps of a piece of code -/

namespace Code

@[simp] theorem labels_nil : labels [] = [] := rfl

@[simp] theorem labels_instr (i : Instr) (c : Code) : labels (.instr i :: c) = labels c := rfl

@[simp] theorem labels_label (l : Label) (c : Code) : labels (.label l :: c) = l :: labels c := rfl

@[simp] theorem targets_nil : targets [] = [] := rfl

@[simp] theorem targets_instr (i : Instr) (c : Code) :
    targets (.instr i :: c) = i.target?.toList ++ targets c := by
  unfold targets instrs
  rw [List.filterMap_cons_some (show Line.instr? (.instr i) = some i from rfl),
    List.filterMap_cons]
  cases i.target? <;> rfl

@[simp] theorem targets_label (l : Label) (c : Code) : targets (.label l :: c) = targets c := rfl

end Code

/-- `c` defines the labels from `n` up to `m`, each once, and jumps once to
each of them that is not in `unjumped`. -/
structure Labelled (n m : Nat) (unjumped : List Nat) (c : Code) : Prop where
  le : n ≤ m
  once : ∀ l : Nat, (Code.labels c).count l = if n ≤ l ∧ l < m then 1 else 0
  jumped : ∀ l : Nat, (Code.targets c).count l + unjumped.count l = (Code.labels c).count l

namespace Labelled

variable {n m p : Nat} {u v : List Nat} {c d : Code}

/-- Code without labels and jumps takes nothing from the numbering. -/
theorem straight (hlabels : Code.labels c = []) (htargets : Code.targets c = []) (n : Nat) :
    Labelled n n [] c := by
  refine ⟨Nat.le_refl n, fun l => ?_, fun l => ?_⟩
  · rw [hlabels, if_neg (by omega), List.count_nil]
  · simp [hlabels, htargets]

theorem append (hc : Labelled n m u c) (hd : Labelled m p v d) :
    Labelled n p (u ++ v) (c ++ d) := by
  refine ⟨Nat.le_trans hc.le hd.le, fun l => ?_, fun l => ?_⟩
  · have hle := hc.le
    have hle' := hd.le
    rw [Code.labels_append, List.count_append, hc.once l, hd.once l]
    split <;> split <;> split <;> omega
  · have hjc := hc.jumped l
    have hjd := hd.jumped l
    rw [Code.labels_append, Code.targets_append, List.count_append, List.count_append,
      List.count_append]
    omega

/-- An operator's own labels come after those of its operands. -/
theorem append_own (hc : Labelled n m u c) (hd : Labelled m p [] d) :
    Labelled n p u (c ++ d) := by
  have h := hc.append hd
  rwa [List.append_nil] at h

theorem append_straight (hc : Labelled n m u c) (hlabels : Code.labels d = [])
    (htargets : Code.targets d = []) : Labelled n m u (c ++ d) :=
  hc.append_own (straight hlabels htargets m)

theorem truth (n : Nat) : Labelled n (n + 2) [] (Code.truth n (n + 1)) := by
  refine ⟨by omega, fun l => ?_, fun l => ?_⟩
  · simp only [Code.truth, Code.choose, Code.labels_instr, Code.labels_label, Code.labels_nil,
      List.count_cons, List.count_nil, beq_iff_eq]
    split <;> split <;> split <;> omega
  · simp [Code.truth, Code.choose, Instr.target?]

theorem compare (o : Comparison) (n : Nat) :
    Labelled n (n + 2) [] (Code.compare o n (n + 1)) := by
  refine ⟨by omega, fun l => ?_, fun l => ?_⟩
  · simp only [Code.compare, Code.choose, Code.labels_instr, Code.labels_label, Code.labels_nil,
      List.count_cons, List.count_nil, beq_iff_eq]
    split <;> split <;> split <;> omega
  · simp [Code.compare, Code.choose, Instr.target?]

/-- The first label of a negation is the one that nothing jumps to. -/
theorem negate (n : Nat) : Labelled n (n + 3) [n] (Code.negate n (n + 1) (n + 2)) := by
  refine ⟨by omega, fun l => ?_, fun l => ?_⟩
  · simp only [Code.negate, Code.choose, Code.labels_instr, Code.labels_label, Code.labels_nil,
      List.count_cons, List.count_nil, beq_iff_eq]
    split <;> split <;> split <;> split <;> omega
  · simp only [Code.negate, Code.choose, Code.labels_instr, Code.labels_label, Code.labels_nil,
      Code.targets_instr, Code.targets_label, Code.targets_nil, Instr.target?, Option.toList,
      List.append_nil, List.nil_append, List.cons_append, List.count_cons, List.count_nil]
    omega

theorem ifThen (hc : Labelled n m u c) (hd : Labelled m p v d) :
    Labelled n (p + 1) (u ++ v) (Code.ifThen c d p) := by
  refine ⟨Nat.le_succ_of_le (Nat.le_trans hc.le hd.le), fun l => ?_, fun l => ?_⟩
  · have hcd := (hc.append hd).once l
    have hle := (hc.append hd).le
    simp only [Code.ifThen, Code.labels_append, Code.labels_instr, Code.labels_label,
      Code.labels_nil, List.count_append, List.count_cons, List.count_nil, beq_iff_eq] at hcd ⊢
    split <;> split <;> split at hcd <;> omega
  · have hcd := (hc.append hd).jumped l
    simp only [Code.ifThen, Code.labels_append, Code.targets_append, Code.labels_instr,
      Code.labels_label, Code.labels_nil, Code.targets_instr, Code.targets_label, Code.targets_nil,
      Instr.target?, Option.toList, List.count_append, List.count_cons, List.count_nil] at hcd ⊢
    omega

theorem ifElse {q : Nat} {w : List Nat} {e : Code} (hc : Labelled n m u c) (hd : Labelled m p v d)
    (he : Labelled p q w e) : Labelled n (q + 2) (u ++ v ++ w) (Code.ifElse c d e (q + 1) q) := by
  have hall := (hc.append hd).append he
  refine ⟨Nat.le_trans hall.le (Nat.le_add_right q 2), fun l => ?_, fun l => ?_⟩
  · have honce := hall.once l
    have hle := hall.le
    simp only [Code.ifElse, Code.labels_append, Code.labels_instr, Code.labels_label,
      Code.labels_nil, List.count_append, List.count_cons, List.count_nil, beq_iff_eq] at honce ⊢
    split <;> split <;> split <;> split at honce <;> omega
  · have hjumped := hall.jumped l
    simp only [Code.ifElse, Code.labels_append, Code.targets_append, Code.labels_instr,
      Code.labels_label, Code.labels_nil, Code.targets_instr, Code.targets_label, Code.targets_nil,
      Instr.target?, Option.toList, List.count_append, List.count_cons, List.count_nil]
      at hjumped ⊢
    omega

theorem loop (hc : Labelled n m u c) (hd : Labelled m p v d) :
    Labelled n (p + 2) (u ++ v) (Code.loop c d p (p + 1)) := by
  have hall := hc.append hd
  refine ⟨Nat.le_trans hall.le (Nat.le_add_right p 2), fun l => ?_, fun l => ?_⟩
  · have honce := hall.once l
    have hle := hall.le
    simp only [Code.loop, Code.labels_append, Code.labels_instr, Code.labels_label,
      Code.labels_nil, List.count_append, List.count_cons, List.count_nil, beq_iff_eq,
      List.cons_append] at honce ⊢
    split <;> split <;> split <;> split at honce <;> omega
  · have hjumped := hall.jumped l
    simp only [Code.loop, Code.labels_append, Code.targets_append, Code.labels_instr,
      Code.labels_label, Code.labels_nil, Code.targets_instr, Code.targets_label, Code.targets_nil,
      Instr.target?, Option.toList, List.count_append, List.count_cons, List.count_nil,
      List.cons_append] at hjumped ⊢
    omega

/-! ### Consequences -/

theorem nodup (h : Labelled n m u c) : (Code.labels c).Nodup := by
  rw [List.nodup_iff_count]
  intro l
  rw [h.once l]
  split <;> omega

theorem mem_labels_iff (h : Labelled n m u c) {l : Nat} :
    l ∈ Code.labels c ↔ n ≤ l ∧ l < m := by
  rw [← List.count_pos_iff, h.once l]
  split <;> simp_all

theorem perm_range' (h : Labelled n m u c) : (Code.labels c).Perm (List.range' n (m - n)) := by
  refine (List.perm_ext_iff_of_nodup h.nodup List.nodup_range').mpr fun l => ?_
  have hle := h.le
  rw [h.mem_labels_iff, List.mem_range'_1]
  omega

theorem length_labels (h : Labelled n m u c) : (Code.labels c).length = m - n := by
  rw [h.perm_range'.length_eq, List.length_range']

/-- A jump stays within the code that it occurs in. -/
theorem mem_labels_of_mem_targets (h : Labelled n m u c) {l : Nat} (hl : l ∈ Code.targets c) :
    l ∈ Code.labels c := by
  have hjumped := h.jumped l
  have hpos := List.count_pos_iff.mpr hl
  exact List.count_pos_iff.mp (by omega)

theorem count_targets (h : Labelled n m u c) (l : Nat) :
    (Code.targets c).count l = if (n ≤ l ∧ l < m) ∧ l ∉ u then 1 else 0 := by
  have hjumped := h.jumped l
  rw [h.once l] at hjumped
  by_cases hu : l ∈ u
  · have hpos := List.count_pos_iff.mpr hu
    rw [if_neg fun hn => hn.2 hu]
    split at hjumped <;> omega
  · rw [List.count_eq_zero_of_not_mem hu] at hjumped
    simpa [hu] using hjumped

end Labelled

/-! ## Expressions -/

theorem Names.target?_of_load {Γ : Names} {x : String} {i : Instr}
    (h : Γ.load? x = .ok (some i)) : i.target? = none := by
  rcases Names.load?_eq_some h with ⟨_, _, rfl⟩ | ⟨_, rfl⟩ <;> rfl

theorem Names.target?_of_store {Γ : Names} {x : String} {i : Instr}
    (h : Γ.store x = .ok i) : i.target? = none := by
  rcases Names.store_eq_ok h with ⟨_, _, rfl⟩ | ⟨_, rfl⟩ <;> rfl

/-- What surrounds the arguments of a call neither defines labels nor jumps. -/
theorem Names.straight_of_calleeFor {Γ : Names} {f : String} {n : Nat} {t : Callee}
    (h : Γ.calleeFor f n = .ok t) :
    Code.labels t.opening = [] ∧ Code.targets t.opening = [] ∧ t.invoke.target? = none := by
  rcases Names.calleeFor_eq_ok h with ⟨_, _, rfl⟩ | ⟨_, s, _, _, rfl⟩
  · exact ⟨rfl, rfl, rfl⟩
  · exact ⟨rfl, rfl, rfl⟩

mutual

theorem Emits.labels_eq {Γ : Names} : ∀ {e : Expr} {k k' : Counters} {code : Code},
    Emits Γ e k code k' → k'.labels = k.labels + e.labelCount
  | _, _, _, _, .scalar _ => rfl
  | _, _, _, _, .array _ => rfl
  | _, _, _, _, .lit => rfl
  | _, _, _, _, .paren h => h.labels_eq
  | _, _, _, _, .assign h _ => h.labels_eq
  | _, _, _, _, .neg h => h.labels_eq
  | _, _, _, _, .not h => by
      rw [Counters.labels_issue, h.labels_eq, Expr.labelCount, UnaryOp.labelCount, Nat.add_assoc]
  | _, _, _, _, .stepName (u := u) hu h _ => by
      have hcount : u.labelCount = 0 := by cases u <;> first | rfl | cases hu
      rw [Expr.labelCount, hcount]
      exact h.labels_eq
  | _, _, _, _, .step (u := u) hu _ h => by
      have hcount : u.labelCount = 0 := by cases u <;> first | rfl | cases hu
      rw [Expr.labelCount, hcount]
      exact h.labels_eq
  | _, _, _, _, .arith hl hr => by
      rw [Counters.labels_move, hr.labels_eq, hl.labels_eq, Expr.labelCount, BinaryOp.labelCount]
      omega
  | _, _, _, _, .compare hl hr => by
      rw [Counters.labels_issue, Counters.labels_move, hr.labels_eq, hl.labels_eq, Expr.labelCount,
        BinaryOp.labelCount]
      omega
  | _, _, _, _, .and hl hr => by
      rw [Counters.labels_issue, Counters.labels_move, hr.labels_eq, hl.labels_eq, Expr.labelCount,
        BinaryOp.labelCount]
      omega
  | _, _, _, _, .orReload _ hl hr => by
      rw [Counters.labels_issue, Counters.labels_move, hr.labels_eq, hl.labels_eq, Expr.labelCount,
        BinaryOp.labelCount]
      omega
  | _, _, _, _, .orDup _ hl hr => by
      rw [Counters.labels_issue, Counters.labels_move, hr.labels_eq, Counters.labels_move,
        hl.labels_eq, Expr.labelCount, BinaryOp.labelCount]
      omega
  | _, _, _, _, .call _ h => h.labels_eq

theorem EmitsAll.labels_eq {Γ : Names} : ∀ {es : List Expr} {k k' : Counters} {code : Code},
    EmitsAll Γ es k code k' → k'.labels = k.labels + Expr.labelCountAll es
  | _, _, _, _, .nil => rfl
  | _, _, _, _, .cons h hs => by
      rw [hs.labels_eq, h.labels_eq, Expr.labelCountAll, Nat.add_assoc]

end

/-- A bare name or literal has no labels, so its code may be emitted twice. -/
theorem Emits.straight_of_isLeaf {Γ : Names} {e : Expr} {k k' : Counters} {code : Code}
    (h : Emits Γ e k code k') (hleaf : e.isLeaf = true) :
    Code.labels code = [] ∧ Code.targets code = [] := by
  cases h with
  | scalar hload => simp [Names.target?_of_load hload]
  | array hload => simp
  | lit => simp [Instr.target?]
  | _ => cases hleaf

mutual

/-- The labels of an expression are those issued while it was lowered. -/
theorem Emits.labelled {Γ : Names} : ∀ {e : Expr} {k k' : Counters} {code : Code},
    Emits Γ e k code k' → Labelled k.labels k'.labels (e.unjumped k.labels) code
  | _, _, _, _, .scalar hload =>
      .straight rfl (by simp [Names.target?_of_load hload]) _
  | _, _, _, _, .array _ => .straight rfl rfl _
  | _, _, _, _, .lit => .straight rfl rfl _
  | _, _, _, _, .paren h => h.labelled
  | _, _, _, _, .assign h hstore =>
      h.labelled.append_straight rfl (by simp [Names.target?_of_store hstore])
  | _, _, _, _, .neg h => by
      rw [Expr.unjumped, if_neg (by decide), List.append_nil]
      exact h.labelled.append_straight rfl rfl
  | _, _, _, _, .not h => by
      rw [Expr.unjumped, if_pos rfl, ← h.labels_eq]
      exact h.labelled.append (.negate _)
  | _, _, _, _, .stepName (u := u) hu h hstore => by
      rw [Expr.unjumped, if_neg (by rintro rfl; cases hu), List.append_nil]
      refine h.labelled.append_straight rfl ?_
      simp only [Code.targets_instr, Names.target?_of_store hstore]
      rfl
  | _, _, _, _, .step (u := u) hu _ h => by
      rw [Expr.unjumped, if_neg (by rintro rfl; cases hu), List.append_nil]
      exact h.labelled.append_straight rfl rfl
  | _, _, _, _, .arith hl hr => by
      rw [Expr.unjumped, ← hl.labels_eq]
      exact (hl.labelled.append hr.labelled).append_straight rfl rfl
  | _, _, _, _, .compare hl hr => by
      rw [Expr.unjumped, ← hl.labels_eq]
      exact (hl.labelled.append hr.labelled).append_own (.compare _ _)
  | _, _, _, _, .and hl hr => by
      rw [Expr.unjumped, ← hl.labels_eq]
      have hmul := (hl.labelled.append hr.labelled).append_straight (d := [.instr (.arith .mul)])
        rfl rfl
      have h := hmul.append_own (.truth _)
      rwa [List.append_assoc _ [_]] at h
  | _, _, _, _, .orReload hleaf hl hr => by
      rw [Expr.unjumped, ← hl.labels_eq]
      obtain ⟨hlabels, htargets⟩ := hl.straight_of_isLeaf hleaf
      have hadd := (hl.labelled.append hr.labelled).append_straight
        (d := .instr (.arith .add) :: _) hlabels (by simpa [Instr.target?] using htargets)
      have h := (hadd.append_straight (d := [.instr (.arith .add)]) rfl rfl).append_own (.truth _)
      rwa [List.append_assoc _ [_]] at h
  | _, _, _, _, .orDup _ hl hr => by
      rw [Expr.unjumped, ← hl.labels_eq]
      have hdup := (hl.labelled.append_straight (d := [.instr .dup]) rfl rfl).append hr.labelled
      have h := (hdup.append_straight (d := [.instr (.arith .add), .instr (.arith .add)])
        rfl rfl).append_own (.truth _)
      simpa [List.append_assoc] using h
  | _, _, _, _, .call ht h => by
      obtain ⟨hlabels, htargets, hinvoke⟩ := Names.straight_of_calleeFor ht
      have hargs := (Labelled.straight hlabels htargets _).append h.labelled
      exact hargs.append_straight rfl (by simp [hinvoke])

theorem EmitsAll.labelled {Γ : Names} : ∀ {es : List Expr} {k k' : Counters} {code : Code},
    EmitsAll Γ es k code k' → Labelled k.labels k'.labels (Expr.unjumpedAll k.labels es) code
  | _, _, _, _, .nil => .straight rfl rfl _
  | _, _, _, _, .cons h hs => by
      rw [Expr.unjumpedAll, ← h.labels_eq]
      exact h.labelled.append hs.labelled

end

/-! ## Statements -/

theorem Declares.straight {d : VarDecl} {c c' : Context} {code : Code}
    (h : Declares d c code c') :
    c'.labels = c.labels ∧ Code.labels code = [] ∧ Code.targets code = [] := by
  cases h with
  | bare => exact ⟨rfl, rfl, rfl⟩
  | init => exact ⟨rfl, rfl, rfl⟩

theorem DeclaresAll.straight : ∀ {ds : List VarDecl} {c c' : Context} {code : Code},
    DeclaresAll ds c code c' →
      c'.labels = c.labels ∧ Code.labels code = [] ∧ Code.targets code = []
  | _, _, _, _, .nil => ⟨rfl, rfl, rfl⟩
  | _, _, _, _, .cons h hs => by
      obtain ⟨hc, hlabels, htargets⟩ := h.straight
      obtain ⟨hcs, hlabels', htargets'⟩ := hs.straight
      exact ⟨hcs.trans hc, by simp [hlabels, hlabels'], by simp [htargets, htargets']⟩

theorem Code.straight_pops (n : Nat) :
    Code.labels (List.replicate n (.instr .pop)) = []
      ∧ Code.targets (List.replicate n (.instr .pop)) = [] := by
  induction n with
  | zero => exact ⟨rfl, rfl⟩
  | succ n ih => simpa [List.replicate_succ, Instr.target?] using ih

mutual

theorem Lowers.labels_eq : ∀ {s : Stmt} {c c' : Context} {code : Code},
    Lowers s c code c' → c'.labels = c.labels + s.labelCount
  | _, _, _, _, .expr h => h.labels_eq
  | _, _, _, _, .block hds hss => by
      rw [hss.labels_eq, hds.straight.1, Stmt.labelCount]
  | _, _, _, _, .ifThen (k := k) he hs => by
      have hcond : k.labels = _ := he.labels_eq
      have hyes := hs.labels_eq
      change _ = k.labels + _ at hyes
      change _ + 1 = _
      rw [hyes, hcond, Stmt.labelCount]
      omega
  | _, _, _, _, .ifElse (k := k) he hs hs' => by
      have hcond : k.labels = _ := he.labels_eq
      have hyes := hs.labels_eq
      change _ = k.labels + _ at hyes
      change _ + 2 = _
      rw [hs'.labels_eq, hyes, hcond, Stmt.labelCount]
      omega
  | _, _, _, _, .loop (k := k) he hs => by
      have hcond : k.labels = _ := he.labels_eq
      have hbody := hs.labels_eq
      change _ = k.labels + _ at hbody
      change _ + 2 = _
      rw [hbody, hcond, Stmt.labelCount]
      omega
  | _, _, _, _, .retValue h => h.labels_eq
  | _, _, _, _, .retVoid => rfl

theorem LowersAll.labels_eq : ∀ {ss : List Stmt} {c c' : Context} {code : Code},
    LowersAll ss c code c' → c'.labels = c.labels + Stmt.labelCountAll ss
  | _, _, _, _, .nil => rfl
  | _, _, _, _, .cons h hs => by
      rw [hs.labels_eq, h.labels_eq, Stmt.labelCountAll, Nat.add_assoc]

end

mutual

theorem Lowers.labelled : ∀ {s : Stmt} {c c' : Context} {code : Code},
    Lowers s c code c' → Labelled c.labels c'.labels (s.unjumped c.labels) code
  | _, _, _, _, .expr h => by
      obtain ⟨hlabels, htargets⟩ := Code.straight_pops (StackMeter.rise _ _)
      exact h.labelled.append_straight hlabels htargets
  | _, _, _, _, .block hds hss => by
      obtain ⟨hc, hlabels, htargets⟩ := hds.straight
      have h := (Labelled.straight hlabels htargets _).append hss.labelled
      rwa [hc] at h
  | _, _, _, _, .ifThen he hs => by
      rw [Stmt.unjumped, ← he.labels_eq]
      exact he.labelled.ifThen hs.labelled
  | _, _, _, _, .ifElse (k := k) he hs hs' => by
      have hyes := hs.labels_eq
      change _ = k.labels + _ at hyes
      rw [Stmt.unjumped, ← he.labels_eq, ← hyes]
      exact he.labelled.ifElse hs.labelled hs'.labelled
  | _, _, _, _, .loop he hs => by
      rw [Stmt.unjumped, ← he.labels_eq]
      exact he.labelled.loop hs.labelled
  | _, _, _, _, .retValue h => h.labelled.append_straight rfl rfl
  | _, _, _, _, .retVoid => .straight rfl rfl _

theorem LowersAll.labelled : ∀ {ss : List Stmt} {c c' : Context} {code : Code},
    LowersAll ss c code c' → Labelled c.labels c'.labels (Stmt.unjumpedAll c.labels ss) code
  | _, _, _, _, .nil => .straight rfl rfl _
  | _, _, _, _, .cons h hs => by
      rw [Stmt.unjumpedAll, ← h.labels_eq]
      exact h.labelled.append hs.labelled

end

/-! ## Methods and classes -/

/-- The lines that frame a method have no labels. -/
theorem Labelled.method {n m : Nat} {u : List Nat} {c : Code} (h : Labelled n m u c)
    (access descriptor : String) (stackLimit localsLimit : Nat) :
    Labelled n m u
      (Method.header access descriptor stackLimit localsLimit ++ (c ++ Code.methodEnd)) :=
  (straight rfl rfl n).append (h.append_straight rfl rfl)

theorem FunDecl.straight_ending (f : FunDecl) (s : Signature) :
    Code.labels (f.ending s) = [] ∧ Code.targets (f.ending s) = [] := by
  unfold ending
  split
  · exact ⟨rfl, rfl⟩
  · split <;> exact ⟨rfl, rfl⟩

theorem Compiles.labels_eq {f : FunDecl} {c c' : Context} {m : Method} (h : Compiles f c m c') :
    c'.labels = c.labels + Stmt.labelCountAll f.body := by
  cases h with
  | intro _ _ hdecls hlines =>
      exact hlines.labels_eq.trans (congrArg (· + _) hdecls.straight.1)

/-- The labels of a method are those of its body. -/
theorem Compiles.labelled {f : FunDecl} {c c' : Context} {m : Method} (h : Compiles f c m c') :
    Labelled c.labels c'.labels (Stmt.unjumpedAll c.labels f.body) m.code := by
  cases h with
  | intro hs hframe hdecls hlines =>
      obtain ⟨hc, hlabels, htargets⟩ := hdecls.straight
      have hbody := hlines.labelled
      rw [hc] at hbody
      obtain ⟨hlabels', htargets'⟩ := f.straight_ending _
      have hcode := (Labelled.straight hlabels htargets _).append hbody
      exact (hcode.append_straight hlabels' htargets').method _ _ _ _

/-- Methods whose labels follow on one another, from `n` up to `p`. -/
inductive LabelledAll : Nat → List Nat → List Method → Nat → Prop where
  | nil {n} : LabelledAll n [] [] n
  | cons {n p q u v m ms} : Labelled n p u m.code → LabelledAll p v ms q →
      LabelledAll n (u ++ v) (m :: ms) q

theorem CompilesAll.labels_eq : ∀ {fs : List FunDecl} {c c' : Context} {ms : List Method},
    CompilesAll fs c ms c' →
      c'.labels = c.labels + FunDecl.labelCountAll fs
  | _, _, _, _, .nil => rfl
  | _, _, _, _, .cons h hs => by
      rw [hs.labels_eq, h.labels_eq, FunDecl.labelCountAll, Nat.add_assoc]

theorem CompilesAll.labelled : ∀ {fs : List FunDecl} {c c' : Context} {ms : List Method},
    CompilesAll fs c ms c' →
      LabelledAll c.labels (FunDecl.unjumpedAll c.labels fs) ms c'.labels
  | _, _, _, _, .nil => .nil
  | _, _, _, _, .cons h hs => by
      rw [FunDecl.unjumpedAll, ← h.labels_eq]
      exact .cons h.labelled hs.labelled

theorem Initialises.straight {Γ : Names} :
    ∀ {inits : List (String × Int32)} {k k' : Counters} {code : Code},
      Initialises Γ inits k code k' →
        k'.labels = k.labels ∧ Code.labels code = [] ∧ Code.targets code = []
  | _, _, _, _, .nil => ⟨rfl, rfl, rfl⟩
  | _, _, _, _, .cons hstore hs => by
      obtain ⟨hk, hlabels, htargets⟩ := hs.straight
      refine ⟨hk, hlabels, ?_⟩
      rw [Code.targets_append, htargets]
      simp only [Code.targets_instr, Names.target?_of_store hstore]
      rfl

/-- The static initialiser has no labels. -/
theorem StaticInitialises.labelled {c c' : Context} {m? : Option Method}
    (h : StaticInitialises c m? c') :
    c'.labels = c.labels ∧ LabelledAll c.labels [] m?.toList c.labels := by
  cases h with
  | none => exact ⟨rfl, .nil⟩
  | some _ hstores =>
      obtain ⟨hk, hlabels, htargets⟩ := hstores.straight
      have hcode := Labelled.straight hlabels htargets c.labels
      exact ⟨hk, .cons (u := []) (v := []) ((hcode.append_straight rfl rfl).method _ _ _ _) .nil⟩

namespace LabelledAll

theorem append : ∀ {n p q : Nat} {u v : List Nat} {ms ms' : List Method},
    LabelledAll n u ms p → LabelledAll p v ms' q → LabelledAll n (u ++ v) (ms ++ ms') q
  | _, _, _, _, _, _, _, .nil, h => h
  | _, _, _, _, _, _, _, .cons hm hms, h => by
      rw [List.append_assoc]
      exact .cons hm (hms.append h)

/-- Several methods are labelled like their code put together. -/
theorem flatMap : ∀ {n q : Nat} {u : List Nat} {ms : List Method},
    LabelledAll n u ms q → Labelled n q u (ms.flatMap Method.code)
  | _, _, _, _, .nil => .straight rfl rfl _
  | _, _, _, _, .cons hm hms => by
      rw [List.flatMap_cons]
      exact hm.append hms.flatMap

/-- Each method starts where those before it ended. -/
theorem split : ∀ {n q : Nat} {u : List Nat} {before : List Method} {m : Method}
    {after : List Method}, LabelledAll n u (before ++ m :: after) q →
      ∃ r w, Labelled (n + (Code.labels (before.flatMap Method.code)).length) r w m.code
  | _, _, _, [], _, _, .cons hm _ => ⟨_, _, hm⟩
  | n, _, _, b :: before, m, after, .cons (p := p) hb hrest => by
      obtain ⟨r, w, hm⟩ := hrest.split
      refine ⟨r, w, ?_⟩
      have hlen := hb.length_labels
      have hle := hb.le
      rw [List.flatMap_cons, Code.labels_append, List.length_append, hlen]
      rwa [show n + (p - n + (Code.labels (before.flatMap Method.code)).length) =
        p + (Code.labels (before.flatMap Method.code)).length by omega]

end LabelledAll

theorem Generates.labelled {config : Config} {p : Program} {cls : ClassFile} {c₀ c₁ c₂ : Context}
    (h : Generates config p cls c₀ c₁ c₂) :
    c₂.labels = p.labelCount ∧ LabelledAll 0 p.unjumped cls.methods p.labelCount := by
  obtain ⟨hlabels, hinit⟩ := h.staticInit.labelled
  have hzero : c₀.labels = 0 := congrArg Counters.labels h.declared.counters
  have hcount := h.functions.labels_eq
  have hfuns := h.functions.labelled
  rw [hlabels, hzero, Nat.zero_add] at hcount
  rw [hlabels, hzero, hcount] at hfuns
  rw [hzero] at hinit
  exact ⟨hcount, hinit.append hfuns⟩

/-- **Label discipline.** The labels of a class are the numbers below the count
of labels issued, each defined once; every method has an interval of them that
starts where the methods before it end; jumps stay in their method; and each
label is jumped to exactly once, but for the first labels of negations, which
nothing jumps to. -/
theorem labels_issued_defined_and_jumped_to_once {config : Config} {p : Program} {cls : ClassFile}
    (h : p.generate config = .ok cls) :
    (p.compile.on (.start config)).2.labels = p.labelCount
      ∧ (Code.labels (cls.methods.flatMap Method.code)).Perm (List.range p.labelCount)
      ∧ (∀ before m after, cls.methods = before ++ m :: after →
          (Code.labels m.code).Perm
            (List.range' (Code.labels (before.flatMap Method.code)).length
              (Code.labels m.code).length))
      ∧ (∀ m ∈ cls.methods, ∀ l ∈ Code.targets m.code, l ∈ Code.labels m.code)
      ∧ (∀ l : Nat, (Code.targets (cls.methods.flatMap Method.code)).count l =
          if l < p.labelCount ∧ l ∉ p.unjumped then 1 else 0) := by
  obtain ⟨c₀, c₁, c₂, hgen⟩ := Program.generates h
  obtain ⟨hcount, hall⟩ := hgen.labelled
  have hwhole := hall.flatMap
  refine ⟨hgen.last ▸ hcount, ?_, ?_, ?_, ?_⟩
  · simpa [List.range_eq_range'] using hwhole.perm_range'
  · intro before m after hsplit
    rw [hsplit] at hall
    obtain ⟨r, w, hm⟩ := hall.split
    rw [Nat.zero_add] at hm
    rw [hm.length_labels]
    exact hm.perm_range'
  · intro m hm l hl
    obtain ⟨before, after, hsplit⟩ := List.append_of_mem hm
    rw [hsplit] at hall
    obtain ⟨r, w, hlabelled⟩ := hall.split
    exact hlabelled.mem_labels_of_mem_targets hl
  · intro l
    rw [hwhole.count_targets l]
    simp

/-- In Euclid's program the negation takes the labels from 4, and no jump goes
to 4. -/
theorem euclid_labels_jumped_to_once : ∃ cls, Program.euclid.generate {} = .ok cls
    ∧ (Code.labels (cls.methods.flatMap Method.code)).Perm (List.range 11)
    ∧ ∀ l : Nat, (Code.targets (cls.methods.flatMap Method.code)).count l =
        if l < 11 ∧ l ∉ [4] then 1 else 0 := by
  obtain ⟨cls, hcls⟩ := Program.exists_generate_euclid
  obtain ⟨-, hperm, -, -, htargets⟩ := labels_issued_defined_and_jumped_to_once hcls
  exact ⟨cls, hcls, hperm, htargets⟩

end JasminGen
