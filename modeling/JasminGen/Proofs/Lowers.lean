import JasminGen.Lowering.Stmt
import JasminGen.Proofs.Emits

/-!
# What lowering a statement emits

The counterpart of `Emits` for declarations and statements. Lowering a
statement also declares variables, so the relation goes from context to
context: `Lowers s c code c'` says that `s`, met in the context `c`, becomes
`code` and leaves the context `c'`. `Stmt.lowers_of_lower` ties it to the
lowering function, and `lowerBody_eq` shows that the special treatment of a
trailing `return` changes nothing about the code of a body except that its end is
already written.
-/

namespace JasminGen

namespace Context

def withCounters (c : Context) (k : Counters) : Context := { c with toCounters := k }

def withFrame (c : Context) (frame : Variables) : Context := { c with frame }

def move (c : Context) (d : Int) : Context := c.withCounters (c.toCounters.move d)

def issue (c : Context) (n : Nat) : Context := c.withCounters (c.toCounters.issue n)

/-- Ends a method: the watermark is archived. -/
def close (c : Context) : Context := { c with meter := c.meter.close }

@[simp] theorem toNames_withCounters (c : Context) (k : Counters) :
    (c.withCounters k).toNames = c.toNames := rfl

@[simp] theorem frame_withFrame (c : Context) (frame : Variables) :
    (c.withFrame frame).frame = frame := rfl

end Context

/-! ## Declarations -/

/-- The declaration takes the next slot; an initial value is stored there. -/
inductive Declares : VarDecl → Context → Code → Context → Prop where
  | bare {d c frame} : c.frame.insert? d.toVariable = some frame → d.init? = none →
      Declares d c [] (c.withFrame frame)
  | init {d c frame v} : c.frame.insert? d.toVariable = some frame → d.init? = some v →
      Declares d c [.instr (.ldc v), .instr (.istore c.frame.size)]
        (((c.withFrame frame).move 1).move (-1))

inductive DeclaresAll : List VarDecl → Context → Code → Context → Prop where
  | nil {c} : DeclaresAll [] c [] c
  | cons {d ds c first c₁ rest c₂} : Declares d c first c₁ → DeclaresAll ds c₁ rest c₂ →
      DeclaresAll (d :: ds) c (first ++ rest) c₂

theorem LowerM.on_declare_eq_ok {v : Variable} {c c' : Context} {slot : Nat}
    (h : (declare v).on c = (.ok slot, c')) :
    ∃ frame, c.frame.insert? v = some frame ∧ slot = c.frame.size ∧ c' = c.withFrame frame := by
  cases hinsert : c.frame.insert? v with
  | none =>
      rw [on_declare_of_none hinsert] at h
      cases h
  | some frame =>
      rw [on_declare_of_some hinsert] at h
      cases h
      exact ⟨frame, rfl, rfl, rfl⟩

theorem VarDecl.declares_of_lower {d : VarDecl} {c c' : Context} {code : Code}
    (h : d.lower.on c = (.ok code, c')) : Declares d c code c' := by
  obtain ⟨slot, c₁, hdeclare, hrest⟩ := Attempt.on_bind_eq_ok.mp h
  obtain ⟨frame, hinsert, rfl, rfl⟩ := LowerM.on_declare_eq_ok hdeclare
  split at hrest
  · rename_i v hinit
    cases hrest
    exact .init hinsert hinit
  · rename_i hinit
    cases hrest
    exact .bare hinsert hinit

theorem VarDecl.declaresAll_of_lowerAll : ∀ {ds : List VarDecl} {c c' : Context} {code : Code},
    (VarDecl.lowerAll ds).on c = (.ok code, c') → DeclaresAll ds c code c'
  | [], c, c', code, h => by
      rw [VarDecl.lowerAll] at h
      cases h
      exact .nil
  | d :: ds, c, c', code, h => by
      rw [VarDecl.lowerAll] at h
      obtain ⟨first, c₁, hd, hds⟩ := Attempt.on_bind_eq_ok.mp h
      obtain ⟨rest, c₂, hds, hrest⟩ := Attempt.on_bind_eq_ok.mp hds
      cases hrest
      exact .cons (VarDecl.declares_of_lower hd) (VarDecl.declaresAll_of_lowerAll hds)

/-! ## Statements -/

/-- How far the depth has risen from one meter to the other: the number of
values that an expression statement has to pop. -/
def StackMeter.rise (before after : StackMeter) : Nat := (after.current - before.current).toNat

mutual

/-- Met in the context `c`, the statement becomes `code` and leaves `c'`. -/
inductive Lowers : Stmt → Context → Code → Context → Prop where
  | expr {e c code k} : Emits c.toNames e c.toCounters code k →
      Lowers (.expr e) c (code ++ List.replicate (c.meter.rise k.meter) (.instr .pop))
        ((c.withCounters k).move (-(c.meter.rise k.meter : Nat)))
  | block {ds ss c decls c₁ code c₂} : DeclaresAll ds c decls c₁ → LowersAll ss c₁ code c₂ →
      Lowers (.block ds ss) c (decls ++ code) c₂
  | ifThen {e s c cond k yes c₁} : Emits c.toNames e c.toCounters cond k →
      Lowers s (c.withCounters k) yes c₁ →
      Lowers (.ifThen e s) c (Code.ifThen cond yes c₁.labels) ((c₁.issue 1).move (-1))
  | ifElse {e s s' c cond k yes c₁ no c₂} : Emits c.toNames e c.toCounters cond k →
      Lowers s (c.withCounters k) yes c₁ → Lowers s' c₁ no c₂ →
      Lowers (.ifElse e s s') c (Code.ifElse cond yes no (c₂.labels + 1) c₂.labels)
        ((c₂.issue 2).move (-1))
  | loop {e s c cond k body c₁} : Emits c.toNames e c.toCounters cond k →
      Lowers s (c.withCounters k) body c₁ →
      Lowers (.loop e s) c (Code.loop cond body c₁.labels (c₁.labels + 1))
        ((c₁.issue 2).move (-1))
  | retValue {e c code k} : Emits c.toNames e c.toCounters code k →
      Lowers (.ret (some e)) c (code ++ [.instr .ireturn]) ((c.withCounters k).move (-1))
  | retVoid {c} : Lowers (.ret none) c [.instr .vreturn] c

inductive LowersAll : List Stmt → Context → Code → Context → Prop where
  | nil {c} : LowersAll [] c [] c
  | cons {s ss c first c₁ rest c₂} : Lowers s c first c₁ → LowersAll ss c₁ rest c₂ →
      LowersAll (s :: ss) c (first ++ rest) c₂

end

theorem Expr.emits_of_lowerHere {e : Expr} {c c' : Context} {code : Code}
    (h : e.lowerHere.on c = (.ok code, c')) :
    ∃ k, Emits c.toNames e c.toCounters code k ∧ c' = c.withCounters k := by
  obtain ⟨_, _, ⟨⟩, hemit⟩ := Attempt.on_bind_eq_ok.mp h
  rw [LowerM.on_emit] at hemit
  obtain ⟨hcode, rfl⟩ := Prod.mk.inj hemit
  refine ⟨((e.lower c.toNames).on c.toCounters).2, Expr.emits_of_lower ?_, rfl⟩
  rw [← hcode]

theorem lowers_of_lowerReturn {value : Option Expr} {c c' : Context} {code : Code}
    (h : (lowerReturn value).on c = (.ok code, c')) : Lowers (.ret value) c code c' := by
  cases value with
  | none =>
      cases h
      exact .retVoid
  | some e =>
      obtain ⟨value, c₁, he, hrest⟩ := Attempt.on_bind_eq_ok.mp h
      obtain ⟨k, hemits, rfl⟩ := Expr.emits_of_lowerHere he
      cases hrest
      exact .retValue hemits

mutual

/-- Every successful lowering of a statement is described by the relation. -/
theorem Stmt.lowers_of_lower : ∀ {s : Stmt} {c c' : Context} {code : Code},
    s.lower.on c = (.ok code, c') → Lowers s c code c'
  | .expr e, c, c', code, h => by
      rw [Stmt.lower] at h
      obtain ⟨_, _, ⟨⟩, h⟩ := Attempt.on_bind_eq_ok.mp h
      obtain ⟨value, c₁, he, hrest⟩ := Attempt.on_bind_eq_ok.mp h
      obtain ⟨k, hemits, rfl⟩ := Expr.emits_of_lowerHere he
      cases hrest
      exact .expr hemits
  | .block ds ss, c, c', code, h => by
      rw [Stmt.lower] at h
      obtain ⟨decls, c₁, hds, h⟩ := Attempt.on_bind_eq_ok.mp h
      obtain ⟨body, c₂, hss, hrest⟩ := Attempt.on_bind_eq_ok.mp h
      cases hrest
      exact .block (VarDecl.declaresAll_of_lowerAll hds) (Stmt.lowersAll_of_lowerAll hss)
  | .ifThen e s, c, c', code, h => by
      rw [Stmt.lower] at h
      obtain ⟨cond, c₁, he, h⟩ := Attempt.on_bind_eq_ok.mp h
      obtain ⟨k, hemits, rfl⟩ := Expr.emits_of_lowerHere he
      obtain ⟨yes, c₂, hs, hrest⟩ := Attempt.on_bind_eq_ok.mp h
      cases hrest
      exact .ifThen hemits (Stmt.lowers_of_lower hs)
  | .ifElse e s s', c, c', code, h => by
      rw [Stmt.lower] at h
      obtain ⟨cond, c₁, he, h⟩ := Attempt.on_bind_eq_ok.mp h
      obtain ⟨k, hemits, rfl⟩ := Expr.emits_of_lowerHere he
      obtain ⟨yes, c₂, hs, h⟩ := Attempt.on_bind_eq_ok.mp h
      obtain ⟨no, c₃, hs', hrest⟩ := Attempt.on_bind_eq_ok.mp h
      cases hrest
      exact .ifElse hemits (Stmt.lowers_of_lower hs) (Stmt.lowers_of_lower hs')
  | .loop e s, c, c', code, h => by
      rw [Stmt.lower] at h
      obtain ⟨cond, c₁, he, h⟩ := Attempt.on_bind_eq_ok.mp h
      obtain ⟨k, hemits, rfl⟩ := Expr.emits_of_lowerHere he
      obtain ⟨body, c₂, hs, hrest⟩ := Attempt.on_bind_eq_ok.mp h
      cases hrest
      exact .loop hemits (Stmt.lowers_of_lower hs)
  | .ret value, c, c', code, h => by
      rw [Stmt.lower] at h
      exact lowers_of_lowerReturn h

theorem Stmt.lowersAll_of_lowerAll : ∀ {ss : List Stmt} {c c' : Context} {code : Code},
    (Stmt.lowerAll ss).on c = (.ok code, c') → LowersAll ss c code c'
  | [], c, c', code, h => by
      rw [Stmt.lowerAll] at h
      cases h
      exact .nil
  | s :: ss, c, c', code, h => by
      rw [Stmt.lowerAll] at h
      obtain ⟨first, c₁, hs, h⟩ := Attempt.on_bind_eq_ok.mp h
      obtain ⟨rest, c₂, hss, hrest⟩ := Attempt.on_bind_eq_ok.mp h
      cases hrest
      exact .cons (Stmt.lowers_of_lower hs) (Stmt.lowersAll_of_lowerAll hss)

end

/-! ## Bodies -/

/-- Whether the last statement of a body is a `return`, which then ends the
method. -/
def endsInReturn (body : List Stmt) : Bool := body.getLast?.any Stmt.isReturn

theorem Stmt.lowerAll_concat (ss : List Stmt) (s : Stmt) :
    Stmt.lowerAll (ss ++ [s]) = do
      let front ← Stmt.lowerAll ss
      let last ← s.lower
      return front ++ last := by
  induction ss with
  | nil => simp [Stmt.lowerAll]
  | cons t ss ih => simp [Stmt.lowerAll, ih, ← List.append_assoc]

/-- A `return` in last place is lowered like any other statement, and then the method
is ended. -/
theorem lowerBody_eq (locals : List VarDecl) (body : List Stmt) :
    lowerBody locals body = do
      let code ← (Stmt.block locals body).lower
      if endsInReturn body then
        let close ← closeMethod
        return (code ++ close, true)
      else
        return (code, false) := by
  rw [lowerBody, Stmt.lower]
  split
  · rename_i value hlast
    obtain ⟨front, rfl⟩ := List.getLast?_eq_some_iff.mp hlast
    have hclosed : endsInReturn (front ++ [.ret value]) = true := by
      simp [endsInReturn, Stmt.isReturn]
    simp [hclosed, Stmt.lowerAll_concat, Stmt.lower, lowerClosingReturn]
  · rename_i hlast
    have hopen : endsInReturn body = false := by
      rw [endsInReturn]
      cases hl : body.getLast? with
      | none => rfl
      | some s =>
          cases s with
          | ret value => exact absurd hl (hlast value)
          | _ => rfl
    simp [hopen]

end JasminGen
