import JasminGen.Code.Pattern
import JasminGen.Proofs.Symbol
import Mathlib.Data.List.Induction
import Mathlib.Logic.Function.Basic
import Mathlib.Logic.Relation

/-!
# The machine

Emitted code is run by a stack machine. This file says what each instruction
does (`Instr.act`) and what follows about whole pieces of code.

An instruction acts on one activation of a method, a `Frame`, and on the
`World` that all activations share. Calls are the one thing it cannot do by
itself: it names the method and gives the arguments, and waits. `Machine` is one
activation whose calls are answered by an interpretation, that is by any function
from arguments and world to result and world. A class running as a whole answers
the calls by its own methods.

Code is emitted in pieces that are put one after another, so runs are described
piece by piece. `Placed code lo hi pos F` puts the piece `F` at the position
`pos`, and `Machine.Runs lo hi` are runs that take every step between `lo` and
`hi`: a run through a piece does not leave it before its end.
-/

namespace JasminGen

/-! ## Values -/

/-- What lies outside the activations: the fields of the class, and what was
printed, in order. -/
structure World where
  globals : String → Int32
  output : List Int32

/-- Why a run ends without a result. -/
inductive Halt where
  | divisionByZero
  | noResult
  | outOfFuel
  deriving DecidableEq

/-- Arithmetic wraps around, division goes toward zero and has no result for a
zero divisor. -/
def ArithOp.apply (op : ArithOp) (a b : Int32) : Except Halt Int32 :=
  match op with
  | mul => .ok (a * b)
  | div => if b = 0 then .error .divisionByZero else .ok (a / b)
  | rem => if b = 0 then .error .divisionByZero else .ok (a % b)
  | add => .ok (a + b)
  | sub => .ok (a - b)

/-- A comparison with zero. -/
def Comparison.holds (o : Comparison) (a : Int32) : Bool :=
  match o with
  | eq => a == 0
  | ne => a != 0
  | le => decide (a ≤ 0)
  | lt => decide (a < 0)
  | ge => decide (0 ≤ a)
  | gt => decide (0 < a)

/-- The value of a call, where the function returns one. -/
def ReturnType.given : ReturnType → Int32 → Option Int32
  | int, v => some v
  | void, _ => none

theorem ReturnType.isSome_given (t : ReturnType) (v : Int32) :
    (t.given v).isSome = (some t == some .int) := by
  cases t <;> rfl

/-- What calls do. The value counts only where the function returns one. -/
abbrev Interp := String → List Int32 → World → Except Halt (Int32 × World)

inductive Cell where
  | int (v : Int32)
  | stream

namespace Cell

/-- The stack with a value on it, if there is one. -/
def onTop : Option Int32 → List Cell → List Cell
  | some v, stack => .int v :: stack
  | none, stack => stack

/-- The arguments on top of the stack, the last one topmost, and what is below. -/
def takeInts : Nat → List Cell → Option (List Int32 × List Cell)
  | 0, stack => some ([], stack)
  | n + 1, .int v :: stack => (takeInts n stack).map fun (vs, rest) => (vs ++ [v], rest)
  | _ + 1, _ => none

/-- The stack with arguments on it. -/
def pile (vs : List Int32) (stack : List Cell) : List Cell := vs.reverse.map .int ++ stack

theorem pile_cons (v : Int32) (vs : List Int32) (stack : List Cell) :
    pile (v :: vs) stack = pile vs (.int v :: stack) := by
  simp [pile]

theorem pile_concat (vs : List Int32) (v : Int32) (stack : List Cell) :
    pile (vs ++ [v]) stack = .int v :: pile vs stack := by
  simp [pile]

/-- A call finds the arguments that were piled up for it. -/
theorem takeInts_pile (vs : List Int32) (stack : List Cell) :
    takeInts vs.length (pile vs stack) = some (vs, stack) := by
  induction vs using List.reverseRecOn with
  | nil => rfl
  | append_singleton vs v ih =>
      rw [List.length_append, pile_concat]
      change (takeInts vs.length (pile vs stack)).map _ = _
      rw [ih]
      rfl

end Cell

/-! ## Instructions -/

/-- One activation of a method. -/
structure Frame where
  pc : Nat
  stack : List Cell
  slots : Nat → Int32

/-- What an activation does next. -/
inductive Action where
  | next (fr : Frame) (w : World)
  /-- The member of the class to call; `fr` goes on when the call is over. -/
  | call (member : String) (args : List Int32) (fr : Frame)
  | ret (v? : Option Int32)
  | halt (h : Halt)
  | stuck

/-- The line of a label. -/
def Code.position? (code : Code) (l : Label) : Option Nat := code.findIdx? (· == .label l)

namespace Frame

/-- A new activation: arguments in the first slots, and zero in all others. -/
def fresh (args : List Int32) : Frame := ⟨0, [], fun s => args[s]?.getD 0⟩

/-- On the next line, with another stack. -/
def advance (fr : Frame) (stack : List Cell) : Frame := { fr with pc := fr.pc + 1, stack }

/-- With the value of a call on the stack. -/
def give (fr : Frame) (v? : Option Int32) : Frame := { fr with stack := Cell.onTop v? fr.stack }

def jump (code : Code) (l : Label) (fr : Frame) (stack : List Cell) (w : World) : Action :=
  match code.position? l with
  | some pc => .next { fr with pc, stack } w
  | none => .stuck

end Frame

/-- What is done with the integer on top of the stack, and what is below. -/
def Cell.popInt (stack : List Cell) (k : Int32 → List Cell → Action) : Action :=
  match stack with
  | .int v :: rest => k v rest
  | _ => .stuck

/-- What an instruction of the class `cls` does, at its place in `code`. -/
def Instr.act (cls : String) (code : Code) (i : Instr) (fr : Frame) (w : World) : Action :=
  match i with
  | ldc v => .next (fr.advance (.int v :: fr.stack)) w
  | iload n => .next (fr.advance (.int (fr.slots n) :: fr.stack)) w
  | istore n => Cell.popInt fr.stack fun v rest =>
      .next { fr.advance rest with slots := Function.update fr.slots n v } w
  | arith op => Cell.popInt fr.stack fun b rest => Cell.popInt rest fun a rest =>
      match op.apply a b with
      | .ok v => .next (fr.advance (.int v :: rest)) w
      | .error h => .halt h
  | ineg => Cell.popInt fr.stack fun a rest => .next (fr.advance (.int (-a) :: rest)) w
  | dup =>
      match fr.stack with
      | x :: rest => .next (fr.advance (x :: x :: rest)) w
      | [] => .stuck
  | pop =>
      match fr.stack with
      | _ :: rest => .next (fr.advance rest) w
      | [] => .stuck
  | branch o l => Cell.popInt fr.stack fun a rest =>
      if o.holds a = true then fr.jump code l rest w else .next (fr.advance rest) w
  | goto l => fr.jump code l fr.stack w
  | getstatic f d =>
      if d = DataType.int.descriptor then
        match memberOf? cls f with
        | some x => .next (fr.advance (.int (w.globals x) :: fr.stack)) w
        | none => .stuck
      else if f = "java/lang/System/out" then .next (fr.advance (.stream :: fr.stack)) w
      else .stuck
  | putstatic f _ => Cell.popInt fr.stack fun v rest =>
      match memberOf? cls f with
      | some x => .next (fr.advance rest) { w with globals := Function.update w.globals x v }
      | none => .stuck
  | invokestatic m =>
      match memberOf? cls m with
      | some member =>
          match Cell.takeInts (MethodSymbol.ofText member).params fr.stack with
          | some (args, rest) => .call member args (fr.advance rest)
          | none => .stuck
      | none => .stuck
  | invokevirtual m => Cell.popInt fr.stack fun v rest =>
      match rest with
      | .stream :: rest =>
          if m = "java/io/PrintStream/println(I)V" then
            .next (fr.advance rest) { w with output := w.output ++ [v] }
          else .stuck
      | _ => .stuck
  | ireturn => Cell.popInt fr.stack fun v _ => .ret (some v)
  | vreturn => .ret none

/-- Labels and directives are passed over, but control must not run off the end
of a method. -/
def Frame.act (cls : String) (code : Code) (fr : Frame) (w : World) : Action :=
  match code[fr.pc]? with
  | some (.instr i) => i.act cls code fr w
  | some (.directive .endMethod) => .halt .noResult
  | some _ => .next (fr.advance fr.stack) w
  | none => .stuck

/-! ## Runs of one activation -/

/-- Where steps are determined, there is one end. -/
theorem eq_of_reflTransGen {α : Type} {r : α → α → Prop} (hunique : Relator.RightUnique r)
    {a b c : α} (hab : Relation.ReflTransGen r a b) (hac : Relation.ReflTransGen r a c)
    (hb : ∀ d, ¬r b d) (hc : ∀ d, ¬r c d) : b = c := by
  rcases Relation.ReflTransGen.total_of_right_unique hunique hab hac with hbc | hcb
  · rcases Relation.ReflTransGen.cases_head hbc with heq | ⟨d, hd, -⟩
    · exact heq
    · exact absurd hd (hb d)
  · rcases Relation.ReflTransGen.cases_head hcb with heq | ⟨d, hd, -⟩
    · exact heq.symm
    · exact absurd hd (hc d)

/-- How far an activation has come. -/
inductive Status where
  | running (fr : Frame) (w : World)
  | returned (v? : Option Int32) (w : World)
  | halted (h : Halt)

/-- A method of the class `cls`, which has methods for `functions`. Calls of those
are answered by `calls`. -/
structure Machine where
  cls : String
  functions : List Signature
  calls : Interp
  code : Code

namespace Machine

variable {M : Machine} {lo hi : Nat}

/-- The call of a member, while `fr` waits. -/
def answer (M : Machine) (member : String) (args : List Int32) (fr : Frame) (w : World) :
    Option Status :=
  match M.functions.find? fun s => s.descriptor == member with
  | none => none
  | some s =>
    match M.calls s.name args w with
    | .ok (v, w') => some (.running (fr.give (s.returns.given v)) w')
    | .error h => some (.halted h)

def perform (M : Machine) (w : World) : Action → Option Status
  | .next fr w' => some (.running fr w')
  | .call member args fr => M.answer member args fr w
  | .ret v? => some (.returned v? w)
  | .halt h => some (.halted h)
  | .stuck => none

def step (M : Machine) (fr : Frame) (w : World) : Option Status :=
  M.perform w (fr.act M.cls M.code w)

/-- A step taken between the positions `lo` and `hi`. -/
inductive StepsIn (M : Machine) (lo hi : Nat) : Status → Status → Prop where
  | intro {fr w c} : lo ≤ fr.pc → fr.pc < hi → M.step fr w = some c →
      StepsIn M lo hi (.running fr w) c

/-- A run all of whose steps are taken between `lo` and `hi`. -/
def Runs (M : Machine) (lo hi : Nat) : Status → Status → Prop :=
  Relation.ReflTransGen (M.StepsIn lo hi)

theorem StepsIn.unique {a b c : Status} (h : M.StepsIn lo hi a b) (h' : M.StepsIn lo hi a c) :
    b = c := by
  cases h with
  | intro _ _ hb =>
      cases h' with
      | intro _ _ hc => exact Option.some.inj (hb.symm.trans hc)

/-- A run that cannot go on between `lo` and `hi` ends in one status only. -/
theorem Runs.unique {a b c : Status} (h : M.Runs lo hi a b) (h' : M.Runs lo hi a c)
    (hb : ∀ d, ¬M.StepsIn lo hi b d) (hc : ∀ d, ¬M.StepsIn lo hi c d) : b = c := by
  have hunique : Relator.RightUnique (M.StepsIn lo hi) := fun _ _ _ => StepsIn.unique
  exact eq_of_reflTransGen hunique h h' hb hc

theorem not_stepsIn_halted (reason : Halt) (c : Status) : ¬M.StepsIn lo hi (.halted reason) c := by
  rintro ⟨⟩

theorem not_stepsIn_of_le {pc : Nat} {stack : List Cell} {slots : Nat → Int32} {w : World}
    (h : hi ≤ pc) (c : Status) : ¬M.StepsIn lo hi (.running ⟨pc, stack, slots⟩ w) c := by
  intro hstep
  cases hstep with
  | intro _ hlt _ => exact absurd hlt (Nat.not_lt.mpr h)

theorem Runs.trans {a b c : Status} (h : M.Runs lo hi a b) (h' : M.Runs lo hi b c) :
    M.Runs lo hi a c :=
  Relation.ReflTransGen.trans h h'

/-- The machine does what `r` says: it runs to a status that suits the result, or
halts for the same reason. -/
def Meets (M : Machine) (lo hi : Nat) {β : Type} (a : Status) (r : Except Halt β)
    (P : β → Status → Prop) : Prop :=
  match r with
  | .ok b => ∃ c, M.Runs lo hi a c ∧ P b c
  | .error h => M.Runs lo hi a (.halted h)

namespace Meets

variable {β γ : Type} {a c : Status} {r : Except Halt β} {P : β → Status → Prop}

/-- What is computed in steps is met in steps. -/
theorem bind {f : β → Except Halt γ} {Q : γ → Status → Prop} (h : M.Meets lo hi a r P)
    (hf : ∀ b c, r = .ok b → P b c → M.Meets lo hi c (f b) Q) : M.Meets lo hi a (r >>= f) Q := by
  cases r with
  | error e => exact h
  | ok b =>
      obtain ⟨c, hruns, hc⟩ := h
      have hrest := hf b c rfl hc
      change M.Meets lo hi a (f b) Q
      cases hb : f b with
      | error e =>
          rw [hb] at hrest
          exact hruns.trans hrest
      | ok d =>
          rw [hb] at hrest
          obtain ⟨c', hruns', hd⟩ := hrest
          exact ⟨c', hruns.trans hruns', hd⟩

/-- Steps before what is met. -/
theorem after (hruns : M.Runs lo hi a c) (h : M.Meets lo hi c r P) : M.Meets lo hi a r P := by
  cases r with
  | error e => exact hruns.trans h
  | ok b =>
      obtain ⟨c', hruns', hb⟩ := h
      exact ⟨c', hruns.trans hruns', hb⟩

end Meets

end Machine

/-! ## Pieces of code -/

/-- The piece `F` stands in `code` at `pos`, between `lo` and `hi`. -/
structure Placed (code : Code) (lo hi pos : Nat) (F : Code) : Prop where
  segment : ∃ before after, code = before ++ F ++ after ∧ before.length = pos
  lo_le : lo ≤ pos
  le_hi : pos + F.length ≤ hi

namespace Placed

variable {code F G : Code} {lo hi pos : Nat} {line : Line}

theorem of_eq (h : code = F) : Placed code 0 code.length 0 F where
  segment := ⟨[], [], by simp [h], rfl⟩
  lo_le := Nat.le_refl 0
  le_hi := by simp [h]

theorem append (h : Placed code lo hi pos (F ++ G)) :
    Placed code lo hi pos F ∧ Placed code lo hi (pos + F.length) G := by
  obtain ⟨⟨before, after, hcode, hpos⟩, hlo, hhi⟩ := h
  rw [List.length_append] at hhi
  refine ⟨⟨⟨before, G ++ after, ?_, hpos⟩, hlo, by omega⟩,
    ⟨⟨before ++ F, after, ?_, ?_⟩, by omega, by omega⟩⟩
  · rw [hcode]
    simp only [List.append_assoc]
  · rw [hcode]
    simp only [List.append_assoc]
  · rw [List.length_append, hpos]

theorem append_append {H : Code} (h : Placed code lo hi pos (F ++ G ++ H)) :
    Placed code lo hi pos F ∧ Placed code lo hi (pos + F.length) G
      ∧ Placed code lo hi (pos + F.length + G.length) H := by
  rw [List.append_assoc] at h
  exact ⟨h.append.1, h.append.2.append⟩

theorem tail (h : Placed code lo hi pos (line :: F)) : Placed code lo hi (pos + 1) F :=
  (append (F := [line]) h).2

theorem getElem? (h : Placed code lo hi pos (line :: F)) : code[pos]? = some line := by
  obtain ⟨⟨before, after, rfl, rfl⟩, -, -⟩ := h
  rw [List.append_assoc, List.getElem?_append_right (Nat.le_refl _), Nat.sub_self]
  rfl

theorem lt_hi (h : Placed code lo hi pos (line :: F)) : pos < hi := by
  have hhi := h.le_hi
  rw [List.length_cons] at hhi
  omega

/-! The parts of the patterns that statements have. -/

theorem ifThen {cond yes : Code} {done : Label}
    (h : Placed code lo hi pos (Code.ifThen cond yes done)) :
    Placed code lo hi pos cond
      ∧ Placed code lo hi (pos + cond.length) [.instr (.branch .eq done)]
      ∧ Placed code lo hi (pos + cond.length + 1) yes
      ∧ Placed code lo hi (pos + cond.length + 1 + yes.length) [.label done] := by
  have hcode : Code.ifThen cond yes done =
      cond ++ ([.instr (.branch .eq done)] ++ (yes ++ [.label done])) := by
    simp [Code.ifThen]
  rw [hcode] at h
  obtain ⟨hcond, h⟩ := h.append
  obtain ⟨hbranch, h⟩ := h.append
  exact ⟨hcond, hbranch, h.append⟩

theorem ifElse {cond yes no : Code} {otherwise done : Label}
    (h : Placed code lo hi pos (Code.ifElse cond yes no otherwise done)) :
    Placed code lo hi pos cond
      ∧ Placed code lo hi (pos + cond.length) [.instr (.branch .eq otherwise)]
      ∧ Placed code lo hi (pos + cond.length + 1) yes
      ∧ Placed code lo hi (pos + cond.length + 1 + yes.length)
          [.instr (.goto done), .label otherwise]
      ∧ Placed code lo hi (pos + cond.length + 1 + yes.length + 2) no
      ∧ Placed code lo hi (pos + cond.length + 1 + yes.length + 2 + no.length) [.label done] := by
  have hcode : Code.ifElse cond yes no otherwise done =
      cond ++ ([.instr (.branch .eq otherwise)] ++ (yes ++
        ([.instr (.goto done), .label otherwise] ++ (no ++ [.label done])))) := by
    simp [Code.ifElse]
  rw [hcode] at h
  obtain ⟨hcond, h⟩ := h.append
  obtain ⟨hbranch, h⟩ := h.append
  obtain ⟨hyes, h⟩ := h.append
  obtain ⟨hgoto, h⟩ := h.append
  exact ⟨hcond, hbranch, hyes, hgoto, h.append⟩

theorem loop {cond body : Code} {start done : Label}
    (h : Placed code lo hi pos (Code.loop cond body start done)) :
    Placed code lo hi pos [.label start]
      ∧ Placed code lo hi (pos + 1) cond
      ∧ Placed code lo hi (pos + 1 + cond.length) [.instr (.branch .eq done)]
      ∧ Placed code lo hi (pos + 1 + cond.length + 1) body
      ∧ Placed code lo hi (pos + 1 + cond.length + 1 + body.length)
          [.instr (.goto start), .label done] := by
  have hcode : Code.loop cond body start done =
      [.label start] ++ (cond ++ ([.instr (.branch .eq done)] ++
        (body ++ [.instr (.goto start), .label done]))) := by
    simp [Code.loop]
  rw [hcode] at h
  obtain ⟨hstart, h⟩ := h.append
  obtain ⟨hcond, h⟩ := h.append
  obtain ⟨hbranch, h⟩ := h.append
  exact ⟨hstart, hcond, hbranch, h.append⟩

/-- A label that is defined once is where it was placed. -/
theorem position? {l : Label} (h : Placed code lo hi pos (.label l :: F))
    (hnodup : (Code.labels code).Nodup) : code.position? l = some pos := by
  obtain ⟨⟨before, after, rfl, rfl⟩, -, -⟩ := h
  have hbefore : ∀ x ∈ before, (x == Line.label l) = false := by
    intro x hx
    rw [List.append_assoc, Code.labels_append, List.nodup_append] at hnodup
    have hmem : l ∈ Code.labels (Line.label l :: F ++ after) := List.mem_cons_self
    rw [beq_eq_false_iff_ne]
    rintro rfl
    exact hnodup.2.2 l (List.mem_filterMap.mpr ⟨_, hx, rfl⟩) l hmem rfl
  rw [Code.position?, List.append_assoc, List.findIdx?_append,
    List.findIdx?_eq_none_iff.mpr hbefore]
  simp [List.findIdx?_cons]

end Placed

/-! ## Runs through lines and patterns -/

namespace Machine

variable {M : Machine} {lo hi pos : Nat} {F : Code} {stack : List Cell} {slots : Nat → Int32}
  {w w' : World}

theorem runs_of_act {i : Instr} {action : Action} {c : Status}
    (h : Placed M.code lo hi pos (.instr i :: F))
    (hact : i.act M.cls M.code ⟨pos, stack, slots⟩ w = action) (hc : M.perform w action = some c) :
    M.Runs lo hi (.running ⟨pos, stack, slots⟩ w) c := by
  refine Relation.ReflTransGen.single (.intro h.lo_le h.lt_hi ?_)
  rw [step, Frame.act, h.getElem?]
  exact (congrArg (M.perform w) hact).trans hc

theorem runs_instr {i : Instr} {fr : Frame} (h : Placed M.code lo hi pos (.instr i :: F))
    (hact : i.act M.cls M.code ⟨pos, stack, slots⟩ w = .next fr w') :
    M.Runs lo hi (.running ⟨pos, stack, slots⟩ w) (.running fr w') :=
  runs_of_act h hact rfl

theorem runs_label {l : Label} (h : Placed M.code lo hi pos (.label l :: F)) :
    M.Runs lo hi (.running ⟨pos, stack, slots⟩ w) (.running ⟨pos + 1, stack, slots⟩ w) := by
  refine Relation.ReflTransGen.single (.intro h.lo_le h.lt_hi ?_)
  rw [step, Frame.act, h.getElem?]
  rfl

theorem runs_directive {d : Directive} (h : Placed M.code lo hi pos (.directive d :: F))
    (hd : d ≠ .endMethod) :
    M.Runs lo hi (.running ⟨pos, stack, slots⟩ w) (.running ⟨pos + 1, stack, slots⟩ w) := by
  refine Relation.ReflTransGen.single (.intro h.lo_le h.lt_hi ?_)
  rw [step, Frame.act, h.getElem?]
  cases d with
  | endMethod => exact absurd rfl hd
  | _ => rfl

/-- Control must not reach the end of a method. -/
theorem runs_endMethod (h : Placed M.code lo hi pos (.directive .endMethod :: F)) :
    M.Runs lo hi (.running ⟨pos, stack, slots⟩ w) (.halted .noResult) := by
  refine Relation.ReflTransGen.single (.intro h.lo_le h.lt_hi ?_)
  rw [step, Frame.act, h.getElem?]
  rfl

theorem runs_goto {l : Label} {target : Nat} (h : Placed M.code lo hi pos (.instr (.goto l) :: F))
    (hl : M.code.position? l = some target) :
    M.Runs lo hi (.running ⟨pos, stack, slots⟩ w) (.running ⟨target, stack, slots⟩ w) := by
  refine runs_instr h ?_
  simp only [Instr.act, Frame.jump, hl]

theorem runs_branch_taken {o : Comparison} {l : Label} {target : Nat} {a : Int32}
    (h : Placed M.code lo hi pos (.instr (.branch o l) :: F))
    (hl : M.code.position? l = some target) (ha : o.holds a = true) :
    M.Runs lo hi (.running ⟨pos, .int a :: stack, slots⟩ w)
      (.running ⟨target, stack, slots⟩ w) := by
  refine runs_instr h ?_
  simp only [Instr.act, Cell.popInt, if_pos ha, Frame.jump, hl]

theorem runs_branch_passed {o : Comparison} {l : Label} {a : Int32}
    (h : Placed M.code lo hi pos (.instr (.branch o l) :: F)) (ha : ¬o.holds a = true) :
    M.Runs lo hi (.running ⟨pos, .int a :: stack, slots⟩ w)
      (.running ⟨pos + 1, stack, slots⟩ w) := by
  refine runs_instr h ?_
  simp only [Instr.act, Cell.popInt, if_neg ha]
  rfl

section Choose

variable {fall taken : Int32} {hit done : Label}
  (hnodup : (Code.labels M.code).Nodup)

include hnodup

theorem position?_choose (h : Placed M.code lo hi pos (Code.choose fall taken hit done)) :
    M.code.position? hit = some (pos + 2) :=
  h.tail.tail.position? hnodup

/-- Entered from above, the first constant is pushed and the other one skipped. -/
theorem runs_choose_fall (h : Placed M.code lo hi pos (Code.choose fall taken hit done)) :
    M.Runs lo hi (.running ⟨pos, stack, slots⟩ w)
      (.running ⟨pos + 5, .int fall :: stack, slots⟩ w) := by
  have hdone := h.tail.tail.tail.tail
  refine (runs_instr h rfl).trans ?_
  exact (runs_goto h.tail (hdone.position? hnodup)).trans (runs_label hdone)

omit hnodup in
/-- Entered at the label, the second one is. -/
theorem runs_choose_taken (h : Placed M.code lo hi pos (Code.choose fall taken hit done)) :
    M.Runs lo hi (.running ⟨pos + 2, stack, slots⟩ w)
      (.running ⟨pos + 5, .int taken :: stack, slots⟩ w) := by
  refine (runs_label h.tail.tail).trans ?_
  exact (runs_instr h.tail.tail.tail rfl).trans (runs_label h.tail.tail.tail.tail)

theorem runs_truth {a : Int32} (h : Placed M.code lo hi pos (Code.truth hit done)) :
    M.Runs lo hi (.running ⟨pos, .int a :: stack, slots⟩ w)
      (.running ⟨pos + 6, .int (a != 0).toInt32 :: stack, slots⟩ w) := by
  have hchoose := h.tail
  by_cases ha : a = 0
  · subst ha
    exact (runs_branch_taken h (position?_choose hnodup hchoose) rfl).trans
      (runs_choose_taken hchoose)
  · have hne : (a != 0) = true := by simpa using ha
    rw [hne]
    refine (runs_branch_passed h ?_).trans (runs_choose_fall hnodup hchoose)
    simpa [Comparison.holds] using ha

theorem runs_compare {o : Comparison} {a b : Int32}
    (h : Placed M.code lo hi pos (Code.compare o hit done)) :
    M.Runs lo hi (.running ⟨pos, .int b :: .int a :: stack, slots⟩ w)
      (.running ⟨pos + 7, .int (o.holds (a - b)).toInt32 :: stack, slots⟩ w) := by
  have hchoose := h.tail.tail
  refine (runs_instr h rfl).trans ?_
  by_cases ho : o.holds (a - b) = true
  · rw [ho]
    exact (runs_branch_taken h.tail (position?_choose hnodup hchoose) ho).trans
      (runs_choose_taken hchoose)
  · refine (runs_branch_passed h.tail ho).trans ?_
    rw [Bool.not_eq_true] at ho
    rw [ho]
    exact runs_choose_fall hnodup hchoose

theorem runs_negate {entry : Label} {a : Int32}
    (h : Placed M.code lo hi pos (Code.negate entry hit done)) :
    M.Runs lo hi (.running ⟨pos, .int a :: stack, slots⟩ w)
      (.running ⟨pos + 7, .int (a == 0).toInt32 :: stack, slots⟩ w) := by
  have hchoose := h.tail.tail
  by_cases ha : a = 0
  · subst ha
    exact (runs_branch_taken h (position?_choose hnodup hchoose) rfl).trans
      (runs_choose_taken hchoose)
  · have hne : (a == 0) = false := by simpa using ha
    rw [hne]
    refine (runs_branch_passed h ?_).trans ?_
    · simpa [Comparison.holds] using ha
    · exact (runs_label h.tail).trans (runs_choose_fall hnodup hchoose)

end Choose

end Machine

end JasminGen
