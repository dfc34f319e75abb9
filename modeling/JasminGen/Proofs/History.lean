import JasminGen.Proofs.Scope
import Mathlib.Data.List.DropRight

/-!
# Names and labels after any history

A context is asked to empty its frame, to bind variables, to declare fields and
functions and to issue labels, in any order, and it goes on after a request that it
refuses. Three things with three lifetimes are kept for this: the frame lives until it
is emptied, fields and functions for good, and labels only count.

`names_follow_history` says that all of it can be read off the calls that were made and
their answers. A binding is refused exactly if its name was bound since the frame was
last emptied, and its slot is the number of variables bound since then; members are
refused exactly if they were declared before; a name denotes the variable bound since the
frame was last emptied, and otherwise the first field declared under it; the labels
issued are 0, 1, 2 and so on, whatever happens in between.

`Call.history` is the record of the calls, and the invariant `TableOp.Recorded` relates
it to the context. What one call can do is said once (`TableOp.Effect`); from that, one call
keeps the invariant (`Recorded.concat`), hence every sequence of calls does
(`Call.history_keeps`).
-/

namespace JasminGen

/-! ## Calls -/

/-- A call: what was asked in which state, and what it answered and left behind. -/
structure Call (ι ω σ : Type) where
  op : ι
  before : σ
  answer : ω
  after : σ

namespace Call

variable {ι ω σ : Type} (step : ι → σ → ω × σ)

/-- The call of `op` in the state `s`. -/
def make (op : ι) (s : σ) : Call ι ω σ := ⟨op, s, (step op s).1, (step op s).2⟩

/-- The calls of `ops`, one after another from `s`. -/
def history : List ι → σ → List (Call ι ω σ)
  | [], _ => []
  | op :: ops, s => make step op s :: history ops (step op s).2

/-- The state that the calls of `ops` lead to. -/
def final (ops : List ι) (s : σ) : σ := ops.foldl (fun s op => (step op s).2) s

theorem map_op_history : ∀ (ops : List ι) (s : σ), (history step ops s).map op = ops
  | [], _ => rfl
  | _ :: ops, _ => congrArg _ (map_op_history ops _)

variable {step}

/-- What one call keeps, every sequence of calls keeps. -/
theorem history_keeps {P : List (Call ι ω σ) → σ → Prop}
    (hstep : ∀ log s op, P log s → P (log ++ [make step op s]) (step op s).2) :
    ∀ (ops : List ι) {log : List (Call ι ω σ)} {s : σ}, P log s →
      P (log ++ history step ops s) (final step ops s)
  | [], log, s, h => by
      rw [history, List.append_nil]
      exact h
  | op :: ops, log, s, h => by
      rw [history, List.append_cons]
      exact history_keeps hstep ops (hstep log s op h)

/-- What one more call adds to a view of the record. -/
theorem filterMap_concat {α β : Type} (f : α → Option β) (l : List α) (a : α) :
    (l ++ [a]).filterMap f = l.filterMap f ++ (f a).toList := by
  rw [List.filterMap_append]
  cases h : f a <;> simp [h]

end Call

/-- A lookup finds what a walk over the list finds. -/
theorem Registry.find?_zipIdx {α : Type} {nameOf : α → String} (r : Registry α nameOf)
    (x : String) : (r.entries.zipIdx.find? fun b => nameOf b.1 == x) = r.locate? x := by
  cases h : r.entries.zipIdx.find? fun b => nameOf b.1 == x with
  | none =>
      refine (locate?_eq_none_iff.mpr fun hx => ?_).symm
      obtain ⟨a, ha, rfl⟩ := List.mem_map.mp hx
      obtain ⟨i, hi⟩ := List.getElem?_of_mem ha
      exact List.find?_eq_none.mp h (a, i) (List.mem_zipIdx_iff_getElem?.mpr hi) BEq.rfl
  | some b =>
      have hmem := List.mem_zipIdx_iff_getElem?.mp (List.mem_of_find?_eq_some h)
      have hname := List.find?_some h
      exact (locate?_eq_some_iff.mpr ⟨hmem, eq_of_beq hname⟩).symm

/-! ## What is asked of a context -/

inductive TableOp where
  | clearFrame
  | bindParameter (p : Param)
  | bindLocal (v : Variable)
  | declareField (v : Variable)
  | declareFunction (s : Signature)
  | freshLabel
  deriving DecidableEq

namespace TableOp

inductive Answer where
  | done
  | slot (index : Nat)
  | label (l : Label)
  deriving DecidableEq

def run : TableOp → LowerM Answer
  | clearFrame => do
    LowerM.clearFrame
    return .done
  | bindParameter p => .slot <$> LowerM.declare p.toVariable
  | bindLocal v => .slot <$> LowerM.declare v
  | declareField v => do
    LowerM.declareField v
    return .done
  | declareFunction s => do
    LowerM.declareFunction s
    return .done
  | freshLabel => .label <$> LowerM.emit EmitM.freshLabel

/-- The variable to be bound. -/
def binding? : TableOp → Option Variable
  | bindParameter p => some p.toVariable
  | bindLocal v => some v
  | _ => none

def field? : TableOp → Option Variable
  | declareField v => some v
  | _ => none

def function? : TableOp → Option Signature
  | declareFunction s => some s
  | _ => none

abbrev Record := List (Call TableOp (Except LowerError Answer) Context)

/-- The calls of `ops` on a new context. A call that is refused does not end them. -/
def record (config : Config) (ops : List TableOp) : Record :=
  Call.history (fun op => op.run.on) ops (.start config)

/-- The context after these calls. -/
def table (config : Config) (ops : List TableOp) : Context :=
  Call.final (fun op => op.run.on) ops (.start config)

end TableOp

/-! ## What the record says -/

/-- The first of each name, in order. -/
def firsts {α : Type} (nameOf : α → String) (l : List α) : List α :=
  l.foldl (fun kept a => if nameOf a ∈ kept.map nameOf then kept else kept ++ [a]) []

theorem firsts_concat {α : Type} (nameOf : α → String) (l : List α) (a : α) :
    firsts nameOf (l ++ [a]) =
      if nameOf a ∈ (firsts nameOf l).map nameOf then firsts nameOf l
      else firsts nameOf l ++ [a] :=
  List.foldl_concat ..

namespace TableOp.Record

/-- The calls since the frame was last emptied. -/
def sinceClear (log : Record) : Record := log.rtakeWhile (·.op ≠ clearFrame)

/-- What a call adds, of one kind: what it asks for, if that is granted. -/
def added? {α : Type} (kind : TableOp → Option α) (op : TableOp)
    (answer : Except LowerError Answer) : Option α :=
  if answer.isOk then kind op else none

/-- What the calls have added, of one kind. -/
def granted {α : Type} (kind : TableOp → Option α) (log : Record) : List α :=
  log.filterMap fun k => added? kind k.op k.answer

/-- The variables bound since the frame was last emptied, in order. -/
def bound (log : Record) : List Variable := granted binding? log.sinceClear

/-- The fields declared, in order. -/
def fields (log : Record) : List Variable := granted field? log

/-- The functions declared, in order. -/
def functions (log : Record) : List Signature := granted function? log

def issued? : Except LowerError Answer → Option Label
  | .ok (.label l) => some l
  | _ => none

/-- The labels issued, in order. -/
def labels (log : Record) : List Label := log.filterMap fun k => issued? k.answer

/-- The answer to the next call. -/
def answer (log : Record) : TableOp → Except LowerError Answer
  | clearFrame => .ok .done
  | bindParameter p => answerBinding p.toVariable
  | bindLocal v => answerBinding v
  | declareField v =>
    if v.name ∈ log.fields.map Variable.name then .error (.duplicateBinding v.name)
    else .ok .done
  | declareFunction s =>
    if s.name ∈ log.functions.map Signature.name then .error (.duplicateFunction s.name)
    else .ok .done
  | freshLabel => .ok (.label log.labels.length)
where
  answerBinding (v : Variable) : Except LowerError Answer :=
    if v.name ∈ log.bound.map Variable.name then .error (.duplicateBinding v.name)
    else .ok (.slot log.bound.length)

/-- What a variable's name denotes. -/
def denoted (log : Record) (x : String) : Except LowerError Place :=
  match log.bound.zipIdx.find? fun b => b.1.name == x with
  | some (v, i) => .ok (.slot i v.type)
  | none =>
    match log.fields.find? (·.name == x) with
    | some v => .ok (.field v.type)
    | none => .error (.unboundName x)

/-- The signature that calls of `f` are made by. -/
def signature (log : Record) (f : String) : Except LowerError Signature :=
  match log.functions.find? (·.name == f) with
  | some s => .ok s
  | none => .error (.unknownFunction f)

theorem answer_of_binding {op : TableOp} {v : Variable} (h : op.binding? = some v)
    (log : Record) : log.answer op = answer.answerBinding log v := by
  cases op <;> cases h <;> rfl

/-! How the record grows by one call. -/

section Concat

variable {α : Type} (kind : TableOp → Option α) (log : Record)
  (k : Call TableOp (Except LowerError Answer) Context)

theorem granted_concat :
    granted kind (log ++ [k]) = granted kind log ++ (added? kind k.op k.answer).toList :=
  Call.filterMap_concat ..

theorem bound_concat :
    bound (log ++ [k]) =
      if k.op = clearFrame then [] else bound log ++ (added? binding? k.op k.answer).toList := by
  rw [bound, sinceClear, List.rtakeWhile_concat]
  by_cases h : k.op = clearFrame
  · simp [h, granted]
  · simp only [h, ne_eq, not_false_eq_true, decide_true, if_true, if_false]
    exact granted_concat ..

theorem labels_concat : labels (log ++ [k]) = labels log ++ (issued? k.answer).toList :=
  Call.filterMap_concat ..

/-- If a name is refused exactly when it was granted before, then the first of each name
are granted. -/
theorem granted_concat_eq_firsts {nameOf : α → String}
    (h : granted kind log = firsts nameOf ((log.map Call.op).filterMap kind))
    (hk : ∀ a, kind k.op = some a →
      (k.answer.isOk = true ↔ nameOf a ∉ (granted kind log).map nameOf)) :
    granted kind (log ++ [k]) = firsts nameOf (((log ++ [k]).map Call.op).filterMap kind) := by
  rw [granted_concat, List.map_append, List.filterMap_append, List.map_singleton, added?]
  cases ha : kind k.op with
  | none => simp [ha, h]
  | some a =>
      rw [List.filterMap_cons_some ha, List.filterMap_nil, firsts_concat, ← h]
      by_cases hname : nameOf a ∈ (granted kind log).map nameOf
      · rw [if_neg (fun hok => (hk a ha).mp hok hname), if_pos hname, Option.toList_none,
          List.append_nil]
      · rw [if_pos ((hk a ha).mpr hname), if_neg hname, Option.toList_some]

end Concat

end TableOp.Record

/-! ## One call -/

namespace TableOp

/-- What a call can do to the context `c`: its answer and the context it leaves. -/
inductive Effect (c : Context) : TableOp → Except LowerError Answer → Context → Prop where
  | clear : Effect c clearFrame (.ok .done) { c with frame := .empty }
  | bind {op v frame} : op.binding? = some v → c.frame.insert? v = some frame →
      Effect c op (.ok (.slot c.frame.size)) { c with frame }
  | bindingTaken {op v} : op.binding? = some v → c.frame.insert? v = none →
      Effect c op (.error (.duplicateBinding v.name)) c
  | field {v fields} : c.fields.insert? v = some fields →
      Effect c (declareField v) (.ok .done) { c with fields }
  | fieldTaken {v} : c.fields.insert? v = none →
      Effect c (declareField v) (.error (.duplicateBinding v.name)) c
  | function {s functions} : c.functions.insert? s = some functions →
      Effect c (declareFunction s) (.ok .done) { c with functions }
  | functionTaken {s} : c.functions.insert? s = none →
      Effect c (declareFunction s) (.error (.duplicateFunction s.name)) c
  | label : Effect c freshLabel (.ok (.label c.labels)) { c with labels := c.labels + 1 }

theorem effect_declare {op : TableOp} {v : Variable} (hop : op.binding? = some v)
    (hrun : op.run = .slot <$> LowerM.declare v) (c : Context) :
    op.Effect c (op.run.on c).1 (op.run.on c).2 := by
  rw [hrun, Attempt.on_map]
  cases hv : c.frame.insert? v with
  | some frame =>
      rw [LowerM.on_declare_of_some hv]
      exact .bind hop hv
  | none =>
      rw [LowerM.on_declare_of_none hv]
      exact .bindingTaken hop hv

theorem effect_run (op : TableOp) (c : Context) : op.Effect c (op.run.on c).1 (op.run.on c).2 := by
  cases op with
  | clearFrame => exact .clear
  | bindParameter p => exact effect_declare rfl rfl c
  | bindLocal v => exact effect_declare rfl rfl c
  | declareField v =>
      rw [run, Attempt.on_bind]
      cases hv : c.fields.insert? v with
      | some fields =>
          rw [LowerM.on_declareField_of_some hv]
          exact .field hv
      | none =>
          rw [LowerM.on_declareField_of_none hv]
          exact .fieldTaken hv
  | declareFunction s =>
      rw [run, Attempt.on_bind]
      cases hs : c.functions.insert? s with
      | some functions =>
          rw [LowerM.on_declareFunction_of_some hs]
          exact .function hs
      | none =>
          rw [LowerM.on_declareFunction_of_none hs]
          exact .functionTaken hs
  | freshLabel => exact .label

/-- A call that binds a variable is of no other kind. -/
theorem kinds_of_binding {op : TableOp} {v : Variable} (h : op.binding? = some v) :
    op ≠ clearFrame ∧ op.field? = none ∧ op.function? = none ∧ op ≠ freshLabel := by
  cases op <;> cases h <;> exact ⟨nofun, rfl, rfl, nofun⟩

namespace Effect

variable {c c' : Context} {op : TableOp} {r : Except LowerError Answer}

/-- A call that is refused changes nothing. -/
theorem eq_of_error {e : LowerError} (h : op.Effect c (.error e) c') : c' = c := by
  cases h <;> rfl

theorem config_meter (h : op.Effect c r c') : c'.config = c.config ∧ c'.meter = c.meter := by
  cases h <;> exact ⟨rfl, rfl⟩

open Record (added? issued?)

theorem frame (h : op.Effect c r c') :
    c'.frame.entries =
      if op = clearFrame then [] else c.frame.entries ++ (added? binding? op r).toList := by
  cases h with
  | clear => rfl
  | bind hop hv =>
      rw [if_neg (kinds_of_binding hop).1, (Registry.insert?_eq_some_iff.mp hv).2]
      simp [added?, Except.isOk, Except.toBool, hop]
  | bindingTaken hop hv =>
      rw [if_neg (kinds_of_binding hop).1]
      simp [added?, Except.isOk, Except.toBool]
  | _ => simp [added?, binding?]

theorem fields (h : op.Effect c r c') :
    c'.fields.entries = c.fields.entries ++ (added? field? op r).toList := by
  cases h with
  | field hv =>
      rw [(Registry.insert?_eq_some_iff.mp hv).2]
      rfl
  | bind hop _ => simp [added?, (kinds_of_binding hop).2.1]
  | bindingTaken hop _ | fieldTaken _ => simp [added?, Except.isOk, Except.toBool]
  | _ => simp [added?, field?]

theorem functions (h : op.Effect c r c') :
    c'.functions.entries = c.functions.entries ++ (added? function? op r).toList := by
  cases h with
  | function hs =>
      rw [(Registry.insert?_eq_some_iff.mp hs).2]
      rfl
  | bind hop _ => simp [added?, (kinds_of_binding hop).2.2.1]
  | bindingTaken hop _ | functionTaken _ => simp [added?, Except.isOk, Except.toBool]
  | _ => simp [added?, function?]

/-- Only one kind of call issues a label, the next one. -/
theorem labels (h : op.Effect c r c') :
    (issued? r = some c.labels ∧ op = freshLabel ∧ c'.labels = c.labels + 1)
      ∨ (issued? r = none ∧ op ≠ freshLabel ∧ c'.labels = c.labels) := by
  cases h with
  | label => exact .inl ⟨rfl, rfl, rfl⟩
  | bind hop _ | bindingTaken hop _ => exact .inr ⟨rfl, (kinds_of_binding hop).2.2.2, rfl⟩
  | _ => exact .inr ⟨rfl, nofun, rfl⟩

end Effect

/-! ## Every call -/

/-- The context is what the record says. -/
structure Recorded (config : Config) (log : Record) (c : Context) : Prop where
  config : c.config = config
  meter : c.meter = {}
  frame : c.frame.entries = log.bound
  fields : c.fields.entries = log.fields
  functions : c.functions.entries = log.functions
  labels : log.labels = List.range c.labels
  count : c.labels = (log.map Call.op).count freshLabel
  firstFields : log.fields = firsts Variable.name ((log.map Call.op).filterMap field?)
  firstFunctions : log.functions = firsts Signature.name ((log.map Call.op).filterMap function?)

namespace Recorded

variable {config : Config} {log : Record} {c : Context}

theorem start (config : Config) : Recorded config [] (.start config) :=
  ⟨rfl, rfl, rfl, rfl, rfl, rfl, rfl, rfl, rfl⟩

variable {c' : Context} {op : TableOp} {r : Except LowerError Answer}

/-- The record determines the answer. -/
theorem answer_eq (h : Recorded config log c) (heffect : op.Effect c r c') :
    r = log.answer op := by
  cases heffect with
  | clear => rfl
  | bind hop hv =>
      have hfresh := (Registry.insert?_eq_some_iff.mp hv).1
      rw [h.frame] at hfresh
      rw [Record.answer_of_binding hop, Record.answer.answerBinding, if_neg hfresh,
        Registry.size_eq, h.frame]
  | bindingTaken hop hv =>
      have htaken := Registry.insert?_eq_none_iff.mp hv
      rw [h.frame] at htaken
      rw [Record.answer_of_binding hop, Record.answer.answerBinding, if_pos htaken]
  | field hv =>
      have hfresh := (Registry.insert?_eq_some_iff.mp hv).1
      rw [h.fields] at hfresh
      rw [Record.answer, if_neg hfresh]
  | fieldTaken hv =>
      have htaken := Registry.insert?_eq_none_iff.mp hv
      rw [h.fields] at htaken
      rw [Record.answer, if_pos htaken]
  | function hs =>
      have hfresh := (Registry.insert?_eq_some_iff.mp hs).1
      rw [h.functions] at hfresh
      rw [Record.answer, if_neg hfresh]
  | functionTaken hs =>
      have htaken := Registry.insert?_eq_none_iff.mp hs
      rw [h.functions] at htaken
      rw [Record.answer, if_pos htaken]
  | label => rw [Record.answer, h.labels, List.length_range]

theorem isOk_field_iff (h : Recorded config log c) (heffect : op.Effect c r c') {v : Variable}
    (hv : op.field? = some v) : r.isOk = true ↔ v.name ∉ log.fields.map Variable.name := by
  rw [h.answer_eq heffect]
  cases op <;> cases hv
  rw [Record.answer]
  split <;> simp_all [Except.isOk, Except.toBool]

theorem isOk_function_iff (h : Recorded config log c) (heffect : op.Effect c r c')
    {s : Signature} (hs : op.function? = some s) :
    r.isOk = true ↔ s.name ∉ log.functions.map Signature.name := by
  rw [h.answer_eq heffect]
  cases op <;> cases hs
  rw [Record.answer]
  split <;> simp_all [Except.isOk, Except.toBool]

/-- One more call, and the context is still what the record says. -/
theorem concat (h : Recorded config log c) (heffect : op.Effect c r c') :
    Recorded config (log ++ [⟨op, c, r, c'⟩]) c' where
  config := heffect.config_meter.1.trans h.config
  meter := heffect.config_meter.2.trans h.meter
  frame := by rw [heffect.frame, h.frame, Record.bound_concat]
  fields := by
    rw [heffect.fields, h.fields, Record.fields, Record.fields, Record.granted_concat]
  functions := by
    rw [heffect.functions, h.functions, Record.functions, Record.functions,
      Record.granted_concat]
  labels := by
    rw [Record.labels_concat, h.labels]
    obtain ⟨hissued, -, hlabels⟩ | ⟨hissued, -, hlabels⟩ := heffect.labels
    · rw [hissued, hlabels, List.range_succ, Option.toList_some]
    · rw [hissued, hlabels, Option.toList_none, List.append_nil]
  count := by
    rw [List.map_append, List.count_append, ← h.count, List.map_singleton]
    obtain ⟨-, rfl, hlabels⟩ | ⟨-, hop, hlabels⟩ := heffect.labels
    · rw [hlabels, List.count_singleton_self]
    · rw [hlabels, List.count_singleton, if_neg (fun heq => hop (eq_of_beq heq)), Nat.add_zero]
  firstFields := Record.granted_concat_eq_firsts _ _ _ h.firstFields
    fun _ hv => h.isOk_field_iff heffect hv
  firstFunctions := Record.granted_concat_eq_firsts _ _ _ h.firstFunctions
    fun _ hs => h.isOk_function_iff heffect hs

theorem resolve_eq (h : Recorded config log c) (x : String) :
    c.toNames.resolve x = log.denoted x := by
  rw [Names.resolve, ← Registry.find?_zipIdx, h.frame, ← Registry.find?_entries, h.fields]
  rfl

theorem signature_eq (h : Recorded config log c) (f : String) :
    c.toNames.signature f = log.signature f := by
  rw [Names.signature, ← Registry.find?_entries, h.functions]
  rfl

end Recorded

/-- Whatever was asked, granted or refused. -/
theorem recorded (config : Config) (ops : List TableOp) :
    Recorded config (record config ops) (table config ops) := by
  have hstep : ∀ log c (op : TableOp), Recorded config log c →
      Recorded config (log ++ [.make (fun op => op.run.on) op c]) (op.run.on c).2 :=
    fun _ c op h => h.concat (op.effect_run c)
  exact Call.history_keeps hstep ops (Recorded.start config)

end TableOp

open TableOp

/-- After any calls on a new context, granted or refused, the record of these calls says
what the next call answers and what every name denotes. The frame holds the variables
bound since it was last emptied, with the slots 0, 1, 2, …; the fields and functions are the
first of each name; the labels issued are 0, 1, 2, … . A call that is refused changes
nothing, and no call touches the configuration or the meter. -/
theorem names_follow_history (config : Config) (ops : List TableOp) :
    (∀ op : TableOp, (op.run.on (table config ops)).1 = (record config ops).answer op)
    ∧ (∀ (op : TableOp) (e : LowerError), (op.run.on (table config ops)).1 = .error e →
      (op.run.on (table config ops)).2 = table config ops)
    ∧ (table config ops).frame.indexed = (record config ops).bound.zipIdx
    ∧ (table config ops).frame.size = (record config ops).bound.length
    ∧ (table config ops).fields.entries = (record config ops).fields
    ∧ (record config ops).fields = firsts Variable.name (ops.filterMap field?)
    ∧ (table config ops).functions.size = (record config ops).functions.length
    ∧ (record config ops).functions = firsts Signature.name (ops.filterMap function?)
    ∧ (∀ x, (table config ops).toNames.resolve x = (record config ops).denoted x)
    ∧ (∀ f, (table config ops).toNames.signature f = (record config ops).signature f)
    ∧ (record config ops).labels = List.range (ops.count freshLabel)
    ∧ (table config ops).labels = ops.count freshLabel
    ∧ (table config ops).config = config ∧ (table config ops).meter = {} := by
  have h := recorded config ops
  have hops : (record config ops).map Call.op = ops := Call.map_op_history ..
  have hcount := h.count
  have hfields := h.firstFields
  have hfunctions := h.firstFunctions
  rw [hops] at hcount hfields hfunctions
  refine ⟨fun op => h.answer_eq (op.effect_run _), fun op e he => ?_, ?_, ?_, h.fields, hfields,
    ?_, hfunctions, h.resolve_eq, h.signature_eq, ?_, hcount, h.config, h.meter⟩
  · exact (he ▸ op.effect_run (table config ops)).eq_of_error
  · rw [Registry.indexed_eq, h.frame]
  · rw [Registry.size_eq, h.frame]
  · rw [Registry.size_eq, h.functions]
  · rw [h.labels, hcount]

/-- A frame with a variable of the same name as a field, and a binding that is refused. -/
def TableOp.shadowing : List TableOp :=
  [declareField { name := "n", type := .int, init? := some 7 }, bindParameter ⟨"n", .intArray⟩,
    freshLabel, bindLocal { name := "n", type := .int }]

theorem shadowing_binding_refused :
    ((bindLocal { name := "n", type := .int }).run.on (table {} shadowing)).1 =
      .error (.duplicateBinding "n")
    ∧ ((bindLocal { name := "n", type := .int }).run.on (table {} shadowing)).2 =
      table {} shadowing
    ∧ (table {} shadowing).toNames.resolve "n" = .ok (.slot 0 .intArray) := by
  have hrefused : ((bindLocal { name := "n", type := .int }).run.on (table {} shadowing)).1 =
      .error (.duplicateBinding "n") := by decide +kernel
  obtain ⟨-, hsame, -, -, -, -, -, -, hresolve, -⟩ := names_follow_history {} shadowing
  refine ⟨hrefused, hsame _ _ hrefused, (hresolve "n").trans ?_⟩
  decide +kernel

end JasminGen
