import JasminGen.Attempt
import JasminGen.Names
import JasminGen.StackMeter

/-!
# The state of a generator

Besides the names, a generator counts: the labels issued so far and the depth
of the operand stack. Lowering an expression advances the counters only
(`EmitM`); lowering a statement may also declare variables, and starting a
function replaces the frame (`LowerM`).

Each operation comes with the equation that says what it does to the state.

Labels, slots and depths are counted here without bound. A generator that keeps
them in 32, 16 and 32 (signed) bits does the same as long as it issues fewer than
2^32 labels for a class, no frame gets 2^16 variables and the depth stays within
its range; what it does beyond that is left out of this model.
-/

namespace JasminGen

structure Counters where
  /-- Labels issued; the next label is this number. -/
  labels : Nat := 0
  meter : StackMeter := {}
  deriving DecidableEq

structure Context extends Names, Counters

/-- Nothing declared, nothing issued. -/
def Context.start (config : Config) : Context := { config }

/-! ## Lowering expressions: the counters change -/

abbrev EmitM := Attempt Counters LowerError

namespace EmitM

/-- Tells the meter that the code so far leaves `d` more values. -/
def shift (d : Int) : EmitM Unit :=
  modify fun k => { k with meter := k.meter.move d }

def push : EmitM Unit := shift 1

def pop : EmitM Unit := shift (-1)

def freshLabel : EmitM Label :=
  modifyGet fun k => (k.labels, { k with labels := k.labels + 1 })

@[simp] theorem on_shift (d : Int) (k : Counters) :
    (shift d).on k = (.ok (), { k with meter := k.meter.move d }) := rfl

@[simp] theorem on_push (k : Counters) :
    push.on k = (.ok (), { k with meter := k.meter.push }) := rfl

@[simp] theorem on_pop (k : Counters) :
    pop.on k = (.ok (), { k with meter := k.meter.pop }) := rfl

@[simp] theorem on_freshLabel (k : Counters) :
    freshLabel.on k = (.ok k.labels, { k with labels := k.labels + 1 }) := rfl

end EmitM

/-! ## Lowering statements and functions: the whole context changes -/

abbrev LowerM := Attempt Context LowerError

namespace LowerM

/-- Runs a step that advances the counters only. -/
def emit {α : Type} (x : EmitM α) : LowerM α :=
  .of fun c => ((x.on c.toCounters).1, { c with toCounters := (x.on c.toCounters).2 })

def names : LowerM Names := return (← get).toNames

/-- The depth that the meter shows. -/
def depth : LowerM Int := return (← get).meter.current

/-- Adds a variable to the frame and returns its slot. -/
def declare (v : Variable) : LowerM Nat := do
  let c ← get
  match c.frame.insert? v with
  | some frame =>
    set { c with frame }
    return c.frame.size
  | none => throw (.duplicateBinding v.name)

def declareAll : List Variable → LowerM Unit
  | [] => return
  | v :: vs => do
    let _ ← declare v
    declareAll vs

def declareField (v : Variable) : LowerM Unit := do
  let c ← get
  match c.fields.insert? v with
  | some fields => set { c with fields }
  | none => throw (.duplicateBinding v.name)

def declareFunction (s : Signature) : LowerM Unit := do
  let c ← get
  match c.functions.insert? s with
  | some functions => set { c with functions }
  | none => throw (.duplicateFunction s.name)

/-- Forgets the variables of the frame. -/
def clearFrame : LowerM Unit := modify fun c => { c with frame := .empty }

/-- Sets the depth and its maximum to zero. -/
def resetMeter : LowerM Unit := modify fun c => { c with meter := c.meter.reset }

/-- Archives the watermark of the method that ends here, and returns it. -/
def archiveWatermark : LowerM Nat :=
  modifyGet fun c => (c.meter.watermark, { c with meter := c.meter.close })

/-- The stack limit for the next method header. -/
def takeLimit : LowerM Nat :=
  modifyGet fun c =>
    let (limit, meter) := c.meter.takeLimit c.config.defaultStackLimit
    (limit, { c with meter })

@[simp] theorem on_emit {α : Type} (x : EmitM α) (c : Context) :
    (emit x).on c =
      ((x.on c.toCounters).1, { c with toCounters := (x.on c.toCounters).2 }) := rfl

@[simp] theorem on_names (c : Context) : names.on c = (.ok c.toNames, c) := rfl

@[simp] theorem on_depth (c : Context) : depth.on c = (.ok c.meter.current, c) := rfl

/-- A fresh name gets the next slot. -/
theorem on_declare_of_some {v : Variable} {c : Context} {frame : Variables}
    (h : c.frame.insert? v = some frame) :
    (declare v).on c = (.ok c.frame.size, { c with frame }) := by
  simp [declare, Attempt.on_bind, Attempt.on_map, Except.map, h]

/-- A name that is taken changes nothing. -/
theorem on_declare_of_none {v : Variable} {c : Context} (h : c.frame.insert? v = none) :
    (declare v).on c = (.error (.duplicateBinding v.name), c) := by
  simp [declare, Attempt.on_bind, h]

theorem on_declareField_of_some {v : Variable} {c : Context} {fields : Variables}
    (h : c.fields.insert? v = some fields) :
    (declareField v).on c = (.ok (), { c with fields }) := by
  simp [declareField, Attempt.on_bind, h]

theorem on_declareField_of_none {v : Variable} {c : Context} (h : c.fields.insert? v = none) :
    (declareField v).on c = (.error (.duplicateBinding v.name), c) := by
  simp [declareField, Attempt.on_bind, h]

theorem on_declareFunction_of_some {s : Signature} {c : Context} {functions : Signatures}
    (h : c.functions.insert? s = some functions) :
    (declareFunction s).on c = (.ok (), { c with functions }) := by
  simp [declareFunction, Attempt.on_bind, h]

theorem on_declareFunction_of_none {s : Signature} {c : Context}
    (h : c.functions.insert? s = none) :
    (declareFunction s).on c = (.error (.duplicateFunction s.name), c) := by
  simp [declareFunction, Attempt.on_bind, h]

@[simp] theorem on_clearFrame (c : Context) :
    clearFrame.on c = (.ok (), { c with frame := .empty }) := rfl

@[simp] theorem on_resetMeter (c : Context) :
    resetMeter.on c = (.ok (), { c with meter := c.meter.reset }) := rfl

@[simp] theorem on_archiveWatermark (c : Context) :
    archiveWatermark.on c = (.ok c.meter.watermark, { c with meter := c.meter.close }) := rfl

end LowerM

end JasminGen
