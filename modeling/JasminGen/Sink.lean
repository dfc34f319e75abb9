import JasminGen.ClassFile

/-!
# Writing a class out

Text goes to a writer as bytes. A writer takes a first part of the bytes it is offered, and
may fail. Whoever writes offers the remaining bytes again until all are taken, and gives up
when a write takes nothing. After the last byte the writer is flushed, which may fail too. A
program that cannot be lowered writes nothing.

A write that is interrupted is no failure: the same bytes are offered again at once. One write
here stands for such attempts up to the first that is not interrupted, so no failure says
"interrupted". Writers that are interrupted for ever are left out.

A sink is a writer with bounds: it takes at most `chunk?` bytes with one write and at most
`capacity?` bytes in all. Once it is full, a write either fails or takes nothing.
-/

namespace JasminGen

inductive WriteFailure where
  | diskFull
  | nothingTaken
  | flushFailed
  deriving DecidableEq

def WriteFailure.message : WriteFailure → String
  | diskFull => "disk full"
  | nothingTaken => "failed to write whole buffer"
  | flushFailed => "flush failed"

inductive OutputError where
  | lowering (e : LowerError)
  | write (f : WriteFailure)
  deriving DecidableEq

def OutputError.message : OutputError → String
  | lowering e => e.message
  | write f => "failed to write assembler output: " ++ f.message

/-- The calls of a writer, which changes states in `σ`. A write returns how many of the
offered bytes it has taken. -/
structure Writer (σ : Type) where
  write : List UInt8 → Attempt σ WriteFailure Nat
  flush : Attempt σ WriteFailure Unit

/-- Offers what remains until nothing does. -/
def Writer.writeAll {σ : Type} (w : Writer σ) : List UInt8 → Attempt σ WriteFailure Unit
  | [] => return
  | b :: bytes => do
    match ← w.write (b :: bytes) with
    | 0 => throw .nothingTaken
    | k + 1 => w.writeAll (bytes.drop k)
termination_by bytes => bytes.length
decreasing_by
  simp only [List.length_drop, List.length_cons]
  omega

/-! ## Sinks -/

structure Sink where
  /-- Most bytes that one write takes; no bound if absent. -/
  chunk? : Option Nat := none
  /-- Most bytes taken in all; no bound if absent. -/
  capacity? : Option Nat := none
  /-- Whether a full sink fails, rather than taking nothing. -/
  failsWhenFull : Bool := false
  flushFails : Bool := false
  /-- The bytes taken so far. -/
  taken : Array UInt8 := #[]

abbrev SinkM := Attempt Sink WriteFailure

namespace Sink

def isFull (s : Sink) : Bool := s.capacity?.any (· ≤ s.taken.size)

/-- Whether the next write fails. -/
def refuses (s : Sink) : Bool := s.isFull && s.failsWhenFull

/-- The part of the offered bytes that one write takes. -/
def accept (s : Sink) (bytes : List UInt8) : List UInt8 :=
  let bytes := match s.chunk? with
    | some k => bytes.take k
    | none => bytes
  match s.capacity? with
  | some c => bytes.take (c - s.taken.size)
  | none => bytes

/-- Offers bytes and returns how many were taken. -/
def write (bytes : List UInt8) : SinkM Nat := do
  let s ← get
  if s.refuses then throw .diskFull
  else
    set { s with taken := s.taken ++ s.accept bytes }
    return (s.accept bytes).length

/-- A write takes a first part of what it is offered. -/
theorem accept_eq_take (s : Sink) (bytes : List UInt8) :
    ∃ n, s.accept bytes = bytes.take n := by
  obtain ⟨k, hk⟩ : ∃ k, (match s.chunk? with
      | some k => bytes.take k
      | none => bytes) = bytes.take k := by
    cases s.chunk? with
    | some k => exact ⟨k, rfl⟩
    | none => exact ⟨bytes.length, (List.take_length ..).symm⟩
  unfold accept
  rw [hk]
  cases s.capacity? with
  | some c => exact ⟨min (c - s.taken.size) k, List.take_take⟩
  | none => exact ⟨k, rfl⟩

theorem on_write_of_refuses {s : Sink} (h : s.refuses = true) (bytes : List UInt8) :
    (write bytes).on s = (.error .diskFull, s) := by
  simp [write, Attempt.on_bind, h]

theorem on_write_of_not_refuses {s : Sink} (h : s.refuses = false) (bytes : List UInt8) :
    (write bytes).on s =
      (.ok (s.accept bytes).length, { s with taken := s.taken ++ s.accept bytes }) := by
  simp [write, Attempt.on_bind, Attempt.on_map, Except.map, h]

def flush : SinkM Unit := do
  if (← get).flushFails then throw .flushFailed else return

def writer : Writer Sink := { write, flush }

end Sink

/-! ## Classes -/

/-- The bytes of the text, in UTF-8. -/
def ClassFile.bytes (c : ClassFile) : List UInt8 := c.text.toByteArray.data.toList

theorem ClassFile.length_bytes (c : ClassFile) : c.bytes.length = c.text.utf8ByteSize := rfl

def ClassFile.writeTo {σ : Type} (c : ClassFile) (w : Writer σ) : Attempt σ WriteFailure Unit := do
  w.writeAll c.bytes
  w.flush

/-- Generates the program's class and writes its text. The state of the writer shows what was
written, also when writing fails. -/
def Program.outputTo {σ : Type} (config : Config) (p : Program) (w : Writer σ) (s : σ) :
    Except OutputError ClassFile × σ :=
  match p.generate config with
  | .error e => (.error (.lowering e), s)
  | .ok c =>
    match (c.writeTo w).on s with
    | (.ok (), s) => (.ok c, s)
    | (.error f, s) => (.error (.write f), s)

def Program.output (config : Config) (p : Program) (s : Sink) :
    Except OutputError ClassFile × Sink :=
  p.outputTo config Sink.writer s

end JasminGen
