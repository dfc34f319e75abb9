import JasminGen.Code.Line
import JasminGen.Config
import JasminGen.Error
import JasminGen.Signature
import JasminGen.Variable

/-!
# What names denote

Lowering an expression consults names and never changes what they mean, so
everything a name can denote is gathered in one read-only record, `Names`: the
variables of the current frame, the fields and functions of the class, and the
configuration.

A variable's name denotes a slot of the frame if the frame has a variable of
that name, and otherwise a field of the class. Only scalars can be moved between
their place and the operand stack. Reading an array yields no instruction;
writing one is an error.
-/

namespace JasminGen

structure Names where
  config : Config := {}
  /-- Variables of the current frame; the position is the slot. -/
  frame : Variables := .empty
  /-- Static fields of the class. -/
  fields : Variables := .empty
  functions : Signatures := .empty

/-- Where a variable lives. -/
inductive Place where
  | slot (index : Nat) (type : DataType)
  | field (type : DataType)
  deriving DecidableEq

/-- What a call runs, and what it does to the operand stack. -/
structure Callee where
  arity : Nat
  returns : ReturnType
  /-- Code to run before the arguments. -/
  opening : Code
  invoke : Instr

namespace Names

/-! ## Variables -/

/-- The frame is searched before the class. -/
def resolve (Γ : Names) (x : String) : Except LowerError Place :=
  match Γ.frame.locate? x with
  | some (v, i) => .ok (.slot i v.type)
  | none =>
    match Γ.fields.find? x with
    | some v => .ok (.field v.type)
    | none => .error (.unboundName x)

theorem resolve_of_frame {Γ : Names} {x : String} {v : Variable} {i : Nat}
    (h : Γ.frame.locate? x = some (v, i)) : Γ.resolve x = .ok (.slot i v.type) := by
  simp [resolve, h]

theorem resolve_of_field {Γ : Names} {x : String} {v : Variable}
    (hframe : Γ.frame.locate? x = none) (h : Γ.fields.find? x = some v) :
    Γ.resolve x = .ok (.field v.type) := by
  simp [resolve, hframe, h]

theorem resolve_of_unbound {Γ : Names} {x : String}
    (hframe : Γ.frame.locate? x = none) (h : Γ.fields.find? x = none) :
    Γ.resolve x = .error (.unboundName x) := by
  simp [resolve, hframe, h]

/-- The instruction that pushes the variable's value; none for an array. -/
def load? (Γ : Names) (x : String) : Except LowerError (Option Instr) := do
  match ← Γ.resolve x with
  | .slot i .int => return some (.iload i)
  | .field .int => return some (.getstatic (Γ.config.qualified x) DataType.int.descriptor)
  | .slot _ .intArray => return none
  | .field .intArray => return none

/-- The instruction that pops a value into the variable. -/
def store (Γ : Names) (x : String) : Except LowerError Instr := do
  match ← Γ.resolve x with
  | .slot i .int => return .istore i
  | .field .int => return .putstatic (Γ.config.qualified x) DataType.int.descriptor
  | .slot _ .intArray => throw (.unsupported (.arrayAssignment x))
  | .field .intArray => throw (.unsupported (.arrayAssignment x))

/-! ## Functions -/

def signature (Γ : Names) (f : String) : Except LowerError Signature :=
  match Γ.functions.find? f with
  | some s => .ok s
  | none => .error (.unknownFunction f)

/-- The print routine is a method of the standard output stream, which is
pushed before the argument. -/
def printRoutine : Callee where
  arity := 1
  returns := .void
  opening := [.instr (.getstatic "java/lang/System/out" "Ljava/io/PrintStream;")]
  invoke := .invokevirtual "java/io/PrintStream/println(I)V"

def method (Γ : Names) (s : Signature) : Callee where
  arity := s.arity
  returns := s.returns
  opening := []
  invoke := .invokestatic (Γ.config.qualified s.descriptor)

/-- The print routine's name is looked at first, so a function of that name
cannot be called. -/
def callee (Γ : Names) (f : String) : Except LowerError Callee :=
  if f = Γ.config.printBuiltin then .ok printRoutine
  else Γ.method <$> Γ.signature f

/-- What a call with `n` arguments runs. -/
def calleeFor (Γ : Names) (f : String) (n : Nat) : Except LowerError Callee := do
  let c ← Γ.callee f
  if c.arity = n then return c else throw (.argumentCount f c.arity n)

end Names

end JasminGen
