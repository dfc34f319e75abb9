/-!
# Lowering errors

A lowering error names its cause; the wording is given once, by `message`.
-/

namespace JasminGen

/-- What the generator has no code for. The first three are the array
operations, each with the array's name; `described` is any other construct,
in words. -/
inductive Construct where
  | arrayAssignment (name : String)
  | arrayIndexing (name : String)
  | elementAssignment (name : String)
  | described (text : String)
  deriving DecidableEq

namespace Construct

def text : Construct → String
  | arrayAssignment a => s!"assignment to int[] '{a}'"
  | arrayIndexing a => s!"array indexing '{a}[...]'"
  | elementAssignment a => s!"array element assignment '{a}[...] = ...'"
  | described t => t

end Construct

inductive LowerError where
  | unboundName (name : String)
  | duplicateBinding (name : String)
  | unknownFunction (name : String)
  | duplicateFunction (name : String)
  | argumentCount (name : String) (expected found : Nat)
  | unsupported (construct : Construct)
  deriving DecidableEq

namespace LowerError

def message : LowerError → String
  | unboundName x => s!"unbound name '{x}'"
  | duplicateBinding x => s!"'{x}' is already bound in this scope"
  | unknownFunction f => s!"call to unknown function '{f}'"
  | duplicateFunction f => s!"function '{f}' is defined more than once"
  | argumentCount f expected found =>
      s!"function '{f}' expects {expected} argument(s), found {found}"
  | unsupported c => s!"unsupported construct: {c.text}"

/-- The variable or function that the error is about. An unsupported
construct has no such name, only its description. -/
def name? : LowerError → Option String
  | unboundName x => some x
  | duplicateBinding x => some x
  | unknownFunction f => some f
  | duplicateFunction f => some f
  | argumentCount f _ _ => some f
  | unsupported _ => none

end LowerError

end JasminGen
