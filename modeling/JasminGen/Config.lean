/-!
# Configuration

What a caller may choose: the name of the class, the stack limit of a method
whose watermark was never archived, and the name under which programs call
the print routine.
-/

namespace JasminGen

structure Config where
  className : String := "Test"
  defaultStackLimit : Nat := 32
  printBuiltin : String := "_print"
  deriving DecidableEq

namespace Config

/-- The name of a member as other code refers to it. -/
def qualified (c : Config) (member : String) : String :=
  c.className ++ "/" ++ member

end Config

end JasminGen
