import JasminGen.Registry
import JasminGen.Syntax.Program

/-!
# Variables

A variable is what a declaration introduces, whether into a frame or into the
class: a name, a type, and perhaps an initial value. Frames and classes keep
theirs in registries; within a frame a variable's position is its slot.
-/

namespace JasminGen

structure Variable where
  name : String
  type : DataType
  init? : Option Int32 := none
  deriving DecidableEq

/-- Variables of one frame, or static fields of one class. -/
abbrev Variables := Registry Variable Variable.name

def VarDecl.toVariable (d : VarDecl) : Variable :=
  { name := d.name, type := d.type, init? := d.init? }

def Param.toVariable (p : Param) : Variable :=
  { name := p.name, type := p.type }

end JasminGen
