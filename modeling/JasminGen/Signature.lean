import JasminGen.Registry
import JasminGen.Syntax.Program

/-!
# Function signatures

A signature is what a call site knows of a function. The entry point is a case
of its own: the machine starts a class at a method of a fixed descriptor, which
takes an array of strings and returns nothing, and that type does not exist in
the source language. A function declared under the entry point's name gets this
signature whatever its declaration says.
-/

namespace JasminGen

inductive Signature where
  | entryPoint
  | plain (name : String) (params : List DataType) (returns : ReturnType)
  deriving DecidableEq

namespace Signature

/-- The name that makes a function the entry point. -/
def entryName : String := "main"

def name : Signature → String
  | entryPoint => entryName
  | plain f _ _ => f

/-- The parameter types as the source language sees them; the strings of the
entry point count as an array. -/
def params : Signature → List DataType
  | entryPoint => [.intArray]
  | plain _ ps _ => ps

def returns : Signature → ReturnType
  | entryPoint => .void
  | plain _ _ t => t

def isEntryPoint : Signature → Bool
  | entryPoint => true
  | plain _ _ _ => false

def arity (s : Signature) : Nat := s.params.length

/-- Name, parameter types and return type in the spelling of class files. -/
def descriptor : Signature → String
  | entryPoint => entryName ++ "([Ljava/lang/String;)V"
  | plain f ps t => f ++ "(" ++ String.join (ps.map DataType.descriptor) ++ ")" ++ t.descriptor

end Signature

/-- The functions of a class. -/
abbrev Signatures := Registry Signature Signature.name

def FunDecl.signature (f : FunDecl) : Signature :=
  if f.name = Signature.entryName then .entryPoint
  else .plain f.name (f.params.map Param.type) f.returns

@[simp] theorem FunDecl.name_signature (f : FunDecl) : f.signature.name = f.name := by
  unfold signature
  split
  · rename_i h
    exact h.symm
  · rfl

end JasminGen
