/-!
# Types of the source language

A variable holds an integer or an array of integers; a function returns an
integer or nothing. Each type has two spellings: the one of the source
language (`text`) and the one that class files use in descriptors
(`descriptor`).
-/

namespace JasminGen

/-- What a variable holds. -/
inductive DataType where
  | int
  | intArray
  deriving DecidableEq

namespace DataType

def text : DataType → String
  | int => "int"
  | intArray => "int[]"

def descriptor : DataType → String
  | int => "I"
  | intArray => "[I"

/-- Only scalars can be loaded onto the operand stack and stored from it. -/
def isScalar : DataType → Bool
  | int => true
  | intArray => false

@[simp] theorem isScalar_iff {t : DataType} : t.isScalar = true ↔ t = int := by
  cases t <;> simp [isScalar]

end DataType

/-- What a function returns. -/
inductive ReturnType where
  | int
  | void
  deriving DecidableEq

namespace ReturnType

def text : ReturnType → String
  | int => "int"
  | void => "void"

def descriptor : ReturnType → String
  | int => "I"
  | void => "V"

def isVoid : ReturnType → Bool
  | int => false
  | void => true

@[simp] theorem isVoid_iff {t : ReturnType} : t.isVoid = true ↔ t = void := by
  cases t <;> simp [isVoid]

end ReturnType

end JasminGen
