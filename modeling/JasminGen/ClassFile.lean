import JasminGen.Method

/-!
# Classes

A program becomes one class. Globals are its fields, functions its methods, and
a static initialiser gives the fields their initial values. All fields and all
signatures are declared before any body is lowered, so a function may call one
that is declared after it.
-/

namespace JasminGen

structure ClassFile where
  name : String
  fields : List Variable
  staticInit : Option Method
  functions : List Method
  deriving DecidableEq

namespace ClassFile

/-! ## Text -/

def head (c : ClassFile) : String :=
  ".class public " ++ c.name ++ "\n.super java/lang/Object\n"

def fieldText (v : Variable) : String :=
  ".field public static " ++ v.name ++ " " ++ v.type.descriptor ++ "\n"

/-- The constructor that every class has, which only calls its parent's. -/
def constructorText : String :=
  "; standard initializer\n" ++
  ".method public <init>()V\n" ++
  "aload_0\n" ++
  "invokenonvirtual java/lang/Object/<init>()V\n" ++
  "return\n" ++
  ".end method\n" ++
  "\n"

/-- The static initialiser, if there is one, and then the functions. -/
def methods (c : ClassFile) : List Method := c.staticInit.toList ++ c.functions

def text (c : ClassFile) : String :=
  c.head ++ String.join (c.fields.map fieldText) ++ constructorText ++
    String.join (c.methods.map fun m => m.code.text)

/-! ## Lookup -/

def function? (c : ClassFile) (f : String) : Option Method :=
  c.functions.find? fun m => m.name == f

end ClassFile

/-! ## From a program -/

namespace Program

/-- Declares all fields, then all functions. -/
def declare (p : Program) : LowerM Unit := do
  p.globals.forM fun d => LowerM.declareField d.toVariable
  p.functions.forM fun f => LowerM.declareFunction f.signature

def compile (p : Program) : LowerM ClassFile := do
  p.declare
  let staticInit ← StaticInit.compile
  let functions ← p.functions.mapM FunDecl.compile
  let Γ ← LowerM.names
  return { name := Γ.config.className, fields := Γ.fields.entries, staticInit, functions }

/-- The program's class, or the first error in the order of lowering. -/
def generate (config : Config) (p : Program) : Except LowerError ClassFile :=
  (p.compile.on (.start config)).1

end Program

end JasminGen
