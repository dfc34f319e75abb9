import JasminGen.Lowering.Stmt
import JasminGen.Syntax.Program

/-!
# Methods

A method is the code of one function, or of the static initialiser, with the
header that declares how much stack and how many slots it uses. Both kinds are
made in the same three moves: start with an empty frame and a meter at zero,
lower the body and end it, then write the header from what the body used. The
header comes first in the text but is known last, which is why the watermark is
archived in between.
-/

namespace JasminGen

open LowerM (emit)

structure Method where
  name : String
  descriptor : String
  stackLimit : Nat
  localsLimit : Nat
  code : Code
  deriving DecidableEq

namespace Method

/-- The three directives that open a method. -/
def header (access descriptor : String) (stackLimit localsLimit : Nat) : Code :=
  [.directive (.method access descriptor),
   .directive (.limitStack stackLimit),
   .directive (.limitLocals localsLimit)]

/-- An empty frame and a meter at zero. -/
def begin : LowerM Unit := do
  LowerM.clearFrame
  LowerM.resetMeter

/-- Puts the header before a body that has been ended. -/
def finish (access name descriptor : String) (body : Code) : LowerM Method := do
  let stackLimit ← LowerM.takeLimit
  let localsLimit := (← LowerM.names).frame.size
  return { name, descriptor, stackLimit, localsLimit
           code := header access descriptor stackLimit localsLimit ++ body }

end Method

/-! ## Functions -/

namespace FunDecl

/-- The variables of a new frame. The entry point's array of strings has no
declaration; it is called `args` and takes the first slot. -/
def arguments (f : FunDecl) (s : Signature) : List Variable :=
  (if s.isEntryPoint then [{ name := "args", type := .intArray }] else []) ++
    f.params.map Param.toVariable

/-- The body with its end. A function that returns nothing need not say so at
its end; the `return` is supplied. -/
def lowerClosed (f : FunDecl) (s : Signature) : LowerM Code := do
  match ← lowerBody f.locals f.body with
  | (code, true) => return code
  | (code, false) => do
    let close ← closeMethod
    return code ++ (if s.returns = .void then [.instr .vreturn] else []) ++ close

/-- The function's method. Its signature must have been declared before; what
was left in the frame and on the meter does not matter. -/
def compile (f : FunDecl) : LowerM Method := do
  let s ← (← LowerM.names).signature f.name
  Method.begin
  LowerM.declareAll (f.arguments s)
  let body ← f.lowerClosed s
  Method.finish "public static" s.name s.descriptor body

end FunDecl

/-! ## The static initialiser -/

namespace StaticInit

def name : String := "<clinit>"

def descriptor : String := name ++ "()V"

/-- Fields with an initial value, in the order of their declaration. -/
def initialised (fields : Variables) : List (String × Int32) :=
  fields.entries.filterMap fun v => v.init?.map (v.name, ·)

def lowerAll (Γ : Names) : List (String × Int32) → EmitM Code
  | [] => return []
  | (x, v) :: rest => do
    let first ← EmitM.initialise Γ x v
    let others ← lowerAll Γ rest
    return first ++ others

/-- The method that gives fields their initial values; none if no field has
one. -/
def compile : LowerM (Option Method) := do
  match initialised (← LowerM.names).fields with
  | [] => return none
  | inits => do
    Method.begin
    let stores ← emit (lowerAll (← LowerM.names) inits)
    let close ← closeMethod
    let m ← Method.finish "static" name descriptor (stores ++ [.instr .vreturn] ++ close)
    return some m

end StaticInit

end JasminGen
