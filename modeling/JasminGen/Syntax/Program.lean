import JasminGen.Syntax.Stmt

/-!
# Programs

A program is a list of declarations, of variables and of functions in any
order. Code generation takes the two kinds apart and keeps the order within
each kind.
-/

namespace JasminGen

structure Param where
  name : String
  type : DataType
  deriving DecidableEq

/-- A function with its body, which is a block: locals first, then
statements. -/
structure FunDecl where
  returns : ReturnType
  name : String
  params : List Param
  locals : List VarDecl
  body : List Stmt
  deriving DecidableEq

inductive Decl where
  | global (d : VarDecl)
  | function (f : FunDecl)
  deriving DecidableEq

structure Program where
  decls : List Decl
  deriving DecidableEq

namespace Program

def globals (p : Program) : List VarDecl :=
  p.decls.filterMap fun
    | .global d => some d
    | .function _ => none

def functions (p : Program) : List FunDecl :=
  p.decls.filterMap fun
    | .global _ => none
    | .function f => some f

end Program

end JasminGen
