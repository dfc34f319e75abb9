import JasminGen.Lowering.Expr
import JasminGen.Syntax.Stmt

/-!
# Lowering statements

A statement leaves the operand stack as it found it: what an expression
statement leaves is popped. The condition of an `if` or a loop is taken off the
stack by its branch, but the meter counts it until the statement ends, so the
watermark of a body includes its condition.

Labels are taken after all parts of the statement have taken theirs.
-/

namespace JasminGen

open EmitM (push pop shift freshLabel)
open LowerM (emit)

/-- The expression's code, under the names in force here. -/
def Expr.lowerHere (e : Expr) : LowerM Code := do
  emit (e.lower (← LowerM.names))

/-- Stores a constant into the variable `x`. -/
def EmitM.initialise (Γ : Names) (x : String) (v : Int32) : EmitM Code := do
  push
  let put ← EmitM.store Γ x
  return .instr (.ldc v) :: put

/-- Declares a local variable. Its initial value, if any, is stored where the
declaration stands. -/
def VarDecl.lower (d : VarDecl) : LowerM Code := do
  let slot ← LowerM.declare d.toVariable
  match d.init? with
  | some v => do
    emit push
    emit pop
    return [.instr (.ldc v), .instr (.istore slot)]
  | none => return []

def VarDecl.lowerAll : List VarDecl → LowerM Code
  | [] => return []
  | d :: ds => do
    let first ← d.lower
    let rest ← VarDecl.lowerAll ds
    return first ++ rest

/-- A `return`, with or without a value. -/
def lowerReturn : Option Expr → LowerM Code
  | some e => do
    let value ← e.lowerHere
    emit pop
    return value ++ [.instr .ireturn]
  | none => return [.instr .vreturn]

/-- Ends the method. -/
def closeMethod : LowerM Code := do
  let _ ← LowerM.archiveWatermark
  return Code.methodEnd

/-- A `return` that stands last in a function and so ends the method too. -/
def lowerClosingReturn (value : Option Expr) : LowerM Code := do
  let code ← lowerReturn value
  let close ← closeMethod
  return code ++ close

mutual

def Stmt.lower : Stmt → LowerM Code
  | .expr e => do
    let before ← LowerM.depth
    let code ← e.lowerHere
    let left := ((← LowerM.depth) - before).toNat
    emit (shift (-left))
    return code ++ List.replicate left (.instr .pop)
  | .block locals body => do
    let decls ← VarDecl.lowerAll locals
    let code ← Stmt.lowerAll body
    return decls ++ code
  | .ifThen c s => do
    let cond ← c.lowerHere
    let yes ← s.lower
    let done ← emit freshLabel
    emit pop
    return Code.ifThen cond yes done
  | .ifElse c s s' => do
    let cond ← c.lowerHere
    let yes ← s.lower
    let no ← s'.lower
    let done ← emit freshLabel
    let otherwise ← emit freshLabel
    emit pop
    return Code.ifElse cond yes no otherwise done
  | .loop c s => do
    let cond ← c.lowerHere
    let body ← s.lower
    let start ← emit freshLabel
    let done ← emit freshLabel
    emit pop
    return Code.loop cond body start done
  | .ret value => lowerReturn value

def Stmt.lowerAll : List Stmt → LowerM Code
  | [] => return []
  | s :: ss => do
    let first ← s.lower
    let rest ← Stmt.lowerAll ss
    return first ++ rest

end

/-- Lowers the body of a function. A `return` in last place also ends the
method; the flag tells whether it did. -/
def lowerBody (locals : List VarDecl) (body : List Stmt) : LowerM (Code × Bool) := do
  let decls ← VarDecl.lowerAll locals
  match body.getLast? with
  | some (.ret value) => do
    let code ← Stmt.lowerAll body.dropLast
    let last ← lowerClosingReturn value
    return (decls ++ code ++ last, true)
  | _ => do
    let code ← Stmt.lowerAll body
    return (decls ++ code, false)

end JasminGen
