import JasminGen.Code.Pattern
import JasminGen.Context
import JasminGen.Syntax.Expr

/-!
# Lowering expressions

`e.lower Γ` is the code that evaluates `e`, under the names `Γ`. Operands are
lowered from left to right, and an operator takes its labels after its operands
have taken theirs. Most expressions leave one value on the stack; assignments,
calls of functions that return nothing and bare array names leave none.

| expression | code |
|---|---|
| `v` | `ldc v` |
| `x` | load of `x` |
| `x = e` | `e`, store to `x` |
| `-e` | `e`, `ineg` |
| `!e` | `e`, `negate` |
| `++e` | `e`, `ldc 1`, `iadd`; then `dup`, store to `x` if `e` is a bare name `x` |
| `l + r` | `l`, `r`, `iadd` |
| `l < r` | `l`, `r`, `compare` |
| `l and r` | `l`, `r`, `imul`, `truth` |
| `l or r`, `l` a bare name or literal | `l`, `r`, `iadd`, `l`, `iadd`, `truth` |
| `l or r`, otherwise | `l`, `dup`, `r`, `iadd`, `iadd`, `truth` |
| `f(e, …)` | opening of `f`, arguments, invocation |

The disjunction adds its left operand twice, so that an operand and its negative
do not cancel. A reloaded operand is read after the right one has run, a
duplicated one before.
-/

namespace JasminGen

namespace EmitM

/-! ## Operators, after their operands -/

/-- The top of the stack as a truth value. -/
def truth : EmitM Code := do
  let onZero ← freshLabel
  let done ← freshLabel
  return Code.truth onZero done

def compare (c : Comparison) : EmitM Code := do
  let hit ← freshLabel
  let done ← freshLabel
  return Code.compare c hit done

def negate : EmitM Code := do
  let entry ← freshLabel
  let onZero ← freshLabel
  let done ← freshLabel
  return Code.negate entry onZero done

/-- Stores the top of the stack into `x`. -/
def store (Γ : Names) (x : String) : EmitM Code := do
  let i ← Γ.store x
  pop
  return [.instr i]

/-- Writes the top of the stack back to a bare name, and keeps it. -/
def writeBack (Γ : Names) (operand : Expr) : EmitM Code :=
  match operand.ident? with
  | some x => do
    push
    let put ← store Γ x
    return .instr .dup :: put
  | none => return []

/-- Adds or subtracts one. The constant is on the stack for one instruction. -/
def step (Γ : Names) (op : ArithOp) (operand : Expr) : EmitM Code := do
  push
  pop
  let back ← writeBack Γ operand
  return .instr (.ldc 1) :: .instr (.arith op) :: back

def unary (Γ : Names) (op : UnaryOp) (operand : Expr) : EmitM Code :=
  match op with
  | .neg => return [.instr .ineg]
  | .not => negate
  | .increment => step Γ .add operand
  | .decrement => step Γ .sub operand

/-- What a call leaves on the stack. -/
def result : ReturnType → EmitM Unit
  | .int => push
  | .void => return

end EmitM

open EmitM (push pop shift)

mutual

def Expr.lower (Γ : Names) : Expr → EmitM Code
  | .ident x => do
    match ← Γ.load? x with
    | some i => do
      push
      return [.instr i]
    | none => return []
  | .lit v => do
    push
    return [.instr (.ldc v)]
  | .paren e => e.lower Γ
  | .assign x e => do
    let value ← e.lower Γ
    let put ← EmitM.store Γ x
    return value ++ put
  | .unary op e => do
    let operand ← e.lower Γ
    let tail ← EmitM.unary Γ op e
    return operand ++ tail
  | .binary (.arith op) l r => do
    let left ← l.lower Γ
    let right ← r.lower Γ
    pop
    return left ++ right ++ [.instr (.arith op)]
  | .binary (.compare c) l r => do
    let left ← l.lower Γ
    let right ← r.lower Γ
    pop
    let tail ← EmitM.compare c
    return left ++ right ++ tail
  | .binary .and l r => do
    let left ← l.lower Γ
    let right ← r.lower Γ
    pop
    let tail ← EmitM.truth
    return left ++ right ++ .instr (.arith .mul) :: tail
  | .binary .or l r => do
    let left ← l.lower Γ
    if l.isLeaf then
      let right ← r.lower Γ
      pop
      let tail ← EmitM.truth
      return left ++ right ++ .instr (.arith .add) :: left ++ .instr (.arith .add) :: tail
    else
      push
      let right ← r.lower Γ
      shift (-2)
      let tail ← EmitM.truth
      return left ++ .instr .dup :: right ++
        .instr (.arith .add) :: .instr (.arith .add) :: tail
  | .call f es => do
    let c ← Γ.calleeFor f es.length
    push
    let args ← Expr.lowerAll Γ es
    shift (-(es.length + 1))
    EmitM.result c.returns
    return c.opening ++ args ++ [.instr c.invoke]
  | .index a _ => throw (.unsupported (.arrayIndexing a))
  | .indexAssign a _ _ => throw (.unsupported (.elementAssignment a))

def Expr.lowerAll (Γ : Names) : List Expr → EmitM Code
  | [] => return []
  | e :: es => do
    let first ← e.lower Γ
    let rest ← Expr.lowerAll Γ es
    return first ++ rest

end

end JasminGen
