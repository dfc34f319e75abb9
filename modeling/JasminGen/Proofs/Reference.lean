import JasminGen.Proofs.Machine
import JasminGen.Proofs.Scope

/-!
# What programs mean

A reference semantics for the source language. It knows nothing of stacks,
slots, labels or instructions: variables are looked up by name, in the scope that
the text gives (`Scope`), and control follows the syntax tree.

All operands are evaluated, from left to right, and truth values are made by
arithmetic, as the language has it:

* a comparison compares the wrapped difference of its operands with zero;
* `and` asks whether the wrapped product is non-zero;
* `or` asks whether the wrapped sum `left + right + left'` is non-zero, where
  `left'` is the left operand again. If that is a bare name it is read again,
  after the right operand, and otherwise its first value is used.

A block opens no scope. Its variables are bound from the declaration to the end
of the function's text, an initial value is stored whenever control reaches the
declaration, and a variable without one keeps what it holds.

Loops and calls may go on forever, so runs take a bound. A result under some
bound is the result, and `Halt.outOfFuel` says only that the bound was too small.
That the bound matters in no other way is shown at the end of `Simulation`.
-/

namespace JasminGen

/-! ## Stores -/

/-- The variables of an activation, by name, and the world. Every name has a
value here; which of them are variables is for the scope to say. -/
structure Store where
  locals : String → Int32
  world : World

namespace Scope

/-- The value of a variable: the function's own, if it has one of the name. -/
def read (S : Scope) (st : Store) (x : String) : Int32 :=
  if (S.local? x).isSome = true then st.locals x else st.world.globals x

def write (S : Scope) (st : Store) (x : String) (v : Int32) : Store :=
  if (S.local? x).isSome = true then { st with locals := Function.update st.locals x v }
  else { st with world.globals := Function.update st.world.globals x v }

end Scope

/-! ## Expressions -/

/-- The value that an operand has. -/
def operandOf (r : Except Halt (Option Int32 × Store)) : Except Halt (Int32 × Store) :=
  r.map fun (v?, st) => (v?.getD 0, st)

def UnaryOp.apply : UnaryOp → Int32 → Int32
  | neg, v => -v
  | not, v => (v == 0).toInt32
  | increment, v => v + 1
  | decrement, v => v - 1

/-- Increments and decrements of a variable are stored in it. -/
def UnaryOp.update (S : Scope) (u : UnaryOp) (e : Expr) (v : Int32) (st : Store) : Store :=
  match u.step?, e.ident? with
  | some _, some x => S.write st x v
  | _, _ => st

/-- A binary operator on the value of its left operand, that of its right one,
and that of its left one again. -/
def BinaryOp.apply : BinaryOp → Int32 → Int32 → Int32 → Except Halt Int32
  | arith op, a, b, _ => op.apply a b
  | compare o, a, b, _ => .ok (o.holds (a - b)).toInt32
  | and, a, b, _ => .ok (a * b != 0).toInt32
  | or, a, b, a' => .ok (a + b + a' != 0).toInt32

mutual

/-- The value of an expression, if it has one, and the store after it. -/
def Expr.eval (S : Scope) (I : Interp) : Expr → Store → Except Halt (Option Int32 × Store)
  | .ident x, st => .ok (if S.type? x = some .int then some (S.read st x) else none, st)
  | .lit v, st => .ok (some v, st)
  | .paren e, st => e.eval S I st
  | .assign x e, st => do
    let (v, st) ← operandOf (e.eval S I st)
    return (none, S.write st x v)
  | .unary u e, st => do
    let (v, st) ← operandOf (e.eval S I st)
    return (some (u.apply v), u.update S e (u.apply v) st)
  | .binary op l r, st => do
    let (a, st) ← operandOf (l.eval S I st)
    let (b, st) ← operandOf (r.eval S I st)
    let v ← op.apply a b ((l.ident?.map (S.read st)).getD a)
    return (some v, st)
  | .call f es, st => do
    let (args, st) ← Expr.evalAll S I es st
    if f = S.print then
      return (none, { st with world.output := st.world.output ++ args })
    else
      let (v, w) ← I f args st.world
      return ((S.returns? f).bind (·.given v), { st with world := w })
  | .index _ _, _ => .error .noResult
  | .indexAssign _ _ _, _ => .error .noResult

/-- The values of arguments. -/
def Expr.evalAll (S : Scope) (I : Interp) : List Expr → Store → Except Halt (List Int32 × Store)
  | [], st => .ok ([], st)
  | e :: es, st => do
    let (v, st) ← operandOf (e.eval S I st)
    let (vs, st) ← Expr.evalAll S I es st
    return (v :: vs, st)

end

theorem Expr.eval_unary (S : Scope) (I : Interp) (u : UnaryOp) (e : Expr) (st : Store) :
    (Expr.unary u e).eval S I st = (operandOf (e.eval S I st) >>= fun result =>
      .ok (some (u.apply result.1), u.update S e (u.apply result.1) result.2)) := by
  rw [Expr.eval]
  rfl

theorem Expr.eval_binary (S : Scope) (I : Interp) (op : BinaryOp) (l r : Expr) (st : Store) :
    (Expr.binary op l r).eval S I st = (operandOf (l.eval S I st) >>= fun left =>
      operandOf (r.eval S I left.2) >>= fun right =>
        op.apply left.1 right.1 ((l.ident?.map (S.read right.2)).getD left.1) >>= fun v =>
          .ok (some v, right.2)) := by
  rw [Expr.eval]
  rfl

theorem Expr.eval_call (S : Scope) (I : Interp) (f : String) (es : List Expr) (st : Store) :
    (Expr.call f es).eval S I st = (Expr.evalAll S I es st >>= fun args =>
      if f = S.print then
        .ok (none, { args.2 with world.output := args.2.world.output ++ args.1 })
      else I f args.1 args.2.world >>= fun result =>
        .ok ((S.returns? f).bind (·.given result.1), { args.2 with world := result.2 })) := by
  rw [Expr.eval]
  rfl

/-! ## Statements -/

/-- How a statement ends: control goes on after it, or leaves the function. -/
inductive Signal where
  | done
  | returned (v? : Option Int32)

/-- Control goes on from a statement to what follows it, unless it has left. -/
def Signal.andThen (r : Except Halt (Signal × Store))
    (rest : Store → Except Halt (Signal × Store)) : Except Halt (Signal × Store) := do
  match ← r with
  | (.done, st) => rest st
  | (.returned v?, st) => return (.returned v?, st)

/-- Initial values are stored in the order of the declarations. -/
def Store.initialise (st : Store) : List VarDecl → Store
  | [] => st
  | d :: ds =>
    match d.init? with
    | some v => Store.initialise { st with locals := Function.update st.locals d.name v } ds
    | none => st.initialise ds

/-- A loop of at most so many rounds. The condition is tested before each. -/
def repeatWhile (cond : Store → Except Halt (Int32 × Store))
    (body : Store → Except Halt (Signal × Store)) : Nat → Store → Except Halt (Signal × Store)
  | 0, _ => .error .outOfFuel
  | n + 1, st => do
    let (v, st) ← cond st
    if v = 0 then return (.done, st)
    else Signal.andThen (body st) (repeatWhile cond body n)

mutual

def Stmt.exec (I : Interp) (n : Nat) (S : Scope) : Stmt → Store → Except Halt (Signal × Store)
  | .expr e, st => do
    let (_, st) ← e.eval S I st
    return (.done, st)
  | .block ds ss, st => Stmt.execAll I n (S.extend ds) ss (st.initialise ds)
  | .ifThen c s, st => do
    let (v, st) ← operandOf (c.eval S I st)
    if v = 0 then return (.done, st) else s.exec I n S st
  | .ifElse c s s', st => do
    let (v, st) ← operandOf (c.eval S I st)
    if v = 0 then s'.exec I n (S.extend s.declared) st else s.exec I n S st
  | .loop c s, st => repeatWhile (fun st => operandOf (c.eval S I st)) (s.exec I n S) n st
  | .ret none, st => .ok (.returned none, st)
  | .ret (some e), st => do
    let (v, st) ← operandOf (e.eval S I st)
    return (.returned (some v), st)

def Stmt.execAll (I : Interp) (n : Nat) (S : Scope) :
    List Stmt → Store → Except Halt (Signal × Store)
  | [], st => .ok (.done, st)
  | s :: ss, st =>
    Signal.andThen (s.exec I n S st) (Stmt.execAll I n (S.extend s.declared) ss)

end

/-! ## Functions -/

namespace FunDecl

/-- An activation begins with the arguments in the parameters, and zero
everywhere else. -/
def entry (f : FunDecl) (args : List Int32) (w : World) : Store where
  locals x := ((((f.arguments f.signature).map Variable.name).zip args).lookup x).getD 0
  world := w

/-- The call of a function. One that should return a value must not reach its
end. -/
def run (config : Config) (p : Program) (I : Interp) (n : Nat) (f : FunDecl) (args : List Int32)
    (w : World) : Except Halt (Option Int32 × World) := do
  let st := (f.entry args w).initialise f.locals
  match ← Stmt.execAll I n ((p.scope config f).extend f.locals) f.body st with
  | (.returned v?, st) => return (v?, st.world)
  | (.done, st) => if f.returns = .void then return (none, st.world) else .error .noResult

end FunDecl

/-- The call of a function of the program, by name, with `n` as the bound on the
depth of calls and on the rounds of each loop. -/
def Program.run (config : Config) (p : Program) :
    Nat → String → List Int32 → World → Except Halt (Option Int32 × World)
  | 0, _, _, _ => .error .outOfFuel
  | n + 1, g, args, w =>
    match p.functions.find? fun f => f.name == g with
    | some f =>
      f.run config p (fun g args w => (p.run config n g args w).map fun (v?, w) => (v?.getD 0, w))
        n args w
    | none => .error .noResult

/-- The functions of the program as what calls do. -/
def Program.interp (config : Config) (p : Program) (n : Nat) : Interp := fun g args w =>
  (p.run config n g args w).map fun (v?, w) => (v?.getD 0, w)

end JasminGen
