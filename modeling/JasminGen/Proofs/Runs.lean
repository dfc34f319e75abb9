import JasminGen.Proofs.Scope

/-!
# Runs, whether they succeed or not

`Emits`, `Lowers` and `Compiles` describe the runs that succeed. A run that fails
leaves a context as well, and whoever goes on from there meets what it did before the
error. `Context.Keeps` says what no run of a lowering routine takes away or touches,
however it ends: only the counters advance, and only the frame grows. Lowering an
expression does not even touch the frame, and a call that is refused touches nothing
(`lowering_keeps_context`).

Every method is made in one way (`Method.make`), which fails only if its lines do. So
a method that fails has not been ended, and one that is made has been ended once.

`Program.runTo` is the part of a program's run before one of its functions. Statements
about every method of a run, also of one that fails later, are about what `runTo`
reaches.
-/

namespace JasminGen

/-! ## What every attempt keeps -/

namespace Attempt

variable {σ ε α β : Type} {R : σ → σ → Prop}

/-- From every state, the state that the attempt leaves stands in the relation,
whether it succeeds or not. -/
def Keeps (R : σ → σ → Prop) (x : Attempt σ ε α) : Prop := ∀ s, R s (x.on s).2

namespace Keeps

theorem pure [IsPreorder σ R] (a : α) : Keeps R (Pure.pure a : Attempt σ ε α) :=
  fun s => refl_of R s

theorem throw [IsPreorder σ R] (e : ε) : Keeps R (MonadExcept.throw e : Attempt σ ε α) :=
  fun s => refl_of R s

theorem liftM [IsPreorder σ R] (r : Except ε α) :
    Keeps R (MonadLiftT.monadLift r : Attempt σ ε α) := by
  intro s
  rw [on_liftM]
  exact refl_of R s

theorem bind [IsPreorder σ R] {x : Attempt σ ε α} {f : α → Attempt σ ε β} (hx : Keeps R x)
    (hf : ∀ a, Keeps R (f a)) : Keeps R (x >>= f) :=
  fun s => on_bind_rel (R := R) (trans_of R) (hx s) hf

theorem of_eq {x : Attempt σ ε α} (h : Keeps R x) {s t : σ} {r : Except ε α}
    (hx : x.on s = (r, t)) : R s t := by
  have ht := h s
  rwa [hx] at ht

end Keeps

end Attempt

/-- From `k` to `k'` labels were issued and the greatest depth rose, if anything;
nothing was archived. -/
structure Counters.Advances (k k' : Counters) : Prop where
  labels : k.labels ≤ k'.labels
  maximum : k.meter.maximum ≤ k'.meter.maximum
  archive : k'.meter.archive = k.meter.archive

instance : IsPreorder Counters Counters.Advances where
  refl _ := ⟨Nat.le_refl _, Int.le_refl _, rfl⟩
  trans _ _ _ h h' := ⟨Nat.le_trans h.labels h'.labels, Int.le_trans h.maximum h'.maximum,
    h'.archive.trans h.archive⟩

/-- From `c` to `c'` the counters advanced and variables were added to the frame;
nothing else has changed. -/
structure Context.Keeps (c c' : Context) : Prop where
  config : c'.config = c.config
  fields : c'.fields = c.fields
  functions : c'.functions = c.functions
  frame : c.frame.entries <+: c'.frame.entries
  counters : c.toCounters.Advances c'.toCounters

instance : IsPreorder Context Context.Keeps where
  refl _ := ⟨rfl, rfl, rfl, List.prefix_rfl, refl_of Counters.Advances _⟩
  trans _ _ _ h h' := ⟨h'.config.trans h.config, h'.fields.trans h.fields,
    h'.functions.trans h.functions, h.frame.trans h'.frame,
    trans_of Counters.Advances h.counters h'.counters⟩

open Attempt (Keeps)

namespace EmitM

theorem keeps_shift (d : Int) : Keeps Counters.Advances (shift d) :=
  fun k => ⟨Nat.le_refl _, k.meter.maximum_le_move d, rfl⟩

theorem keeps_push : Keeps Counters.Advances push := keeps_shift 1

theorem keeps_pop : Keeps Counters.Advances pop := keeps_shift (-1)

theorem keeps_freshLabel : Keeps Counters.Advances freshLabel :=
  fun _ => ⟨Nat.le_succ _, Int.le_refl _, rfl⟩

theorem keeps_truth : Keeps Counters.Advances truth :=
  keeps_freshLabel.bind fun _ => keeps_freshLabel.bind fun _ => .pure _

theorem keeps_compare (c : Comparison) : Keeps Counters.Advances (compare c) :=
  keeps_freshLabel.bind fun _ => keeps_freshLabel.bind fun _ => .pure _

theorem keeps_negate : Keeps Counters.Advances negate :=
  keeps_freshLabel.bind fun _ => keeps_freshLabel.bind fun _ => keeps_freshLabel.bind fun _ =>
    .pure _

theorem keeps_store (Γ : Names) (x : String) : Keeps Counters.Advances (store Γ x) :=
  Keeps.bind (.liftM _) fun _ => keeps_pop.bind fun _ => .pure _

theorem keeps_unary (Γ : Names) (op : UnaryOp) (e : Expr) :
    Keeps Counters.Advances (unary Γ op e) := by
  have hback : Keeps Counters.Advances (writeBack Γ e) := by
    rw [writeBack]
    split
    · exact keeps_push.bind fun _ => (keeps_store Γ _).bind fun _ => .pure _
    · exact .pure _
  have hstep (op : ArithOp) : Keeps Counters.Advances (step Γ op e) :=
    keeps_push.bind fun _ => keeps_pop.bind fun _ => hback.bind fun _ => .pure _
  cases op with
  | neg => exact .pure _
  | not => exact keeps_negate
  | increment => exact hstep .add
  | decrement => exact hstep .sub

theorem keeps_result (t : ReturnType) : Keeps Counters.Advances (result t) := by
  cases t with
  | int => exact keeps_push
  | void => exact .pure _

end EmitM

mutual

theorem Expr.keeps_lower (Γ : Names) : ∀ e : Expr, Keeps Counters.Advances (e.lower Γ)
  | .ident x => by
      rw [Expr.lower]
      refine .bind (.liftM _) fun i? => ?_
      cases i? with
      | none => exact .pure _
      | some i => exact EmitM.keeps_push.bind fun _ => .pure _
  | .lit v => by
      rw [Expr.lower]
      exact EmitM.keeps_push.bind fun _ => .pure _
  | .paren e => by
      rw [Expr.lower]
      exact e.keeps_lower Γ
  | .assign x e => by
      rw [Expr.lower]
      exact (e.keeps_lower Γ).bind fun _ => (EmitM.keeps_store Γ x).bind fun _ => .pure _
  | .unary op e => by
      rw [Expr.lower]
      exact (e.keeps_lower Γ).bind fun _ => (EmitM.keeps_unary Γ op e).bind fun _ => .pure _
  | .binary op l r => by
      have hl := l.keeps_lower Γ
      have hr := r.keeps_lower Γ
      cases op with
      | arith op =>
          rw [Expr.lower]
          exact hl.bind fun _ => hr.bind fun _ => EmitM.keeps_pop.bind fun _ => .pure _
      | compare c =>
          rw [Expr.lower]
          exact hl.bind fun _ => hr.bind fun _ => EmitM.keeps_pop.bind fun _ =>
            (EmitM.keeps_compare c).bind fun _ => .pure _
      | and =>
          rw [Expr.lower]
          exact hl.bind fun _ => hr.bind fun _ => EmitM.keeps_pop.bind fun _ =>
            EmitM.keeps_truth.bind fun _ => .pure _
      | or =>
          rw [Expr.lower]
          refine hl.bind fun _ => ?_
          split
          · exact hr.bind fun _ => EmitM.keeps_pop.bind fun _ =>
              EmitM.keeps_truth.bind fun _ => .pure _
          · exact EmitM.keeps_push.bind fun _ => hr.bind fun _ =>
              (EmitM.keeps_shift _).bind fun _ => EmitM.keeps_truth.bind fun _ => .pure _
  | .call f es => by
      rw [Expr.lower]
      exact .bind (.liftM _) fun _ => EmitM.keeps_push.bind fun _ =>
        (Expr.keeps_lowerAll Γ es).bind fun _ => (EmitM.keeps_shift _).bind fun _ =>
          (EmitM.keeps_result _).bind fun _ => .pure _
  | .index a e => by
      rw [Expr.lower]
      exact .throw _
  | .indexAssign a e v => by
      rw [Expr.lower]
      exact .throw _

theorem Expr.keeps_lowerAll (Γ : Names) :
    ∀ es : List Expr, Keeps Counters.Advances (Expr.lowerAll Γ es)
  | [] => by
      rw [Expr.lowerAll]
      exact .pure _
  | e :: es => by
      rw [Expr.lowerAll]
      exact (e.keeps_lower Γ).bind fun _ => (Expr.keeps_lowerAll Γ es).bind fun _ => .pure _

end

namespace LowerM

theorem keeps_emit {α : Type} {x : EmitM α} (h : Keeps Counters.Advances x) :
    Keeps Context.Keeps (emit x) :=
  fun c => ⟨rfl, rfl, rfl, List.prefix_rfl, h c.toCounters⟩

theorem keeps_freshLabel : Keeps Context.Keeps (emit EmitM.freshLabel) :=
  keeps_emit EmitM.keeps_freshLabel

theorem keeps_pop : Keeps Context.Keeps (emit EmitM.pop) := keeps_emit EmitM.keeps_pop

theorem keeps_names : Keeps Context.Keeps names := fun c => refl_of Context.Keeps c

theorem keeps_depth : Keeps Context.Keeps depth := fun c => refl_of Context.Keeps c

theorem keeps_declare (v : Variable) : Keeps Context.Keeps (declare v) := by
  intro c
  cases h : c.frame.insert? v with
  | none =>
      rw [on_declare_of_none h]
      exact refl_of Context.Keeps c
  | some frame =>
      rw [on_declare_of_some h]
      refine ⟨rfl, rfl, rfl, ?_, refl_of Counters.Advances _⟩
      rw [(Registry.insert?_eq_some_iff.mp h).2]
      exact List.prefix_append ..

theorem keeps_declareAll : ∀ vs : List Variable, Keeps Context.Keeps (declareAll vs)
  | [] => by
      rw [declareAll]
      exact .pure _
  | v :: vs => by
      rw [declareAll]
      exact (keeps_declare v).bind fun _ => keeps_declareAll vs

end LowerM

theorem Expr.keeps_lowerHere (e : Expr) : Keeps Context.Keeps e.lowerHere :=
  LowerM.keeps_names.bind fun Γ => LowerM.keeps_emit (e.keeps_lower Γ)

theorem VarDecl.keeps_lower (d : VarDecl) : Keeps Context.Keeps d.lower := by
  refine (LowerM.keeps_declare _).bind fun _ => ?_
  split
  · exact (LowerM.keeps_emit EmitM.keeps_push).bind fun _ =>
      (LowerM.keeps_emit EmitM.keeps_pop).bind fun _ => .pure _
  · exact .pure _

theorem VarDecl.keeps_lowerAll : ∀ ds : List VarDecl, Keeps Context.Keeps (VarDecl.lowerAll ds)
  | [] => by
      rw [VarDecl.lowerAll]
      exact .pure _
  | d :: ds => by
      rw [VarDecl.lowerAll]
      exact d.keeps_lower.bind fun _ => (VarDecl.keeps_lowerAll ds).bind fun _ => .pure _

mutual

theorem Stmt.keeps_lower : ∀ s : Stmt, Keeps Context.Keeps s.lower
  | .expr e => by
      rw [Stmt.lower]
      exact LowerM.keeps_depth.bind fun _ => e.keeps_lowerHere.bind fun _ =>
        LowerM.keeps_depth.bind fun _ => (LowerM.keeps_emit (EmitM.keeps_shift _)).bind fun _ =>
          .pure _
  | .block ds ss => by
      rw [Stmt.lower]
      exact (VarDecl.keeps_lowerAll ds).bind fun _ => (Stmt.keeps_lowerAll ss).bind fun _ => .pure _
  | .ifThen e s => by
      rw [Stmt.lower]
      exact e.keeps_lowerHere.bind fun _ => s.keeps_lower.bind fun _ =>
        LowerM.keeps_freshLabel.bind fun _ => LowerM.keeps_pop.bind fun _ => .pure _
  | .ifElse e s s' => by
      rw [Stmt.lower]
      exact e.keeps_lowerHere.bind fun _ => s.keeps_lower.bind fun _ => s'.keeps_lower.bind fun _ =>
        LowerM.keeps_freshLabel.bind fun _ => LowerM.keeps_freshLabel.bind fun _ =>
          LowerM.keeps_pop.bind fun _ => .pure _
  | .loop e s => by
      rw [Stmt.lower]
      exact e.keeps_lowerHere.bind fun _ => s.keeps_lower.bind fun _ =>
        LowerM.keeps_freshLabel.bind fun _ => LowerM.keeps_freshLabel.bind fun _ =>
          LowerM.keeps_pop.bind fun _ => .pure _
  | .ret none => by
      rw [Stmt.lower]
      exact .pure _
  | .ret (some e) => by
      rw [Stmt.lower]
      exact e.keeps_lowerHere.bind fun _ => LowerM.keeps_pop.bind fun _ => .pure _

theorem Stmt.keeps_lowerAll : ∀ ss : List Stmt, Keeps Context.Keeps (Stmt.lowerAll ss)
  | [] => by
      rw [Stmt.lowerAll]
      exact .pure _
  | s :: ss => by
      rw [Stmt.lowerAll]
      exact s.keeps_lower.bind fun _ => (Stmt.keeps_lowerAll ss).bind fun _ => .pure _

end

/-! ## What lowering a text may change -/

/-- Variables are only added behind the others, so each one stays where it is. -/
theorem Registry.locate?_of_isPrefix {α : Type} {nameOf : α → String} {r r' : Registry α nameOf}
    (h : r.entries <+: r'.entries) {x : String} {b : α × Nat} (hb : r.locate? x = some b) :
    r'.locate? x = some b := by
  obtain ⟨hi, hx⟩ := locate?_eq_some_iff.mp hb
  obtain ⟨added, hr'⟩ := h
  have hlt := (List.getElem?_eq_some_iff.mp hi).1
  refine locate?_eq_some_iff.mpr ⟨?_, hx⟩
  rw [← hr', List.getElem?_append_left hlt, hi]

namespace Names

variable {Γ : Names} {f : String}

theorem calleeFor_of_unknown (hprint : f ≠ Γ.config.printBuiltin)
    (hf : f ∉ Γ.functions.entries.map Signature.name) (n : Nat) :
    Γ.calleeFor f n = .error (.unknownFunction f) := by
  have hnone : Γ.functions.find? f = none := Registry.find?_eq_none_iff.mpr hf
  rw [calleeFor, callee, if_neg hprint, signature, hnone]
  rfl

theorem calleeFor_of_arity_ne {t : Callee} {n : Nat} (ht : Γ.callee f = .ok t) (hn : t.arity ≠ n) :
    Γ.calleeFor f n = .error (.argumentCount f t.arity n) := by
  rw [calleeFor, ht]
  exact if_neg hn

end Names

theorem Expr.on_lowerHere (e : Expr) (c : Context) :
    e.lowerHere.on c = (LowerM.emit (e.lower c.toNames)).on c := by
  rw [lowerHere, Attempt.on_bind, LowerM.on_names]

/-- The callee is looked at before anything is lowered. -/
theorem Expr.on_lowerHere_call {f : String} {es : List Expr} {c : Context} {e : LowerError}
    (h : c.toNames.calleeFor f es.length = .error e) :
    (Expr.call f es).lowerHere.on c = (.error e, c) := by
  have hlower : ((Expr.call f es).lower c.toNames).on c.toCounters = (.error e, c.toCounters) := by
    rw [Expr.lower, Attempt.on_bind, Attempt.on_liftM, h]
  rw [on_lowerHere]
  simp only [LowerM.on_emit, hlower]

/-- Lowering an expression, whether it succeeds or fails midway, leaves all names as they were,
archives nothing, and never lowers the greatest depth or the number of labels issued. The names
stay by the very type of `Expr.lower`, which reads them and changes counters only. A call of an
unknown function, or with a wrong number of arguments, leaves everything as it was. Lowering a
statement may also add variables to the frame, and every earlier one keeps its slot, type and
initial value. -/
theorem lowering_keeps_context :
    (∀ (e : Expr) (c : Context), (e.lowerHere.on c).2.toNames = c.toNames
      ∧ (e.lowerHere.on c).2.meter.archived = c.meter.archived
      ∧ c.meter.maximum ≤ (e.lowerHere.on c).2.meter.maximum
      ∧ c.labels ≤ (e.lowerHere.on c).2.labels)
    ∧ (∀ (f : String) (es : List Expr) (c : Context), f ≠ c.config.printBuiltin →
      f ∉ c.functions.entries.map Signature.name →
        (Expr.call f es).lowerHere.on c = (.error (.unknownFunction f), c))
    ∧ (∀ (f : String) (es : List Expr) (c : Context) (t : Callee), c.toNames.callee f = .ok t →
      t.arity ≠ es.length →
        (Expr.call f es).lowerHere.on c = (.error (.argumentCount f t.arity es.length), c))
    ∧ ∀ (s : Stmt) (c : Context), (s.lower.on c).2.config = c.config
      ∧ (s.lower.on c).2.fields = c.fields
      ∧ (s.lower.on c).2.functions = c.functions
      ∧ (s.lower.on c).2.meter.archived = c.meter.archived
      ∧ c.frame.entries <+: (s.lower.on c).2.frame.entries
      ∧ (∀ x b, c.frame.locate? x = some b → (s.lower.on c).2.frame.locate? x = some b)
      ∧ c.meter.maximum ≤ (s.lower.on c).2.meter.maximum
      ∧ c.labels ≤ (s.lower.on c).2.labels := by
  refine ⟨fun e c => ?_, fun f es c hprint hf => ?_, fun f es c t ht hn => ?_, fun s c => ?_⟩
  · have hcounters := (e.keeps_lowerHere c).counters
    exact ⟨rfl, congrArg Queue.toList hcounters.archive, hcounters.maximum, hcounters.labels⟩
  · exact Expr.on_lowerHere_call (Names.calleeFor_of_unknown hprint hf _)
  · exact Expr.on_lowerHere_call (Names.calleeFor_of_arity_ne ht hn)
  · have hkeeps := s.keeps_lower c
    exact ⟨hkeeps.config, hkeeps.fields, hkeeps.functions,
      congrArg Queue.toList hkeeps.counters.archive, hkeeps.frame,
      fun x b => Registry.locate?_of_isPrefix hkeeps.frame, hkeeps.counters.maximum,
      hkeeps.counters.labels⟩

theorem refused_texts_keep_context :
    (Expr.call "f" [.lit 1]).lowerHere.on (.start {}) =
      (.error (.unknownFunction "f"), .start {})
    ∧ (Expr.call "_print" []).lowerHere.on (.start {}) =
      (.error (.argumentCount "_print" 1 0), .start {})
    ∧ ∃ c : Context, c.frame.locate? "n" = some (⟨"n", .int, some 7⟩, 0)
      ∧ ((Stmt.block [⟨"m", .plain⟩, ⟨"n", .plain⟩] []).lower.on c).1 =
        .error (.duplicateBinding "n")
      ∧ ((Stmt.block [⟨"m", .plain⟩, ⟨"n", .plain⟩] []).lower.on c).2.frame.locate? "n" =
        some (⟨"n", .int, some 7⟩, 0) := by
  obtain ⟨-, hunknown, harity, hstmt⟩ := lowering_keeps_context
  refine ⟨hunknown _ _ _ (by decide) (by decide), harity _ _ _ Names.printRoutine rfl (by decide),
    ((VarDecl.lower ⟨"n", .init 7⟩).on (.start {})).2, ?_, ?_, ?_⟩
  · decide +kernel
  · decide +kernel
  · exact (hstmt _ _).2.2.2.2.2.1 _ _ (by decide +kernel)

/-! ## Methods

Both kinds of method are made in one way: the frame is emptied and the meter set to
zero, lines are lowered, and the method is ended and gets its header. Only the lines
differ. -/

def Method.make (access name descriptor : String) (lines : LowerM Code) : LowerM Method := do
  Method.begin
  let body ← lines
  let close ← closeMethod
  Method.finish access name descriptor (body ++ close)

/-- The lines of a function's method between its header and its end. -/
def FunDecl.lines (f : FunDecl) (s : Signature) : LowerM Code := do
  LowerM.declareAll (f.arguments s)
  let code ← (Stmt.block f.locals f.body).lower
  return code ++ f.ending s

theorem FunDecl.compile_eq (f : FunDecl) :
    f.compile = (do
      let s ← (← LowerM.names).signature f.name
      Method.make "public static" s.name s.descriptor (f.lines s)) := by
  simp only [compile, Method.make, lines, lowerClosed_eq, bind_assoc, pure_bind]

namespace StaticInit

def lines (inits : List (String × Int32)) : LowerM Code := do
  let stores ← LowerM.emit (lowerAll (← LowerM.names) inits)
  return stores ++ [.instr .vreturn]

theorem compile_eq :
    compile = (do
      let inits := initialised (← LowerM.names).fields
      if inits = [] then return none
      else some <$> Method.make "static" name descriptor (lines inits)) := by
  refine bind_congr fun Γ => ?_
  cases initialised Γ.fields with
  | nil => rfl
  | cons init inits =>
      simp only [Method.make, lines, map_eq_pure_bind, bind_assoc, pure_bind, reduceCtorEq,
        if_false]

end StaticInit

namespace Method

/-- Only the lines can fail, and then nothing has been ended. -/
theorem on_make (access name descriptor : String) (lines : LowerM Code) (c : Context) :
    (make access name descriptor lines).on c =
      match lines.on c.fresh with
      | (.ok body, b) =>
        (.ok { name, descriptor, stackLimit := b.limit.1, localsLimit := b.frame.size
               code := header access descriptor b.limit.1 b.frame.size ++
                 (body ++ Code.methodEnd) },
          { b with meter := b.limit.2 })
      | (.error e, b) => (.error e, b) := by
  change (lines >>= fun body => closeMethod >>= fun close =>
    finish access name descriptor (body ++ close)).on c.fresh = _
  rw [Attempt.on_bind]
  rcases lines.on c.fresh with ⟨_ | _, _⟩ <;> rfl

/-- Whether the method is made or not, no watermark is left behind. -/
theorem archived_make (access name descriptor : String) {lines : LowerM Code}
    (hlines : Keeps Context.Keeps lines) {c : Context} (h : c.meter.archived = []) :
    ((make access name descriptor lines).on c).2.meter.archived = [] := by
  rw [on_make]
  rcases hrun : lines.on c.fresh with ⟨e | body, b⟩
  all_goals
    have hb : b.meter.archived = [] :=
      (congrArg Queue.toList (hlines.of_eq hrun).counters.archive).trans h
  · exact hb
  · exact (Context.limit_of_archived hb).2

end Method

theorem FunDecl.keeps_lines (f : FunDecl) (s : Signature) : Keeps Context.Keeps (f.lines s) :=
  (LowerM.keeps_declareAll _).bind fun _ => (Stmt.keeps_lower _).bind fun _ => .pure _

theorem FunDecl.on_compile (f : FunDecl) (c : Context) :
    f.compile.on c =
      match c.toNames.signature f.name with
      | .ok s => (Method.make "public static" s.name s.descriptor (f.lines s)).on c
      | .error e => (.error e, c) := by
  rw [compile_eq]
  change Attempt.on (liftM (c.toNames.signature f.name) >>= _) c = _
  rw [Attempt.on_bind, Attempt.on_liftM]
  cases c.toNames.signature f.name <;> rfl

theorem FunDecl.archived_compile (f : FunDecl) {c : Context} (h : c.meter.archived = []) :
    (f.compile.on c).2.meter.archived = [] := by
  rw [on_compile]
  cases c.toNames.signature f.name with
  | error e => exact h
  | ok s => exact Method.archived_make _ _ _ (f.keeps_lines s) h

namespace StaticInit

theorem keeps_lines (inits : List (String × Int32)) : Keeps Context.Keeps (lines inits) := by
  have hstores (Γ : Names) : Keeps Counters.Advances (lowerAll Γ inits) := by
    induction inits with
    | nil => exact .pure _
    | cons init inits ih =>
        have hfirst : Keeps Counters.Advances (EmitM.initialise Γ init.1 init.2) :=
          EmitM.keeps_push.bind fun _ => (EmitM.keeps_store Γ _).bind fun _ => .pure _
        exact hfirst.bind fun _ => ih.bind fun _ => .pure _
  exact LowerM.keeps_names.bind fun Γ => (LowerM.keeps_emit (hstores Γ)).bind fun _ => .pure _

theorem on_compile (c : Context) :
    compile.on c =
      if initialised c.fields = [] then (.ok none, c)
      else (some <$> Method.make "static" name descriptor (lines (initialised c.fields))).on c := by
  rw [compile_eq]
  change Attempt.on (ite (initialised c.fields = []) (pure none) _) c = _
  split <;> rfl

theorem archived_compile {c : Context} (h : c.meter.archived = []) :
    (compile.on c).2.meter.archived = [] := by
  rw [on_compile]
  split
  · exact h
  · rw [Attempt.on_map]
    exact Method.archived_make _ _ _ (keeps_lines _) h

end StaticInit

/-! ## The stages of a program's run -/

namespace Program

/-- The program's run up to its `n`-th function: everything is declared, and the static
initialiser and the functions before that one are compiled. -/
def runTo (p : Program) (n : Nat) : LowerM (List Method) := do
  p.declare
  let _ ← StaticInit.compile
  (p.functions.take n).mapM FunDecl.compile

variable {config : Config} {p : Program}

theorem ready_of_runTo {n : Nat} {ms : List Method} {c : Context}
    (h : (p.runTo n).on (.start config) = (.ok ms, c)) : c.Ready config p := by
  obtain ⟨_, c₀, hdeclare, h⟩ := Attempt.on_bind_eq_ok.mp h
  obtain ⟨_, c₁, hstatic, hfunctions⟩ := Attempt.on_bind_eq_ok.mp h
  have hready := (declared_of_declare hdeclare).ready
  have hready₁ := (StaticInit.staticInitialises_of_compile hstatic).ready hready
  exact (FunDecl.compilesAll_of_mapM hfunctions).ready hready₁

/-- The run goes on with the function that it has come to. -/
theorem runTo_succ {n : Nat} {f : FunDecl} (hf : p.functions[n]? = some f) :
    p.runTo (n + 1) = do
      let before ← p.runTo n
      let m ← f.compile
      return before ++ [m] := by
  simp [runTo, List.take_add_one, hf, List.mapM_append]

/-- The run of the whole program passes through all its stages. -/
theorem exists_runTo {cls : ClassFile} (h : p.generate config = .ok cls) {n : Nat}
    {f : FunDecl} (hf : p.functions[n]? = some f) :
    ∃ c m c', (p.runTo n).on (.start config) = (.ok (cls.functions.take n), c)
      ∧ f.compile.on c = (.ok m, c') ∧ cls.functions[n]? = some m := by
  obtain ⟨hn, rfl⟩ := List.getElem?_eq_some_iff.mp hf
  have hrun : p.compile.on (.start config) = (.ok cls, (p.compile.on (.start config)).2) :=
    Prod.ext h rfl
  obtain ⟨_, c₀, hdeclare, hinit⟩ := Attempt.on_bind_eq_ok.mp hrun
  obtain ⟨staticInit, c₁, hstatic, hfuns⟩ := Attempt.on_bind_eq_ok.mp hinit
  obtain ⟨functions, c₂, hmap, hrest⟩ := Attempt.on_bind_eq_ok.mp hfuns
  cases (Prod.mk.inj hrest).1
  rw [← List.take_append_drop n p.functions, List.mapM_append, List.drop_eq_getElem_cons hn,
    List.mapM_cons] at hmap
  obtain ⟨before, c, hbefore, hmap⟩ := Attempt.on_bind_eq_ok.mp hmap
  obtain ⟨_, c₃, hafter, hmap⟩ := Attempt.on_bind_eq_ok.mp hmap
  obtain ⟨m, c', hm, hafter⟩ := Attempt.on_bind_eq_ok.mp hafter
  obtain ⟨after, c₄, hafter, hcons⟩ := Attempt.on_bind_eq_ok.mp hafter
  cases hcons
  cases hmap
  have hready := (StaticInit.staticInitialises_of_compile hstatic).ready
    (declared_of_declare hdeclare).ready
  have hlength : before.length = n := by
    rw [← ((FunDecl.compilesAll_of_mapM hbefore).forall₂ hready).length_eq, List.length_take,
      Nat.min_eq_left (Nat.le_of_lt hn)]
  refine ⟨c, m, c', ?_, hm, ?_⟩
  · have htake : (before ++ m :: after).take n = before := by rw [List.take_left' hlength]
    rw [htake]
    exact Attempt.on_bind_eq_ok.mpr
      ⟨_, c₀, hdeclare, Attempt.on_bind_eq_ok.mpr ⟨_, c₁, hstatic, hbefore⟩⟩
  · simp [← hlength]

end Program

end JasminGen
