import JasminGen.Proofs.Parallel

/-!
# Every method takes its own watermark

A method's header names its stack limit, but the limit is known only after the body.
Ending a method archives its watermark, writing the header takes the oldest archived
one, and if there is none a default is used. A `return` in last place ends the method
as well as the end of its function does, so watermarks could be archived twice or not
at all, and every later method would get its neighbour's limit.

`stackLimits_own` says that this does not happen. Between methods the archive is
empty, also after one that failed; every method archives once; and its limit is the
watermark of its own lines. So the default is never used: no program becomes anything
else when it is changed.
-/

namespace JasminGen

open Attempt (Keeps Matched Parallel)

/-! ## The limit of a method -/

/-- The method's limit is the watermark of its own lines. From where the method begins,
`lines` leads to a context in which nothing is archived; with its end the method has
archived this context's watermark and nothing else, and that is the limit. It is the
greatest depth of these lines, with nothing cut off. -/
def Method.OwnLimit (m : Method) (c : Context) (lines ended : LowerM Code) : Prop :=
  ∃ code code' b, lines.on c.fresh = (.ok code, b) ∧ ended.on c.fresh = (.ok code', b.close)
    ∧ b.meter.archived = [] ∧ b.close.meter.archived = [m.stackLimit]
    ∧ m.stackLimit = b.meter.watermark ∧ (m.stackLimit : Int) = b.meter.maximum

theorem Method.ownLimit_of_make {access name descriptor : String} {lines ended : LowerM Code}
    {c c' : Context} {m : Method} (hlines : Keeps Context.Keeps lines)
    (hended : ended = (do
      let code ← lines
      let close ← closeMethod
      return code ++ close))
    (h : (make access name descriptor lines).on c = (.ok m, c'))
    (harchived : c.meter.archived = []) : m.OwnLimit c lines ended := by
  rw [on_make] at h
  rcases hrun : lines.on c.fresh with ⟨e | code, b⟩
  · rw [hrun] at h
    cases h
  · rw [hrun] at h
    cases h
    have hcounters := (hlines.of_eq hrun).counters
    have hb : b.meter.archived = [] :=
      (congrArg Queue.toList hcounters.archive).trans harchived
    have hlimit := (Context.limit_of_archived hb).1
    -- the method began at depth zero
    have hnonneg : 0 ≤ b.meter.maximum := hcounters.maximum
    have hmaximum : (b.limit.1 : Int) = b.meter.maximum := by
      rw [hlimit]
      exact StackMeter.watermark_eq_maximum hnonneg
    refine ⟨code, code ++ Code.methodEnd, b, hrun, ?_, hb, ?_, hlimit, hmaximum⟩
    · rw [hended]
      exact Attempt.on_bind_eq_ok.mpr ⟨code, b, hrun, rfl⟩
    · change b.meter.close.archived = [b.limit.1]
      rw [StackMeter.archived_close, hb, hlimit, List.nil_append]

/-- The lines of a function's method with its end, as compiling the function lowers
them: the end may be that of a `return`. -/
def FunDecl.ended (f : FunDecl) (s : Signature) : LowerM Code := do
  LowerM.declareAll (f.arguments s)
  f.lowerClosed s

theorem FunDecl.ownLimit_of_compile {f : FunDecl} {c c' : Context} {m : Method}
    (h : f.compile.on c = (.ok m, c')) (harchived : c.meter.archived = []) :
    ∃ s, c.toNames.signature f.name = .ok s ∧ m.OwnLimit c (f.lines s) (f.ended s) := by
  rw [on_compile] at h
  cases hs : c.toNames.signature f.name with
  | error e => rw [hs] at h; cases h
  | ok s =>
      rw [hs] at h
      refine ⟨s, rfl, Method.ownLimit_of_make (f.keeps_lines s) ?_ h harchived⟩
      simp only [ended, lines, lowerClosed_eq, bind_assoc, pure_bind]

namespace StaticInit

def ended (inits : List (String × Int32)) : LowerM Code := do
  let stores ← LowerM.emit (lowerAll (← LowerM.names) inits)
  let close ← closeMethod
  return stores ++ [.instr .vreturn] ++ close

theorem ownLimit_of_compile {c c' : Context} {m : Method}
    (h : compile.on c = (.ok (some m), c')) (harchived : c.meter.archived = []) :
    m.OwnLimit c (lines (initialised c.fields)) (ended (initialised c.fields)) := by
  rw [on_compile] at h
  split at h
  · cases h
  · rw [Attempt.on_map] at h
    rcases hmake : (Method.make "static" name descriptor (lines (initialised c.fields))).on c with
      ⟨e | m', b⟩
    · rw [hmake] at h
      cases h
    · rw [hmake] at h
      cases h
      refine Method.ownLimit_of_make (keeps_lines _) ?_ hmake harchived
      simp only [ended, lines, bind_assoc, pure_bind]

end StaticInit

/-! ## Another default -/

/-- The same members were declared, in the same order. -/
structure Context.SameDeclared (c c' : Context) : Prop where
  fields : c'.fields = c.fields
  functions : c'.functions = c.functions

namespace LowerM

theorem parallel_declareField (v : Variable) :
    Parallel Context.SameDeclared Eq (declareField v) (declareField v) := by
  intro c c' hc
  refine Matched.of_option hc (fun fields => ?_)
    (fun h => ⟨on_declareField_of_none h, on_declareField_of_none (hc.fields ▸ h)⟩)
    (fun fields h => ⟨on_declareField_of_some h, on_declareField_of_some (hc.fields ▸ h)⟩)
  exact ⟨rfl, hc.functions⟩

theorem parallel_declareFunction (s : Signature) :
    Parallel Context.SameDeclared Eq (declareFunction s) (declareFunction s) := by
  intro c c' hc
  refine Matched.of_option hc (fun functions => ?_)
    (fun h => ⟨on_declareFunction_of_none h, on_declareFunction_of_none (hc.functions ▸ h)⟩)
    (fun functions h =>
      ⟨on_declareFunction_of_some h, on_declareFunction_of_some (hc.functions ▸ h)⟩)
  exact ⟨hc.fields, rfl⟩

end LowerM

namespace Program

variable {config : Config} {p : Program} {limit : Nat}

/-- Contexts between methods, in runs of one program with two default limits. -/
structure Twins (config : Config) (limit : Nat) (p : Program) (c c' : Context) : Prop where
  ready : c.Ready config p
  ready' : c'.Ready { config with defaultStackLimit := limit } p
  labels : c'.labels = c.labels

namespace Twins

variable {c c' : Context}

theorem fields_eq (h : Twins config limit p c c') : c'.fields = c.fields :=
  Registry.ext (h.ready'.fields.trans h.ready.fields.symm)

theorem apart (h : Twins config limit p c c') : c.Apart 0 c' where
  names :=
    { className := by rw [h.ready.config, h.ready'.config]
      printBuiltin := by rw [h.ready.config, h.ready'.config]
      fields := by rw [h.fields_eq]; exact fun _ => rfl
      functions := by
        rw [Registry.ext (h.ready'.functions.trans h.ready.functions.symm)]
        exact fun _ => rfl }
  labels := by rw [h.labels]; exact (Int.add_zero _).symm
  archive := (Queue.eq_empty h.ready'.archived).trans (Queue.eq_empty h.ready.archived).symm

end Twins

theorem matched_mapM : ∀ (fs : List FunDecl) {c c' : Context}, Twins config limit p c c' →
    Matched (fun _ _ => True) Eq (fs.mapM FunDecl.compile) c (fs.mapM FunDecl.compile) c'
  | [], _, _, _ => ⟨.ok rfl, trivial⟩
  | f :: fs, c, c', h => by
      rw [List.mapM_cons]
      refine (f.matched_compile h.apart).bind (fun _ => trivial) fun hm hm' hshifted hapart => ?_
      cases hshifted.eq_of_zero
      have htwins : Twins config limit p _ _ :=
        ⟨(FunDecl.compiles_of_compile hm).ready h.ready,
          (FunDecl.compiles_of_compile hm').ready h.ready', hapart.labels.eq_of_zero.symm⟩
      refine (matched_mapM fs htwins).bind id fun _ _ hms _ => ?_
      cases hms
      exact ⟨.ok rfl, trivial⟩

/-- The default stack limit decides nothing. -/
theorem generate_of_limit (p : Program) (config : Config) (limit : Nat) :
    p.generate { config with defaultStackLimit := limit } = p.generate config := by
  have hcompile : Matched (fun _ _ => True) Eq p.compile (.start config)
      p.compile (.start { config with defaultStackLimit := limit }) := by
    have hdeclare : Parallel Context.SameDeclared Eq p.declare p.declare :=
      (Parallel.forM (fun _ => LowerM.parallel_declareField _) _).bind_eq fun _ =>
        Parallel.forM (fun _ => LowerM.parallel_declareFunction _) _
    have hstart : (Context.start config).SameDeclared
        (.start { config with defaultStackLimit := limit }) := ⟨rfl, rfl⟩
    refine (hdeclare _ _ hstart).bind (fun _ => trivial) fun hc hc' _ _ => ?_
    have hdeclared := declared_of_declare hc
    have hdeclared' := declared_of_declare hc'
    have htwins : Twins config limit p _ _ :=
      ⟨hdeclared.ready, hdeclared'.ready,
        congrArg Counters.labels (hdeclared'.counters.trans hdeclared.counters.symm)⟩
    refine (StaticInit.matched_compile htwins.apart htwins.fields_eq).bind (fun _ => trivial)
      fun {m m' _ _} hm hm' hrel hapart => ?_
    have hstatic : m = m' := by
      cases hrel with
      | none => rfl
      | some h => rw [h.eq_of_zero]
    cases hstatic
    have htwins : Twins config limit p _ _ :=
      ⟨(StaticInit.staticInitialises_of_compile hm).ready htwins.ready,
        (StaticInit.staticInitialises_of_compile hm').ready htwins.ready',
        hapart.labels.eq_of_zero.symm⟩
    refine (matched_mapM p.functions htwins).bind id fun {ms _ c c'} hms hms' heq _ => ?_
    cases heq
    have hready := (FunDecl.compilesAll_of_mapM hms).ready htwins.ready
    have hready' := (FunDecl.compilesAll_of_mapM hms').ready htwins.ready'
    refine ⟨.ok ?_, trivial⟩
    rw [hready.config, hready'.config, hready.fields, hready'.fields]
  exact hcompile.ends.eq.symm

end Program

/-- In every run of `generate` the archive is empty before and after each method,
whether it is made or fails. Every method that is made archives once, and its limit is
the watermark of its own lines, which is their greatest depth. With another default
stack limit the result is the same, class or error. -/
theorem stackLimits_own (config : Config) (p : Program) :
    (∀ c, p.declare.on (.start config) = (.ok (), c) →
      c.meter.archived = [] ∧ (StaticInit.compile.on c).2.meter.archived = []
      ∧ ∀ m c', StaticInit.compile.on c = (.ok (some m), c') →
        m.OwnLimit c (StaticInit.lines (StaticInit.initialised c.fields))
          (StaticInit.ended (StaticInit.initialised c.fields)))
    ∧ (∀ n f ms c, p.functions[n]? = some f → (p.runTo n).on (.start config) = (.ok ms, c) →
      c.meter.archived = [] ∧ (f.compile.on c).2.meter.archived = []
      ∧ ∀ m c', f.compile.on c = (.ok m, c') →
        ∃ s, c.toNames.signature f.name = .ok s ∧ m.OwnLimit c (f.lines s) (f.ended s))
    ∧ ∀ limit, p.generate { config with defaultStackLimit := limit } = p.generate config := by
  refine ⟨fun c hc => ?_, fun n f ms c _ hc => ?_, p.generate_of_limit config⟩
  · have harchived := (Program.declared_of_declare hc).ready.archived
    exact ⟨harchived, StaticInit.archived_compile harchived,
      fun _ _ hm => StaticInit.ownLimit_of_compile hm harchived⟩
  · have harchived := (Program.ready_of_runTo hc).archived
    exact ⟨harchived, f.archived_compile harchived,
      fun _ _ hm => FunDecl.ownLimit_of_compile hm harchived⟩

theorem euclid_main_own_limit : ∃ f ms c m c' s, Program.euclid.functions[1]? = some f
    ∧ (Program.euclid.runTo 1).on (.start {}) = (.ok ms, c) ∧ f.compile.on c = (.ok m, c')
    ∧ c.toNames.signature f.name = .ok s ∧ m.OwnLimit c (f.lines s) (f.ended s) := by
  obtain ⟨cls, hcls⟩ := Program.exists_generate_euclid
  obtain ⟨c, m, c', hrun, hm, -⟩ := Program.exists_runTo hcls (n := 1) rfl
  obtain ⟨-, -, hlimits⟩ := (stackLimits_own {} Program.euclid).2.1 1 _ _ c rfl hrun
  obtain ⟨s, hs, hlimit⟩ := hlimits m c' hm
  exact ⟨_, _, c, m, c', s, rfl, hrun, hm, hs, hlimit⟩

end JasminGen
