import JasminGen.Proofs.Accepts
import JasminGen.Proofs.Depth
import JasminGen.Proofs.Simulation

/-!
# Initial values

The fields of a class start at zero, and the static initialiser stores the values that
some of them were declared with. It is compiled like any other method: a store looks its
name up, and a lookup searches the frame before the class. So its stores reach the fields
only because the frame is emptied first, whatever variables were left in it.

`Variable.initialiser` says for one field which instructions there have to be, and
`World.initialise` what they do. `Initialises.code_eq` and `Machine.runs_initialisers`
carry both over to all fields, in the order of their declaration. Names of fields are
distinct, so no store undoes an earlier one (`World.globals_foldl_initialise`).
`staticInit_sets_initial_values` puts this together, for every context that has
initial values for scalars only and nothing in the archive.
-/

namespace JasminGen

/-! ## What declarations guarantee -/

namespace Attempt

variable {σ ε α β : Type} {P : σ → Prop}

/-- A property that `x` and every continuation of it keep, their sequence keeps. -/
theorem on_bind_keeps {x : Attempt σ ε α} {f : α → Attempt σ ε β} {s : σ}
    (hx : P s → P (x.on s).2) (hf : ∀ a t, P t → P ((f a).on t).2) :
    P s → P ((x >>= f).on s).2 :=
  on_bind_rel (R := fun s t => P s → P t) (fun h h' hs => h' (h hs)) hx hf

/-- What every round keeps, a walk over a list keeps, also one that fails midway. -/
theorem on_forM_keeps {f : α → Attempt σ ε PUnit} (hf : ∀ a s, P s → P ((f a).on s).2)
    (l : List α) (s : σ) : P s → P ((l.forM f).on s).2 := by
  induction l generalizing s with
  | nil => exact id
  | cons a l ih => exact on_bind_keeps (hf a s) fun _ => ih

end Attempt

theorem LowerM.scalarInits_declareField (d : VarDecl) (c : Context) (h : c.fields.ScalarInits) :
    ((declareField d.toVariable).on c).2.fields.ScalarInits := by
  cases hinsert : c.fields.insert? d.toVariable with
  | none =>
      rw [on_declareField_of_none hinsert]
      exact h
  | some fields =>
      rw [on_declareField_of_some hinsert]
      intro v hv
      rw [(Registry.insert?_eq_some_iff.mp hinsert).2, List.mem_append] at hv
      rcases hv with hv | hv
      · exact h v hv
      · cases List.mem_singleton.mp hv
        exact d.type_of_isSome_init

theorem LowerM.fields_declareFunction (s : Signature) (c : Context) :
    ((declareFunction s).on c).2.fields = c.fields := by
  cases hinsert : c.functions.insert? s with
  | none => rw [on_declareFunction_of_none hinsert]
  | some functions => rw [on_declareFunction_of_some hinsert]

/-- The declarations of a program give initial values to scalars only, even if one of
them is refused. -/
theorem Program.scalarInits_declare (p : Program) (c : Context) (h : c.fields.ScalarInits) :
    (p.declare.on c).2.fields.ScalarInits := by
  have hfunction (f : FunDecl) (c : Context) (hc : c.fields.ScalarInits) :
      ((LowerM.declareFunction f.signature).on c).2.fields.ScalarInits := by
    rw [LowerM.fields_declareFunction]
    exact hc
  refine Attempt.on_bind_keeps (P := fun c : Context => c.fields.ScalarInits) ?_ ?_ h
  · exact Attempt.on_forM_keeps LowerM.scalarInits_declareField _ c
  · exact fun _ => Attempt.on_forM_keeps hfunction _

/-! ## The code of the initialiser -/

/-- The instructions that give a field its initial value, if it has one. -/
def Variable.initialiser (config : Config) (v : Variable) : List Instr :=
  match v.init? with
  | some value => [.ldc value, .putstatic (config.className ++ "/" ++ v.name) "I"]
  | none => []

namespace Variable

variable {config : Config} {v : Variable} {value : Int32}

theorem initialiser_of_some (h : v.init? = some value) :
    v.initialiser config =
      [.ldc value, .putstatic (config.qualified v.name) DataType.int.descriptor] := by
  rw [initialiser, h]
  rfl

theorem initialiser_of_none (h : v.init? = none) : v.initialiser config = [] := by
  rw [initialiser, h]

end Variable

/-- Without variables in the frame, only a field can be stored to. -/
theorem Names.store_of_frame_empty {Γ : Names} (hframe : Γ.frame = .empty) {x : String} {i : Instr}
    (h : Γ.store x = .ok i) :
    i = .putstatic (Γ.config.qualified x) DataType.int.descriptor := by
  rcases store_eq_ok h with ⟨s, hs, -⟩ | ⟨-, hi⟩
  · obtain ⟨v, hv, -⟩ := resolve_eq_slot_iff.mp hs
    rw [hframe] at hv
    cases (Registry.locate?_eq_some_iff.mp hv).1
  · exact hi

theorem Initialises.code_eq {Γ : Names} (hframe : Γ.frame = .empty) {vs : List Variable}
    {k k' : Counters} {code : Code}
    (h : Initialises Γ (vs.filterMap fun v => v.init?.map (v.name, ·)) k code k') :
    code = (vs.flatMap (Variable.initialiser Γ.config)).map .instr := by
  -- over the fields, not the derivation: a field without a value leaves no trace in it
  induction vs generalizing k code with
  | nil =>
      cases h
      rfl
  | cons v vs ih =>
      rw [List.flatMap_cons, List.map_append]
      cases hv : v.init? with
      | none =>
          rw [List.filterMap_cons_none (by rw [hv]; rfl)] at h
          rw [Variable.initialiser_of_none hv]
          exact ih h
      | some value =>
          rw [List.filterMap_cons_some (by rw [hv]; rfl)] at h
          cases h with
          | cons hstore hrest =>
              rw [Variable.initialiser_of_some hv, ih hrest,
                Names.store_of_frame_empty hframe hstore]
              rfl

theorem Code.instrs_map (is : List Instr) : instrs (is.map .instr) = is :=
  List.filterMap_map.trans List.filterMap_some

namespace StaticInitialises

variable {c c' : Context} {m : Method}

theorem code_eq (h : StaticInitialises c (.some m) c') :
    m.code = Method.header "static" StaticInit.descriptor m.stackLimit m.localsLimit ++
      ((c.fields.entries.flatMap (Variable.initialiser c.config)).map .instr ++
        [.instr .vreturn] ++ Code.methodEnd) := by
  cases h with
  | some _ hstores =>
      have hcode := hstores.code_eq rfl
      rw [hcode]
      rfl

theorem instrs_eq (h : StaticInitialises c (.some m) c') :
    Code.instrs m.code =
      c.fields.entries.flatMap (Variable.initialiser c.config) ++ [.vreturn] := by
  rw [h.code_eq, Code.instrs_append, Code.instrs_append, Code.instrs_append, Code.instrs_map]
  exact List.append_nil _

theorem localsLimit_eq (h : StaticInitialises c (.some m) c') : m.localsLimit = 0 := by
  cases h with
  | some _ _ => rfl

/-- The initialiser empties the frame and leaves the meter as it was at the start. -/
theorem after_eq (h : StaticInitialises c (.some m) c') (hempty : c.meter.archived = []) :
    c' = { c with frame := .empty, meter := {} } := by
  have hlabels := h.labelled.1
  cases h with
  | @some stores k _ hstores =>
      have harchived : (c.fresh.withCounters k).meter.archived = [] :=
        hstores.archived.trans hempty
      rw [Context.limit_eq_of_archived harchived] at hlabels ⊢
      change k.labels = c.labels at hlabels
      rw [hlabels]
      rfl

end StaticInitialises

theorem StaticInit.initialised_eq_nil_iff {fields : Variables} :
    initialised fields = [] ↔ ∀ v ∈ fields.entries, v.init? = none := by
  simp [initialised, List.filterMap_eq_nil_iff]

/-! ## What the code does -/

namespace World

/-- The world after a field has been given its initial value, if it has one. -/
def initialise (w : World) (v : Variable) : World :=
  match v.init? with
  | some value => { w with globals := Function.update w.globals v.name value }
  | none => w

variable {v : Variable} {vs : List Variable}

theorem output_initialise (w : World) (v : Variable) : (w.initialise v).output = w.output := by
  unfold initialise
  split <;> rfl

theorem globals_initialise_self (w : World) (v : Variable) :
    (w.initialise v).globals v.name = v.init?.getD (w.globals v.name) := by
  cases hv : v.init? with
  | none =>
      rw [initialise, hv]
      rfl
  | some value =>
      rw [initialise, hv]
      exact Function.update_self ..

theorem globals_initialise_of_ne (w : World) {x : String} (h : x ≠ v.name) :
    (w.initialise v).globals x = w.globals x := by
  unfold initialise
  split
  · exact Function.update_of_ne h ..
  · rfl

theorem output_foldl_initialise (w : World) : (vs.foldl initialise w).output = w.output := by
  induction vs generalizing w with
  | nil => rfl
  | cons v vs ih => exact (ih _).trans (w.output_initialise v)

theorem globals_foldl_initialise_of_notMem (w : World) {x : String}
    (h : x ∉ vs.map Variable.name) : (vs.foldl initialise w).globals x = w.globals x := by
  induction vs generalizing w with
  | nil => rfl
  | cons v vs ih =>
      rw [List.map_cons, List.mem_cons, not_or] at h
      exact (ih _ h.2).trans (w.globals_initialise_of_ne h.1)

/-- Every field has its own name, so its value is not overwritten. -/
theorem globals_foldl_initialise (w : World) (hnodup : (vs.map Variable.name).Nodup)
    (hv : v ∈ vs) :
    (vs.foldl initialise w).globals v.name = v.init?.getD (w.globals v.name) := by
  induction vs generalizing w with
  | nil => cases hv
  | cons u vs ih =>
      rw [List.map_cons, List.nodup_cons] at hnodup
      rw [List.foldl_cons]
      rcases List.mem_cons.mp hv with rfl | hmem
      · rw [globals_foldl_initialise_of_notMem _ hnodup.1, globals_initialise_self]
      · have hne : v.name ≠ u.name := by
          intro heq
          exact hnodup.1 (heq ▸ List.mem_map_of_mem hmem)
        rw [ih _ hnodup.2 hmem, globals_initialise_of_ne w hne]

end World

namespace Machine

variable {M : Machine} {config : Config} {lo hi pos : Nat} {stack : List Cell}
  {slots : Nat → Int32}

theorem runs_initialiser (hcls : M.cls = config.className) {v : Variable}
    (h : Placed M.code lo hi pos ((v.initialiser config).map .instr)) (w : World) :
    M.Runs lo hi (.running ⟨pos, stack, slots⟩ w)
      (.running ⟨pos + (v.initialiser config).length, stack, slots⟩ (w.initialise v)) := by
  cases hv : v.init? with
  | none =>
      rw [Variable.initialiser_of_none hv, World.initialise, hv]
      exact .refl
  | some value =>
      rw [Variable.initialiser_of_some hv] at h ⊢
      rw [World.initialise, hv]
      refine (runs_instr h rfl).trans (runs_instr h.tail ?_)
      simp only [Instr.act, Cell.popInt, hcls, memberOf?_qualified]
      rfl

theorem runs_initialisers (hcls : M.cls = config.className) {vs : List Variable}
    (h : Placed M.code lo hi pos ((vs.flatMap (Variable.initialiser config)).map .instr))
    (w : World) :
    M.Runs lo hi (.running ⟨pos, stack, slots⟩ w)
      (.running ⟨pos + (vs.flatMap (Variable.initialiser config)).length, stack, slots⟩
        (vs.foldl World.initialise w)) := by
  induction vs generalizing pos w with
  | nil => exact .refl
  | cons v vs ih =>
      rw [List.flatMap_cons, List.map_append] at h
      obtain ⟨hfirst, hrest⟩ := h.append
      rw [List.length_map] at hrest
      rw [List.flatMap_cons, List.length_append, ← Nat.add_assoc]
      exact (runs_initialiser hcls hfirst w).trans (ih hrest _)

end Machine

/-- The method returns when every field has been given its initial value, whatever else the
class holds and whoever waits for it. -/
theorem StaticInitialises.runs {c c' : Context} {m : Method}
    (h : StaticInitialises c (.some m) c') {cls : ClassFile} (hcls : cls.name = c.config.className)
    (callers : List Activation) (w : World) :
    cls.Runs (.running ⟨m.code, .fresh []⟩ callers w)
      (.resume .none (c.fields.entries.foldl World.initialise w) callers) := by
  -- nothing is called, so the machine needs no functions to answer
  let M : Machine := ⟨cls.name, [], fun _ _ _ => .error .noResult, m.code⟩
  have hcode : M.code = _ := h.code_eq
  obtain ⟨hheader, hbody⟩ := (Placed.of_eq hcode).append
  obtain ⟨hstores, hreturn, -⟩ := hbody.append_append
  rw [List.length_map] at hreturn
  have hruns : M.Runs 0 M.code.length (.running (.fresh []) w)
      (.returned .none (c.fields.entries.foldl World.initialise w)) :=
    (M.runs_header hheader).trans
      ((M.runs_initialisers hcls hstores w).trans (M.runs_of_act hreturn rfl rfl))
  have hcalls : cls.Realises M.functions M.calls := fun s hs => absurd hs List.not_mem_nil
  exact hruns.lift rfl hcalls (by rintro ⟨⟩) callers

/-- **Static initialiser.** The declarations of a program, whether or not they succeed, give
initial values to scalars only. In every context of which this holds and whose archive is
empty, whatever variables and depths were left in it, the static initialiser is compiled
without failure. There is none, and the context stays as it is, just if no field has an
initial value. Otherwise its instructions push and store these values, in the order of the
fields' declarations, and then return; the limits are one value and no variable; and
afterwards the frame is empty and nothing is archived. Run on fields that are all zero, it
leaves every field with its initial value, or at zero if it has none. -/
theorem staticInit_sets_initial_values :
    (∀ (config : Config) (p : Program), (p.declare.on (.start config)).2.fields.ScalarInits)
    ∧ ∀ c : Context, c.fields.ScalarInits → c.meter.archived = [] →
      ∃ m? c', StaticInit.compile.on c = (.ok m?, c')
        ∧ (m? = none ↔ ∀ v ∈ c.fields.entries, v.init? = none)
        ∧ (m? = none → c' = c)
        ∧ ∀ m, m? = some m →
          Code.instrs m.code =
            c.fields.entries.flatMap (Variable.initialiser c.config) ++ [.vreturn]
          ∧ m.stackLimit = 1 ∧ m.localsLimit = 0
          ∧ c' = { c with frame := .empty, meter := {} } ∧ c'.meter.archived = []
          ∧ ∀ (cls : ClassFile) (output : List Int32), cls.name = c.config.className →
            ∃ w, cls.Runs (.running ⟨m.code, .fresh []⟩ [] ⟨fun _ => 0, output⟩) (.finished none w)
              ∧ w.output = output
              ∧ (∀ v ∈ c.fields.entries, w.globals v.name = v.init?.getD 0)
              ∧ ∀ x, x ∉ c.fields.entries.map Variable.name → w.globals x = 0 := by
  refine ⟨fun config p => p.scalarInits_declare _ (by rintro v ⟨⟩), fun c hscalar hempty => ?_⟩
  obtain ⟨m?, c', hcompile⟩ := StaticInit.succeeds_compile hscalar
  have hinit := StaticInit.staticInitialises_of_compile hcompile
  refine ⟨m?, c', hcompile, ?_, ?_, ?_⟩
  · rw [← StaticInit.initialised_eq_nil_iff]
    cases hinit with
    | none hnil => exact iff_of_true rfl hnil
    | some hne _ => exact iff_of_false (by rintro ⟨⟩) hne
  · rintro rfl
    cases hinit with
    | none _ => rfl
  · rintro m rfl
    have hafter := hinit.after_eq hempty
    refine ⟨hinit.instrs_eq, hinit.stackLimit_eq hempty, hinit.localsLimit_eq, hafter,
      by rw [hafter]; rfl, fun cls output hcls => ?_⟩
    exact ⟨_, hinit.runs hcls [] _, World.output_foldl_initialise _,
      fun v hv => World.globals_foldl_initialise _ c.fields.nodup_entries hv,
      fun x hx => World.globals_foldl_initialise_of_notMem _ hx⟩

/-- Four fields, two of them with initial values, and one of these hidden by a variable of
the frame that cannot even be assigned to. -/
def Context.hidden : Context :=
  let build : LowerM Unit := do
    [⟨"b", .init 2⟩, ⟨"skip", .plain⟩, ⟨"row", .array 3⟩, ⟨"a", .init (-1)⟩].forM
      fun d : VarDecl => LowerM.declareField d.toVariable
    let _ ← LowerM.declare ⟨"b", .intArray, none⟩
    LowerM.emit EmitM.push
  (build.on (.start {})).2

/-- The variable does not get in the way of the field. -/
theorem hidden_field_gets_initial_value :
    Context.hidden.toNames.store "b" = .error (.unsupported (.arrayAssignment "b"))
    ∧ Context.hidden.meter.current = 1
    ∧ ∃ m c', StaticInit.compile.on .hidden = (.ok (some m), c')
      ∧ Code.instrs m.code = [.ldc 2, .putstatic "Test/b" "I", .ldc (-1),
        .putstatic "Test/a" "I", .vreturn]
      ∧ m.stackLimit = 1 ∧ m.localsLimit = 0 ∧ c'.meter.archived = []
      ∧ ∃ w, ClassFile.Runs ⟨"Test", [], none, []⟩
          (.running ⟨m.code, .fresh []⟩ [] ⟨fun _ => 0, []⟩) (.finished none w)
        ∧ w.globals "b" = 2 ∧ w.globals "a" = -1 ∧ w.globals "skip" = 0 := by
  have hscalar : Context.hidden.fields.ScalarInits := by decide +kernel
  have hempty : Context.hidden.meter.archived = [] := by decide +kernel
  have hentries : Context.hidden.fields.entries =
      [⟨"b", .int, some 2⟩, ⟨"skip", .int, none⟩, ⟨"row", .intArray, none⟩,
        ⟨"a", .int, some (-1)⟩] := by decide +kernel
  obtain ⟨m?, c', hcompile, hnone, -, hsome⟩ :=
    staticInit_sets_initial_values.2 .hidden hscalar hempty
  rw [hentries] at hnone hsome
  cases m? with
  | none => exact absurd (hnone.mp rfl) (by decide)
  | some m =>
      obtain ⟨hinstrs, hstack, hlocals, -, harchived, hruns⟩ := hsome m rfl
      obtain ⟨w, hw, -, hvalues, -⟩ := hruns ⟨"Test", [], none, []⟩ [] (by decide +kernel)
      refine ⟨by decide +kernel, by decide +kernel, m, c', hcompile, ?_, hstack, hlocals, harchived,
        w, hw, hvalues ⟨"b", .int, some 2⟩ (by decide), hvalues ⟨"a", .int, some (-1)⟩ (by decide),
        hvalues ⟨"skip", .int, none⟩ (by decide)⟩
      exact hinstrs

end JasminGen
