import JasminGen.Proofs.Admissible
import JasminGen.Proofs.Symbol

/-!
# References

An instruction names a member of a class by text, and nothing looks at that text before
the class is loaded. Loads, stores and calls write it where they are lowered, headers and
field directives are written elsewhere, and all of them go back to the tables of
declarations. `references_resolve` says that they agree: what an instruction names is
there, under just that text, and there once.

`Line.Resolved` lists the lines that lowered expressions can have, with what they may
refer to, and `Line.Inner` adds the returns that statements have. Every method is a
header, inner lines and an end (`Generates.framed`), so whatever holds of inner lines
holds of classes.

For the calls more can be said. `FunDecl.calls` lists the callees of a function in the
order in which they are called, and the invocations in its method are those of the
callees, one by one.
-/

namespace JasminGen

/-! ## Lines -/

/-- Whether the instruction names a member of a class. -/
def Instr.isReference : Instr → Bool
  | getstatic _ _ => true
  | putstatic _ _ => true
  | invokestatic _ => true
  | invokevirtual _ => true
  | _ => false

theorem Instr.isReturn_of_isReference {i : Instr} (h : i.isReference = true) :
    i.isReturn = false := by
  cases i <;> first | rfl | cases h

namespace Line

/-- A label, or an instruction that neither names a member nor leaves the method. -/
def isPlain : Line → Bool
  | instr i => !i.isReference && !i.isReturn
  | label _ => true
  | directive _ => false
  | blank => false

/-- The lines that evaluate expressions of the program: those that name nothing, those of
the print routine, and those that name a scalar global or a function. -/
inductive Resolved (config : Config) (p : Program) : Line → Prop where
  | plain {line} : line.isPlain = true → Resolved config p line
  | stream : Resolved config p (.instr (.getstatic "java/lang/System/out" "Ljava/io/PrintStream;"))
  | print : Resolved config p (.instr (.invokevirtual "java/io/PrintStream/println(I)V"))
  | load {d} : d ∈ p.globals → d.type = .int →
      Resolved config p (.instr (.getstatic (config.qualified d.name) DataType.int.descriptor))
  | store {d} : d ∈ p.globals → d.type = .int →
      Resolved config p (.instr (.putstatic (config.qualified d.name) DataType.int.descriptor))
  | call {f} : f ∈ p.functions →
      Resolved config p (.instr (.invokestatic (config.qualified f.signature.descriptor)))

/-- The lines of statements: their expressions evaluate, and they may leave the method. -/
inductive Inner (config : Config) (p : Program) : Line → Prop where
  | eval {line} : line.Resolved config p → Inner config p line
  | ret {i} : i.isReturn = true → Inner config p (.instr i)

end Line

namespace Code

variable {config : Config} {p : Program} {c d : Code}

def Resolved (config : Config) (p : Program) (c : Code) : Prop := ∀ line ∈ c, line.Resolved config p

def Inner (config : Config) (p : Program) (c : Code) : Prop := ∀ line ∈ c, line.Inner config p

theorem Resolved.plain (h : c.all Line.isPlain = true) : Resolved config p c :=
  fun line hline => .plain (List.all_eq_true.mp h line hline)

theorem Resolved.append (hc : Resolved config p c) (hd : Resolved config p d) :
    Resolved config p (c ++ d) :=
  List.forall_mem_append.mpr ⟨hc, hd⟩

theorem Resolved.single {line : Line} (h : line.Resolved config p) : Resolved config p [line] :=
  List.forall_mem_singleton.mpr h

theorem Resolved.inner (hc : Resolved config p c) : Inner config p c :=
  fun line hline => .eval (hc line hline)

theorem Inner.plain (h : c.all Line.isPlain = true) : Inner config p c := (Resolved.plain h).inner

theorem Inner.append (hc : Inner config p c) (hd : Inner config p d) : Inner config p (c ++ d) :=
  List.forall_mem_append.mpr ⟨hc, hd⟩

theorem Inner.single {line : Line} (h : line.Inner config p) : Inner config p [line] :=
  List.forall_mem_singleton.mpr h

end Code

/-! ## Names of a program -/

/-- The names are those of the program, whatever is in the frame. -/
structure Names.Of (config : Config) (p : Program) (Γ : Names) : Prop where
  config : Γ.config = config
  fields : Γ.fields.entries = p.globals.map VarDecl.toVariable
  functions : Γ.functions.entries = p.functions.map FunDecl.signature

theorem Context.Ready.names {config : Config} {p : Program} {c : Context} (h : c.Ready config p)
    (frame : Variables) : (c.fresh.withFrame frame).toNames.Of config p :=
  ⟨h.config, h.fields, h.functions⟩

/-- Lowering adds to the frame only. -/
theorem Context.Grows.names {config : Config} {p : Program} {c c' : Context} {ds : List VarDecl}
    (h : c.Grows ds c') (hc : c.toNames.Of config p) : c'.toNames.Of config p where
  config := h.config.trans hc.config
  fields := (congrArg Registry.entries h.fields).trans hc.fields
  functions := (congrArg Registry.entries h.functions).trans hc.functions

/-- What a call of `g` invokes. -/
def Program.invocation? (config : Config) (p : Program) (g : String) : Option Instr :=
  if g = config.printBuiltin then some (.invokevirtual "java/io/PrintStream/println(I)V")
  else (p.functions.find? fun f => f.name == g).map fun f =>
    .invokestatic (config.qualified f.signature.descriptor)

namespace Names.Of

variable {config : Config} {p : Program} {Γ : Names} {x : String} {i : Instr}

theorem global_of_field (hΓ : Γ.Of config p) {t : DataType} (h : Γ.resolve x = .ok (.field t)) :
    ∃ d ∈ p.globals, d.name = x ∧ d.type = t := by
  obtain ⟨-, v, hv, htype⟩ := resolve_eq_field_iff.mp h
  obtain ⟨hmem, hname⟩ := Registry.find?_eq_some_iff.mp hv
  rw [hΓ.fields] at hmem
  obtain ⟨d, hd, rfl⟩ := List.mem_map.mp hmem
  exact ⟨d, hd, hname, htype⟩

theorem resolved_load (hΓ : Γ.Of config p) (h : Γ.load? x = .ok (some i)) :
    (Line.instr i).Resolved config p := by
  obtain ⟨s, -, rfl⟩ | ⟨hf, rfl⟩ := load?_eq_some h
  · exact .plain rfl
  · obtain ⟨d, hd, rfl, htype⟩ := hΓ.global_of_field hf
    rw [hΓ.config]
    exact .load hd htype

theorem resolved_store (hΓ : Γ.Of config p) (h : Γ.store x = .ok i) :
    (Line.instr i).Resolved config p := by
  obtain ⟨s, -, rfl⟩ | ⟨hf, rfl⟩ := store_eq_ok h
  · exact .plain rfl
  · obtain ⟨d, hd, rfl, htype⟩ := hΓ.global_of_field hf
    rw [hΓ.config]
    exact .store hd htype

/-- The function that a name denotes is the program's. -/
theorem find?_function (hΓ : Γ.Of config p) {g : String} {s : Signature}
    (h : Γ.functions.find? g = some s) :
    ∃ f, (p.functions.find? fun f => f.name == g) = some f ∧ f.signature = s := by
  rw [← Registry.find?_entries, hΓ.functions, List.find?_map, Option.map_eq_some_iff] at h
  simpa [Function.comp_def] using h

/-- A call runs what the program has under the callee's name. -/
theorem invocation_of_calleeFor (hΓ : Γ.Of config p) {g : String} {n : Nat} {t : Callee}
    (h : Γ.calleeFor g n = .ok t) : p.invocation? config g = some t.invoke := by
  obtain ⟨hprint, -, rfl⟩ | ⟨hprint, s, hs, -, rfl⟩ := calleeFor_eq_ok h
  · exact if_pos (hΓ.config ▸ hprint)
  · obtain ⟨f, hf, rfl⟩ := hΓ.find?_function hs
    rw [Program.invocation?, if_neg (hΓ.config ▸ hprint), hf, Option.map_some, Names.method,
      hΓ.config]

theorem resolved_call (hΓ : Γ.Of config p) {g : String} {n : Nat} {t : Callee}
    (h : Γ.calleeFor g n = .ok t) :
    Code.Resolved config p t.opening ∧ (Line.instr t.invoke).Resolved config p := by
  obtain ⟨-, -, rfl⟩ | ⟨-, s, hs, -, rfl⟩ := calleeFor_eq_ok h
  · exact ⟨.single .stream, .print⟩
  · obtain ⟨f, hf, rfl⟩ := hΓ.find?_function hs
    refine ⟨.plain rfl, ?_⟩
    rw [Names.method, hΓ.config]
    exact .call (List.mem_of_find?_eq_some hf)

end Names.Of

/-! ## Lowered code -/

mutual

/-- The code of an expression refers to members of the class and to the print routine
only. -/
theorem Emits.resolved {config : Config} {p : Program} {Γ : Names} (hΓ : Γ.Of config p) :
    ∀ {e : Expr} {k k' : Counters} {code : Code}, Emits Γ e k code k' → Code.Resolved config p code
  | _, _, _, _, .scalar hload => .single (hΓ.resolved_load hload)
  | _, _, _, _, .array _ => .plain rfl
  | _, _, _, _, .lit => .plain rfl
  | _, _, _, _, .paren h => h.resolved hΓ
  | _, _, _, _, .assign h hstore => (h.resolved hΓ).append (.single (hΓ.resolved_store hstore))
  | _, _, _, _, .neg h => (h.resolved hΓ).append (.plain rfl)
  | _, _, _, _, .not h => (h.resolved hΓ).append (.plain rfl)
  | _, _, _, _, .stepName _ h hstore =>
      (h.resolved hΓ).append (.append (c := [_, _, _]) (.plain rfl)
        (.single (hΓ.resolved_store hstore)))
  | _, _, _, _, .step _ _ h => (h.resolved hΓ).append (.plain rfl)
  | _, _, _, _, .arith hl hr => ((hl.resolved hΓ).append (hr.resolved hΓ)).append (.plain rfl)
  | _, _, _, _, .compare hl hr => ((hl.resolved hΓ).append (hr.resolved hΓ)).append (.plain rfl)
  | _, _, _, _, .and hl hr => ((hl.resolved hΓ).append (hr.resolved hΓ)).append (.plain rfl)
  | _, _, _, _, .orReload _ hl hr =>
      (((hl.resolved hΓ).append (hr.resolved hΓ)).append
        (.append (c := [_]) (.plain rfl) (hl.resolved hΓ))).append (.plain rfl)
  | _, _, _, _, .orDup _ hl hr =>
      ((hl.resolved hΓ).append (.append (c := [_]) (.plain rfl) (hr.resolved hΓ))).append
        (.plain rfl)
  | _, _, _, _, .call ht h => by
      obtain ⟨hopening, hinvoke⟩ := hΓ.resolved_call ht
      exact (hopening.append (h.resolved hΓ)).append (.single hinvoke)

theorem EmitsAll.resolved {config : Config} {p : Program} {Γ : Names} (hΓ : Γ.Of config p) :
    ∀ {es : List Expr} {k k' : Counters} {code : Code}, EmitsAll Γ es k code k' →
      Code.Resolved config p code
  | _, _, _, _, .nil => .plain rfl
  | _, _, _, _, .cons h hs => (h.resolved hΓ).append (hs.resolved hΓ)

end

theorem DeclaresAll.plain : ∀ {ds : List VarDecl} {c c' : Context} {code : Code},
    DeclaresAll ds c code c' → code.all Line.isPlain = true
  | _, _, _, _, .nil => rfl
  | _, _, _, _, .cons h hs => by
      rw [List.all_append, hs.plain, Bool.and_true]
      cases h with
      | bare => rfl
      | init => rfl

mutual

theorem Lowers.inner {config : Config} {p : Program} : ∀ {s : Stmt} {c c' : Context} {code : Code},
    Lowers s c code c' → c.toNames.Of config p → Code.Inner config p code
  | _, _, _, _, .expr h, hc =>
      (h.resolved hc).inner.append
        (.plain (by simp [Line.isPlain, Instr.isReference, Instr.isReturn]))
  | _, _, _, _, .block hds hss, hc =>
      (Code.Inner.plain hds.plain).append (hss.inner (hds.grows.names hc))
  | _, _, _, _, .ifThen he hs, hc =>
      ((he.resolved hc).inner.append (.append (c := [_]) (.plain rfl) (hs.inner hc))).append
        (.plain rfl)
  | _, _, _, _, .ifElse he hs hs', hc =>
      (((he.resolved hc).inner.append (.append (c := [_]) (.plain rfl) (hs.inner hc))).append
        (.append (c := [_, _]) (.plain rfl) (hs'.inner (hs.grows.names hc)))).append (.plain rfl)
  | _, _, _, _, .loop he hs, hc =>
      ((Code.Inner.append (c := [_]) (.plain rfl) (he.resolved hc).inner).append
        (.append (c := [_]) (.plain rfl) (hs.inner hc))).append (.plain rfl)
  | _, _, _, _, .retValue h, hc => (h.resolved hc).inner.append (.single (.ret rfl))
  | _, _, _, _, .retVoid, _ => .single (.ret rfl)

theorem LowersAll.inner {config : Config} {p : Program} :
    ∀ {ss : List Stmt} {c c' : Context} {code : Code}, LowersAll ss c code c' →
      c.toNames.Of config p → Code.Inner config p code
  | _, _, _, _, .nil, _ => .plain rfl
  | _, _, _, _, .cons h hs, hc => (h.inner hc).append (hs.inner (h.grows.names hc))

end

/-! ## Methods -/

/-- The method is a header that tells its limits, inner lines, and an end. -/
def Method.Framed (config : Config) (p : Program) (m : Method) : Prop :=
  ∃ access lines, m.code =
      Method.header access m.descriptor m.stackLimit m.localsLimit ++ (lines ++ Code.methodEnd)
    ∧ Code.Inner config p lines

theorem FunDecl.inner_ending {config : Config} {p : Program} (f : FunDecl) (s : Signature) :
    Code.Inner config p (f.ending s) := by
  unfold ending
  split
  · exact .plain rfl
  · split
    · exact .single (.ret rfl)
    · exact .plain rfl

theorem Compiles.framed {config : Config} {p : Program} {f : FunDecl} {c c' : Context} {m : Method}
    (h : Compiles f c m c') (hready : c.Ready config p) : m.Framed config p := by
  cases h with
  | @intro s frame decls c₁ lines c₂ hs hframe hdecls hlines =>
      have hc := hready.names frame
      refine ⟨_, _, rfl, ?_⟩
      exact ((Code.Inner.plain hdecls.plain).append (hlines.inner (hdecls.grows.names hc))).append
        (f.inner_ending s)

theorem Initialises.resolved {config : Config} {p : Program} {Γ : Names} (hΓ : Γ.Of config p) :
    ∀ {inits : List (String × Int32)} {k k' : Counters} {code : Code},
      Initialises Γ inits k code k' → Code.Resolved config p code
  | _, _, _, _, .nil => .plain rfl
  | _, _, _, _, .cons hstore hs =>
      (Code.Resolved.append (c := [_]) (.plain rfl) (.single (hΓ.resolved_store hstore))).append
        (hs.resolved hΓ)

theorem StaticInitialises.framed {config : Config} {p : Program} {c c' : Context}
    {m? : Option Method} (h : StaticInitialises c m? c') (hready : c.Ready config p) :
    ∀ m ∈ m?, m.Framed config p := by
  cases h with
  | none => exact fun m hm => absurd hm (Option.not_mem_none m)
  | some _ hstores =>
      rintro _ ⟨⟩
      exact ⟨_, _, rfl, (hstores.resolved (hready.names .empty)).inner.append (.single (.ret rfl))⟩

namespace Generates

variable {config : Config} {p : Program} {cls : ClassFile} {c₀ c₁ c₂ : Context}

theorem framed (h : Generates config p cls c₀ c₁ c₂) {m : Method} (hm : m ∈ cls.methods) :
    m.Framed config p := by
  obtain hinit | hfun := List.mem_append.mp hm
  · exact h.staticInit.framed h.declared.ready m (Option.mem_toList.mp hinit)
  · obtain ⟨f, -, c, c', hready, hcompiles⟩ := h.exists_function hfun
    exact hcompiles.framed hready

/-- Methods stand in the order of their functions, under the same names and with the
descriptors that the signatures have. -/
theorem symbols_eq (h : Generates config p cls c₀ c₁ c₂) :
    cls.functions.map (fun m => (m.name, m.descriptor)) =
      p.functions.map fun f => (f.name, f.signature.descriptor) := by
  refine List.ext_getElem (by simp [h.forall₂.length_eq]) fun n hn hn' => ?_
  rw [List.length_map] at hn hn'
  obtain ⟨c, c', hready, hcompiles⟩ :=
    h.compiles_at (List.getElem?_eq_getElem hn') (List.getElem?_eq_getElem hn)
  rw [List.getElem_map, List.getElem_map, hcompiles.name_eq,
    hcompiles.descriptor_eq hready (List.getElem_mem hn')]

/-- A descriptor tells the name, so no two methods have the same. -/
theorem nodup_descriptors (h : Generates config p cls c₀ c₁ c₂) :
    (cls.functions.map Method.descriptor).Nodup := by
  have hnames : (cls.functions.map Method.descriptor).map (fun d => (MethodSymbol.ofText d).name) =
      p.functions.map FunDecl.name := by
    have hsymbols := congrArg (List.map fun s => (MethodSymbol.ofText s.2).name) h.symbols_eq
    simpa [Function.comp_def, MethodSymbol.ofText_descriptor] using hsymbols
  exact List.Nodup.of_map _ (hnames ▸ h.nodup_names)

end Generates

/-! ## Call sites -/

mutual

/-- The callees of an expression in the order of the calls: arguments come first. -/
def Expr.calls : Expr → List String
  | .ident _ => []
  | .lit _ => []
  | .paren e => e.calls
  | .assign _ e => e.calls
  | .unary _ e => e.calls
  | .binary _ l r => l.calls ++ r.calls
  | .call g es => Expr.callsAll es ++ [g]
  | .index _ e => e.calls
  | .indexAssign _ e v => e.calls ++ v.calls

def Expr.callsAll : List Expr → List String
  | [] => []
  | e :: es => e.calls ++ Expr.callsAll es

end

def Item.calls : Item → List String
  | .declaration _ => []
  | .expression e => e.calls

/-- The callees of a function in text order. -/
def FunDecl.calls (f : FunDecl) : List String := f.items.flatMap Item.calls

def Line.invocation? : Line → Option Instr
  | .instr (.invokestatic m) => some (.invokestatic m)
  | .instr (.invokevirtual m) => some (.invokevirtual m)
  | _ => none

/-- The invocations of a code, in text order. -/
def Code.invocations (c : Code) : List Instr := c.filterMap Line.invocation?

theorem Line.invocation?_of_isPlain {line : Line} (h : line.isPlain = true) :
    line.invocation? = none := by
  cases line with
  | instr i => cases i <;> first | rfl | cases h
  | _ => rfl

theorem Item.flatMap_calls_map (ds : List VarDecl) :
    (ds.map Item.declaration).flatMap Item.calls = [] := by
  rw [List.flatMap_eq_nil_iff]
  intro i hi
  obtain ⟨d, -, rfl⟩ := List.mem_map.mp hi
  rfl

/-- The invocations of the code are, one by one, those that calls of `gs` make. -/
def Code.Invokes (config : Config) (p : Program) (gs : List String) (c : Code) : Prop :=
  (Code.invocations c).map some = gs.map (p.invocation? config)

namespace Code.Invokes

variable {config : Config} {p : Program} {gs hs : List String} {c d : Code}

theorem none (hc : ∀ line ∈ c, line.invocation? = .none) : Code.Invokes config p [] c := by
  rw [Invokes, Code.invocations, List.filterMap_eq_nil_iff.mpr hc]
  rfl

theorem plain (hc : c.all Line.isPlain = true) : Code.Invokes config p [] c :=
  .none fun line hline => Line.invocation?_of_isPlain (List.all_eq_true.mp hc line hline)

theorem append (hc : Code.Invokes config p gs c) (hd : Code.Invokes config p hs d) :
    Code.Invokes config p (gs ++ hs) (c ++ d) := by
  rw [Invokes, Code.invocations, List.filterMap_append, List.map_append, List.map_append]
  exact congrArg₂ _ hc hd

theorem append_none (hc : Code.Invokes config p gs c) (hd : Code.Invokes config p [] d) :
    Code.Invokes config p gs (c ++ d) := by
  have h := hc.append hd
  rwa [List.append_nil] at h

theorem none_append (hc : Code.Invokes config p [] c) (hd : Code.Invokes config p gs d) :
    Code.Invokes config p gs (c ++ d) :=
  hc.append hd

theorem cons {line : Line} (hline : line.isPlain = true) (hc : Code.Invokes config p gs c) :
    Code.Invokes config p gs (line :: c) :=
  none_append (c := [line]) (plain (List.all_eq_true.mpr (List.forall_mem_singleton.mpr hline))) hc

end Code.Invokes

namespace Names

variable {Γ : Names} {x : String} {i : Instr}

theorem invokes_of_load {config : Config} {p : Program} (h : Γ.load? x = .ok (some i)) :
    Code.Invokes config p [] [.instr i] := by
  obtain ⟨s, -, rfl⟩ | ⟨-, rfl⟩ := load?_eq_some h
  · exact .plain rfl
  · exact .none (List.forall_mem_singleton.mpr rfl)

theorem invokes_of_store {config : Config} {p : Program} (h : Γ.store x = .ok i) :
    Code.Invokes config p [] [.instr i] := by
  obtain ⟨s, -, rfl⟩ | ⟨-, rfl⟩ := store_eq_ok h
  · exact .plain rfl
  · exact .none (List.forall_mem_singleton.mpr rfl)

theorem Of.invokes_of_calleeFor {config : Config} {p : Program} (hΓ : Γ.Of config p) {g : String}
    {n : Nat} {t : Callee} (h : Γ.calleeFor g n = .ok t) :
    Code.Invokes config p [] t.opening ∧ Code.Invokes config p [g] [.instr t.invoke] := by
  have hinvoke := hΓ.invocation_of_calleeFor h
  obtain ⟨-, -, rfl⟩ | ⟨-, s, -, -, rfl⟩ := calleeFor_eq_ok h
  · exact ⟨.none (List.forall_mem_singleton.mpr rfl), congrArg ([·]) hinvoke.symm⟩
  · exact ⟨.plain rfl, congrArg ([·]) hinvoke.symm⟩

end Names

mutual

theorem Emits.invokes {config : Config} {p : Program} {Γ : Names} (hΓ : Γ.Of config p) :
    ∀ {e : Expr} {k k' : Counters} {code : Code}, Emits Γ e k code k' →
      Code.Invokes config p e.calls code
  | _, _, _, _, .scalar hload => Names.invokes_of_load hload
  | _, _, _, _, .array _ => .plain rfl
  | _, _, _, _, .lit => .plain rfl
  | _, _, _, _, .paren h => h.invokes hΓ
  | _, _, _, _, .assign h hstore => (h.invokes hΓ).append_none (Names.invokes_of_store hstore)
  | _, _, _, _, .neg h => (h.invokes hΓ).append_none (.plain rfl)
  | _, _, _, _, .not h => (h.invokes hΓ).append_none (.plain rfl)
  | _, _, _, _, .stepName _ h hstore =>
      (h.invokes hΓ).append_none
        (.cons rfl (.cons rfl (.cons rfl (Names.invokes_of_store hstore))))
  | _, _, _, _, .step _ _ h => (h.invokes hΓ).append_none (.plain rfl)
  | _, _, _, _, .arith hl hr => ((hl.invokes hΓ).append (hr.invokes hΓ)).append_none (.plain rfl)
  | _, _, _, _, .compare hl hr => ((hl.invokes hΓ).append (hr.invokes hΓ)).append_none (.plain rfl)
  | _, _, _, _, .and hl hr => ((hl.invokes hΓ).append (hr.invokes hΓ)).append_none (.plain rfl)
  | _, _, _, _, @Emits.orReload _ l _ _ _ _ _ _ hleaf hl hr => by
      -- the left operand is read again, but a leaf calls nothing
      have hcalls : l.calls = [] := by
        cases l <;> first | rfl | cases hleaf
      have hagain := hl.invokes hΓ
      rw [hcalls] at hagain
      exact (((hl.invokes hΓ).append (hr.invokes hΓ)).append_none (.cons rfl hagain)).append_none
        (.plain rfl)
  | _, _, _, _, .orDup _ hl hr =>
      ((hl.invokes hΓ).append (.cons rfl (hr.invokes hΓ))).append_none (.plain rfl)
  | _, _, _, _, .call ht h => by
      obtain ⟨hopening, hinvoke⟩ := hΓ.invokes_of_calleeFor ht
      exact (hopening.append (h.invokes hΓ)).append hinvoke

theorem EmitsAll.invokes {config : Config} {p : Program} {Γ : Names} (hΓ : Γ.Of config p) :
    ∀ {es : List Expr} {k k' : Counters} {code : Code}, EmitsAll Γ es k code k' →
      Code.Invokes config p (Expr.callsAll es) code
  | _, _, _, _, .nil => .plain rfl
  | _, _, _, _, .cons h hs => (h.invokes hΓ).append (hs.invokes hΓ)

end

mutual

theorem Lowers.invokes {config : Config} {p : Program} :
    ∀ {s : Stmt} {c c' : Context} {code : Code}, Lowers s c code c' → c.toNames.Of config p →
      Code.Invokes config p (s.items.flatMap Item.calls) code
  | .expr e, _, _, _, .expr h, hc => by
      rw [Stmt.items, List.flatMap_singleton]
      exact (h.invokes hc).append_none (.none (by simp [Line.invocation?]))
  | .block ds ss, _, _, _, .block hds hss, hc => by
      rw [Stmt.items, List.flatMap_append, Item.flatMap_calls_map]
      exact (Code.Invokes.plain hds.plain).append (hss.invokes (hds.grows.names hc))
  | .ifThen e s, _, _, _, .ifThen he hs, hc => by
      rw [Stmt.items, List.flatMap_cons]
      exact ((he.invokes hc).append (.cons rfl (hs.invokes hc))).append_none (.plain rfl)
  | .ifElse e s s', _, _, _, .ifElse he hs hs', hc => by
      rw [Stmt.items, List.flatMap_cons, List.flatMap_append, ← List.append_assoc]
      exact (((he.invokes hc).append (.cons rfl (hs.invokes hc))).append
        (.cons rfl (.cons rfl (hs'.invokes (hs.grows.names hc))))).append_none (.plain rfl)
  | .loop e s, _, _, _, .loop he hs, hc => by
      rw [Stmt.items, List.flatMap_cons]
      exact ((Code.Invokes.cons rfl (he.invokes hc)).append
        (.cons rfl (hs.invokes hc))).append_none (.plain rfl)
  | .ret (some e), _, _, _, .retValue h, hc => by
      rw [Stmt.items, List.flatMap_singleton]
      exact (h.invokes hc).append_none (.none (List.forall_mem_singleton.mpr rfl))
  | .ret none, _, _, _, .retVoid, _ => .none (List.forall_mem_singleton.mpr rfl)

theorem LowersAll.invokes {config : Config} {p : Program} :
    ∀ {ss : List Stmt} {c c' : Context} {code : Code}, LowersAll ss c code c' →
      c.toNames.Of config p → Code.Invokes config p ((Stmt.itemsAll ss).flatMap Item.calls) code
  | _, _, _, _, .nil, _ => .plain rfl
  | s :: ss, _, _, _, .cons h hs, hc => by
      rw [Stmt.itemsAll, List.flatMap_append]
      exact (h.invokes hc).append (hs.invokes (h.grows.names hc))

end

theorem Compiles.invokes {config : Config} {p : Program} {f : FunDecl} {c c' : Context} {m : Method}
    (h : Compiles f c m c') (hready : c.Ready config p) : Code.Invokes config p f.calls m.code := by
  cases h with
  | @intro s frame decls c₁ lines c₂ hs hframe hdecls hlines =>
      have hc := hready.names frame
      have hending : Code.Invokes config p [] (f.ending s) := by
        unfold FunDecl.ending
        split
        · exact .plain rfl
        · split
          · exact .none (List.forall_mem_singleton.mpr rfl)
          · exact .plain rfl
      have hbody := (Code.Invokes.plain hdecls.plain).append
        (hlines.invokes (hdecls.grows.names hc))
      rw [FunDecl.calls, FunDecl.items, List.flatMap_append, Item.flatMap_calls_map]
      exact Code.Invokes.none_append (.none (by simp [Method.header, Line.invocation?]))
        ((hbody.append_none hending).append_none
          (.none (by simp [Code.methodEnd, Line.invocation?])))

/-! ## Classes -/

namespace ClassFile

/-- The text of the class has the line. -/
def HasLine (cls : ClassFile) (line : String) : Prop :=
  ∃ before after, cls.text = before ++ "\n" ++ line ++ "\n" ++ after

/-- What a call of `g` has to invoke, by the methods that the class has. -/
def invocation? (config : Config) (cls : ClassFile) (g : String) : Option Instr :=
  if g = config.printBuiltin then some (.invokevirtual "java/io/PrintStream/println(I)V")
  else (cls.function? g).map fun m => .invokestatic (config.qualified m.descriptor)

/-- What stands before a field directive ends a line. -/
theorem exists_newline (cls : ClassFile) (vs : List Variable) :
    ∃ before, cls.head ++ String.join (vs.map fieldText) = before ++ "\n" := by
  obtain rfl | ⟨vs, v, rfl⟩ := vs.eq_nil_or_concat'
  · refine ⟨".class public " ++ cls.name ++ "\n.super java/lang/Object", ?_⟩
    have hlast : "\n.super java/lang/Object\n" = "\n.super java/lang/Object" ++ "\n" := rfl
    unfold head
    rw [List.map_nil, String.join_nil, String.append_empty, hlast, ← String.append_assoc]
  · refine ⟨cls.head ++ String.join (vs.map fieldText) ++
      (".field public static " ++ v.name ++ " " ++ v.type.descriptor), ?_⟩
    rw [List.map_append, String.join_append, List.map_singleton, String.join_cons, String.join_nil,
      String.append_empty]
    unfold fieldText
    simp only [String.append_assoc]

theorem hasLine_of_field {cls : ClassFile} {v : Variable} (hv : v ∈ cls.fields) :
    cls.HasLine (".field public static " ++ v.name ++ " " ++ v.type.descriptor) := by
  obtain ⟨front, back, hsplit⟩ := List.append_of_mem hv
  obtain ⟨before, hbefore⟩ := cls.exists_newline front
  refine ⟨before, String.join (back.map fieldText) ++ constructorText ++
    String.join (cls.methods.map fun m => m.code.text), ?_⟩
  rw [← hbefore, text, hsplit, List.map_append, String.join_append, List.map_cons, String.join_cons]
  unfold fieldText
  simp only [String.append_assoc]

end ClassFile

theorem Generates.invocation?_eq {config : Config} {p : Program} {cls : ClassFile}
    {c₀ c₁ c₂ : Context} (h : Generates config p cls c₀ c₁ c₂) (g : String) :
    cls.invocation? config g = p.invocation? config g := by
  have hfind : (cls.function? g).map Method.descriptor =
      (p.functions.find? fun f => f.name == g).map fun f => f.signature.descriptor := by
    have hsymbols := congrArg (fun l => (l.find? fun s => s.1 == g).map Prod.snd) h.symbols_eq
    simpa [List.find?_map, Function.comp_def, ClassFile.function?] using hsymbols
  have hmap := congrArg (Option.map fun d => Instr.invokestatic (config.qualified d)) hfind
  rw [Option.map_map, Option.map_map] at hmap
  rw [ClassFile.invocation?, Program.invocation?]
  split
  · rfl
  · exact hmap

/-- The reference is to a scalar global of the program, and the text of the class declares
the field that it names. -/
def ClassFile.DeclaresScalar (config : Config) (p : Program) (cls : ClassFile)
    (field descriptor : String) : Prop :=
  ∃ d ∈ p.globals, d.type = .int ∧ field = config.qualified d.name ∧ descriptor = "I"
    ∧ cls.HasLine (".field public static " ++ d.name ++ " I")

namespace Generates

variable {config : Config} {p : Program} {cls : ClassFile} {c₀ c₁ c₂ : Context}

/-- A reference in a method is to one of the things that a line may refer to. -/
theorem resolved_of_mem (h : Generates config p cls c₀ c₁ c₂) {m : Method} (hm : m ∈ cls.methods)
    {i : Instr} (hi : .instr i ∈ m.code) (href : i.isReference = true) :
    (Line.instr i).Resolved config p := by
  obtain ⟨access, lines, hcode, hinner⟩ := h.framed hm
  have hline : .instr i ∈ lines := by
    rw [hcode] at hi
    simpa [Method.header, Code.methodEnd] using hi
  cases hinner _ hline with
  | eval hresolved => exact hresolved
  | ret hret => exact absurd hret (by simp [Instr.isReturn_of_isReference href])

theorem declaresScalar (h : Generates config p cls c₀ c₁ c₂) {d : VarDecl} (hd : d ∈ p.globals)
    (htype : d.type = .int) :
    cls.DeclaresScalar config p (config.qualified d.name) DataType.int.descriptor := by
  refine ⟨d, hd, htype, rfl, rfl, ?_⟩
  have hready := h.functions.ready (h.staticInit.ready h.declared.ready)
  have hfield : d.toVariable ∈ cls.fields := by
    rw [h.fields, hready.fields]
    exact List.mem_map_of_mem hd
  have hline := ClassFile.hasLine_of_field hfield
  change cls.HasLine (".field public static " ++ d.name ++ " " ++ d.type.descriptor) at hline
  rw [htype, String.append_assoc] at hline
  exact hline

end Generates

/-- **References.** In every generated class, a static call names a method that the class
has, and has once; a field that is read is the standard output stream or, like every field
that is written, a scalar global for which the text has a field directive; and the only
virtual call is that of the print routine. The methods stand in the order of the
functions. The calls that a function makes are, in text order, the invocations in its
method, each with the descriptor of the method of that name. -/
theorem references_resolve {config : Config} {p : Program} {cls : ClassFile}
    (h : p.generate config = .ok cls) :
    (∀ m ∈ cls.methods,
      (∀ t, .instr (.invokestatic t) ∈ m.code →
        ∃ d, t = config.qualified d ∧ (cls.functions.map Method.descriptor).count d = 1)
      ∧ (∀ x d, .instr (.getstatic x d) ∈ m.code →
        (x = "java/lang/System/out" ∧ d = "Ljava/io/PrintStream;")
          ∨ cls.DeclaresScalar config p x d)
      ∧ (∀ x d, .instr (.putstatic x d) ∈ m.code → cls.DeclaresScalar config p x d)
      ∧ (∀ t, .instr (.invokevirtual t) ∈ m.code → t = "java/io/PrintStream/println(I)V"))
    ∧ cls.functions.map (fun m => (m.name, m.descriptor)) =
        p.functions.map (fun f => (f.name, f.signature.descriptor))
    ∧ ∀ (n : Nat) (f : FunDecl) (m : Method), p.functions[n]? = some f →
      cls.functions[n]? = some m →
        (Code.invocations m.code).map some = f.calls.map (cls.invocation? config) := by
  obtain ⟨c₀, c₁, c₂, hgen⟩ := Program.generates h
  refine ⟨fun m hm => ⟨fun t ht => ?_, fun x d hx => ?_, fun x d hx => ?_, fun t ht => ?_⟩,
    hgen.symbols_eq, fun n f m hf hm => ?_⟩
  · cases hgen.resolved_of_mem hm ht rfl with
    | plain hplain => cases hplain
    | @call f hf =>
        have hdescriptor : f.signature.descriptor ∈ cls.functions.map Method.descriptor := by
          have hsymbols := congrArg (List.map Prod.snd) hgen.symbols_eq
          rw [List.map_map, List.map_map] at hsymbols
          rw [show Method.descriptor = Prod.snd ∘ fun m : Method => (m.name, m.descriptor) from rfl,
            hsymbols]
          exact List.mem_map_of_mem hf
        exact ⟨_, rfl, List.count_eq_one_of_mem hgen.nodup_descriptors hdescriptor⟩
  · cases hgen.resolved_of_mem hm hx rfl with
    | plain hplain => cases hplain
    | stream => exact .inl ⟨rfl, rfl⟩
    | load hd htype => exact .inr (hgen.declaresScalar hd htype)
  · cases hgen.resolved_of_mem hm hx rfl with
    | plain hplain => cases hplain
    | store hd htype => exact hgen.declaresScalar hd htype
  · cases hgen.resolved_of_mem hm ht rfl with
    | plain hplain => cases hplain
    | print => rfl
  · obtain ⟨c, c', hready, hcompiles⟩ := hgen.compiles_at hf hm
    rw [funext hgen.invocation?_eq]
    exact hcompiles.invokes hready

/-- In Euclid's program the entry point calls `gcd` and then prints. -/
theorem euclid_references_resolve : ∃ cls m, Program.euclid.generate {} = .ok cls
    ∧ cls.functions.map (fun m => (m.name, m.descriptor)) =
        [("gcd", "gcd(II)I"), ("main", "main([Ljava/lang/String;)V")]
    ∧ cls.functions[1]? = some m
    ∧ (Code.invocations m.code).map some = ["gcd", "_print"].map (cls.invocation? {}) := by
  obtain ⟨cls, hcls⟩ := Program.exists_generate_euclid
  obtain ⟨-, hsymbols, hcalls⟩ := references_resolve hcls
  have hlength : cls.functions.length = 2 := by
    have h := congrArg List.length hsymbols
    rwa [List.length_map, List.length_map] at h
  have hm : cls.functions[1]? = some cls.functions[1] := List.getElem?_eq_getElem _
  exact ⟨cls, _, hcls, hsymbols, hm, hcalls 1 _ _ rfl hm⟩

/-- **Descriptors.** A descriptor tells the name, the parameter types and the return type of
the signature that it was written from, whatever characters the name has, and no descriptor
but its own is that of the entry point. So the methods of a generated class have pairwise
distinct descriptors. -/
theorem descriptors_tell_signatures :
    (∀ (f g : String) (ps qs : List DataType) (t u : ReturnType),
      (Signature.plain f ps t).descriptor = (Signature.plain g qs u).descriptor →
        f = g ∧ ps = qs ∧ t = u)
    ∧ (∀ (f : String) (ps : List DataType) (t : ReturnType),
      (Signature.plain f ps t).descriptor ≠ Signature.entryPoint.descriptor)
    ∧ ∀ (config : Config) (p : Program) (cls : ClassFile), p.generate config = .ok cls →
      (cls.functions.map Method.descriptor).Nodup := by
  refine ⟨fun f g ps qs t u h => ?_, fun f ps t h => ?_, fun config p cls h => ?_⟩
  · exact Signature.plain.inj (Signature.eq_of_descriptor_eq h)
  · cases Signature.eq_of_descriptor_eq h
  · obtain ⟨c₀, c₁, c₂, hgen⟩ := Program.generates h
    exact hgen.nodup_descriptors

/-- A name may itself end in what looks like a descriptor. -/
theorem nested_descriptor_read_from_its_end :
    (Signature.plain "f(I)V" [.intArray, .int] .int).descriptor = "f(I)V([II)I"
    ∧ (∀ g qs u, (Signature.plain g qs u).descriptor = "f(I)V([II)I" →
      g = "f(I)V" ∧ qs = [.intArray, .int] ∧ u = .int)
    ∧ ∃ cls, Program.euclid.generate {} = .ok cls
      ∧ (cls.functions.map Method.descriptor).Nodup := by
  obtain ⟨cls, hcls⟩ := Program.exists_generate_euclid
  have htext : (Signature.plain "f(I)V" [.intArray, .int] .int).descriptor = "f(I)V([II)I" := by
    decide
  obtain ⟨hinj, -, hnodup⟩ := descriptors_tell_signatures
  exact ⟨htext, fun g qs u h => hinj _ _ _ _ _ _ (h.trans htext.symm), cls, hcls,
    hnodup _ _ _ hcls⟩

end JasminGen
