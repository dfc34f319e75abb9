import JasminGen.Proofs.Compiles
import Mathlib.Data.List.Forall2

/-!
# Scopes in text order

What a name means is decided by the text alone: a variable of the function that
was declared earlier in the text, in whatever block, or else a global. `Scope`
records what can be named at one point, as plain lists, without slots, meters or
labels. On it stand the notions that statements about programs need: which
expressions yield a value (`Expr.yields`) and whether every operand does
(`Expr.valued`, `Stmt.valued`, `Program.WellValued`).

The second half ties scopes to the contexts that lowering goes through.
`Lowers.grows` says all that lowering a statement does to them: it adds the
statement's declarations to the frame and changes nothing else of what names
mean, nor the archive of watermarks. So the scope at every point is the one that
the text gives it.
-/

namespace JasminGen

/-! ## Scopes -/

structure Scope where
  /-- The name of the print routine. -/
  print : String
  /-- Variables of the function that were declared so far. -/
  locals : List Variable
  globals : List Variable
  functions : List Signature

namespace Scope

def local? (S : Scope) (x : String) : Option Variable := S.locals.find? fun v => v.name == x

def global? (S : Scope) (x : String) : Option Variable := S.globals.find? fun v => v.name == x

/-- The type of the variable that a name denotes; the function's own come first. -/
def type? (S : Scope) (x : String) : Option DataType :=
  ((S.local? x).or (S.global? x)).map Variable.type

def function? (S : Scope) (f : String) : Option Signature :=
  S.functions.find? fun s => s.name == f

/-- What a call returns. The print routine hides a function of its name. -/
def returns? (S : Scope) (f : String) : Option ReturnType :=
  if f = S.print then some .void else (S.function? f).map Signature.returns

/-- The scope after further declarations. -/
def extend (S : Scope) (ds : List VarDecl) : Scope :=
  { S with locals := S.locals ++ ds.map VarDecl.toVariable }

end Scope

mutual

/-- The variables that a statement declares, at any depth, in text order. -/
def Stmt.declared : Stmt → List VarDecl
  | .expr _ => []
  | .block ds ss => ds ++ Stmt.declaredAll ss
  | .ifThen _ s => s.declared
  | .ifElse _ s s' => s.declared ++ s'.declared
  | .loop _ s => s.declared
  | .ret _ => []

def Stmt.declaredAll : List Stmt → List VarDecl
  | [] => []
  | s :: ss => s.declared ++ Stmt.declaredAll ss

end

/-- The scope in which the locals of a function are declared. -/
def Program.scope (config : Config) (p : Program) (f : FunDecl) : Scope where
  print := config.printBuiltin
  locals := f.arguments f.signature
  globals := p.globals.map VarDecl.toVariable
  functions := p.functions.map FunDecl.signature

/-! ## Operands that yield values -/

/-- Whether the expression leaves a value: a literal, a scalar, an operator, or
a call of a function that returns one. -/
def Expr.yields (S : Scope) : Expr → Bool
  | .ident x => S.type? x == some .int
  | .lit _ => true
  | .paren e => e.yields S
  | .assign _ _ => false
  | .unary _ _ => true
  | .binary _ _ _ => true
  | .call f _ => S.returns? f == some .int
  | .index _ _ => false
  | .indexAssign _ _ _ => false

mutual

/-- Whether every operand within the expression yields a value. -/
def Expr.valued (S : Scope) : Expr → Bool
  | .ident _ => true
  | .lit _ => true
  | .paren e => e.valued S
  | .assign _ e => e.yields S && e.valued S
  | .unary _ e => e.yields S && e.valued S
  | .binary _ l r => l.yields S && l.valued S && (r.yields S && r.valued S)
  | .call _ es => Expr.valuedAll S es
  | .index _ e => e.yields S && e.valued S
  | .indexAssign _ e v => e.yields S && e.valued S && (v.yields S && v.valued S)

def Expr.valuedAll (S : Scope) : List Expr → Bool
  | [] => true
  | e :: es => e.yields S && e.valued S && Expr.valuedAll S es

end

/-- An expression that can stand as an operand. -/
def Expr.isOperand (S : Scope) (e : Expr) : Bool := e.yields S && e.valued S

mutual

/-- The same for a statement: operands, conditions and returned values. -/
def Stmt.valued (S : Scope) : Stmt → Bool
  | .expr e => e.valued S
  | .block ds ss => Stmt.valuedAll (S.extend ds) ss
  | .ifThen c s => c.isOperand S && s.valued S
  | .ifElse c s s' => c.isOperand S && s.valued S && s'.valued (S.extend s.declared)
  | .loop c s => c.isOperand S && s.valued S
  | .ret none => true
  | .ret (some e) => e.isOperand S

def Stmt.valuedAll (S : Scope) : List Stmt → Bool
  | [] => true
  | s :: ss => s.valued S && Stmt.valuedAll (S.extend s.declared) ss

end

/-- Every operand of the program yields a value. -/
def Program.WellValued (config : Config) (p : Program) : Prop :=
  ∀ f ∈ p.functions, Stmt.valuedAll ((p.scope config f).extend f.locals) f.body = true

instance (config : Config) (p : Program) : Decidable (p.WellValued config) :=
  inferInstanceAs (Decidable (∀ f ∈ p.functions, _))

/-! ## The scope of a context -/

theorem Registry.find?_entries {α : Type} {nameOf : α → String} (r : Registry α nameOf)
    (x : String) : (r.entries.find? fun a => nameOf a == x) = r.find? x := by
  cases h : r.find? x with
  | none =>
      rw [Registry.find?_eq_none_iff] at h
      rw [List.find?_eq_none]
      intro a ha hname
      exact h (List.mem_map.mpr ⟨a, ha, beq_iff_eq.mp hname⟩)
  | some a =>
      cases hfind : r.entries.find? fun a => nameOf a == x with
      | none =>
          obtain ⟨ha, hname⟩ := Registry.find?_eq_some_iff.mp h
          exact absurd (beq_iff_eq.mpr hname) (List.find?_eq_none.mp hfind a ha)
      | some b =>
          have hname : nameOf b = x := by simpa using List.find?_some hfind
          have hb : r.find? x = some b :=
            Registry.find?_eq_some_iff.mpr ⟨List.mem_of_find?_eq_some hfind, hname⟩
          exact hb.symm.trans h

def Names.scope (Γ : Names) : Scope where
  print := Γ.config.printBuiltin
  locals := Γ.frame.entries
  globals := Γ.fields.entries
  functions := Γ.functions.entries

namespace Names

theorem scope_local? (Γ : Names) (x : String) : Γ.scope.local? x = Γ.frame.find? x :=
  Registry.find?_entries Γ.frame x

theorem scope_global? (Γ : Names) (x : String) : Γ.scope.global? x = Γ.fields.find? x :=
  Registry.find?_entries Γ.fields x

theorem scope_function? (Γ : Names) (f : String) : Γ.scope.function? f = Γ.functions.find? f :=
  Registry.find?_entries Γ.functions f

/-- A slot belongs to a variable of the function. -/
theorem scope_of_slot {Γ : Names} {x : String} {s : Nat} {t : DataType}
    (h : Γ.resolve x = .ok (.slot s t)) :
    (Γ.scope.local? x).isSome = true ∧ Γ.scope.type? x = some t := by
  obtain ⟨v, hv, rfl⟩ := resolve_eq_slot_iff.mp h
  have hlocal : Γ.scope.local? x = some v := by
    rw [scope_local?, Registry.find?, hv]
    rfl
  exact ⟨by rw [hlocal]; rfl, by rw [Scope.type?, hlocal]; rfl⟩

/-- A field is named only where no variable of the function has its name. -/
theorem scope_of_field {Γ : Names} {x : String} {t : DataType}
    (h : Γ.resolve x = .ok (.field t)) :
    Γ.scope.local? x = none ∧ Γ.scope.type? x = some t := by
  obtain ⟨hframe, v, hv, rfl⟩ := resolve_eq_field_iff.mp h
  have hlocal : Γ.scope.local? x = none := by
    rw [scope_local?, Registry.find?, hframe]
    rfl
  have hglobal : Γ.scope.global? x = some v := by rw [scope_global?, hv]
  exact ⟨hlocal, by rw [Scope.type?, hlocal, hglobal]; rfl⟩

theorem type?_of_load {Γ : Names} {x : String} {i : Instr} (h : Γ.load? x = .ok (some i)) :
    Γ.scope.type? x = some .int := by
  rcases load?_eq_some h with ⟨s, hs, -⟩ | ⟨hf, -⟩
  · exact (scope_of_slot hs).2
  · exact (scope_of_field hf).2

theorem type?_of_load_none {Γ : Names} {x : String} (h : Γ.load? x = .ok none) :
    Γ.scope.type? x = some .intArray := by
  rcases load?_eq_none h with ⟨s, hs⟩ | hf
  · exact (scope_of_slot hs).2
  · exact (scope_of_field hf).2

/-- The scope knows what a call leaves. -/
theorem returns?_of_calleeFor {Γ : Names} {f : String} {n : Nat} {t : Callee}
    (h : Γ.calleeFor f n = .ok t) : Γ.scope.returns? f = some t.returns := by
  rcases calleeFor_eq_ok h with ⟨hf, -, rfl⟩ | ⟨hf, s, hs, -, rfl⟩
  · exact if_pos hf
  · rw [Scope.returns?, if_neg (show ¬f = Γ.scope.print from hf), scope_function?, hs]
    rfl

end Names

/-! ## How contexts grow -/

mutual

theorem Emits.archived {Γ : Names} : ∀ {e : Expr} {k k' : Counters} {code : Code},
    Emits Γ e k code k' → k'.meter.archived = k.meter.archived
  | _, _, _, _, .scalar _ => rfl
  | _, _, _, _, .array _ => rfl
  | _, _, _, _, .lit => rfl
  | _, _, _, _, .paren h => h.archived
  | _, _, _, _, .assign h _ => h.archived
  | _, _, _, _, .neg h => h.archived
  | _, _, _, _, .not h => h.archived
  | _, _, _, _, .stepName _ h _ => h.archived
  | _, _, _, _, .step _ _ h => h.archived
  | _, _, _, _, .arith hl hr => hr.archived.trans hl.archived
  | _, _, _, _, .compare hl hr => hr.archived.trans hl.archived
  | _, _, _, _, .and hl hr => hr.archived.trans hl.archived
  | _, _, _, _, .orReload _ hl hr => hr.archived.trans hl.archived
  | _, _, _, _, .orDup _ hl hr => hr.archived.trans hl.archived
  | _, _, _, _, .call _ h => h.archived

theorem EmitsAll.archived {Γ : Names} : ∀ {es : List Expr} {k k' : Counters} {code : Code},
    EmitsAll Γ es k code k' → k'.meter.archived = k.meter.archived
  | _, _, _, _, .nil => rfl
  | _, _, _, _, .cons h hs => hs.archived.trans h.archived

end

namespace Context

/-- From `c` to `c'` the declarations `ds` were added to the frame; nothing else
that names mean has changed, and nothing was archived. -/
structure Grows (c : Context) (ds : List VarDecl) (c' : Context) : Prop where
  config : c'.config = c.config
  fields : c'.fields = c.fields
  functions : c'.functions = c.functions
  entries : c'.frame.entries = c.frame.entries ++ ds.map VarDecl.toVariable
  archived : c'.meter.archived = c.meter.archived

namespace Grows

/-- Only the counters changed. -/
theorem withCounters (c : Context) {k : Counters}
    (h : k.meter.archived = c.meter.archived) : c.Grows [] (c.withCounters k) :=
  ⟨rfl, rfl, rfl, by simp, h⟩

theorem trans {c₁ c₂ c₃ : Context} {ds es : List VarDecl} (h : c₁.Grows ds c₂)
    (h' : c₂.Grows es c₃) : c₁.Grows (ds ++ es) c₃ where
  config := h'.config.trans h.config
  fields := h'.fields.trans h.fields
  functions := h'.functions.trans h.functions
  entries := by rw [h'.entries, h.entries, List.map_append, List.append_assoc]
  archived := h'.archived.trans h.archived

/-- The scope grows with the context. -/
theorem scope {c c' : Context} {ds : List VarDecl} (h : c.Grows ds c') :
    c'.toNames.scope = c.toNames.scope.extend ds := by
  unfold Names.scope Scope.extend
  rw [h.config, h.fields, h.functions, h.entries]

end Grows

end Context

theorem Declares.grows {d : VarDecl} {c c' : Context} {code : Code}
    (h : Declares d c code c') : c.Grows [d] c' := by
  cases h with
  | bare hinsert _ =>
      exact ⟨rfl, rfl, rfl, (Registry.insert?_eq_some_iff.mp hinsert).2, rfl⟩
  | init hinsert _ =>
      exact ⟨rfl, rfl, rfl, (Registry.insert?_eq_some_iff.mp hinsert).2, rfl⟩

theorem DeclaresAll.grows : ∀ {ds : List VarDecl} {c c' : Context} {code : Code},
    DeclaresAll ds c code c' → c.Grows ds c'
  | _, c, _, _, .nil => .withCounters c rfl
  | _, _, _, _, .cons h hs => h.grows.trans hs.grows

mutual

/-- Lowering a statement adds its declarations, and nothing else. -/
theorem Lowers.grows : ∀ {s : Stmt} {c c' : Context} {code : Code},
    Lowers s c code c' → c.Grows s.declared c'
  | _, c, _, _, .expr h => .withCounters c h.archived
  | _, _, _, _, .block hds hss => hds.grows.trans hss.grows
  | _, c, _, _, .ifThen he hs => by
      have hbody := (Context.Grows.withCounters c he.archived).trans hs.grows
      exact ⟨hbody.config, hbody.fields, hbody.functions, hbody.entries, hbody.archived⟩
  | _, c, _, _, .ifElse he hs hs' => by
      have hbody := ((Context.Grows.withCounters c he.archived).trans hs.grows).trans hs'.grows
      exact ⟨hbody.config, hbody.fields, hbody.functions, hbody.entries, hbody.archived⟩
  | _, c, _, _, .loop he hs => by
      have hbody := (Context.Grows.withCounters c he.archived).trans hs.grows
      exact ⟨hbody.config, hbody.fields, hbody.functions, hbody.entries, hbody.archived⟩
  | _, c, _, _, .retValue h => .withCounters c h.archived
  | _, c, _, _, .retVoid => .withCounters c rfl

theorem LowersAll.grows : ∀ {ss : List Stmt} {c c' : Context} {code : Code},
    LowersAll ss c code c' → c.Grows (Stmt.declaredAll ss) c'
  | _, c, _, _, .nil => .withCounters c rfl
  | _, _, _, _, .cons h hs => h.grows.trans hs.grows

end

/-! ## Contexts between methods -/

/-- A method that ends with an empty archive gets its own watermark as its limit, and
leaves the meter as it was at the start. -/
theorem Context.limit_eq_of_archived {c : Context} (h : c.meter.archived = []) :
    c.limit = (c.meter.watermark, {}) := by
  have hclose : c.close.meter.archived = c.meter.watermark :: [] := by
    change c.meter.close.archived = _
    rw [StackMeter.archived_close, h, List.nil_append]
  obtain ⟨archive, harchive, hlimit⟩ :=
    StackMeter.takeLimit_of_cons hclose c.config.defaultStackLimit
  rw [limit, hlimit, Queue.eq_empty harchive]
  rfl

/-- The limit of a method is its own watermark, if nothing is left in the
archive from before. -/
theorem Context.limit_of_archived {c : Context} (h : c.meter.archived = []) :
    c.limit.1 = c.meter.watermark ∧ c.limit.2.archived = [] := by
  rw [limit_eq_of_archived h]
  exact ⟨rfl, rfl⟩

/-- Only scalars have an initial value. -/
def Variables.ScalarInits (vs : Variables) : Prop :=
  ∀ v ∈ vs.entries, v.init?.isSome = true → v.type = .int

instance (vs : Variables) : Decidable vs.ScalarInits :=
  inferInstanceAs (Decidable (∀ v ∈ vs.entries, v.init?.isSome = true → v.type = .int))

theorem VarDecl.type_of_isSome_init {d : VarDecl} (h : d.init?.isSome = true) :
    d.type = .int := by
  obtain ⟨name, form⟩ := d
  cases form with
  | array size => cases h
  | _ => rfl

/-- What one method leaves for the next: the names that are not its own, and an
empty archive. -/
structure Context.Ready (config : Config) (p : Program) (c : Context) : Prop where
  config : c.config = config
  fields : c.fields.entries = p.globals.map VarDecl.toVariable
  functions : c.functions.entries = p.functions.map FunDecl.signature
  archived : c.meter.archived = []

namespace Context.Ready

variable {config : Config} {p : Program} {c : Context}

theorem signature (h : c.Ready config p) {f : FunDecl} (hf : f ∈ p.functions) :
    c.functions.find? f.name = some f.signature := by
  rw [Registry.find?_eq_some_iff, h.functions]
  exact ⟨List.mem_map_of_mem hf, f.name_signature⟩

/-- The frame of the arguments makes the scope that the text gives. -/
theorem scope (h : c.Ready config p) {f : FunDecl} {frame : Variables}
    (hframe : frame.entries = f.arguments f.signature) :
    (c.fresh.withFrame frame).toNames.scope = p.scope config f := by
  unfold Names.scope Program.scope
  change Scope.mk c.config.printBuiltin frame.entries c.fields.entries c.functions.entries = _
  rw [h.config, h.fields, h.functions, hframe]

theorem scalarInits (h : c.Ready config p) : c.fields.ScalarInits := by
  intro v hv hinit
  rw [h.fields] at hv
  obtain ⟨d, -, rfl⟩ := List.mem_map.mp hv
  exact d.type_of_isSome_init hinit

/-- A method that was ended leaves the context ready again. -/
theorem ended (h : c.Ready config p) {frame : Variables} {ds : List VarDecl} {c' : Context}
    (hgrows : (c.fresh.withFrame frame).Grows ds c') :
    ({ c' with meter := c'.limit.2 } : Context).Ready config p where
  config := hgrows.config.trans h.config
  fields := (congrArg Registry.entries hgrows.fields).trans h.fields
  functions := (congrArg Registry.entries hgrows.functions).trans h.functions
  archived := (Context.limit_of_archived (hgrows.archived.trans h.archived)).2

end Context.Ready

theorem Program.Declared.ready {config : Config} {p : Program} {c : Context}
    (h : p.Declared config c) : c.Ready config p where
  config := h.config
  fields := h.fields
  functions := h.functions
  archived := congrArg (fun k : Counters => k.meter.archived) h.counters

theorem Compiles.ready {config : Config} {p : Program} {f : FunDecl} {c c' : Context} {m : Method}
    (h : Compiles f c m c') (hready : c.Ready config p) : c'.Ready config p := by
  cases h with
  | intro _ _ hdecls hlines => exact hready.ended (hdecls.grows.trans hlines.grows)

theorem Initialises.archived {Γ : Names} :
    ∀ {inits : List (String × Int32)} {k k' : Counters} {code : Code},
      Initialises Γ inits k code k' → k'.meter.archived = k.meter.archived
  | _, _, _, _, .nil => rfl
  | _, _, _, _, .cons _ h => h.archived

theorem StaticInitialises.ready {config : Config} {p : Program} {c c' : Context}
    {m? : Option Method} (h : StaticInitialises c m? c') (hready : c.Ready config p) :
    c'.Ready config p := by
  cases h with
  | none => exact hready
  | some _ hstores =>
      exact hready.ended (Context.Grows.withCounters c.fresh hstores.archived)

/-- Every function is compiled in a ready context. -/
theorem CompilesAll.forall₂ {config : Config} {p : Program} :
    ∀ {fs : List FunDecl} {c c' : Context} {ms : List Method}, CompilesAll fs c ms c' →
      c.Ready config p →
        List.Forall₂ (fun f m => ∃ c c', c.Ready config p ∧ Compiles f c m c') fs ms
  | _, _, _, _, .nil, _ => .nil
  | _, _, _, _, .cons h hs, hready =>
      .cons ⟨_, _, hready, h⟩ (hs.forall₂ (h.ready hready))

theorem CompilesAll.ready {config : Config} {p : Program} :
    ∀ {fs : List FunDecl} {c c' : Context} {ms : List Method}, CompilesAll fs c ms c' →
      c.Ready config p → c'.Ready config p
  | _, _, _, _, .nil, hready => hready
  | _, _, _, _, .cons h hs, hready => hs.ready (h.ready hready)

theorem Compiles.name_eq {f : FunDecl} {c c' : Context} {m : Method} (h : Compiles f c m c') :
    m.name = f.name := by
  cases h with
  | intro hs _ _ _ => exact (Registry.find?_eq_some_iff.mp hs).2

theorem Compiles.descriptor_eq {config : Config} {p : Program} {f : FunDecl} {c c' : Context}
    {m : Method} (h : Compiles f c m c') (hready : c.Ready config p) (hf : f ∈ p.functions) :
    m.descriptor = f.signature.descriptor := by
  cases h with
  | intro hs _ _ _ => rw [Option.some.inj ((hready.signature hf).symm.trans hs)]

namespace Generates

variable {config : Config} {p : Program} {cls : ClassFile} {c₀ c₁ c₂ : Context}

theorem forall₂ (h : Generates config p cls c₀ c₁ c₂) :
    List.Forall₂ (fun f m => ∃ c c', c.Ready config p ∧ Compiles f c m c')
      p.functions cls.functions :=
  h.functions.forall₂ (h.staticInit.ready h.declared.ready)

theorem className_eq (h : Generates config p cls c₀ c₁ c₂) : cls.name = config.className := by
  have hready := h.functions.ready (h.staticInit.ready h.declared.ready)
  rw [h.name, hready.config]

/-- Functions and methods stand in the same order. -/
theorem compiles_at (h : Generates config p cls c₀ c₁ c₂) {n : Nat} {f : FunDecl} {m : Method}
    (hf : p.functions[n]? = some f) (hm : cls.functions[n]? = some m) :
    ∃ c c', c.Ready config p ∧ Compiles f c m c' := by
  obtain ⟨hn, rfl⟩ := List.getElem?_eq_some_iff.mp hf
  obtain ⟨hn', rfl⟩ := List.getElem?_eq_some_iff.mp hm
  exact h.forall₂.get hn hn'

theorem exists_compiles_at (h : Generates config p cls c₀ c₁ c₂) {n : Nat} {f : FunDecl}
    (hf : p.functions[n]? = some f) :
    ∃ m, cls.functions[n]? = some m ∧ ∃ c c', c.Ready config p ∧ Compiles f c m c' := by
  have hn := (List.getElem?_eq_some_iff.mp hf).1
  have hm := List.getElem?_eq_getElem (h.forall₂.length_eq ▸ hn)
  exact ⟨_, hm, h.compiles_at hf hm⟩

/-- Every function has its method. -/
theorem exists_method (h : Generates config p cls c₀ c₁ c₂) {f : FunDecl} (hf : f ∈ p.functions) :
    ∃ m ∈ cls.functions, ∃ c c', c.Ready config p ∧ Compiles f c m c' := by
  obtain ⟨i, hi, rfl⟩ := List.getElem_of_mem hf
  have hi' : i < cls.functions.length := h.forall₂.length_eq ▸ hi
  exact ⟨_, List.getElem_mem hi', h.forall₂.get hi hi'⟩

/-- Every method that was generated for a function. -/
theorem exists_function (h : Generates config p cls c₀ c₁ c₂) {m : Method}
    (hm : m ∈ cls.functions) :
    ∃ f ∈ p.functions, ∃ c c', c.Ready config p ∧ Compiles f c m c' := by
  obtain ⟨i, hi, rfl⟩ := List.getElem_of_mem hm
  have hi' : i < p.functions.length := h.forall₂.length_eq ▸ hi
  exact ⟨_, List.getElem_mem hi', h.forall₂.get hi' hi⟩

theorem names_eq (h : Generates config p cls c₀ c₁ c₂) :
    p.functions.map FunDecl.name = cls.functions.map Method.name := by
  rw [← List.forall₂_eq_eq_eq, List.forall₂_map_left_iff, List.forall₂_map_right_iff]
  refine h.forall₂.imp ?_
  rintro f m ⟨c, c', -, hcompiles⟩
  exact hcompiles.name_eq.symm

/-- No two functions have the same name. -/
theorem nodup_names (h : Generates config p cls c₀ c₁ c₂) :
    (p.functions.map FunDecl.name).Nodup := by
  have hnodup := c₀.functions.nodup_entries
  rw [h.declared.functions, List.map_map] at hnodup
  have hname : Signature.name ∘ FunDecl.signature = FunDecl.name :=
    funext FunDecl.name_signature
  rwa [hname] at hnodup

end Generates

end JasminGen
