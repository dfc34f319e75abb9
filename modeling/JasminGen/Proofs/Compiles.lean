import JasminGen.ClassFile
import JasminGen.Proofs.Lowers

/-!
# What a program becomes

The last two levels above `Emits` and `Lowers`: `Compiles f c m c'` for a
function that becomes the method `m`, and `Generates` for a whole program. A
method is described by its parts, the header, the declarations, the body and
the end, so that a fact about methods is put together from facts about those.

A generated class goes through three contexts: after all declarations, after
the static initialiser, and after the last function. `Program.generates` gives
the three, and every statement about whole programs starts from it.
-/

namespace JasminGen

namespace Context

/-- The context in which a method begins: no variables, nothing on the meter. -/
def fresh (c : Context) : Context := { c with frame := .empty, meter := c.meter.reset }

/-- The stack limit that a method ended here gets, and the meter after it. -/
def limit (c : Context) : Nat × StackMeter := c.close.meter.takeLimit c.config.defaultStackLimit

end Context

/-! ## Functions -/

/-- The `return` that is supplied at the end of a function. -/
def FunDecl.ending (f : FunDecl) (s : Signature) : Code :=
  if endsInReturn f.body = true then []
  else if s.returns = .void then [.instr .vreturn] else []

/-- In the context `c` the function becomes the method `m`. -/
inductive Compiles (f : FunDecl) (c : Context) : Method → Context → Prop where
  | intro {s frame decls c₁ lines c₂} : c.functions.find? f.name = some s →
      frame.entries = f.arguments s →
      DeclaresAll f.locals (c.fresh.withFrame frame) decls c₁ → LowersAll f.body c₁ lines c₂ →
      Compiles f c
        { name := s.name
          descriptor := s.descriptor
          stackLimit := c₂.limit.1
          localsLimit := c₂.frame.size
          code := Method.header "public static" s.descriptor c₂.limit.1 c₂.frame.size ++
            (decls ++ lines ++ f.ending s ++ Code.methodEnd) }
        { c₂ with meter := c₂.limit.2 }

inductive CompilesAll : List FunDecl → Context → List Method → Context → Prop where
  | nil {c} : CompilesAll [] c [] c
  | cons {f fs c m c₁ ms c₂} : Compiles f c m c₁ → CompilesAll fs c₁ ms c₂ →
      CompilesAll (f :: fs) c (m :: ms) c₂

theorem LowerM.on_declareAll_eq_ok : ∀ {vs : List Variable} {c c' : Context},
    (declareAll vs).on c = (.ok (), c') →
      ∃ frame, frame.entries = c.frame.entries ++ vs ∧ c' = c.withFrame frame
  | [], c, c', h => by
      rw [declareAll] at h
      cases h
      exact ⟨c.frame, by simp, rfl⟩
  | v :: vs, c, c', h => by
      rw [declareAll] at h
      obtain ⟨slot, c₁, hv, hvs⟩ := Attempt.on_bind_eq_ok.mp h
      obtain ⟨frame₁, hinsert, -, rfl⟩ := on_declare_eq_ok hv
      obtain ⟨frame, hframe, rfl⟩ := on_declareAll_eq_ok hvs
      have hentries := (Registry.insert?_eq_some_iff.mp hinsert).2
      exact ⟨frame, by simp [hframe, hentries], rfl⟩

theorem Names.signature_eq_ok {Γ : Names} {f : String} {s : Signature}
    (h : Γ.signature f = .ok s) : Γ.functions.find? f = some s := by
  rw [signature] at h
  split at h
  · rename_i hs
    cases h
    exact hs
  · cases h

/-- What `Method.finish` makes of a body, in the context where the body ended. -/
theorem Method.on_finish (access name descriptor : String) (body : Code) (c : Context) :
    (finish access name descriptor body).on c.close =
      (.ok { name, descriptor, stackLimit := c.limit.1, localsLimit := c.frame.size
             code := header access descriptor c.limit.1 c.frame.size ++ body },
        { c with meter := c.limit.2 }) := rfl

/-- Whoever writes the end of a method, it is written once and after the body. -/
theorem FunDecl.lowerClosed_eq (f : FunDecl) (s : Signature) :
    f.lowerClosed s = do
      let code ← (Stmt.block f.locals f.body).lower
      let close ← closeMethod
      return code ++ f.ending s ++ close := by
  rw [lowerClosed, lowerBody_eq, ending]
  cases h : endsInReturn f.body with
  | true => simp
  | false => simp

theorem FunDecl.lowers_of_lowerClosed {f : FunDecl} {s : Signature} {c c' : Context} {code : Code}
    (h : (f.lowerClosed s).on c = (.ok code, c')) :
    ∃ decls lines c₁ c₂, DeclaresAll f.locals c decls c₁ ∧ LowersAll f.body c₁ lines c₂
      ∧ code = decls ++ lines ++ f.ending s ++ Code.methodEnd ∧ c' = c₂.close := by
  rw [lowerClosed_eq] at h
  obtain ⟨body, c₂, hblock, hclose⟩ := Attempt.on_bind_eq_ok.mp h
  cases hclose
  cases Stmt.lowers_of_lower hblock with
  | block hdecls hlines => exact ⟨_, _, _, c₂, hdecls, hlines, rfl, rfl⟩

theorem FunDecl.compiles_of_compile {f : FunDecl} {c c' : Context} {m : Method}
    (h : f.compile.on c = (.ok m, c')) : Compiles f c m c' := by
  rw [compile] at h
  obtain ⟨_, _, ⟨⟩, hsignature⟩ := Attempt.on_bind_eq_ok.mp h
  obtain ⟨s, c₁, hlift, hbegin⟩ := Attempt.on_bind_eq_ok.mp hsignature
  obtain ⟨hs, rfl⟩ := Attempt.on_liftM_eq_ok hlift
  obtain ⟨_, _, ⟨⟩, hdeclare⟩ := Attempt.on_bind_eq_ok.mp hbegin
  obtain ⟨_, c₂, hargs, h⟩ := Attempt.on_bind_eq_ok.mp hdeclare
  obtain ⟨frame, hframe, rfl⟩ := LowerM.on_declareAll_eq_ok hargs
  obtain ⟨body, c₃, hbody, hfinish⟩ := Attempt.on_bind_eq_ok.mp h
  obtain ⟨decls, lines, c₄, c₅, hdecls, hlines, rfl, rfl⟩ := lowers_of_lowerClosed hbody
  cases (Method.on_finish _ _ _ _ c₅).symm.trans hfinish
  exact .intro (Names.signature_eq_ok hs) (by simpa using hframe) hdecls hlines

theorem FunDecl.compilesAll_of_mapM : ∀ {fs : List FunDecl} {c c' : Context} {ms : List Method},
    (fs.mapM FunDecl.compile).on c = (.ok ms, c') → CompilesAll fs c ms c'
  | [], c, c', ms, h => by
      rw [List.mapM_nil] at h
      cases h
      exact .nil
  | f :: fs, c, c', ms, h => by
      rw [List.mapM_cons] at h
      obtain ⟨m, c₁, hm, h⟩ := Attempt.on_bind_eq_ok.mp h
      obtain ⟨ms, c₂, hms, hrest⟩ := Attempt.on_bind_eq_ok.mp h
      cases hrest
      exact .cons (compiles_of_compile hm) (compilesAll_of_mapM hms)

/-! ## The static initialiser -/

/-- The stores that give fields their initial values. -/
inductive Initialises (Γ : Names) : List (String × Int32) → Counters → Code → Counters → Prop where
  | nil {k} : Initialises Γ [] k [] k
  | cons {x v rest i k code k'} : Γ.store x = .ok i →
      Initialises Γ rest ((k.move 1).move (-1)) code k' →
      Initialises Γ ((x, v) :: rest) k ([.instr (.ldc v), .instr i] ++ code) k'

/-- A static initialiser, or none if no field has an initial value. -/
inductive StaticInitialises (c : Context) : Option Method → Context → Prop where
  | none : StaticInit.initialised c.fields = [] → StaticInitialises c none c
  | some {stores k} : StaticInit.initialised c.fields ≠ [] →
      Initialises c.fresh.toNames (StaticInit.initialised c.fields) c.fresh.toCounters stores k →
      StaticInitialises c
        (.some
          { name := StaticInit.name
            descriptor := StaticInit.descriptor
            stackLimit := (c.fresh.withCounters k).limit.1
            localsLimit := 0
            code := Method.header "static" StaticInit.descriptor
                (c.fresh.withCounters k).limit.1 0 ++
              (stores ++ [.instr .vreturn] ++ Code.methodEnd) })
        { c.fresh with labels := k.labels, meter := (c.fresh.withCounters k).limit.2 }

theorem StaticInit.initialises_of_lowerAll {Γ : Names} :
    ∀ {inits : List (String × Int32)} {k k' : Counters} {code : Code},
      (lowerAll Γ inits).on k = (.ok code, k') → Initialises Γ inits k code k'
  | [], k, k', code, h => by
      rw [lowerAll] at h
      cases h
      exact .nil
  | (x, v) :: rest, k, k', code, h => by
      rw [lowerAll] at h
      obtain ⟨first, k₁, hfirst, h⟩ := Attempt.on_bind_eq_ok.mp h
      obtain ⟨others, k₂, hothers, hrest⟩ := Attempt.on_bind_eq_ok.mp h
      cases hrest
      obtain ⟨_, _, ⟨⟩, hput⟩ := Attempt.on_bind_eq_ok.mp hfirst
      obtain ⟨put, k₃, hstore, hrest⟩ := Attempt.on_bind_eq_ok.mp hput
      cases hrest
      obtain ⟨i, hi, rfl, rfl⟩ := EmitM.on_store_eq_ok hstore
      exact .cons hi (initialises_of_lowerAll hothers)

theorem StaticInit.staticInitialises_of_compile {c c' : Context} {m? : Option Method}
    (h : compile.on c = (.ok m?, c')) : StaticInitialises c m? c' := by
  rw [compile] at h
  obtain ⟨_, _, ⟨⟩, h⟩ := Attempt.on_bind_eq_ok.mp h
  split at h
  · rename_i hnil
    cases h
    exact .none hnil
  · rename_i hne
    obtain ⟨_, _, ⟨⟩, hnames⟩ := Attempt.on_bind_eq_ok.mp h
    obtain ⟨_, _, ⟨⟩, hstores⟩ := Attempt.on_bind_eq_ok.mp hnames
    obtain ⟨stores, c₁, hemit, hclose⟩ := Attempt.on_bind_eq_ok.mp hstores
    obtain ⟨_, _, ⟨⟩, hfinish⟩ := Attempt.on_bind_eq_ok.mp hclose
    obtain ⟨m, c₂, hm, hrest⟩ := Attempt.on_bind_eq_ok.mp hfinish
    rw [LowerM.on_emit] at hemit
    obtain ⟨hcode, rfl⟩ := Prod.mk.inj hemit
    cases hrest
    cases hm
    exact .some hne (initialises_of_lowerAll (Prod.ext hcode rfl))

/-! ## Programs -/

/-- The context after all declarations of the program and before any code. -/
structure Program.Declared (config : Config) (p : Program) (c : Context) : Prop where
  config : c.config = config
  frame : c.frame = .empty
  fields : c.fields.entries = p.globals.map VarDecl.toVariable
  functions : c.functions.entries = p.functions.map FunDecl.signature
  counters : c.toCounters = {}

theorem LowerM.on_declareField_eq_ok {v : Variable} {c c' : Context}
    (h : (declareField v).on c = (.ok (), c')) :
    ∃ fields, fields.entries = c.fields.entries ++ [v] ∧ c' = { c with fields } := by
  cases hinsert : c.fields.insert? v with
  | none =>
      rw [on_declareField_of_none hinsert] at h
      cases h
  | some fields =>
      rw [on_declareField_of_some hinsert] at h
      cases h
      exact ⟨fields, (Registry.insert?_eq_some_iff.mp hinsert).2, rfl⟩

theorem LowerM.on_declareFunction_eq_ok {s : Signature} {c c' : Context}
    (h : (declareFunction s).on c = (.ok (), c')) :
    ∃ functions, functions.entries = c.functions.entries ++ [s] ∧ c' = { c with functions } := by
  cases hinsert : c.functions.insert? s with
  | none =>
      rw [on_declareFunction_of_none hinsert] at h
      cases h
  | some functions =>
      rw [on_declareFunction_of_some hinsert] at h
      cases h
      exact ⟨functions, (Registry.insert?_eq_some_iff.mp hinsert).2, rfl⟩

theorem VarDecl.fields_of_forM : ∀ {ds : List VarDecl} {c c' : Context},
    (ds.forM fun d => LowerM.declareField d.toVariable).on c = (.ok (), c') →
      ∃ fields, fields.entries = c.fields.entries ++ ds.map VarDecl.toVariable
        ∧ c' = { c with fields }
  | [], c, c', h => by
      cases h
      exact ⟨c.fields, by simp, rfl⟩
  | d :: ds, c, c', h => by
      obtain ⟨_, c₁, hd, hds⟩ := Attempt.on_bind_eq_ok.mp h
      obtain ⟨fields₁, hfields₁, rfl⟩ := LowerM.on_declareField_eq_ok hd
      obtain ⟨fields, hfields, rfl⟩ := fields_of_forM hds
      exact ⟨fields, by simp [hfields, hfields₁], rfl⟩

theorem FunDecl.functions_of_forM : ∀ {fs : List FunDecl} {c c' : Context},
    (fs.forM fun f => LowerM.declareFunction f.signature).on c = (.ok (), c') →
      ∃ functions, functions.entries = c.functions.entries ++ fs.map FunDecl.signature
        ∧ c' = { c with functions }
  | [], c, c', h => by
      cases h
      exact ⟨c.functions, by simp, rfl⟩
  | f :: fs, c, c', h => by
      obtain ⟨_, c₁, hf, hfs⟩ := Attempt.on_bind_eq_ok.mp h
      obtain ⟨functions₁, hfunctions₁, rfl⟩ := LowerM.on_declareFunction_eq_ok hf
      obtain ⟨functions, hfunctions, rfl⟩ := functions_of_forM hfs
      exact ⟨functions, by simp [hfunctions, hfunctions₁], rfl⟩

theorem Program.declared_of_declare {config : Config} {p : Program} {c : Context}
    (h : p.declare.on (.start config) = (.ok (), c)) : p.Declared config c := by
  obtain ⟨_, c₁, hglobals, hfunctions⟩ := Attempt.on_bind_eq_ok.mp h
  obtain ⟨fields, hfields, rfl⟩ := VarDecl.fields_of_forM hglobals
  obtain ⟨functions, hfuns, rfl⟩ := FunDecl.functions_of_forM hfunctions
  exact ⟨rfl, rfl, hfields, hfuns, rfl⟩

/-- The contexts that a program goes through on its way to the class `cls`. -/
structure Generates (config : Config) (p : Program) (cls : ClassFile) (c₀ c₁ c₂ : Context) :
    Prop where
  declared : p.Declared config c₀
  staticInit : StaticInitialises c₀ cls.staticInit c₁
  functions : CompilesAll p.functions c₁ cls.functions c₂
  last : (p.compile.on (.start config)).2 = c₂
  name : cls.name = c₂.config.className
  fields : cls.fields = c₂.fields.entries

theorem Program.generates {config : Config} {p : Program} {cls : ClassFile}
    (h : p.generate config = .ok cls) : ∃ c₀ c₁ c₂, Generates config p cls c₀ c₁ c₂ := by
  have hrun : p.compile.on (.start config) = (.ok cls, (p.compile.on (.start config)).2) :=
    Prod.ext h rfl
  obtain ⟨_, c₀, hdeclare, hinit⟩ := Attempt.on_bind_eq_ok.mp hrun
  obtain ⟨staticInit, c₁, hstatic, hfuns⟩ := Attempt.on_bind_eq_ok.mp hinit
  obtain ⟨functions, c₂, hmap, hrest⟩ := Attempt.on_bind_eq_ok.mp hfuns
  obtain ⟨hcls, hlast⟩ := Prod.mk.inj hrest
  cases hcls
  exact ⟨c₀, c₁, c₂, declared_of_declare hdeclare,
    StaticInit.staticInitialises_of_compile hstatic, FunDecl.compilesAll_of_mapM hmap,
    hlast.symm, rfl, rfl⟩

/-! ## A small program

Euclid's algorithm, with a global that has an initial value, a loop that declares
a variable each time round, and a choice by negation and `or`. The statements
about programs are tried on it. -/

def Program.euclid : Program where
  decls :=
    [.global ⟨"base", .init 18⟩,
     .global ⟨"quiet", .plain⟩,
     .function
      { returns := .int, name := "gcd", params := [⟨"a", .int⟩, ⟨"b", .int⟩], locals := []
        body :=
          [.loop (.binary (.compare .ne) (.ident "b") (.lit 0))
            (.block [⟨"r", .init 0⟩]
              [.expr (.assign "r" (.binary (.arith .rem) (.ident "a") (.ident "b"))),
               .expr (.assign "a" (.ident "b")),
               .expr (.assign "b" (.ident "r"))]),
           .ret (some (.ident "a"))] },
     .function
      { returns := .void, name := "main", params := [], locals := [⟨"n", .init 11⟩]
        body :=
          [.ifElse (.binary .or (.unary .not (.ident "quiet")) (.ident "base"))
            (.expr (.call "_print"
              [.call "gcd" [.unary .increment (.ident "n"), .ident "base"]]))
            (.ret none)] }]

theorem Program.exists_generate {p : Program} {config : Config}
    (h : (p.generate config).isOk = true) : ∃ cls, p.generate config = .ok cls := by
  cases hp : p.generate config with
  | error e => rw [hp] at h; cases h
  | ok cls => exact ⟨cls, rfl⟩

theorem Program.exists_generate_euclid : ∃ cls, euclid.generate {} = .ok cls :=
  Program.exists_generate (by decide +kernel)

end JasminGen
