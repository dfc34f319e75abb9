import JasminGen.Proofs.Executes

/-!
# Classes run programs

A running class has a stack of activations. Only the top one acts. A call puts a
new one on it, for the method that has the descriptor of the call, and a return
takes it off and hands the value to the activation below.

`Executes` follows one activation and lets an interpretation answer its calls.
Here the answers come from the class itself. If the methods do what an
interpretation says, under any callers, then a run of one activation is a run of
the class (`Machine.Runs.lift`). So methods do what functions do with calls of
depth `n + 1` if they do it with calls of depth `n`, and the theorem about whole
programs is an induction on the depth.
-/

namespace JasminGen

/-! ## A running class -/

/-- A frame with the code that it is in. -/
structure Activation where
  code : Code
  frame : Frame

inductive ClassState where
  | running (top : Activation) (callers : List Activation) (w : World)
  | finished (v? : Option Int32) (w : World)
  | halted (h : Halt)

/-- The top activation is over, and its caller goes on with the value. -/
def ClassState.resume (v? : Option Int32) (w : World) : List Activation → ClassState
  | [] => .finished v? w
  | a :: callers => .running ⟨a.code, a.frame.give v?⟩ callers w

namespace ClassFile

/-- The method that a call enters. -/
def member? (cls : ClassFile) (member : String) : Option Method :=
  cls.functions.find? fun m => m.descriptor == member

def perform (cls : ClassFile) (code : Code) (callers : List Activation) (w : World) :
    Action → Option ClassState
  | .next fr w' => some (.running ⟨code, fr⟩ callers w')
  | .call member args fr =>
    (cls.member? member).map fun m => .running ⟨m.code, .fresh args⟩ (⟨code, fr⟩ :: callers) w
  | .ret v? => some (.resume v? w callers)
  | .halt h => some (.halted h)
  | .stuck => none

def step (cls : ClassFile) : ClassState → Option ClassState
  | .running a callers w => cls.perform a.code callers w (a.frame.act cls.name a.code w)
  | .finished _ _ => none
  | .halted _ => none

def Runs (cls : ClassFile) : ClassState → ClassState → Prop :=
  Relation.ReflTransGen fun a b => cls.step a = some b

end ClassFile

/-! ## From one activation to the class -/

/-- The state of the class when its top activation has come so far. -/
def Status.under (code : Code) (callers : List Activation) : Status → ClassState
  | .running fr w => .running ⟨code, fr⟩ callers w
  | .returned v? w => .resume v? w callers
  | .halted h => .halted h

/-- The state of the class when a call is over. -/
def ClassState.after (callers : List Activation) : Except Halt (Option Int32 × World) → ClassState
  | .ok (v?, w) => .resume v? w callers
  | .error reason => .halted reason

theorem ClassState.after_nil_inj {r r' : Except Halt (Option Int32 × World)}
    (h : ClassState.after [] r = .after [] r') : r = r' := by
  rcases r with reason | ⟨v?, w⟩ <;> rcases r' with reason' | ⟨v?', w'⟩ <;> cases h <;> rfl

namespace ClassFile

/-- The member does what `r` says, whoever calls it. -/
def Performs (cls : ClassFile) (member : String) (args : List Int32) (w : World)
    (r : Except Halt (Option Int32 × World)) : Prop :=
  ∃ m, cls.member? member = some m ∧ ∀ callers, r ≠ .error .outOfFuel →
    cls.Runs (.running ⟨m.code, .fresh args⟩ callers w) (.after callers r)

/-- Calls of the functions do what the interpretation says. -/
def Realises (cls : ClassFile) (functions : List Signature) (I : Interp) : Prop :=
  ∀ s ∈ functions, ∀ args w, args.length = s.arity →
    cls.Performs s.descriptor args w
      ((I s.name args w).map fun (v, w') => (s.returns.given v, w'))

end ClassFile

theorem Cell.length_of_takeInts : ∀ {n : Nat} {stack rest : List Cell} {vs : List Int32},
    Cell.takeInts n stack = some (vs, rest) → vs.length = n
  | 0, _, _, _, h => by
      cases h
      rfl
  | n + 1, [], _, _, h => by cases h
  | n + 1, .stream :: _, _, _, h => by cases h
  | n + 1, .int v :: stack, _, _, h => by
      obtain ⟨⟨vs, rest⟩, htake, hresult⟩ := Option.map_eq_some_iff.mp h
      cases hresult
      rw [List.length_append, Cell.length_of_takeInts htake]
      rfl

/-- A call has the arguments that its descriptor asks for. -/
def Action.Apt : Action → Prop
  | .call member args _ => args.length = (MethodSymbol.ofText member).params
  | _ => True

theorem Cell.apt_popInt {stack : List Cell} {k : Int32 → List Cell → Action}
    (h : ∀ v rest, (k v rest).Apt) : (Cell.popInt stack k).Apt := by
  unfold Cell.popInt
  split
  · exact h _ _
  · trivial

theorem Frame.apt_jump {code : Code} {l : Label} {fr : Frame} {stack : List Cell} {w : World} :
    (fr.jump code l stack w).Apt := by
  unfold Frame.jump
  split <;> trivial

theorem Instr.apt_act {cls : String} {code : Code} {i : Instr} {fr : Frame} {w : World} :
    (i.act cls code fr w).Apt := by
  unfold Instr.act
  cases i with
  | ldc _ | iload _ | vreturn => trivial
  | istore _ | ineg | ireturn => exact Cell.apt_popInt fun _ _ => trivial
  | dup | pop =>
      dsimp only
      split <;> trivial
  | arith op =>
      refine Cell.apt_popInt fun b rest => Cell.apt_popInt fun a rest => ?_
      split <;> trivial
  | branch o l =>
      refine Cell.apt_popInt fun a rest => ?_
      split
      · exact Frame.apt_jump
      · trivial
  | goto l => exact Frame.apt_jump
  | getstatic f d =>
      dsimp only
      split
      · split <;> trivial
      · split <;> trivial
  | putstatic f d =>
      refine Cell.apt_popInt fun v rest => ?_
      split <;> trivial
  | invokestatic m =>
      dsimp only
      split
      · split
        · rename_i htake
          exact Cell.length_of_takeInts htake
        · trivial
      · trivial
  | invokevirtual m =>
      refine Cell.apt_popInt fun v rest => ?_
      split
      · split <;> trivial
      · trivial

theorem Frame.apt_act {cls : String} {code : Code} {fr : Frame} {w : World} :
    (fr.act cls code w).Apt := by
  unfold Frame.act
  split
  · exact Instr.apt_act
  all_goals trivial

section Lift

variable {M : Machine} {cls : ClassFile} {lo hi : Nat} {a b : Status}

/-- What answers a call is done by the method that the call enters. -/
theorem Machine.runs_of_answer {member : String} {args : List Int32} {fr : Frame} {w : World}
    (h : M.answer member args fr w = some b) (hcalls : cls.Realises M.functions M.calls)
    (hargs : args.length = (MethodSymbol.ofText member).params) (hb : b ≠ .halted .outOfFuel)
    (callers : List Activation) :
    ∃ m, cls.member? member = some m
      ∧ cls.Runs (.running ⟨m.code, .fresh args⟩ (⟨M.code, fr⟩ :: callers) w)
          (b.under M.code callers) := by
  cases hfind : M.functions.find? fun s => s.descriptor == member with
  | none =>
      rw [Machine.answer, hfind] at h
      cases h
  | some s =>
      have hmember : s.descriptor = member := by simpa using List.find?_some hfind
      subst hmember
      rw [MethodSymbol.ofText_descriptor] at hargs
      obtain ⟨m, hm, hruns⟩ := hcalls s (List.mem_of_find?_eq_some hfind) args w hargs
      refine ⟨m, hm, ?_⟩
      have hcallee := hruns (⟨M.code, fr⟩ :: callers)
      cases hcall : M.calls s.name args w with
      | ok result =>
          simp only [Machine.answer, hfind, hcall, Option.some.injEq] at h
          subst h
          rw [hcall] at hcallee
          exact hcallee (by rintro ⟨⟩)
      | error reason =>
          simp only [Machine.answer, hfind, hcall, Option.some.injEq] at h
          subst h
          rw [hcall] at hcallee
          refine hcallee ?_
          rintro ⟨⟩
          exact hb rfl

/-- A step of the top activation. Other than a call, it is a step of the class; a
call is over when the called method is. -/
theorem Machine.StepsIn.lift (h : M.StepsIn lo hi a b) (hcls : M.cls = cls.name)
    (hcalls : cls.Realises M.functions M.calls) (hb : b ≠ .halted .outOfFuel)
    (callers : List Activation) : cls.Runs (a.under M.code callers) (b.under M.code callers) := by
  cases h with
  | @intro fr w _ _ _ hstep =>
      have hclass : cls.step (.running ⟨M.code, fr⟩ callers w) =
          cls.perform M.code callers w (fr.act M.cls M.code w) := by
        rw [hcls]
        rfl
      rw [Machine.step] at hstep
      cases hact : fr.act M.cls M.code w with
      | call member args fr' =>
          have hargs : args.length = (MethodSymbol.ofText member).params := by
            have hapt : (fr.act M.cls M.code w).Apt := Frame.apt_act
            rwa [hact] at hapt
          rw [hact] at hstep hclass
          obtain ⟨m, hm, hruns⟩ := M.runs_of_answer hstep hcalls hargs hb callers
          refine Relation.ReflTransGen.head (hclass.trans ?_) hruns
          rw [ClassFile.perform, hm]
          rfl
      | stuck =>
          rw [hact] at hstep
          cases hstep
      | _ =>
          rw [hact] at hstep hclass
          cases hstep
          exact Relation.ReflTransGen.single hclass

/-- A run of the top activation is a run of the class, with the runs of the
methods that it calls in between. -/
theorem Machine.Runs.lift (h : M.Runs lo hi a b) (hcls : M.cls = cls.name)
    (hcalls : cls.Realises M.functions M.calls) (hb : b ≠ .halted .outOfFuel)
    (callers : List Activation) : cls.Runs (a.under M.code callers) (b.under M.code callers) := by
  revert hb
  induction h with
  | refl =>
      intro _
      exact .refl
  | tail _ hstep ih =>
      intro hb
      refine (ih ?_).trans (hstep.lift hcls hcalls hb callers)
      rintro rfl
      exact M.not_stepsIn_halted _ _ hstep

end Lift

/-! ## Methods of functions -/

namespace Generates

variable {config : Config} {p : Program} {cls : ClassFile} {c₀ c₁ c₂ : Context} {f : FunDecl}
  {args : List Int32}

/-- The method of a function is found by its name and by its descriptor. -/
theorem find_method (h : Generates config p cls c₀ c₁ c₂) (hf : f ∈ p.functions) :
    ∃ m, cls.function? f.name = some m ∧ cls.member? f.signature.descriptor = some m
      ∧ ∃ c c', c.Ready config p ∧ Compiles f c m c' := by
  obtain ⟨m, hm, c, c', hready, hcompiles⟩ := h.exists_method hf
  have hunique : ∀ m' ∈ cls.functions, m'.name = f.name → m' = m := by
    intro m' hm' hname
    have hnodup : (cls.functions.map Method.name).Nodup := h.names_eq ▸ h.nodup_names
    exact List.inj_on_of_nodup_map hnodup hm' hm (hname.trans hcompiles.name_eq.symm)
  refine ⟨m, ?_, ?_, c, c', hready, hcompiles⟩
  · refine find?_eq_some_of_unique hm (beq_iff_eq.mpr hcompiles.name_eq) ?_
    intro m' hm' hname
    exact hunique m' hm' (beq_iff_eq.mp hname)
  · refine find?_eq_some_of_unique hm (beq_iff_eq.mpr (hcompiles.descriptor_eq hready hf)) ?_
    intro m' hm' hdescriptor
    obtain ⟨g, hg, d, d', hready', hcompiles'⟩ := h.exists_function hm'
    rw [beq_iff_eq, hcompiles'.descriptor_eq hready' hg] at hdescriptor
    have hname := congrArg Signature.name (Signature.eq_of_descriptor_eq hdescriptor)
    rw [FunDecl.name_signature, FunDecl.name_signature] at hname
    exact hunique m' hm' (hcompiles'.name_eq.trans hname)

theorem run_succ (h : Generates config p cls c₀ c₁ c₂) (hf : f ∈ p.functions) (n : Nat)
    (w : World) :
    p.run config (n + 1) f.name args w = f.run config p (p.interp config n) n args w := by
  have hfind : (p.functions.find? fun g => g.name == f.name) = some f := by
    refine find?_eq_some_of_unique hf (beq_self_eq_true _) ?_
    intro g hg hname
    exact List.inj_on_of_nodup_map h.nodup_names hg hf (beq_iff_eq.mp hname)
  rw [Program.run, hfind]
  rfl

/-- If calls are answered as the interpretation says, the method of a function
does what the function does under this interpretation. -/
theorem performs_run (h : Generates config p cls c₀ c₁ c₂) (hp : p.WellFormed config) {I : Interp}
    (hI : cls.Realises (p.functions.map FunDecl.signature) I) (hf : f ∈ p.functions)
    (hargs : args.length = f.signature.arity) (n : Nat) (w : World) :
    (∀ v? w', f.run config p I n args w = .ok (v?, w') → v?.isSome = (f.returns == .int))
      ∧ cls.Performs f.signature.descriptor args w (f.run config p I n args w) := by
  obtain ⟨m, -, hm, c, c', hready, hcompiles⟩ := h.find_method hf
  let M : Machine := ⟨config.className, p.functions.map FunDecl.signature, I, m.code⟩
  have hfollows : M.Follows 0 M.code.length (.running (.fresh args) w)
      (f.run config p I n args w) f.Ends :=
    hcompiles.executes hready hf hp rfl rfl rfl hargs n w
  have hcls : M.cls = cls.name := h.className_eq.symm
  cases hrun : f.run config p I n args w with
  | error reason =>
      rw [hrun] at hfollows
      refine ⟨fun _ _ hok => (by cases hok), m, hm, fun callers hne => ?_⟩
      refine Machine.Runs.lift (hfollows hne) hcls hI ?_ callers
      rintro ⟨⟩
      exact hne rfl
  | ok result =>
      rw [hrun] at hfollows
      obtain ⟨c, hruns, hsome, rfl⟩ := hfollows (by rintro ⟨⟩)
      refine ⟨?_, m, hm, fun callers _ => hruns.lift hcls hI (by rintro ⟨⟩) callers⟩
      rintro _ _ ⟨⟩
      exact hsome

end Generates

theorem ReturnType.given_getD {t : ReturnType} {v? : Option Int32}
    (h : v?.isSome = (t == .int)) : t.given (v?.getD 0) = v? := by
  cases t <;> cases v? <;> first | rfl | cases h

namespace Generates

variable {config : Config} {p : Program} {cls : ClassFile} {c₀ c₁ c₂ : Context}

/-- The methods of a class do what the functions of the program do, by induction
on the bound: a call within a run has a smaller one. -/
theorem performs (h : Generates config p cls c₀ c₁ c₂) (hp : p.WellFormed config) :
    ∀ (n : Nat) {f : FunDecl}, f ∈ p.functions → ∀ {args : List Int32},
      args.length = f.signature.arity → ∀ w : World,
        (∀ v? w', p.run config n f.name args w = .ok (v?, w') → v?.isSome = (f.returns == .int))
          ∧ cls.Performs f.signature.descriptor args w (p.run config n f.name args w) := by
  intro n
  induction n with
  | zero =>
      intro f hf args _ w
      obtain ⟨m, -, hm, -⟩ := h.find_method hf
      exact ⟨fun _ _ hok => (by cases hok), m, hm, fun _ hne => absurd rfl hne⟩
  | succ n ih =>
      intro f hf args hargs w
      rw [h.run_succ hf]
      refine h.performs_run hp ?_ hf hargs n w
      intro s hs args w hargs
      obtain ⟨g, hg, rfl⟩ := List.mem_map.mp hs
      obtain ⟨hsome, hperforms⟩ := ih hg hargs w
      -- the value of a call is the value returned, if the function returns one
      have hcall : ((p.interp config n g.signature.name args w).map
          fun (v, w') => (g.signature.returns.given v, w')) = p.run config n g.name args w := by
        rw [Program.interp, g.name_signature, hp.returns_signature hg]
        cases hrun : p.run config n g.name args w with
        | error reason => rfl
        | ok result =>
            obtain ⟨v?, w'⟩ := result
            change Except.ok (g.returns.given (v?.getD 0), w') = _
            rw [ReturnType.given_getD (hsome v? w' hrun)]
      rw [hcall]
      exact hperforms

/-- Bounds matter only until they suffice: runs that end, end alike. The class is
what ties them together, since it runs without a bound. -/
theorem run_eq_run (h : Generates config p cls c₀ c₁ c₂) (hp : p.WellFormed config) {f : FunDecl}
    (hf : f ∈ p.functions) {args : List Int32} (hargs : args.length = f.signature.arity)
    {w : World} {n k : Nat} (hn : p.run config n f.name args w ≠ .error .outOfFuel)
    (hk : p.run config k f.name args w ≠ .error .outOfFuel) :
    p.run config n f.name args w = p.run config k f.name args w := by
  obtain ⟨-, m, hm, hruns⟩ := h.performs hp n hf hargs w
  obtain ⟨-, m', hm', hruns'⟩ := h.performs hp k hf hargs w
  cases hm.symm.trans hm'
  have hunique : Relator.RightUnique fun a b => cls.step a = some b :=
    fun a b d hb hd => Option.some.inj (hb.symm.trans hd)
  have hends : ∀ r d, ¬cls.step (.after [] r) = some d := by
    intro r d
    rcases r with reason | ⟨v?, w'⟩ <;> rintro ⟨⟩
  exact ClassState.after_nil_inj
    (eq_of_reflTransGen hunique (hruns [] hn) (hruns' [] hk) (hends _) (hends _))

end Generates

/-- **Whole programs.** Take any function of a well-formed program, any arguments
and any world, and enter the function's method with those arguments. If a run of
the function ends with a result, the class finishes with that result, the same
fields and the same output; and there is a value just if the function is declared
to return one. If a run of the function ends without a result, the class halts for
the same reason. -/
theorem methods_simulate_functions {config : Config} {p : Program} {cls : ClassFile}
    (hp : p.WellFormed config) (h : p.generate config = .ok cls) :
    ∀ f ∈ p.functions, ∃ m, cls.function? f.name = some m
      ∧ m.descriptor = f.signature.descriptor
      ∧ ∀ (args : List Int32) (w : World), args.length = f.signature.arity →
          let start := ClassState.running ⟨m.code, .fresh args⟩ [] w
          (∀ n v? w', p.run config n f.name args w = .ok (v?, w') →
              cls.Runs start (.finished v? w') ∧ v?.isSome = (f.returns == .int))
            ∧ ∀ n reason, p.run config n f.name args w = .error reason → reason ≠ .outOfFuel →
                cls.Runs start (.halted reason) := by
  intro f hf
  obtain ⟨c₀, c₁, c₂, hgen⟩ := Program.generates h
  obtain ⟨m, hfunction, hmember, c, c', hready, hcompiles⟩ := hgen.find_method hf
  refine ⟨m, hfunction, hcompiles.descriptor_eq hready hf, ?_⟩
  intro args w hargs start
  have hruns : ∀ n, p.run config n f.name args w ≠ .error .outOfFuel →
      cls.Runs start (.after [] (p.run config n f.name args w)) := by
    intro n hne
    obtain ⟨-, m', hm', hperforms⟩ := hgen.performs hp n hf hargs w
    cases hmember.symm.trans hm'
    exact hperforms [] hne
  refine ⟨?_, ?_⟩
  · intro n v? w' hrun
    have hfinished := hruns n (by rw [hrun]; rintro ⟨⟩)
    rw [hrun] at hfinished
    exact ⟨hfinished, (hgen.performs hp n hf hargs w).1 v? w' hrun⟩
  · intro n reason hrun hreason
    have hhalted := hruns n (by rw [hrun]; rintro ⟨⟩; exact hreason rfl)
    rw [hrun] at hhalted
    exact hhalted

/-- The entry point of the small program prints the greatest common divisor of 12
and the field `base`. -/
theorem euclid_main_prints_gcd :
    let w : World := ⟨fun x => if x = "base" then 18 else 0, []⟩
    ∃ cls m w', Program.euclid.generate {} = .ok cls ∧ cls.function? "main" = some m
      ∧ w'.output = [6] ∧ cls.Runs (.running ⟨m.code, .fresh [0]⟩ [] w) (.finished none w') := by
  intro w
  have hp : Program.euclid.WellFormed {} := by decide +kernel
  have hmain : ∃ f ∈ Program.euclid.functions, f.name = "main" ∧ f.signature.arity = 1 := by
    decide +kernel
  have hresult : (Program.euclid.run {} 6 "main" [0] w).toOption.map
      (fun r => (r.1, r.2.output)) = some (none, [6]) := by decide +kernel
  obtain ⟨cls, hcls⟩ := Program.exists_generate_euclid
  obtain ⟨f, hf, hname, harity⟩ := hmain
  obtain ⟨m, hm, -, hsimulates⟩ := methods_simulate_functions hp hcls f hf
  rw [hname] at hm hsimulates
  cases hrun : Program.euclid.run {} 6 "main" [0] w with
  | error reason =>
      rw [hrun] at hresult
      cases hresult
  | ok result =>
      rw [hrun] at hresult
      obtain ⟨hnone, houtput⟩ := Prod.mk.inj (Option.some.inj hresult)
      refine ⟨cls, m, result.2, hcls, hm, houtput, ?_⟩
      refine ((hsimulates [0] w harity.symm).1 6 none result.2 ?_).1
      rw [hrun, ← hnone]

end JasminGen
