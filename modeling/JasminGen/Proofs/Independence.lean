import JasminGen.Proofs.Parallel

/-!
# Methods do not depend on each other

All functions of a program are compiled with one context, one after the other. What
an earlier function leaves in it is a frame, a depth, a watermark and a number of
issued labels. `methods_independent` says that only the last of these is seen by a
later function, and only as a distance between labels. A function that fails leaves
no more than one that compiles.

For whole programs this means that a method follows from its own declaration and from
the members of the class. The other bodies, and the order of all declarations, decide
which labels it gets: they begin after those that the functions before it need.
-/

namespace JasminGen

open Attempt (EndsAlike)

theorem Context.apart_of_archived {c c' : Context} (hclass : c.toNames.SameClass c'.toNames)
    (h : c.meter.archived = []) (h' : c'.meter.archived = []) :
    c.Apart (c'.labels - c.labels) c' where
  names := hclass
  labels := by
    change (c'.labels : Int) = c.labels + (c'.labels - c.labels)
    omega
  archive := (Queue.eq_empty h').trans (Queue.eq_empty h).symm

namespace Program

/-- Two programs with the same members: neither their order nor the bodies count. -/
structure SameMembers (p q : Program) : Prop where
  globals : ∀ v, v ∈ q.globals.map VarDecl.toVariable ↔ v ∈ p.globals.map VarDecl.toVariable
  functions : ∀ s, s ∈ q.functions.map FunDecl.signature ↔ s ∈ p.functions.map FunDecl.signature

variable {config : Config} {p q : Program}

theorem SameMembers.of_perm (h : q.decls.Perm p.decls) : p.SameMembers q where
  globals _ := ((h.filterMap _).map _).mem_iff
  functions _ := ((h.filterMap _).map _).mem_iff

theorem SameMembers.sameClass (h : p.SameMembers q) {c c' : Context} (hc : c.Ready config p)
    (hc' : c'.Ready config q) : c.toNames.SameClass c'.toNames where
  className := by rw [hc.config, hc'.config]
  printBuiltin := by rw [hc.config, hc'.config]
  fields := Registry.find?_congr (by rw [hc.fields, hc'.fields]; exact h.globals)
  functions := Registry.find?_congr (by rw [hc.functions, hc'.functions]; exact h.functions)

/-- The labels issued before a function are those of the functions before it. -/
theorem labels_of_runTo {n : Nat} {ms : List Method} {c : Context}
    (h : (p.runTo n).on (.start config) = (.ok ms, c)) :
    c.labels = FunDecl.labelCountAll (p.functions.take n) := by
  obtain ⟨_, c₀, hdeclare, h⟩ := Attempt.on_bind_eq_ok.mp h
  obtain ⟨_, c₁, hstatic, hfunctions⟩ := Attempt.on_bind_eq_ok.mp h
  have hzero : c₀.labels = 0 := congrArg Counters.labels (declared_of_declare hdeclare).counters
  have hinit := (StaticInit.staticInitialises_of_compile hstatic).labelled.1
  rw [(FunDecl.compilesAll_of_mapM hfunctions).labels_eq, hinit, hzero, Nat.zero_add]

end Program

/-- Compiled in two contexts for classes with the same members, and with no watermark
left over, a function fails in both with the same error, or becomes the same method
in both up to the distance between the labels. The frames and meters may differ in
any way. Both runs issue the same number of labels and leave no watermark, also where
they fail.

So if two programs have the same members and both become classes, a function that they
share becomes the same method in both, up to the labels that the functions before it
take. -/
theorem methods_independent :
    (∀ (f : FunDecl) (c c' : Context), c.toNames.SameClass c'.toNames →
      c.meter.archived = [] → c'.meter.archived = [] →
        EndsAlike (Method.Shifted (c'.labels - c.labels)) (f.compile.on c).1 (f.compile.on c').1
        ∧ ((f.compile.on c').2.labels : Int) - c'.labels = (f.compile.on c).2.labels - c.labels
        ∧ (f.compile.on c).2.meter.archived = [] ∧ (f.compile.on c').2.meter.archived = [])
    ∧ ∀ (config : Config) (p q : Program) (cls cls' : ClassFile), p.generate config = .ok cls →
      q.generate config = .ok cls' → p.SameMembers q →
        ∀ (i j : Nat) (f : FunDecl), p.functions[i]? = some f → q.functions[j]? = some f →
          ∃ m m', cls.functions[i]? = some m ∧ cls'.functions[j]? = some m'
            ∧ m.Shifted (FunDecl.labelCountAll (q.functions.take j)
                - FunDecl.labelCountAll (p.functions.take i)) m' := by
  refine ⟨fun f c c' hclass h h' => ?_, fun config p q cls cls' hp hq hmembers i j f hi hj => ?_⟩
  · obtain ⟨hends, hstates⟩ := f.matched_compile (Context.apart_of_archived hclass h h')
    have hlabels : ((f.compile.on c').2.labels : Int) =
      (f.compile.on c).2.labels + (c'.labels - c.labels) := hstates.labels
    exact ⟨hends, by omega, f.archived_compile h, f.archived_compile h'⟩
  · obtain ⟨c, m, c₁, hrun, hm, hget⟩ := Program.exists_runTo hp hi
    obtain ⟨c', m', c₁', hrun', hm', hget'⟩ := Program.exists_runTo hq hj
    have hready := Program.ready_of_runTo hrun
    have hready' := Program.ready_of_runTo hrun'
    have hends := (f.matched_compile (Context.apart_of_archived
      (hmembers.sameClass hready hready') hready.archived hready'.archived)).ends
    rw [hm, hm', Program.labels_of_runTo hrun, Program.labels_of_runTo hrun'] at hends
    cases hends with
    | ok hshifted => exact ⟨m, m', hget, hget', hshifted⟩

/-- With its declarations reversed, the main function of the small program comes first.
Its labels then begin four lower, since `gcd` has taken four. -/
theorem euclid_main_up_to_labels : ∃ cls cls' m m', Program.euclid.generate {} = .ok cls
    ∧ Program.generate {} ⟨Program.euclid.decls.reverse⟩ = .ok cls'
    ∧ cls.functions[1]? = some m ∧ cls'.functions[0]? = some m' ∧ m.Shifted (-4) m' := by
  obtain ⟨cls, hcls⟩ := Program.exists_generate_euclid
  have hok : (Program.generate {} ⟨Program.euclid.decls.reverse⟩).isOk = true := by decide +kernel
  cases hcls' : Program.generate {} ⟨Program.euclid.decls.reverse⟩ with
  | error e => rw [hcls'] at hok; cases hok
  | ok cls' =>
      have hmembers := Program.SameMembers.of_perm (q := ⟨Program.euclid.decls.reverse⟩)
        (List.reverse_perm Program.euclid.decls)
      obtain ⟨m, m', hm, hm', hshifted⟩ :=
        methods_independent.2 {} _ _ cls cls' hcls hcls' hmembers 1 0 _ rfl rfl
      exact ⟨cls, cls', m, m', hcls, rfl, hm, hm', hshifted⟩

end JasminGen
