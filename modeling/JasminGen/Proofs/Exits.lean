import JasminGen.Proofs.Labels
import JasminGen.Proofs.Shape

/-!
# How methods are left

A method is left by the returns of its source, and by one that is supplied where a function
that gives nothing does not end in a `return`. Two things are asked of them here.

The first is that they fit the method's descriptor. The instruction is chosen where a
`return` is met, by whether it has a value; the descriptor is chosen where the function is
declared, and for the entry point it is fixed. `returns_match_descriptor` says that a
function whose `return` statements suit its declaration has the returns of its descriptor,
unless it is an entry point that was declared to give an integer. Its `return` statements
then give an integer all the same.

The second is that control does not run off the end. The end of a two-armed `if` is a label,
and the first arm jumps there even if it never comes to its end. In a function that gives a
value, that label may be the last line. `methods_end_in_return` says that this is the only
way: if a body always returns, the method's last instruction is a return, and the labels that
stand after it are the ends of the two-armed `if`s in last place (`Stmt.closing`).
-/

namespace JasminGen

/-! ## Statements that always return -/

mutual

/-- A `return`, a block whose last statement always returns, or an `if` both of whose arms
do. -/
def Stmt.alwaysReturns : Stmt → Bool
  | .expr _ => false
  | .block _ ss => Stmt.lastAlwaysReturns ss
  | .ifThen _ _ => false
  | .ifElse _ s s' => s.alwaysReturns && s'.alwaysReturns
  | .loop _ _ => false
  | .ret _ => true

def Stmt.lastAlwaysReturns : List Stmt → Bool
  | [] => false
  | [s] => s.alwaysReturns
  | _ :: s :: ss => Stmt.lastAlwaysReturns (s :: ss)

end

mutual

/-- The end labels of the two-armed `if`s that end where the statement ends: itself, that in
its second arm, and that in the last place of a block. The statement is lowered when `n`
labels have been issued. -/
def Stmt.closing (n : Label) : Stmt → List Label
  | .expr _ => []
  | .block _ ss => Stmt.closingAll n ss
  | .ifThen _ _ => []
  | .ifElse e s s' => s'.closing (n + e.labelCount + s.labelCount) ++
      [n + e.labelCount + s.labelCount + s'.labelCount]
  | .loop _ _ => []
  | .ret _ => []

def Stmt.closingAll (n : Label) : List Stmt → List Label
  | [] => []
  | [s] => s.closing n
  | s :: s' :: ss => Stmt.closingAll (n + s.labelCount) (s' :: ss)

end

/-! ## Code that ends in a return -/

namespace Code

variable {c : Code} {ends : List Label}

/-- The label stands in the code, and wherever it does, an instruction comes after it. -/
def LeadsOn (c : Code) (l : Label) : Prop :=
  l ∈ labels c ∧ ∀ before after, c = before ++ .label l :: after → ∃ i, .instr i ∈ after

/-- The label ends a two-armed choice that stands in the code, and is the target of the jump
after its first arm. -/
def EndsChoice (c : Code) (l : Label) : Prop :=
  ∃ cond yes no otherwise, ifElse cond yes no otherwise l <:+: c

theorem EndsChoice.mono {d : Code} {l : Label} (h : EndsChoice c l) (hcd : c <:+: d) :
    EndsChoice d l := by
  obtain ⟨cond, yes, no, otherwise, hc⟩ := h
  exact ⟨cond, yes, no, otherwise, hc.trans hcd⟩

theorem EndsChoice.mem_targets {l : Label} (h : EndsChoice c l) : l ∈ targets c := by
  obtain ⟨cond, yes, no, otherwise, before, after, rfl⟩ := h
  simp [ifElse, Instr.target?]

/-- The last instruction is a return, and after it stand the labels `ends`, which are ends of
choices. -/
structure Closes (c : Code) (ends : List Label) : Prop where
  last : ∃ front i, c = front ++ .instr i :: ends.map .label ∧ i.isReturn = true
  choices : ∀ l ∈ ends, EndsChoice c l

theorem Leaves.closes (h : Leaves c) : Closes c [] := by
  obtain ⟨front, i, rfl, hi⟩ := h
  exact ⟨⟨front, i, rfl, hi⟩, by simp⟩

namespace Closes

theorem prepend (h : Closes c ends) (d : Code) : Closes (d ++ c) ends := by
  obtain ⟨⟨front, i, hc, hi⟩, hchoice⟩ := h
  refine ⟨⟨d ++ front, i, ?_, hi⟩, fun l hl => ?_⟩
  · rw [hc, List.append_assoc]
  · exact (hchoice l hl).mono (List.suffix_append d c).isInfix

theorem instrs_getLast? (h : Closes c ends) :
    ∃ i, (instrs c).getLast? = some i ∧ i.isReturn = true := by
  obtain ⟨⟨front, i, hc, hi⟩, -⟩ := h
  have hends : instrs (ends.map .label) = [] := by
    simp [instrs, List.filterMap_map, Function.comp_def, Line.instr?]
  refine ⟨i, ?_, hi⟩
  have hinstrs : instrs c = instrs front ++ [i] := by
    rw [hc, instrs_append]
    exact congrArg (fun is => instrs front ++ i :: is) hends
  rw [hinstrs, List.getLast?_concat]

/-- A label leads on unless it is one of those after the last instruction. -/
theorem leadsOn_iff (h : Closes c ends) {l : Label} (hl : l ∈ labels c) :
    LeadsOn c l ↔ l ∉ ends := by
  obtain ⟨⟨front, i, rfl, -⟩, -⟩ := h
  constructor
  · rintro ⟨-, hafter⟩ hmem
    obtain ⟨before, after, rfl⟩ := List.append_of_mem hmem
    obtain ⟨j, hj⟩ := hafter (front ++ .instr i :: before.map .label) (after.map .label) (by simp)
    simp at hj
  · intro hmem
    refine ⟨hl, fun before after hsplit => ?_⟩
    rcases List.append_eq_append_iff.mp hsplit with ⟨rest, -, hrest⟩ | ⟨rest, -, hrest⟩
    -- the label stands after the return, so it is one of `ends`
    · cases rest with
      | nil => cases hrest
      | cons line rest =>
          have hends : Line.label l ∈ ends.map Line.label := by
            rw [(List.cons.inj hrest).2]
            exact List.mem_append_right _ List.mem_cons_self
          obtain ⟨l', hl', heq⟩ := List.mem_map.mp hends
          cases heq
          exact absurd hl' hmem
    -- the label stands before the return
    · cases rest with
      | nil => cases hrest
      | cons line rest =>
          refine ⟨i, ?_⟩
          rw [(List.cons.inj hrest).2]
          exact List.mem_append_right _ List.mem_cons_self

end Closes

/-- The end of a choice is one more label that no instruction follows. It is reached by the
jump after the first arm, whatever the arm does. -/
theorem Closes.ifElse {cond yes no : Code} {otherwise done : Label} (h : Closes no ends) :
    Closes (ifElse cond yes no otherwise done) (ends ++ [done]) := by
  obtain ⟨⟨front, i, hno, hi⟩, hchoice⟩ := h
  obtain ⟨head, hsplit⟩ : ∃ head, Code.ifElse cond yes no otherwise done =
      head ++ no ++ [.label done] :=
    ⟨cond ++ .instr (.branch .eq otherwise) :: yes ++ [.instr (.goto done), .label otherwise],
      by simp [Code.ifElse]⟩
  refine ⟨⟨head ++ front, i, ?_, hi⟩, fun l hl => ?_⟩
  · rw [hsplit, hno]
    simp
  · rcases List.mem_append.mp hl with hends | hdone
    · exact (hchoice l hends).mono ⟨head, [.label done], hsplit.symm⟩
    · rw [List.mem_singleton.mp hdone]
      exact ⟨cond, yes, no, otherwise, List.infix_rfl⟩

end Code

mutual

/-- A statement that always returns ends in a return, but for the ends of the choices it
closes with: each is the target of the jump after its first arm. -/
theorem Lowers.closes : ∀ {s : Stmt} {c c' : Context} {code : Code}, Lowers s c code c' →
    s.alwaysReturns = true → Code.Closes code (s.closing c.labels)
  | .block ds ss, _, _, _, .block hds hss, hs => by
      rw [Stmt.alwaysReturns] at hs
      rw [Stmt.closing, ← hds.straight.1]
      exact (hss.closes hs).prepend _
  | .ifElse e s s', _, _, _, .ifElse (k := k) he hs hs', hreturns => by
      have hyes := hs.labels_eq
      change _ = k.labels + _ at hyes
      rw [Stmt.alwaysReturns, Bool.and_eq_true] at hreturns
      rw [Stmt.closing, ← he.labels_eq, ← hyes, ← hs'.labels_eq]
      exact (hs'.closes hreturns.2).ifElse
  | .ret value, _, _, _, h, _ => (h.leaves rfl).closes
  | .expr _, _, _, _, _, hs => by cases hs
  | .ifThen _ _, _, _, _, _, hs => by cases hs
  | .loop _ _, _, _, _, _, hs => by cases hs

theorem LowersAll.closes : ∀ {ss : List Stmt} {c c' : Context} {code : Code},
    LowersAll ss c code c' → Stmt.lastAlwaysReturns ss = true →
      Code.Closes code (Stmt.closingAll c.labels ss)
  | s :: ss, _, _, _, .cons h hrest, hss => by
      cases ss with
      | nil =>
          cases hrest
          rw [Stmt.lastAlwaysReturns] at hss
          rw [Stmt.closingAll, List.append_nil]
          exact h.closes hss
      | cons s' ss =>
          rw [Stmt.lastAlwaysReturns] at hss
          rw [Stmt.closingAll, ← h.labels_eq]
          exact (hrest.closes hss).prepend _

end

/-! ## The end of a method -/

/-- A supplied return stands after all labels. Without one, the method ends as its body. -/
theorem Compiles.closes {config : Config} {p : Program} {f : FunDecl} {c c' : Context}
    {m : Method} (h : Compiles f c m c') (hready : c.Ready config p) (hf : f ∈ p.functions)
    (hlast : f.signature.returns = .void ∨ Stmt.lastAlwaysReturns f.body = true) :
    ∃ lines, m.code = lines ++ Code.methodEnd ∧ Code.Closes lines
      (if f.signature.returns = .void then [] else Stmt.closingAll c.labels f.body) := by
  by_cases hvoid : f.signature.returns = .void
  · obtain ⟨lines, hcode, hleaves⟩ := h.leaves hready hf (.inl hvoid)
    rw [if_pos hvoid]
    exact ⟨lines, hcode, hleaves.closes⟩
  · cases h with
    | @intro s frame decls c₁ lines c₂ hs hframe hdecls hlines =>
        have hsignature : f.signature = s := Option.some.inj ((hready.signature hf).symm.trans hs)
        have hending : f.ending s = [] := by
          have hvoid' : ¬s.returns = .void := hsignature ▸ hvoid
          rw [FunDecl.ending, if_neg hvoid', ite_self]
        have hcloses := hlines.closes (hlast.resolve_left hvoid)
        rw [hdecls.straight.1] at hcloses
        refine ⟨_, (List.append_assoc ..).symm, ?_⟩
        rw [if_neg hvoid, hending, List.append_nil]
        exact (hcloses.prepend _).prepend _

/-- **Ends of methods.** Take a function that gives nothing, or whose body always returns.
The last instruction of its method is a return. A label that is jumped to leads on to an
instruction, unless the function gives a value and the label is the end of a two-armed `if`
in last place; those are jumped to, after the first arm, and do not lead on. The labels of the
method are numbered from `first`. -/
theorem methods_end_in_return {config : Config} {p : Program} {cls : ClassFile}
    (h : p.generate config = .ok cls) {n : Nat} {f : FunDecl} (hf : p.functions[n]? = some f)
    (hlast : (f.name = Signature.entryName ∨ f.returns = .void) ∨
      Stmt.lastAlwaysReturns f.body = true) :
    ∃ m, cls.functions[n]? = some m ∧ ∃ (lines : Code) (i : Instr) (first : Label),
      m.code = lines ++ [Line.directive .endMethod, .blank]
      ∧ (Code.instrs lines).getLast? = some i ∧ (i = .ireturn ∨ i = .vreturn)
      ∧ (Code.labels m.code).Perm (List.range' first (Stmt.labelCountAll f.body))
      ∧ (f.name = Signature.entryName ∨ f.returns = .void →
          ∀ l ∈ Code.targets m.code, Code.LeadsOn lines l)
      ∧ (¬(f.name = Signature.entryName ∨ f.returns = .void) →
          (∀ l ∈ Stmt.closingAll first f.body, l ∈ Code.targets m.code ∧ Code.EndsChoice m.code l)
          ∧ ∀ l ∈ Code.targets m.code,
              Code.LeadsOn lines l ↔ l ∉ Stmt.closingAll first f.body) := by
  obtain ⟨c₀, c₁, c₂, hgen⟩ := Program.generates h
  obtain ⟨m, hm, c, c', hready, hcompiles⟩ := hgen.exists_compiles_at hf
  simp only [← f.returns_signature_eq_void_iff] at hlast ⊢
  obtain ⟨lines, hcode, hcloses⟩ := hcompiles.closes hready (List.mem_of_getElem? hf) hlast
  obtain ⟨i, hi, hreturn⟩ := hcloses.instrs_getLast?
  have hlabels : Code.labels m.code = Code.labels lines := by
    rw [hcode, Code.labels_append]
    exact List.append_nil _
  have hdefined : ∀ l ∈ Code.targets m.code, l ∈ Code.labels lines := by
    rw [← hlabels]
    exact fun l hl => hcompiles.labelled.mem_labels_of_mem_targets hl
  have hnumbered := hcompiles.labelled.perm_range'
  rw [hcompiles.labels_eq, Nat.add_sub_cancel_left] at hnumbered
  refine ⟨m, hm, lines, i, c.labels, hcode, hi, Instr.eq_of_isReturn hreturn, hnumbered, ?_, ?_⟩
  · intro hvoid l hl
    rw [if_pos hvoid] at hcloses
    exact (hcloses.leadsOn_iff (hdefined l hl)).mpr List.not_mem_nil
  · intro hvoid
    rw [if_neg hvoid] at hcloses
    refine ⟨fun l hl => ?_, fun l hl => hcloses.leadsOn_iff (hdefined l hl)⟩
    have hinfix : lines <:+: m.code := hcode ▸ (List.prefix_append ..).isInfix
    have hchoice := (hcloses.choices l hl).mono hinfix
    exact ⟨hchoice.mem_targets, hchoice⟩

/-! ## Two functions declared to give an integer

In the first, the end of the choice is the end of the body. The second is an entry point. -/

def Program.choice : Program where
  decls :=
    [.function
      { returns := .int, name := "pick", params := [⟨"n", .int⟩], locals := []
        body := [.ifElse (.ident "n") (.ret (some (.lit 1))) (.ret (some (.lit 2)))] },
     .function
      { returns := .int, name := "main", params := [], locals := []
        body := [.ret (some (.call "pick" [.lit 0]))] }]

theorem Program.exists_generate_choice : ∃ cls, choice.generate {} = .ok cls :=
  Program.exists_generate (by decide +kernel)

/-- The choice has two labels, and its end does not lead on. -/
theorem choice_ends_in_return : ∃ cls m, ∃ (lines : Code) (i : Instr) (first : Label),
    Program.choice.generate {} = .ok cls ∧ cls.functions[0]? = some m
    ∧ m.code = lines ++ [Line.directive .endMethod, .blank]
    ∧ (Code.instrs lines).getLast? = some i ∧ (i = .ireturn ∨ i = .vreturn)
    ∧ (Code.labels m.code).Perm [first, first + 1]
    ∧ first ∈ Code.targets m.code ∧ Code.EndsChoice m.code first
    ∧ ∀ l ∈ Code.targets m.code, Code.LeadsOn lines l ↔ l ≠ first := by
  obtain ⟨cls, hcls⟩ := Program.exists_generate_choice
  obtain ⟨m, hm, lines, i, first, hcode, hi, hreturn, hlabels, -, hvalue⟩ :=
    methods_end_in_return hcls (n := 0) rfl (.inr rfl)
  obtain ⟨hjumped, hleads⟩ := hvalue (by decide)
  obtain ⟨htarget, hchoice⟩ := hjumped first (List.mem_singleton_self first)
  refine ⟨cls, m, lines, i, first, hcls, hm, hcode, hi, hreturn, hlabels, htarget, hchoice,
    fun l hl => ?_⟩
  exact (hleads l hl).trans (not_congr List.mem_singleton)

/-- The body always returns, and yet a label that is jumped to stands last in the method. -/
theorem choice_jumps_past_last_instruction : ∃ f cls m, ∃ (lines : Code) (l : Label),
    Program.choice.functions[0]? = some f ∧ Stmt.lastAlwaysReturns f.body = true
    ∧ Program.choice.generate {} = .ok cls ∧ cls.functions[0]? = some m
    ∧ m.code = lines ++ [Line.directive .endMethod, .blank]
    ∧ l ∈ Code.targets m.code ∧ ¬Code.LeadsOn lines l := by
  obtain ⟨cls, hcls⟩ := Program.exists_generate_choice
  have hcode : ((Program.choice.generate {}).toOption.bind (·.functions[0]?)).map Method.code =
      some ([.directive (.method "public static" "pick(I)I"), .directive (.limitStack 2),
        .directive (.limitLocals 1), .instr (.iload 0), .instr (.branch .eq 1), .instr (.ldc 1),
        .instr .ireturn, .instr (.goto 0), .label 1, .instr (.ldc 2), .instr .ireturn] ++
        [.label 0] ++ [.directive .endMethod, .blank]) := by
    decide +kernel
  rw [hcls] at hcode
  obtain ⟨m, hm, hcode⟩ := Option.map_eq_some_iff.mp hcode
  refine ⟨_, cls, m, _, 0, rfl, by decide, hcls, hm, hcode, ?_, fun hleads => ?_⟩
  · rw [hcode]
    decide
  · obtain ⟨i, hi⟩ := hleads.2 _ [] rfl
    cases hi

/-! ## Returns and descriptors -/

/-- The instruction that leaves a method of the return type. -/
def ReturnType.leave : ReturnType → Instr
  | int => .ireturn
  | void => .vreturn

/-- A descriptor ends in the return type. -/
theorem Signature.exists_descriptor_eq (s : Signature) :
    ∃ front, s.descriptor = front ++ s.returns.descriptor := by
  cases s with
  | entryPoint => exact ⟨entryName ++ "([Ljava/lang/String;)", rfl⟩
  | plain f ps t => exact ⟨_, rfl⟩

namespace FunDecl

variable {f : FunDecl}

theorem returns_signature_eq_int_iff (f : FunDecl) :
    f.signature.returns = .int ↔ f.name ≠ Signature.entryName ∧ f.returns = .int := by
  have hint (t : ReturnType) : t = .int ↔ ¬t = .void := by cases t <;> decide
  rw [hint, hint, f.returns_signature_eq_void_iff, not_or]

/-- A supplied return suits the signature. -/
theorem eq_leave_of_mem_returns_ending {i : Instr} (hi : i ∈ Code.returns (f.ending f.signature)) :
    i = f.signature.returns.leave := by
  rw [f.returns_ending] at hi
  split at hi
  · rename_i hsupplied
    rw [f.returns_signature_eq_void_iff.mpr hsupplied.1]
    exact List.mem_singleton.mp hi
  · cases hi

/-- `return` statements that suit the declaration become the declaration's returns. -/
theorem ofReturn_eq_leave {value : Option Expr}
    (h : value.isSome = true ↔ f.returns = .int) : Instr.ofReturn value = f.returns.leave := by
  cases value with
  | some e => rw [h.mp rfl]; rfl
  | none =>
      cases hreturns : f.returns with
      | int => exact absurd (h.mpr hreturns) Bool.false_ne_true
      | void => rfl

/-- The signature gives what the declaration says, unless it is the entry point's. -/
theorem returns_signature_eq_iff (f : FunDecl) :
    f.signature.returns = f.returns ↔ ¬(f.name = Signature.entryName ∧ f.returns = .int) := by
  cases hreturns : f.returns with
  | int => simp [returns_signature_eq_int_iff, hreturns]
  | void => simp [returns_signature_eq_void_iff, hreturns]

end FunDecl

theorem ReturnType.leave_inj {t u : ReturnType} : t.leave = u.leave ↔ t = u := by
  cases t <;> cases u <;> decide

/-- **Returns and descriptors.** Take a function all of whose `return` statements have a
value if it is declared to give an integer, and none if it is declared to give nothing. Its
descriptor ends in its return type, which for the entry point is nothing. The returns of its
method are those of that type, unless it is an entry point declared to give an integer that
has a `return` statement. In any case the `return` statements become the returns of the type
that is declared, and a supplied one stands after them. -/
theorem returns_match_descriptor {config : Config} {p : Program} {cls : ClassFile}
    (h : p.generate config = .ok cls) {n : Nat} {f : FunDecl} (hf : p.functions[n]? = some f)
    (hfits : ∀ value ∈ Stmt.returnedAll f.body, value.isSome = true ↔ f.returns = .int) :
    ∃ m, cls.functions[n]? = some m ∧ ∃ (t : ReturnType) (front : String),
      m.descriptor = front ++ t.descriptor
      ∧ (t = .int ↔ f.name ≠ Signature.entryName ∧ f.returns = .int)
      ∧ ((∀ i ∈ Code.returns m.code, i = t.leave) ↔
          ¬(f.name = Signature.entryName ∧ f.returns = .int ∧ Stmt.returnedAll f.body ≠ []))
      ∧ Code.returns m.code =
          List.replicate (Stmt.returnedAll f.body).length f.returns.leave ++
            (if (f.name = Signature.entryName ∨ f.returns = .void) ∧ endsInReturn f.body = false
              then [.vreturn] else []) := by
  obtain ⟨c₀, c₁, c₂, hgen⟩ := Program.generates h
  obtain ⟨m, hm, c, c', hready, hcompiles⟩ := hgen.exists_compiles_at hf
  have hmem := List.mem_of_getElem? hf
  obtain ⟨front, hdescriptor⟩ := f.signature.exists_descriptor_eq
  have hreturns := hcompiles.returns_eq hready hmem
  have hstated : (Stmt.returnedAll f.body).map Instr.ofReturn =
      List.replicate (Stmt.returnedAll f.body).length f.returns.leave :=
    List.map_eq_replicate_iff.mpr fun value hvalue => FunDecl.ofReturn_eq_leave (hfits value hvalue)
  rw [hstated] at hreturns
  refine ⟨m, hm, f.signature.returns, front, ?_, f.returns_signature_eq_int_iff, ?_, ?_⟩
  · rw [hcompiles.descriptor_eq hready hmem, hdescriptor]
  · rw [← and_assoc, not_and_or, ← f.returns_signature_eq_iff, not_not, hreturns]
    constructor
    · intro hall
      by_cases hvalues : Stmt.returnedAll f.body = []
      · exact .inr hvalues
      · have hleave : f.returns.leave = f.signature.returns.leave := by
          refine hall _ (List.mem_append_left _ (List.mem_replicate.mpr ⟨?_, rfl⟩))
          exact mt List.length_eq_zero_iff.mp hvalues
        exact .inl (ReturnType.leave_inj.mp hleave).symm
    · intro hcases i hi
      rcases List.mem_append.mp hi with hstated | hsupplied
      · obtain ⟨hlength, rfl⟩ := List.mem_replicate.mp hstated
        have hvalues : Stmt.returnedAll f.body ≠ [] := mt List.length_eq_zero_iff.mpr hlength
        rw [hcases.resolve_right hvalues]
      · exact FunDecl.eq_leave_of_mem_returns_ending hsupplied
  · rw [hreturns, f.returns_ending]

/-- The method of the choice gives an integer, and leaves with one at every return. -/
theorem choice_returns_match_descriptor : ∃ cls m, ∃ front : String,
    Program.choice.generate {} = .ok cls ∧ cls.functions[0]? = some m
    ∧ m.descriptor = front ++ "I" ∧ ∀ i ∈ Code.returns m.code, i = .ireturn := by
  obtain ⟨cls, hcls⟩ := Program.exists_generate_choice
  obtain ⟨m, hm, t, front, hdescriptor, ht, hreturns, -⟩ :=
    returns_match_descriptor hcls (n := 0) rfl (by decide)
  obtain rfl : t = .int := ht.mpr (by decide)
  exact ⟨cls, m, front, hcls, hm, hdescriptor, hreturns.mpr (by decide)⟩

/-- The entry point is declared to give an integer and its only `return` has a value; the
descriptor ends in `V`, and the method leaves with an integer. -/
theorem entry_point_returns_integer : ∃ f cls m,
    Program.choice.functions[1]? = some f
    ∧ (∀ value ∈ Stmt.returnedAll f.body, value.isSome = true ↔ f.returns = .int)
    ∧ Program.choice.generate {} = .ok cls ∧ cls.functions[1]? = some m
    ∧ m.descriptor = "main([Ljava/lang/String;)V" ∧ Code.returns m.code = [.ireturn] := by
  obtain ⟨cls, hcls⟩ := Program.exists_generate_choice
  have hmain : ((Program.choice.generate {}).toOption.bind (·.functions[1]?)).map
      (fun m => (m.descriptor, Code.returns m.code)) =
        some ("main([Ljava/lang/String;)V", [.ireturn]) := by
    decide +kernel
  rw [hcls] at hmain
  obtain ⟨m, hm, hpair⟩ := Option.map_eq_some_iff.mp hmain
  obtain ⟨hdescriptor, hreturns⟩ := Prod.mk.inj hpair
  exact ⟨_, cls, m, rfl, by decide, hcls, hm, hdescriptor, hreturns⟩

end JasminGen
