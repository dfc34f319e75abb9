import JasminGen.Proofs.References

/-!
# The shape of a method

The end of a method is written in one of two places: by a `return` that stands last in the
body, or after the body, with a `return` that nobody wrote when the function gives nothing.
`methods_shaped` says that this comes to one header and one end for every body, and that a
method returns where its source does and nowhere else but there.

`Stmt.returned` collects the `return` statements of a body. The returns of its code are
those, one by one and in the same order (`LowersAll.returns_eq`).
-/

namespace JasminGen

/-! ## Returns of a body -/

mutual

/-- What the `return` statements give back, at any nesting and in text order. -/
def Stmt.returned : Stmt → List (Option Expr)
  | .expr _ => []
  | .block _ ss => Stmt.returnedAll ss
  | .ifThen _ s => s.returned
  | .ifElse _ s s' => s.returned ++ s'.returned
  | .loop _ s => s.returned
  | .ret value => [value]

def Stmt.returnedAll : List Stmt → List (Option Expr)
  | [] => []
  | s :: ss => s.returned ++ Stmt.returnedAll ss

end

/-- The instruction for a `return` with or without a value. -/
def Instr.ofReturn : Option Expr → Instr
  | some _ => ireturn
  | none => vreturn

theorem Instr.eq_of_isReturn {i : Instr} (h : i.isReturn = true) : i = .ireturn ∨ i = .vreturn := by
  cases i with
  | ireturn => exact .inl rfl
  | vreturn => exact .inr rfl
  | _ => cases h

theorem Instr.count_map_ofReturn {i : Instr} {q : Option Expr → Bool}
    (h : ∀ value, (Instr.ofReturn value == i) = q value) (values : List (Option Expr)) :
    (values.map Instr.ofReturn).count i = values.countP q := by
  rw [List.count_eq_countP, List.countP_map]
  exact congrArg (List.countP · values) (funext h)

theorem Line.isReturn_of_isPlain {i : Instr} (h : (Line.instr i).isPlain = true) :
    i.isReturn = false := by
  rw [Line.isPlain, Bool.and_eq_true, Bool.not_eq_true', Bool.not_eq_true'] at h
  exact h.2

namespace Code

variable {config : Config} {p : Program} {c : Code}

/-- The instructions that leave the method, in text order. -/
def returns (c : Code) : List Instr := (instrs c).filter Instr.isReturn

@[simp] theorem returns_nil : returns [] = [] := rfl

@[simp] theorem returns_append (c d : Code) : returns (c ++ d) = returns c ++ returns d := by
  simp [returns]

@[simp] theorem returns_cons_instr (i : Instr) (c : Code) :
    returns (.instr i :: c) = if i.isReturn then i :: returns c else returns c := by
  simp [returns, instrs, Line.instr?, List.filter_cons]

@[simp] theorem returns_cons_label (l : Label) (c : Code) :
    returns (.label l :: c) = returns c := rfl

theorem returns_eq_nil (h : ∀ i, .instr i ∈ c → i.isReturn = false) : returns c = [] := by
  rw [returns, List.filter_eq_nil_iff]
  intro i hi
  obtain ⟨line, hline, hinstr⟩ := List.mem_filterMap.mp hi
  cases line with
  | instr j =>
      cases hinstr
      simp [h i hline]
  | label l => cases hinstr
  | directive d => cases hinstr
  | blank => cases hinstr

theorem returns_of_plain (h : c.all Line.isPlain = true) : returns c = [] :=
  returns_eq_nil fun _ hi => Line.isReturn_of_isPlain (List.all_eq_true.mp h _ hi)

theorem Resolved.returns_eq_nil (h : Code.Resolved config p c) : returns c = [] := by
  refine Code.returns_eq_nil fun i hi => ?_
  cases h _ hi with
  | plain hplain => exact Line.isReturn_of_isPlain hplain
  | _ => rfl

end Code

mutual

/-- The returns of the code are those of the statement: expressions do not leave the
method, and no pattern of control flow adds a return of its own. -/
theorem Lowers.returns_eq {config : Config} {p : Program} :
    ∀ {s : Stmt} {c c' : Context} {code : Code}, Lowers s c code c' → c.toNames.Of config p →
      Code.returns code = s.returned.map Instr.ofReturn
  | .expr e, _, _, _, .expr h, hc => by
      have hpops (n : Nat) : Code.returns (List.replicate n (.instr .pop)) = [] :=
        Code.returns_eq_nil (by simp [Instr.isReturn])
      rw [Code.returns_append, (h.resolved hc).returns_eq_nil, hpops]
      rfl
  | .block ds ss, _, _, _, .block hds hss, hc => by
      rw [Code.returns_append, Code.returns_of_plain hds.plain, hss.returns_eq (hds.grows.names hc)]
      rfl
  | .ifThen e s, _, _, _, .ifThen he hs, hc => by
      have hcond := (he.resolved hc).returns_eq_nil
      have hyes := hs.returns_eq hc
      simp [Code.ifThen, Stmt.returned, Instr.isReturn, hcond, hyes]
  | .ifElse e s s', _, _, _, .ifElse he hs hs', hc => by
      have hcond := (he.resolved hc).returns_eq_nil
      have hyes := hs.returns_eq hc
      have hno := hs'.returns_eq (hs.grows.names hc)
      simp [Code.ifElse, Stmt.returned, Instr.isReturn, hcond, hyes, hno]
  | .loop e s, _, _, _, .loop he hs, hc => by
      have hcond := (he.resolved hc).returns_eq_nil
      have hbody := hs.returns_eq hc
      simp [Code.loop, Stmt.returned, Instr.isReturn, hcond, hbody]
  | .ret (some e), _, _, _, .retValue h, hc => by
      rw [Code.returns_append, (h.resolved hc).returns_eq_nil]
      rfl
  | .ret none, _, _, _, .retVoid, _ => rfl

theorem LowersAll.returns_eq {config : Config} {p : Program} :
    ∀ {ss : List Stmt} {c c' : Context} {code : Code}, LowersAll ss c code c' →
      c.toNames.Of config p → Code.returns code = (Stmt.returnedAll ss).map Instr.ofReturn
  | _, _, _, _, .nil, _ => rfl
  | s :: ss, _, _, _, .cons h hs, hc => by
      rw [Code.returns_append, h.returns_eq hc, hs.returns_eq (h.grows.names hc), Stmt.returnedAll,
        List.map_append]

end

/-! ## The last line -/

/-- The code ends in a return. -/
def Code.Leaves (c : Code) : Prop := ∃ before i, c = before ++ [.instr i] ∧ i.isReturn = true

theorem Code.Leaves.append (c : Code) {d : Code} (hd : Code.Leaves d) : Code.Leaves (c ++ d) := by
  obtain ⟨before, i, rfl, hi⟩ := hd
  exact ⟨c ++ before, i, (List.append_assoc ..).symm, hi⟩

theorem Lowers.leaves {s : Stmt} {c c' : Context} {code : Code} (h : Lowers s c code c')
    (hs : s.isReturn = true) : Code.Leaves code := by
  cases h with
  | retValue => exact ⟨_, .ireturn, rfl, rfl⟩
  | retVoid => exact ⟨[], .vreturn, rfl, rfl⟩
  | _ => cases hs

theorem LowersAll.leaves {ss : List Stmt} {c c' : Context} {code : Code}
    (h : LowersAll ss c code c') (hlast : endsInReturn ss = true) : Code.Leaves code := by
  induction ss generalizing c code with
  | nil => cases hlast
  | cons s ss ih =>
      cases h with
      | cons hs hss =>
          cases ss with
          | nil =>
              cases hss
              rw [List.append_nil]
              exact hs.leaves hlast
          | cons s' ss =>
              have hrest : endsInReturn (s' :: ss) = true := by
                rwa [endsInReturn, List.getLast?_cons_cons] at hlast
              exact (ih hss hrest).append _

/-! ## Methods -/

namespace FunDecl

theorem returns_signature_eq_void_iff (f : FunDecl) :
    f.signature.returns = .void ↔ f.name = Signature.entryName ∨ f.returns = .void := by
  unfold signature
  split
  · rename_i hname
    simp [hname, Signature.returns]
  · rename_i hname
    simp [hname, Signature.returns]

/-- A return is supplied where the function gives nothing and does not say so at its end. -/
theorem returns_ending (f : FunDecl) :
    Code.returns (f.ending f.signature) =
      if (f.name = Signature.entryName ∨ f.returns = .void) ∧ endsInReturn f.body = false then
        [.vreturn]
      else [] := by
  simp only [← f.returns_signature_eq_void_iff]
  unfold ending
  cases endsInReturn f.body with
  | true => simp
  | false =>
      by_cases hvoid : f.signature.returns = .void
      · simp [hvoid, Instr.isReturn]
      · simp [hvoid]

end FunDecl

namespace Compiles

variable {config : Config} {p : Program} {f : FunDecl} {c c' : Context} {m : Method}

theorem returns_eq (h : Compiles f c m c') (hready : c.Ready config p) (hf : f ∈ p.functions) :
    Code.returns m.code =
      (Stmt.returnedAll f.body).map Instr.ofReturn ++ Code.returns (f.ending f.signature) := by
  cases h with
  | @intro s frame decls c₁ lines c₂ hs hframe hdecls hlines =>
      have hbody := hlines.returns_eq (hdecls.grows.names (hready.names frame))
      have hsignature : f.signature = s := Option.some.inj ((hready.signature hf).symm.trans hs)
      have hheader : Code.returns (Method.header "public static" s.descriptor c₂.limit.1
          c₂.frame.size) = [] := rfl
      have hend : Code.returns Code.methodEnd = [] := rfl
      simp only [Code.returns_append, hheader, Code.returns_of_plain hdecls.plain, hbody,
        hsignature, hend, List.nil_append, List.append_nil]

theorem count_return (h : Compiles f c m c') (hready : c.Ready config p) (hf : f ∈ p.functions)
    {i : Instr} (hi : i.isReturn = true) :
    (Code.instrs m.code).count i =
      ((Stmt.returnedAll f.body).map Instr.ofReturn).count i +
        (Code.returns (f.ending f.signature)).count i := by
  have hreturns := h.returns_eq hready hf
  rw [← List.count_append, ← hreturns, Code.returns, List.count_filter hi]

/-- Before the end of the method stands a return, its own or the supplied one. -/
theorem leaves (h : Compiles f c m c') (hready : c.Ready config p) (hf : f ∈ p.functions)
    (hlast : f.signature.returns = .void ∨ endsInReturn f.body = true) :
    ∃ body, m.code = body ++ Code.methodEnd ∧ Code.Leaves body := by
  cases h with
  | @intro s frame decls c₁ lines c₂ hs hframe hdecls hlines =>
      have hsignature : f.signature = s := Option.some.inj ((hready.signature hf).symm.trans hs)
      refine ⟨_, (List.append_assoc ..).symm, .append _ ?_⟩
      by_cases hreturn : endsInReturn f.body = true
      · have hending : f.ending s = [] := if_pos hreturn
        rw [hending, List.append_nil]
        exact (hlines.leaves hreturn).append decls
      · have hvoid : s.returns = .void := hsignature ▸ hlast.resolve_right hreturn
        have hending : f.ending s = [.instr .vreturn] := by
          rw [FunDecl.ending, if_neg hreturn, if_pos hvoid]
        rw [hending]
        exact ⟨_, .vreturn, rfl, rfl⟩

end Compiles

theorem Line.Inner.instr_or_label {config : Config} {p : Program} {line : Line}
    (h : line.Inner config p) : (∃ i, line = .instr i) ∨ ∃ l, line = .label l := by
  cases h with
  | eval hresolved =>
      cases hresolved with
      | plain hplain =>
          cases line with
          | instr i => exact .inl ⟨i, rfl⟩
          | label l => exact .inr ⟨l, rfl⟩
          | directive d => cases hplain
          | blank => cases hplain
      | _ => exact .inl ⟨_, rfl⟩
  | ret => exact .inl ⟨_, rfl⟩

/-- **Shape.** Every method of a generated class is its three directives, instructions and
labels, and one end. In the method of a function, the returns with a value are as many as
the `return` statements that have one; those without are as many as the other `return`
statements, and one more if the function gives nothing and its body does not end in a
`return`. If it gives nothing, or its body ends so, then the last line before the end is a
return. -/
theorem methods_shaped {config : Config} {p : Program} {cls : ClassFile}
    (h : p.generate config = .ok cls) :
    (∀ m ∈ cls.methods, ∃ (access : String) (lines : Code),
      m.code = .directive (.method access m.descriptor) :: .directive (.limitStack m.stackLimit) ::
          .directive (.limitLocals m.localsLimit) :: lines ++ [Line.directive .endMethod, .blank]
      ∧ ∀ line ∈ lines, (∃ i, line = .instr i) ∨ ∃ l, line = .label l)
    ∧ ∀ (n : Nat) (f : FunDecl), p.functions[n]? = some f → ∃ m, cls.functions[n]? = some m
      ∧ (Code.instrs m.code).count .ireturn = (Stmt.returnedAll f.body).countP Option.isSome
      ∧ (Code.instrs m.code).count .vreturn = (Stmt.returnedAll f.body).countP Option.isNone +
          (if (f.name = Signature.entryName ∨ f.returns = .void) ∧ endsInReturn f.body = false
            then 1 else 0)
      ∧ ((f.name = Signature.entryName ∨ f.returns = .void) ∨ endsInReturn f.body = true →
          ∃ (front : Code) (i : Instr),
            m.code = front ++ [Line.instr i, .directive .endMethod, .blank]
            ∧ (i = .ireturn ∨ i = .vreturn)) := by
  obtain ⟨c₀, c₁, c₂, hgen⟩ := Program.generates h
  refine ⟨fun m hm => ?_, fun n f hf => ?_⟩
  · obtain ⟨access, lines, hcode, hinner⟩ := hgen.framed hm
    refine ⟨access, lines, ?_, fun line hline => (hinner line hline).instr_or_label⟩
    rw [hcode, ← List.append_assoc]
    rfl
  · have hn := (List.getElem?_eq_some_iff.mp hf).1
    obtain ⟨m, hm⟩ : ∃ m, cls.functions[n]? = some m :=
      ⟨_, List.getElem?_eq_getElem (hgen.forall₂.length_eq ▸ hn)⟩
    have hmem := List.mem_of_getElem? hf
    obtain ⟨c, c', hready, hcompiles⟩ := hgen.compiles_at hf hm
    refine ⟨_, hm, ?_, ?_, fun hlast => ?_⟩
    · rw [hcompiles.count_return hready hmem rfl, f.returns_ending,
        Instr.count_map_ofReturn (q := Option.isSome) (by rintro (_ | _) <;> rfl)]
      split <;> rfl
    · rw [hcompiles.count_return hready hmem rfl, f.returns_ending,
        Instr.count_map_ofReturn (q := Option.isNone) (by rintro (_ | _) <;> rfl)]
      split <;> rfl
    · rw [← f.returns_signature_eq_void_iff] at hlast
      obtain ⟨_, hcode, front, i, rfl, hi⟩ := hcompiles.leaves hready hmem hlast
      rw [List.append_assoc] at hcode
      exact ⟨front, i, hcode, Instr.eq_of_isReturn hi⟩

/-- The entry point of Euclid's program has one `return`, in a branch; its method has
two, and ends in the other. -/
theorem euclid_main_shaped : ∃ cls m, ∃ (front : Code) (i : Instr),
    Program.euclid.generate {} = .ok cls
    ∧ cls.functions[1]? = some m
    ∧ (Code.instrs m.code).count .ireturn = 0 ∧ (Code.instrs m.code).count .vreturn = 2
    ∧ m.code = front ++ [Line.instr i, .directive .endMethod, .blank]
    ∧ (i = .ireturn ∨ i = .vreturn) := by
  obtain ⟨cls, hcls⟩ := Program.exists_generate_euclid
  obtain ⟨-, hfunctions⟩ := methods_shaped hcls
  obtain ⟨m, hm, hvalues, hvoids, hlast⟩ := hfunctions 1 _ rfl
  obtain ⟨front, i, hcode, hi⟩ := hlast (.inl (.inl rfl))
  exact ⟨cls, m, front, i, hcls, hm, hvalues, hvoids, hcode, hi⟩

end JasminGen
