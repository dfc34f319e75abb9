import JasminGen.Proofs.Parallel
import Mathlib.Data.List.Nodup
import Mathlib.Logic.Embedding.Basic
import Mathlib.Logic.Equiv.Basic

/-!
# Renaming local variables

A function may call its variables what it likes. Let `ρ` be an injective map of names that
leaves the names of the class's fields and `args` as they are, and rename by it all variables
of a function, those in its declarations and those in its expressions. Then `renaming_keeps_code`
says that the function becomes the same method, or fails with the same error, about the renamed
variable.

Injectivity is part of `ρ`, so that a frame can be renamed too: its names stay distinct. The
renamed text is lowered in the renamed context, and every step commutes with the renaming. For
expressions, which only read names, this is an equation between attempts (`Expr.lower_rename`).
For statements, which also declare names, the two runs are taken side by side
(`LowerM.Renames`).
-/

namespace JasminGen

/-! ## The renamed text -/

section

variable (ρ : String → String)

def Variable.rename (v : Variable) : Variable := { v with name := ρ v.name }

def Param.rename (p : Param) : Param := { p with name := ρ p.name }

def VarDecl.rename (d : VarDecl) : VarDecl := { d with name := ρ d.name }

mutual

/-- Functions that are called keep their names. -/
def Expr.rename : Expr → Expr
  | .ident x => .ident (ρ x)
  | .lit v => .lit v
  | .paren e => .paren e.rename
  | .assign x e => .assign (ρ x) e.rename
  | .unary op e => .unary op e.rename
  | .binary op l r => .binary op l.rename r.rename
  | .call f es => .call f (Expr.renameAll es)
  | .index a i => .index (ρ a) i.rename
  | .indexAssign a i e => .indexAssign (ρ a) i.rename e.rename

def Expr.renameAll : List Expr → List Expr
  | [] => []
  | e :: es => e.rename :: Expr.renameAll es

end

mutual

def Stmt.rename : Stmt → Stmt
  | .expr e => .expr (e.rename ρ)
  | .block ds ss => .block (ds.map (VarDecl.rename ρ)) (Stmt.renameAll ss)
  | .ifThen e s => .ifThen (e.rename ρ) s.rename
  | .ifElse e s s' => .ifElse (e.rename ρ) s.rename s'.rename
  | .loop e s => .loop (e.rename ρ) s.rename
  | .ret value => .ret (value.map (Expr.rename ρ))

def Stmt.renameAll : List Stmt → List Stmt
  | [] => []
  | s :: ss => s.rename :: Stmt.renameAll ss

end

/-- The function keeps its own name. -/
def FunDecl.rename (f : FunDecl) : FunDecl :=
  { f with
    params := f.params.map (Param.rename ρ)
    locals := f.locals.map (VarDecl.rename ρ)
    body := Stmt.renameAll ρ f.body }

def Construct.rename : Construct → Construct
  | .arrayAssignment a => .arrayAssignment (ρ a)
  | .arrayIndexing a => .arrayIndexing (ρ a)
  | .elementAssignment a => .elementAssignment (ρ a)
  | .described t => .described t

/-- The same error, about the renamed variable. An error about a function stays as it is. -/
def LowerError.rename : LowerError → LowerError
  | .unboundName x => .unboundName (ρ x)
  | .duplicateBinding x => .duplicateBinding (ρ x)
  | .unknownFunction f => .unknownFunction f
  | .duplicateFunction f => .duplicateFunction f
  | .argumentCount f expected found => .argumentCount f expected found
  | .unsupported c => .unsupported (c.rename ρ)

end

/-! ## The renamed context -/

variable {ρ : String ↪ String}

/-- Distinct variables are renamed to distinct ones, so the result is a frame again. -/
def Variables.rename (ρ : String ↪ String) (r : Variables) : Variables where
  latest := r.latest.map (Variable.rename ρ)
  index := Registry.indexOf Variable.name (r.latest.map (Variable.rename ρ))
  index_eq := rfl
  nodup := by
    have hnames : (r.latest.map (Variable.rename ρ)).map Variable.name =
        (r.latest.map Variable.name).map ρ := by
      simp [Variable.rename]
    rw [hnames]
    exact List.Nodup.map ρ.injective r.nodup

namespace Variables

theorem entries_rename (r : Variables) : (r.rename ρ).entries = r.entries.map (Variable.rename ρ) :=
  List.map_reverse.symm

theorem names_rename (r : Variables) :
    (r.rename ρ).entries.map Variable.name = (r.entries.map Variable.name).map ρ := by
  simp [entries_rename, Variable.rename]

theorem size_rename (r : Variables) : (r.rename ρ).size = r.size := by
  rw [Registry.size_eq, Registry.size_eq, entries_rename, List.length_map]

theorem locate?_rename (r : Variables) (x : String) :
    (r.rename ρ).locate? (ρ x) = (r.locate? x).map fun b => (b.1.rename ρ, b.2) := by
  cases h : r.locate? x with
  | none =>
      rw [Registry.locate?_eq_none_iff] at h
      refine Registry.locate?_eq_none_iff.mpr fun hmem => h ?_
      rwa [names_rename, List.mem_map_of_injective ρ.injective] at hmem
  | some b =>
      obtain ⟨hi, hx⟩ := Registry.locate?_eq_some_iff.mp h
      refine Registry.locate?_eq_some_iff.mpr ⟨?_, congrArg ρ hx⟩
      rw [entries_rename, List.getElem?_map, hi]
      rfl

theorem insert?_rename (r : Variables) (v : Variable) :
    (r.rename ρ).insert? (v.rename ρ) = (r.insert? v).map (rename ρ) := by
  cases h : r.insert? v with
  | none =>
      rw [Registry.insert?_eq_none_iff] at h
      refine Registry.insert?_eq_none_iff.mpr ?_
      rw [names_rename]
      exact List.mem_map_of_mem h
  | some r' =>
      obtain ⟨hfresh, hentries⟩ := Registry.insert?_eq_some_iff.mp h
      refine Registry.insert?_eq_some_iff.mpr ⟨fun hmem => hfresh ?_, ?_⟩
      · rwa [names_rename, Variable.rename, List.mem_map_of_injective ρ.injective] at hmem
      · rw [entries_rename, entries_rename, hentries, List.map_append]
        rfl

end Variables

namespace Names

/-- The variables of the frame are renamed, the members of the class are not. -/
def rename (ρ : String ↪ String) (Γ : Names) : Names := { Γ with frame := Γ.frame.rename ρ }

/-- The fields of the class keep their names. -/
def Fixes (ρ : String ↪ String) (Γ : Names) : Prop := ∀ v ∈ Γ.fields.entries, ρ v.name = v.name

variable {Γ : Names} (hΓ : Γ.Fixes ρ)

include hΓ

/-- No other name is renamed to a field's name. -/
theorem Fixes.find?_fields (x : String) : Γ.fields.find? (ρ x) = Γ.fields.find? x := by
  ext v
  rw [Registry.find?_eq_some_iff, Registry.find?_eq_some_iff]
  refine and_congr_right fun hv => ?_
  rw [← ρ.apply_eq_iff_eq v.name x, hΓ v hv]

theorem Fixes.resolve_rename (x : String) :
    (Γ.rename ρ).resolve (ρ x) = (Γ.resolve x).mapError (LowerError.rename ρ) := by
  have hframe : (Γ.rename ρ).frame.locate? (ρ x) = _ := Γ.frame.locate?_rename x
  have hfields : (Γ.rename ρ).fields.find? (ρ x) = _ := hΓ.find?_fields x
  rw [resolve, resolve, hframe, hfields]
  cases Γ.frame.locate? x with
  | some b => rfl
  | none => cases Γ.fields.find? x <;> rfl

/-- A name that denotes a field stays as it is, and so do the instructions that use it. -/
theorem Fixes.eq_of_resolve {x : String} {t : DataType} (h : Γ.resolve x = .ok (.field t)) :
    ρ x = x := by
  rw [resolve] at h
  split at h
  · cases h
  · split at h
    · rename_i v hv
      obtain ⟨hmem, rfl⟩ := Registry.find?_eq_some_iff.mp hv
      exact hΓ v hmem
    · cases h

/-- What is done with the place of a variable commutes with the renaming, if it does for slots
and for fields, whose names do not change. -/
theorem Fixes.bind_resolve_rename {α : Type} {g g' : Place → Except LowerError α} (x : String)
    (hslot : ∀ i t, g' (.slot i t) = (g (.slot i t)).mapError (LowerError.rename ρ))
    (hfield : ρ x = x → ∀ t, g' (.field t) = (g (.field t)).mapError (LowerError.rename ρ)) :
    ((Γ.rename ρ).resolve (ρ x) >>= g') =
      (Γ.resolve x >>= g).mapError (LowerError.rename ρ) := by
  rw [hΓ.resolve_rename x]
  cases h : Γ.resolve x with
  | error e => rfl
  | ok place =>
      cases place with
      | slot i t => exact hslot i t
      | field t => exact hfield (hΓ.eq_of_resolve h) t

theorem Fixes.load?_rename (x : String) :
    (Γ.rename ρ).load? (ρ x) = (Γ.load? x).mapError (LowerError.rename ρ) := by
  refine hΓ.bind_resolve_rename x (fun i t => ?_) fun hx t => ?_
  · cases t <;> rfl
  · rw [hx]
    cases t <;> rfl

theorem Fixes.store_rename (x : String) :
    (Γ.rename ρ).store (ρ x) = (Γ.store x).mapError (LowerError.rename ρ) := by
  refine hΓ.bind_resolve_rename x (fun i t => ?_) fun hx t => ?_
  · cases t <;> rfl
  · cases t with
    | int => rw [hx]; rfl
    | intArray => rfl

omit hΓ in
/-- Functions are looked up as before, and what goes wrong with a call is about the function. -/
theorem calleeFor_rename (f : String) (n : Nat) :
    (Γ.rename ρ).calleeFor f n = (Γ.calleeFor f n).mapError (LowerError.rename ρ) := by
  change Γ.calleeFor f n = _
  have hcheck (t : Callee) : (if t.arity = n then pure t
      else throw (.argumentCount f t.arity n) : Except LowerError Callee) =
        Except.mapError (LowerError.rename ρ)
          (if t.arity = n then pure t else throw (.argumentCount f t.arity n)) := by
    split <;> rfl
  rw [calleeFor, callee]
  split
  · exact hcheck _
  · rw [signature]
    cases Γ.functions.find? f with
    | none => rfl
    | some s => exact hcheck _

end Names

/-! ## Errors mapped -/

namespace Attempt

variable {σ ε α β : Type} (f : ε → ε)

theorem ext {x y : Attempt σ ε α} (h : ∀ s, x.on s = y.on s) : x = y :=
  ExceptT.ext (StateT.ext h)

/-- The same attempt, with other errors. -/
def mapError (x : Attempt σ ε α) : Attempt σ ε α :=
  of fun s => ((x.on s).1.mapError f, (x.on s).2)

theorem on_mapError (x : Attempt σ ε α) (s : σ) :
    (x.mapError f).on s = ((x.on s).1.mapError f, (x.on s).2) := rfl

@[simp] theorem mapError_pure (a : α) : (pure a : Attempt σ ε α).mapError f = pure a := rfl

@[simp] theorem mapError_throw (e : ε) :
    (throw e : Attempt σ ε α).mapError f = throw (f e) := rfl

@[simp] theorem mapError_liftM (r : Except ε α) :
    (liftM r : Attempt σ ε α).mapError f = liftM (r.mapError f) := by
  cases r <;> rfl

@[simp] theorem mapError_bind (x : Attempt σ ε α) (k : α → Attempt σ ε β) :
    (x >>= k).mapError f = x.mapError f >>= fun a => (k a).mapError f := by
  refine ext fun s => ?_
  rw [on_mapError, on_bind, on_bind, on_mapError]
  rcases x.on s with ⟨_ | a, t⟩ <;> rfl

@[simp] theorem mapError_map (g : α → β) (x : Attempt σ ε α) :
    (g <$> x).mapError f = g <$> x.mapError f := by
  rw [map_eq_pure_bind, map_eq_pure_bind, mapError_bind]
  rfl

end Attempt

namespace EmitM

section

variable (f : LowerError → LowerError)

@[simp] theorem mapError_shift (d : Int) : (shift d).mapError f = shift d := rfl

@[simp] theorem mapError_push : push.mapError f = push := rfl

@[simp] theorem mapError_pop : pop.mapError f = pop := rfl

@[simp] theorem mapError_freshLabel : freshLabel.mapError f = freshLabel := rfl

@[simp] theorem mapError_truth : truth.mapError f = truth := by
  simp [truth]

@[simp] theorem mapError_compare (c : Comparison) : (compare c).mapError f = compare c := by
  simp [compare]

@[simp] theorem mapError_negate : negate.mapError f = negate := by
  simp [negate]

@[simp] theorem mapError_result (t : ReturnType) : (result t).mapError f = result t := by
  cases t <;> rfl

end

variable {Γ : Names} (hΓ : Γ.Fixes ρ)

include hΓ

theorem store_rename (x : String) :
    store (Γ.rename ρ) (ρ x) = (store Γ x).mapError (LowerError.rename ρ) := by
  simp [store, hΓ.store_rename x]

theorem unary_rename (op : UnaryOp) (e : Expr) :
    unary (Γ.rename ρ) op (e.rename ρ) = (unary Γ op e).mapError (LowerError.rename ρ) := by
  have hback : writeBack (Γ.rename ρ) (e.rename ρ) =
      (writeBack Γ e).mapError (LowerError.rename ρ) := by
    cases e with
    | ident x => simp [writeBack, Expr.rename, Expr.ident?, store_rename hΓ]
    | _ => simp [writeBack, Expr.rename, Expr.ident?]
  cases op with
  | neg => rfl
  | not => simp [unary]
  | increment | decrement => simp [unary, step, hback]

end EmitM

theorem Expr.isLeaf_rename (e : Expr) : (e.rename ρ).isLeaf = e.isLeaf := by
  cases e <;> rfl

theorem Expr.length_renameAll (es : List Expr) : (Expr.renameAll ρ es).length = es.length := by
  induction es with
  | nil => rfl
  | cons e es ih => rw [Expr.renameAll, List.length_cons, List.length_cons, ih]

mutual

theorem Expr.lower_rename {Γ : Names} (hΓ : Γ.Fixes ρ) : ∀ e : Expr,
    (e.rename ρ).lower (Γ.rename ρ) = (e.lower Γ).mapError (LowerError.rename ρ)
  | .ident x => by
      simp only [Expr.rename, Expr.lower, Attempt.mapError_bind, Attempt.mapError_liftM,
        hΓ.load?_rename x]
      refine bind_congr fun i? => ?_
      cases i? <;> rfl
  | .lit v => by
      simp [Expr.rename, Expr.lower]
  | .paren e => by
      simp [Expr.rename, Expr.lower, e.lower_rename hΓ]
  | .assign x e => by
      simp [Expr.rename, Expr.lower, e.lower_rename hΓ, EmitM.store_rename hΓ]
  | .unary op e => by
      simp [Expr.rename, Expr.lower, e.lower_rename hΓ, EmitM.unary_rename hΓ]
  | .binary op l r => by
      have hl := l.lower_rename hΓ
      have hr := r.lower_rename hΓ
      rcases op with op | c | _ | _
      · simp [Expr.rename, Expr.lower, hl, hr]
      · simp [Expr.rename, Expr.lower, hl, hr]
      · simp [Expr.rename, Expr.lower, hl, hr]
      · simp only [Expr.rename, Expr.lower, hl, hr, Expr.isLeaf_rename, Attempt.mapError_bind]
        refine bind_congr fun left => ?_
        split <;> simp
  | .call f es => by
      simp [Expr.rename, Expr.lower, Expr.lowerAll_rename hΓ es, Expr.length_renameAll,
        Names.calleeFor_rename]
  | .index a i => by
      simp [Expr.rename, Expr.lower, LowerError.rename, Construct.rename]
  | .indexAssign a i e => by
      simp [Expr.rename, Expr.lower, LowerError.rename, Construct.rename]

theorem Expr.lowerAll_rename {Γ : Names} (hΓ : Γ.Fixes ρ) : ∀ es : List Expr,
    Expr.lowerAll (Γ.rename ρ) (Expr.renameAll ρ es) =
      (Expr.lowerAll Γ es).mapError (LowerError.rename ρ)
  | [] => by
      simp [Expr.renameAll, Expr.lowerAll]
  | e :: es => by
      simp [Expr.renameAll, Expr.lowerAll, e.lower_rename hΓ, Expr.lowerAll_rename hΓ es]

end

/-! ## Statements -/

open Attempt (Matched Parallel)

def Context.rename (ρ : String ↪ String) (c : Context) : Context :=
  { c with frame := c.frame.rename ρ }

/-- The contexts of the two runs. -/
structure Context.Renamed (ρ : String ↪ String) (c c' : Context) : Prop where
  fixes : c.toNames.Fixes ρ
  eq : c' = c.rename ρ

/-- In renamed contexts `y` does what `x` does, and an error is renamed as well. -/
def LowerM.Renames (ρ : String ↪ String) {α : Type} (x y : LowerM α) : Prop :=
  Parallel (Context.Renamed ρ) Eq (x.mapError (LowerError.rename ρ)) y

theorem LowerM.matched_emit {α : Type} {c : Context} (hc : c.toNames.Fixes ρ) {x y : EmitM α}
    (h : x.mapError (LowerError.rename ρ) = y) :
    Matched (Context.Renamed ρ) Eq ((emit x).mapError (LowerError.rename ρ)) c (emit y)
      (c.rename ρ) := by
  subst h
  exact ⟨.of_eq rfl, hc, rfl⟩

namespace LowerM.Renames

variable {α β : Type}

theorem on_eq {x y : LowerM α} (h : Renames ρ x y) {c : Context} (hc : c.toNames.Fixes ρ) :
    y.on (c.rename ρ) = ((x.on c).1.mapError (LowerError.rename ρ), (x.on c).2.rename ρ) := by
  obtain ⟨hends, -, hstate⟩ := h c _ ⟨hc, rfl⟩
  exact Prod.ext hends.eq.symm hstate

theorem pure (a : α) : Renames ρ (Pure.pure a) (Pure.pure a) := Parallel.pure rfl

theorem bind {x y : LowerM α} {f g : α → LowerM β} (hx : Renames ρ x y)
    (hf : ∀ a, Renames ρ (f a) (g a)) : Renames ρ (x >>= f) (y >>= g) := by
  rw [Renames, Attempt.mapError_bind]
  exact Parallel.bind_eq hx hf

/-- A step that only counts, and cannot fail, is the same in both runs. -/
theorem emit {x : EmitM α} (hx : x.mapError (LowerError.rename ρ) = x) :
    Renames ρ (LowerM.emit x) (LowerM.emit x) := by
  rintro c _ ⟨hfixes, rfl⟩
  exact matched_emit hfixes hx

theorem freshLabel : Renames ρ (LowerM.emit EmitM.freshLabel) (LowerM.emit EmitM.freshLabel) :=
  emit rfl

theorem pop : Renames ρ (LowerM.emit EmitM.pop) (LowerM.emit EmitM.pop) := emit rfl

theorem depth : Renames ρ LowerM.depth LowerM.depth := by
  rintro c _ ⟨hfixes, rfl⟩
  exact ⟨.ok rfl, hfixes, rfl⟩

theorem declare (v : Variable) : Renames ρ (LowerM.declare v) (LowerM.declare (v.rename ρ)) := by
  rintro c _ ⟨hfixes, rfl⟩
  have hinsert : (c.rename ρ).frame.insert? (v.rename ρ) = _ := c.frame.insert?_rename v
  cases h : c.frame.insert? v with
  | none =>
      rw [h] at hinsert
      refine ⟨?_, ?_⟩ <;> rw [Attempt.on_mapError, on_declare_of_none h, on_declare_of_none hinsert]
      · exact .error
      · exact ⟨hfixes, rfl⟩
  | some frame =>
      rw [h] at hinsert
      refine ⟨?_, ?_⟩ <;> rw [Attempt.on_mapError, on_declare_of_some h, on_declare_of_some hinsert]
      · exact .ok c.frame.size_rename.symm
      · exact ⟨hfixes, rfl⟩

theorem declareAll : ∀ vs : List Variable,
    Renames ρ (LowerM.declareAll vs) (LowerM.declareAll (vs.map (Variable.rename ρ)))
  | [] => .pure ()
  | v :: vs => (declare v).bind fun _ => declareAll vs

end LowerM.Renames

open LowerM (Renames)

theorem Expr.renames_lowerHere (e : Expr) : Renames ρ e.lowerHere (e.rename ρ).lowerHere := by
  rintro c _ ⟨hfixes, rfl⟩
  obtain ⟨hends, hstates⟩ := LowerM.matched_emit hfixes (e.lower_rename hfixes).symm
  refine ⟨?_, ?_⟩ <;> rw [Attempt.on_mapError, on_lowerHere, on_lowerHere]
  · exact hends
  · exact hstates

theorem VarDecl.renames_lower (d : VarDecl) : Renames ρ d.lower (d.rename ρ).lower := by
  have hinit : (d.rename ρ).init? = d.init? := rfl
  rw [lower, lower, hinit]
  refine (Renames.declare d.toVariable).bind fun slot => ?_
  cases d.init? with
  | none => exact .pure _
  | some v => exact (Renames.emit rfl).bind fun _ => Renames.pop.bind fun _ => .pure _

theorem VarDecl.renames_lowerAll : ∀ ds : List VarDecl,
    Renames ρ (VarDecl.lowerAll ds) (VarDecl.lowerAll (ds.map (VarDecl.rename ρ)))
  | [] => .pure _
  | d :: ds => d.renames_lower.bind fun _ => (VarDecl.renames_lowerAll ds).bind fun _ => .pure _

mutual

theorem Stmt.renames_lower : ∀ s : Stmt, Renames ρ s.lower (s.rename ρ).lower
  | .expr e => by
      rw [Stmt.rename, Stmt.lower, Stmt.lower]
      exact Renames.depth.bind fun _ => e.renames_lowerHere.bind fun _ =>
        Renames.depth.bind fun _ => .bind (.emit rfl) fun _ => .pure _
  | .block ds ss => by
      rw [Stmt.rename, Stmt.lower, Stmt.lower]
      exact (VarDecl.renames_lowerAll ds).bind fun _ => (Stmt.renames_lowerAll ss).bind fun _ =>
        .pure _
  | .ifThen e s => by
      rw [Stmt.rename, Stmt.lower, Stmt.lower]
      exact e.renames_lowerHere.bind fun _ => s.renames_lower.bind fun _ =>
        Renames.freshLabel.bind fun _ => Renames.pop.bind fun _ => .pure _
  | .ifElse e s s' => by
      rw [Stmt.rename, Stmt.lower, Stmt.lower]
      exact e.renames_lowerHere.bind fun _ => s.renames_lower.bind fun _ =>
        s'.renames_lower.bind fun _ => Renames.freshLabel.bind fun _ =>
          Renames.freshLabel.bind fun _ => Renames.pop.bind fun _ => .pure _
  | .loop e s => by
      rw [Stmt.rename, Stmt.lower, Stmt.lower]
      exact e.renames_lowerHere.bind fun _ => s.renames_lower.bind fun _ =>
        Renames.freshLabel.bind fun _ => Renames.freshLabel.bind fun _ =>
          Renames.pop.bind fun _ => .pure _
  | .ret none => by
      rw [Stmt.rename, Stmt.lower, Stmt.lower]
      exact .pure _
  | .ret (some e) => by
      rw [Stmt.rename, Stmt.lower, Stmt.lower]
      exact e.renames_lowerHere.bind fun _ => Renames.pop.bind fun _ => .pure _

theorem Stmt.renames_lowerAll : ∀ ss : List Stmt,
    Renames ρ (Stmt.lowerAll ss) (Stmt.lowerAll (Stmt.renameAll ρ ss))
  | [] => by
      rw [Stmt.renameAll, Stmt.lowerAll]
      exact .pure _
  | s :: ss => by
      rw [Stmt.renameAll, Stmt.lowerAll, Stmt.lowerAll]
      exact s.renames_lower.bind fun _ => (Stmt.renames_lowerAll ss).bind fun _ => .pure _

end

/-! ## Functions -/

theorem Stmt.renameAll_eq_map : ∀ ss : List Stmt, Stmt.renameAll ρ ss = ss.map (Stmt.rename ρ)
  | [] => rfl
  | s :: ss => congrArg (s.rename ρ :: ·) (renameAll_eq_map ss)

theorem Stmt.isReturn_rename (s : Stmt) : (s.rename ρ).isReturn = s.isReturn := by
  cases s <;> rfl

namespace FunDecl

theorem arguments_rename (hargs : ρ "args" = "args") (f : FunDecl) (s : Signature) :
    (f.rename ρ).arguments s = (f.arguments s).map (Variable.rename ρ) := by
  have hentry : Variable.rename ρ { name := "args", type := .intArray } =
      { name := "args", type := .intArray } := by
    rw [Variable.rename, hargs]
  have hparams : (f.rename ρ).params.map Param.toVariable =
      (f.params.map Param.toVariable).map (Variable.rename ρ) := by
    simp [rename, Param.rename, Param.toVariable, Variable.rename]
  rw [arguments, arguments, hparams, List.map_append]
  cases s.isEntryPoint with
  | true => simp [hentry]
  | false => simp

theorem ending_rename (f : FunDecl) (s : Signature) : (f.rename ρ).ending s = f.ending s := by
  have hreturn : endsInReturn (f.rename ρ).body = endsInReturn f.body := by
    simp only [endsInReturn, rename, Stmt.renameAll_eq_map, List.getLast?_map, Option.any_map,
      Stmt.isReturn_rename]
  rw [ending, ending, hreturn]

theorem renames_lines (hargs : ρ "args" = "args") (f : FunDecl) (s : Signature) :
    Renames ρ (f.lines s) ((f.rename ρ).lines s) := by
  rw [lines, lines, f.arguments_rename hargs, f.ending_rename]
  exact (Renames.declareAll _).bind fun _ =>
    (Stmt.renames_lower (.block f.locals f.body)).bind fun _ => .pure _

end FunDecl

/-- Lines that commute with the renaming make the same method, or fail alike. -/
theorem Method.make_rename {c : Context} (hc : c.toNames.Fixes ρ) {x y : LowerM Code}
    (h : Renames ρ x y) (access name descriptor : String) :
    (make access name descriptor y).on c =
      (((make access name descriptor x).on c).1.mapError (LowerError.rename ρ),
        ((make access name descriptor x).on c).2.rename ρ) := by
  -- A method begins with an empty frame, in which there is nothing to rename.
  have hy : y.on c.fresh = _ := h.on_eq (c := c.fresh) hc
  rw [on_make, on_make, hy]
  rcases x.on c.fresh with ⟨e | body, b⟩
  · rfl
  · have hsize : (b.rename ρ).frame.size = b.frame.size := b.frame.size_rename
    have hlimit : (b.rename ρ).limit = b.limit := rfl
    simp only [Except.mapError, hsize, hlimit]
    rfl

theorem FunDecl.compile_rename {c : Context} (hc : c.toNames.Fixes ρ) (hargs : ρ "args" = "args")
    (f : FunDecl) :
    ((f.rename ρ).compile.on c).1 = (f.compile.on c).1.mapError (LowerError.rename ρ)
      ∧ ((f.rename ρ).compile.on c).2.toCounters = (f.compile.on c).2.toCounters := by
  have hname : (f.rename ρ).name = f.name := rfl
  rw [on_compile, on_compile, hname, Names.signature]
  cases c.functions.find? f.name with
  | none => exact ⟨rfl, rfl⟩
  | some s =>
      have hmake := Method.make_rename hc (f.renames_lines hargs s) "public static" s.name
        s.descriptor
      exact ⟨congrArg Prod.fst hmake, congrArg (fun run => run.2.toCounters) hmake⟩

/-- **Local names.** Let `ρ` be an injective map of names that leaves the names of the class's
fields and `args` as they are. The function whose variables are renamed by `ρ` becomes a method
exactly if the function does, and then the same one, with the same code, limits and descriptor.
If the function fails, the renamed one fails with the same error, about the renamed variable if
it is about a variable. Either way as many labels were issued, and the meter shows the same. -/
theorem renaming_keeps_code (ρ : String ↪ String) (f : FunDecl) (c : Context)
    (hfields : ∀ v ∈ c.fields.entries, ρ v.name = v.name) (hargs : ρ "args" = "args") :
    let run := f.compile.on c
    let run' := (f.rename ρ).compile.on c
    (∀ m, run'.1 = .ok m ↔ run.1 = .ok m)
    ∧ (∀ e, run.1 = .error e → run'.1 = .error (e.rename ρ))
    ∧ run'.2.labels = run.2.labels ∧ run'.2.meter = run.2.meter := by
  intro run run'
  obtain ⟨hresult, hcounters⟩ : run'.1 = run.1.mapError (LowerError.rename ρ)
      ∧ run'.2.toCounters = run.2.toCounters := f.compile_rename hfields hargs
  refine ⟨fun m => ?_, fun e he => ?_, congrArg Counters.labels hcounters,
    congrArg Counters.meter hcounters⟩
  · rw [hresult]
    cases run.1 <;> simp [Except.mapError]
  · rw [hresult, he]
    rfl

/-- In Euclid's function the parameter `b` and the local variable `r` may change their names. A
variable that is declared twice is still declared twice. -/
theorem swapped_names_keep_code :
    let ρ := (Equiv.swap "b" "r").toEmbedding
    let c := (Program.euclid.declare.on (.start {})).2
    (∃ f m, Program.euclid.functions[0]? = some f ∧ f.rename ρ ≠ f
      ∧ (f.compile.on c).1 = .ok m ∧ ((f.rename ρ).compile.on c).1 = .ok m)
    ∧ ∃ f : FunDecl, (f.compile.on c).1 = .error (.duplicateBinding "r")
      ∧ ((f.rename ρ).compile.on c).1 = .error (.duplicateBinding "b") := by
  intro ρ c
  have hfields : ∀ v ∈ c.fields.entries, ρ v.name = v.name := by decide +kernel
  have hargs : ρ "args" = "args" := by decide +kernel
  constructor
  · obtain ⟨f, hf, hne, hok⟩ : ∃ f, Program.euclid.functions[0]? = some f ∧ f.rename ρ ≠ f
        ∧ (f.compile.on c).1.isOk = true :=
      ⟨_, rfl, by decide +kernel, by decide +kernel⟩
    cases hm : (f.compile.on c).1 with
    | error e => rw [hm] at hok; cases hok
    | ok m => exact ⟨f, m, hf, hne, hm, ((renaming_keeps_code ρ f c hfields hargs).1 m).mpr hm⟩
  · have herror : ((FunDecl.compile
        { returns := .void, name := "main", params := [], locals := [⟨"r", .plain⟩]
          body := [.block [⟨"r", .init 1⟩] []] }).on c).1 = .error (.duplicateBinding "r") := by
      decide +kernel
    have hr : ρ "r" = "b" := Equiv.swap_apply_right ..
    exact ⟨_, herror, hr ▸ (renaming_keeps_code ρ _ c hfields hargs).2.1 _ herror⟩

end JasminGen
