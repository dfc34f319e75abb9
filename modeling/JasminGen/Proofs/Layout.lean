import JasminGen.Proofs.Admissible
import JasminGen.Proofs.Runs
import Mathlib.Data.Set.Function
import Mathlib.Order.Interval.Set.Defs

/-!
# The layout of frames

A frame has no layout before its function has been lowered: slots are handed out as
declarations are met, loads and stores are emitted in between, and the size is read
off at the end. `frames_laid_out` says what comes of it. The slots are the variables
of the function in text order (`FunDecl.bindings`), each name has one slot, and every
load and store goes to the slot of the name it was lowered from, which holds a scalar.

For the last part `FunDecl.accesses` lists, on the text, the reads and writes of the
function's own scalars in the order in which they are made, and `Code.accesses` lists
the loads and stores of a code. `Code.Uses` says that the two lists correspond. A slot
that was handed out stays what it is while the frame grows (`Code.Uses.mono`), so the
correspondence may be stated with the last frame from the beginning.
-/

namespace JasminGen

/-! ## Accesses -/

inductive AccessKind where
  | load
  | store
  deriving DecidableEq

/-- A read or a write of a variable, which is given by its name or by its slot. -/
structure Access (α : Type) where
  kind : AccessKind
  place : α
  deriving DecidableEq

def Line.access? : Line → Option (Access Nat)
  | .instr (.iload slot) => some ⟨.load, slot⟩
  | .instr (.istore slot) => some ⟨.store, slot⟩
  | _ => none

/-- The loads and stores of a code, in text order. -/
def Code.accesses (c : Code) : List (Access Nat) := c.filterMap Line.access?

@[simp] theorem Code.accesses_append (c d : Code) :
    Code.accesses (c ++ d) = Code.accesses c ++ Code.accesses d :=
  List.filterMap_append

/-- The access to `x`, if `x` is a scalar of the function. Fields are not in slots, and
naming an array does nothing. -/
def Scope.access (S : Scope) (kind : AccessKind) (x : String) : List (Access String) :=
  if (S.local? x).map Variable.type = some .int then [⟨kind, x⟩] else []

mutual

/-- The accesses that evaluating the expression makes, in their order. A bare name on
the left of `or` is read a second time after the right operand. -/
def Expr.accesses (S : Scope) : Expr → List (Access String)
  | .ident x => S.access .load x
  | .lit _ => []
  | .paren e => e.accesses S
  | .assign x e => e.accesses S ++ S.access .store x
  | .unary op e =>
    e.accesses S ++ (Expr.unary op e).target?.toList.flatMap (S.access .store)
  | .binary op l r =>
    l.accesses S ++ r.accesses S ++ if op = .or ∧ l.isLeaf = true then l.accesses S else []
  | .call _ es => Expr.accessesAll S es
  | .index _ _ => []
  | .indexAssign _ _ _ => []

def Expr.accessesAll (S : Scope) : List Expr → List (Access String)
  | [] => []
  | e :: es => e.accesses S ++ Expr.accessesAll S es

end

/-- The accesses of a text. A declaration with an initial value stores it. -/
def Item.accesses (S : Scope) : List Item → List (Access String)
  | [] => []
  | .declaration d :: rest =>
    (if d.init?.isSome = true then [⟨.store, d.name⟩] else []) ++ accesses (S.extend [d]) rest
  | .expression e :: rest => e.accesses S ++ accesses S rest

def FunDecl.accesses (config : Config) (p : Program) (f : FunDecl) : List (Access String) :=
  Item.accesses (p.scope config f) f.items

theorem Item.accesses_append (S : Scope) (a b : List Item) :
    accesses S (a ++ b) = accesses S a ++ accesses (S.extend (declared a)) b := by
  induction a generalizing S with
  | nil => simp [accesses, declared]
  | cons i a ih =>
      cases i with
      | declaration d =>
          simp only [List.cons_append, accesses, declared, ih, List.append_assoc]
          rw [← Scope.extend_append, List.singleton_append]
      | expression e => simp [accesses, declared, ih]

/-! ## Names and slots -/

/-- The accesses are of one kind, and the slot holds the scalar that is named. -/
def Access.At (vs : List Variable) (a : Access String) (b : Access Nat) : Prop :=
  b.kind = a.kind ∧ ∃ v, vs[b.place]? = some v ∧ v.name = a.place ∧ v.type = .int

/-- The loads and stores of the code are, one by one, the accesses `as`, where the
variables have the slots that they have in `vs`. -/
def Code.Uses (vs : List Variable) (as : List (Access String)) (c : Code) : Prop :=
  List.Forall₂ (Access.At vs) as (Code.accesses c)

namespace Code.Uses

variable {vs vs' : List Variable} {as bs : List (Access String)} {c d : Code}

theorem none (hc : Code.accesses c = []) : Code.Uses vs [] c := by
  rw [Uses, hc]
  exact .nil

theorem append (hc : Code.Uses vs as c) (hd : Code.Uses vs bs d) :
    Code.Uses vs (as ++ bs) (c ++ d) := by
  rw [Uses, Code.accesses_append]
  exact List.rel_append hc hd

theorem append_none (hc : Code.Uses vs as c) (hd : Code.accesses d = []) :
    Code.Uses vs as (c ++ d) := by
  rw [Uses, Code.accesses_append, hd, List.append_nil]
  exact hc

theorem cons {l : Line} (hl : l.access? = .none) (hc : Code.Uses vs as c) :
    Code.Uses vs as (l :: c) := by
  rw [Uses, Code.accesses, List.filterMap_cons_none hl]
  exact hc

/-- Slots that were handed out stay what they are. -/
theorem mono (hc : Code.Uses vs as c) (hvs : vs <+: vs') : Code.Uses vs' as c := by
  refine List.Forall₂.imp ?_ hc
  rintro a b ⟨hkind, v, hv, hname, htype⟩
  obtain ⟨rest, rfl⟩ := hvs
  refine ⟨hkind, v, ?_, hname, htype⟩
  rw [List.getElem?_append_left (List.getElem?_eq_some_iff.mp hv).1]
  exact hv

/-- Every slot in the code belongs to a scalar. -/
theorem exists_scalar (hc : Code.Uses vs as c) {b : Access Nat} (hb : b ∈ Code.accesses c) :
    ∃ v, vs[b.place]? = some v ∧ v.type = .int := by
  obtain ⟨i, hi, rfl⟩ := List.getElem_of_mem hb
  obtain ⟨-, v, hv, -, htype⟩ := hc.get (hc.length_eq ▸ hi) hi
  exact ⟨v, hv, htype⟩

end Code.Uses

namespace Names

variable {Γ : Names} {x : String} {i : Instr}

/-- The instruction is given by where the name lives: one that reaches a slot stands
for an access, and one that reaches a field does not. -/
theorem uses_of_place {kind : AccessKind}
    (h : (∃ s, Γ.resolve x = .ok (.slot s .int) ∧ Line.access? (.instr i) = some ⟨kind, s⟩)
      ∨ (Γ.resolve x = .ok (.field .int) ∧ Line.access? (.instr i) = none)) :
    Code.Uses Γ.frame.entries (Γ.scope.access kind x) [.instr i] := by
  obtain ⟨s, hs, hi⟩ | ⟨hf, hi⟩ := h
  · obtain ⟨v, hv, htype⟩ := resolve_eq_slot_iff.mp hs
    obtain ⟨hget, hname⟩ := Registry.locate?_eq_some_iff.mp hv
    have hlocal : (Γ.scope.local? x).map Variable.type = some .int := by
      rw [scope_local?, Registry.find?, hv, ← htype]
      rfl
    rw [Scope.access, if_pos hlocal, Code.Uses, Code.accesses,
      List.filterMap_cons_some hi]
    exact .cons ⟨rfl, v, hget, hname, htype⟩ .nil
  · have hlocal := (scope_of_field hf).1
    rw [Scope.access, hlocal, if_neg (by simp)]
    exact .cons hi (.none rfl)

theorem uses_of_load (h : Γ.load? x = .ok (some i)) :
    Code.Uses Γ.frame.entries (Γ.scope.access .load x) [.instr i] := by
  refine uses_of_place ?_
  obtain ⟨s, hs, rfl⟩ | ⟨hf, rfl⟩ := load?_eq_some h
  · exact .inl ⟨s, hs, rfl⟩
  · exact .inr ⟨hf, rfl⟩

theorem uses_of_store (h : Γ.store x = .ok i) :
    Code.Uses Γ.frame.entries (Γ.scope.access .store x) [.instr i] := by
  refine uses_of_place ?_
  obtain ⟨s, hs, rfl⟩ | ⟨hf, rfl⟩ := store_eq_ok h
  · exact .inl ⟨s, hs, rfl⟩
  · exact .inr ⟨hf, rfl⟩

theorem access_of_array (h : Γ.load? x = .ok none) (kind : AccessKind) :
    Γ.scope.access kind x = [] := by
  rw [Scope.access, if_neg]
  intro hlocal
  have htype := type?_of_load_none h
  rw [Scope.type?] at htype
  cases hl : Γ.scope.local? x with
  | none => rw [hl] at hlocal; cases hlocal
  | some v =>
      rw [hl] at hlocal htype
      exact absurd (hlocal.symm.trans htype) (by simp)

theorem accesses_of_calleeFor {f : String} {n : Nat} {t : Callee}
    (h : Γ.calleeFor f n = .ok t) :
    Code.accesses t.opening = [] ∧ Line.access? (.instr t.invoke) = none := by
  rcases calleeFor_eq_ok h with ⟨_, _, rfl⟩ | ⟨_, s, _, _, rfl⟩
  · exact ⟨rfl, rfl⟩
  · exact ⟨rfl, rfl⟩

end Names

/-! ## Lowered code -/

theorem UnaryOp.target?_of_step {u : UnaryOp} {op : ArithOp} (h : u.step? = some op) (e : Expr) :
    (Expr.unary u e).target? = e.ident? := by
  cases u with
  | neg => cases h
  | not => cases h
  | increment => rfl
  | decrement => rfl

mutual

theorem Emits.uses {Γ : Names} : ∀ {e : Expr} {k k' : Counters} {code : Code},
    Emits Γ e k code k' → Code.Uses Γ.frame.entries (e.accesses Γ.scope) code
  | _, _, _, _, .scalar h => by
      rw [Expr.accesses]
      exact Names.uses_of_load h
  | _, _, _, _, .array h => by
      rw [Expr.accesses, Names.access_of_array h]
      exact .none rfl
  | _, _, _, _, .lit => .none rfl
  | _, _, _, _, .paren h => by
      rw [Expr.accesses]
      exact h.uses
  | _, _, _, _, .assign h hstore => by
      rw [Expr.accesses]
      exact h.uses.append (Names.uses_of_store hstore)
  | _, _, _, _, .neg h => by
      rw [Expr.accesses]
      exact h.uses.append (.none rfl)
  | _, _, _, _, .not h => by
      rw [Expr.accesses]
      exact h.uses.append (.none rfl)
  | _, _, _, _, .stepName hu h hstore => by
      rw [Expr.accesses, UnaryOp.target?_of_step hu, Expr.ident?]
      have hput := Names.uses_of_store hstore
      simpa using h.uses.append (.cons rfl (.cons rfl (.cons rfl hput)))
  | _, _, _, _, .step hu hident h => by
      rw [Expr.accesses, UnaryOp.target?_of_step hu, hident]
      exact h.uses.append (.none rfl)
  | _, _, _, _, .arith hl hr => by
      rw [Expr.accesses]
      exact (hl.uses.append hr.uses).append (.none rfl)
  | _, _, _, _, .compare hl hr => by
      rw [Expr.accesses]
      exact (hl.uses.append hr.uses).append (.none rfl)
  | _, _, _, _, .and hl hr => by
      rw [Expr.accesses]
      exact (hl.uses.append hr.uses).append (.none rfl)
  | _, _, _, _, .orReload hleaf hl hr => by
      rw [Expr.accesses, if_pos ⟨rfl, hleaf⟩]
      exact ((hl.uses.append hr.uses).append (.cons rfl hl.uses)).append_none rfl
  | _, _, _, _, .orDup hleaf hl hr => by
      rw [Expr.accesses, if_neg (by simp [hleaf]), List.append_nil]
      exact (hl.uses.append (.cons rfl hr.uses)).append_none rfl
  | _, _, _, _, .call ht h => by
      rw [Expr.accesses]
      obtain ⟨hopening, hinvoke⟩ := Names.accesses_of_calleeFor ht
      exact ((Code.Uses.none hopening).append h.uses).append_none (List.filterMap_cons_none hinvoke)

theorem EmitsAll.uses {Γ : Names} : ∀ {es : List Expr} {k k' : Counters} {code : Code},
    EmitsAll Γ es k code k' → Code.Uses Γ.frame.entries (Expr.accessesAll Γ.scope es) code
  | _, _, _, _, .nil => .none rfl
  | _, _, _, _, .cons h hs => by
      rw [Expr.accessesAll]
      exact h.uses.append hs.uses

end

theorem Context.Grows.isPrefix {c c' : Context} {ds : List VarDecl} (h : c.Grows ds c') :
    c.frame.entries <+: c'.frame.entries :=
  ⟨_, h.entries.symm⟩

theorem Declares.uses {d : VarDecl} {c c' : Context} {code : Code} (h : Declares d c code c') :
    Code.Uses c'.frame.entries (Item.accesses c.toNames.scope [.declaration d]) code := by
  cases h with
  | bare _ hinit =>
      rw [Item.accesses, Item.accesses, hinit]
      exact .none rfl
  | @init frame v hinsert hinit =>
      rw [Item.accesses, Item.accesses, hinit]
      have htype : d.type = .int := d.type_of_isSome_init (Option.isSome_of_eq_some hinit)
      refine List.Forall₂.cons ⟨rfl, d.toVariable, ?_, rfl, htype⟩ .nil
      change frame.entries[c.frame.size]? = some d.toVariable
      rw [(Registry.insert?_eq_some_iff.mp hinsert).2, Registry.size_eq,
        List.getElem?_concat_length]

theorem DeclaresAll.uses : ∀ {ds : List VarDecl} {c c' : Context} {code : Code},
    DeclaresAll ds c code c' →
      Code.Uses c'.frame.entries (Item.accesses c.toNames.scope (ds.map .declaration)) code
  | _, _, _, _, .nil => .none rfl
  | d :: ds, c, c', _, .cons h hs => by
      have hrest := hs.uses
      rw [h.grows.scope] at hrest
      rw [List.map_cons, ← List.singleton_append, Item.accesses_append]
      exact (h.uses.mono hs.grows.isPrefix).append hrest

mutual

theorem Lowers.uses : ∀ {s : Stmt} {c c' : Context} {code : Code}, Lowers s c code c' →
    Code.Uses c'.frame.entries (Item.accesses c.toNames.scope s.items) code
  | .expr e, c, _, _, .expr h => by
      rw [Stmt.items, Item.accesses, Item.accesses, List.append_nil]
      exact h.uses.append_none (by simp [Code.accesses, Line.access?])
  | .block ds ss, c, _, _, .block hds hss => by
      have hbody := hss.uses
      rw [hds.grows.scope] at hbody
      rw [Stmt.items, Item.accesses_append, Item.declared_map]
      exact (hds.uses.mono hss.grows.isPrefix).append hbody
  | .ifThen e s, c, _, _, .ifThen he hs => by
      rw [Stmt.items, Item.accesses]
      exact ((he.uses.mono hs.grows.isPrefix).append (.cons rfl hs.uses)).append_none rfl
  | .ifElse e s s', c, _, _, .ifElse he hs hs' => by
      have hno := hs'.uses
      rw [hs.grows.scope] at hno
      have hprefix := hs'.grows.isPrefix
      rw [Stmt.items, Item.accesses, Item.accesses_append, s.declared_items, ← List.append_assoc]
      exact (((he.uses.mono (hs.grows.isPrefix.trans hprefix)).append
        (.cons rfl (hs.uses.mono hprefix))).append (.cons rfl (.cons rfl hno))).append_none rfl
  | .loop e s, c, _, _, .loop he hs => by
      rw [Stmt.items, Item.accesses]
      exact ((Code.Uses.cons rfl (he.uses.mono hs.grows.isPrefix)).append
        (.cons rfl hs.uses)).append_none rfl
  | .ret (some e), c, _, _, .retValue h => by
      rw [Stmt.items, Item.accesses, Item.accesses, List.append_nil]
      exact h.uses.append_none rfl
  | .ret none, c, _, _, .retVoid => .none rfl

theorem LowersAll.uses : ∀ {ss : List Stmt} {c c' : Context} {code : Code},
    LowersAll ss c code c' →
      Code.Uses c'.frame.entries (Item.accesses c.toNames.scope (Stmt.itemsAll ss)) code
  | _, _, _, _, .nil => .none rfl
  | s :: ss, c, _, _, .cons h hs => by
      have hrest := hs.uses
      rw [h.grows.scope] at hrest
      rw [Stmt.itemsAll, Item.accesses_append, s.declared_items]
      exact (h.uses.mono hs.grows.isPrefix).append hrest

end

/-! ## Functions -/

section

variable {config : Config} {p : Program} {f : FunDecl} {c c' : Context} {m : Method}

/-- The frame that a function leaves holds its variables, and its size is the limit. -/
theorem Compiles.entries_eq (h : Compiles f c m c') (hready : c.Ready config p)
    (hf : f ∈ p.functions) :
    c'.frame.entries = f.bindings ∧ m.localsLimit = f.bindings.length := by
  cases h with
  | @intro s frame decls c₁ lines c₂ hs hframe hdecls hlines =>
      have hsignature : f.signature = s := Option.some.inj ((hready.signature hf).symm.trans hs)
      have hentries : c₂.frame.entries = f.bindings := by
        rw [(hdecls.grows.trans hlines.grows).entries, f.bindings_eq, hsignature, ← hframe]
        rfl
      refine ⟨hentries, ?_⟩
      change c₂.frame.size = _
      rw [Registry.size_eq, hentries]

theorem Compiles.uses (h : Compiles f c m c') (hready : c.Ready config p)
    (hf : f ∈ p.functions) : Code.Uses f.bindings (f.accesses config p) m.code := by
  rw [← (h.entries_eq hready hf).1]
  cases h with
  | @intro s frame decls c₁ lines c₂ hs hframe hdecls hlines =>
      have hsignature : f.signature = s := Option.some.inj ((hready.signature hf).symm.trans hs)
      have hscope := hready.scope (hsignature ▸ hframe)
      have hbody := hlines.uses
      have hlocals := hdecls.uses.mono hlines.grows.isPrefix
      rw [hdecls.grows.scope] at hbody
      rw [hscope] at hbody hlocals
      have hending : Code.accesses (f.ending s) = [] := by
        unfold FunDecl.ending
        split
        · rfl
        · split <;> rfl
      rw [FunDecl.accesses, FunDecl.items, Item.accesses_append, Item.declared_map]
      exact (Code.Uses.none rfl).append
        (((hlocals.append hbody).append_none hending).append_none rfl)

end

/-- Names stand at different positions, so positions are a bijection. -/
theorem bijOn_idxOf {α : Type} [DecidableEq α] {l : List α} (h : l.Nodup) :
    Set.BijOn l.idxOf {x | x ∈ l} (Set.Iio l.length) := by
  refine ⟨fun x hx => List.idxOf_lt_length_of_mem hx, fun x hx y hy hxy => ?_, fun i hi => ?_⟩
  · exact (List.idxOf_inj hx).mp hxy
  · exact ⟨l.get ⟨i, hi⟩, List.get_mem .., h.idxOf_getElem i hi⟩

/-- The frame of every function. Its size is the number of parameters and of
declarations in the body, at any depth, and one more in the entry point. When the
function has been compiled, every name is bound to its position in the text, the
positions are a bijection onto the slots, and no other name is bound. The loads and
stores of the code are the accesses of the text, each at the slot of the name it was
lowered from; so every slot in the code is in the frame, and holds a scalar. -/
theorem frames_laid_out {config : Config} {p : Program} {cls : ClassFile}
    (h : p.generate config = .ok cls) {n : Nat} {f : FunDecl} {m : Method}
    (hf : p.functions[n]? = some f) (hm : cls.functions[n]? = some m) :
    m.localsLimit = f.params.length + (f.locals ++ Stmt.declaredAll f.body).length
        + (if f.name = Signature.entryName then 1 else 0)
    ∧ (∃ c, (p.runTo (n + 1)).on (.start config) = (.ok (cls.functions.take (n + 1)), c)
      ∧ ∀ x v i, c.frame.locate? x = some (v, i) ↔ f.bindings[i]? = some v ∧ v.name = x)
    ∧ Set.BijOn (f.bindings.map Variable.name).idxOf {x | x ∈ f.bindings.map Variable.name}
        (Set.Iio m.localsLimit)
    ∧ m.code.Uses f.bindings (f.accesses config p)
    ∧ ∀ slot, .instr (.iload slot) ∈ m.code ∨ .instr (.istore slot) ∈ m.code →
        slot < m.localsLimit ∧ ∃ v, f.bindings[slot]? = some v ∧ v.type = .int := by
  obtain ⟨c, m', c', hrun, hcompile, hm'⟩ := Program.exists_runTo h hf
  obtain rfl : m = m' := Option.some.inj (hm.symm.trans hm')
  have hready := Program.ready_of_runTo hrun
  have hcompiles := FunDecl.compiles_of_compile hcompile
  have hmem := List.mem_of_getElem? hf
  obtain ⟨hentries, hlimit⟩ := hcompiles.entries_eq hready hmem
  have huses := hcompiles.uses hready hmem
  have hnext : (p.runTo (n + 1)).on (.start config) = (.ok (cls.functions.take (n + 1)), c') := by
    rw [Program.runTo_succ hf, List.take_add_one, hm]
    exact Attempt.on_bind_eq_ok.mpr ⟨_, c, hrun, Attempt.on_bind_eq_ok.mpr ⟨m, c', hcompile, rfl⟩⟩
  have hnames : (f.bindings.map Variable.name).Nodup := hentries ▸ c'.frame.nodup_entries
  have hbij := bijOn_idxOf hnames
  rw [List.length_map, ← hlimit] at hbij
  refine ⟨?_, ⟨c', hnext, fun x v i => ?_⟩, hbij, huses, fun slot hslot => ?_⟩
  · rw [hlimit, FunDecl.bindings]
    split <;> simp
  · rw [Registry.locate?_eq_some_iff, hentries]
  · have haccess : ∃ kind, (⟨kind, slot⟩ : Access Nat) ∈ Code.accesses m.code := by
      obtain hload | hstore := hslot
      · exact ⟨.load, List.mem_filterMap.mpr ⟨_, hload, rfl⟩⟩
      · exact ⟨.store, List.mem_filterMap.mpr ⟨_, hstore, rfl⟩⟩
    obtain ⟨kind, hkind⟩ := haccess
    obtain ⟨v, hv, htype⟩ := huses.exists_scalar hkind
    exact ⟨hlimit ▸ (List.getElem?_eq_some_iff.mp hv).1, v, hv, htype⟩

-- Declaring the variable of the loop stores its initial value.
example : (Program.euclid.functions[0]?.map (FunDecl.accesses {} Program.euclid)) =
    some [⟨.load, "b"⟩, ⟨.store, "r"⟩, ⟨.load, "a"⟩, ⟨.load, "b"⟩, ⟨.store, "r"⟩, ⟨.load, "b"⟩,
      ⟨.store, "a"⟩, ⟨.load, "r"⟩, ⟨.store, "b"⟩, ⟨.load, "a"⟩] := by decide +kernel

/-- The two parameters of `gcd` have slots 0 and 1, the variable of its loop has slot 2. -/
theorem euclid_gcd_frame : ∃ f cls m, Program.euclid.functions[0]? = some f
    ∧ Program.euclid.generate {} = .ok cls ∧ cls.functions[0]? = some m ∧ m.localsLimit = 3
    ∧ m.code.Uses f.bindings (f.accesses {} Program.euclid) := by
  obtain ⟨cls, hcls⟩ := Program.exists_generate_euclid
  obtain ⟨c, m, c', -, -, hm⟩ := Program.exists_runTo hcls (n := 0) rfl
  obtain ⟨hlimit, -, -, huses, -⟩ := frames_laid_out hcls rfl hm
  exact ⟨_, cls, m, rfl, hcls, hm, hlimit, huses⟩

end JasminGen
