import JasminGen.Proofs.Labels
import JasminGen.Proofs.Runs

/-!
# Two runs side by side

Lowering the same text twice, from contexts that differ, is compared step by step.
`Attempt.Parallel R Q x y` says that `x` and `y`, run from states in `R`, end alike
and leave states in `R`: both fail, with one error, or both succeed, with results in
`Q`. Sequences are parallel when their parts are (`Parallel.bind`), so the two runs
are never written out.

The contexts compared here agree on what can be named and on the meter, and their
label counters are `d` apart. Then the emitted codes have the same lines, with labels
that are `d` apart as well (`Code.Shifted`). Where a method begins less is needed: the
frame is emptied and the meter set to zero, so it is enough that the classes have the
same members and that no watermark is left over (`Context.Apart`).
-/

namespace JasminGen

/-! ## Attempts side by side -/

namespace Attempt

variable {σ ε α β γ δ : Type} {R S : σ → σ → Prop} {P : α → β → Prop} {Q : γ → δ → Prop}

/-- Both outcomes are the same error, or both are results and these are in `Q`. -/
inductive EndsAlike (Q : α → β → Prop) : Except ε α → Except ε β → Prop where
  | ok {a b} : Q a b → EndsAlike Q (.ok a) (.ok b)
  | error {e} : EndsAlike Q (.error e) (.error e)

theorem EndsAlike.eq {r r' : Except ε α} (h : EndsAlike Eq r r') : r = r' := by
  cases h with
  | ok h => rw [h]
  | error => rfl

theorem EndsAlike.of_eq {r r' : Except ε α} (h : r = r') : EndsAlike Eq r r' := by
  subst h
  cases r with
  | ok a => exact .ok rfl
  | error e => exact .error

theorem EndsAlike.map {r : Except ε α} {r' : Except ε β} {f : α → γ} {g : β → δ}
    (h : EndsAlike P r r') (hf : ∀ a b, P a b → Q (f a) (g b)) :
    EndsAlike Q (r.map f) (r'.map g) := by
  cases h with
  | ok h => exact .ok (hf _ _ h)
  | error => exact .error

/-- The runs of `x` from `s` and of `y` from `t`. -/
structure Matched (R : σ → σ → Prop) (Q : α → β → Prop) (x : Attempt σ ε α) (s : σ)
    (y : Attempt σ ε β) (t : σ) : Prop where
  ends : EndsAlike Q (x.on s).1 (y.on t).1
  states : R (x.on s).2 (y.on t).2

def Parallel (R : σ → σ → Prop) (Q : α → β → Prop) (x : Attempt σ ε α) (y : Attempt σ ε β) :
    Prop :=
  ∀ s t, R s t → Matched R Q x s y t

/-- The second parts are run from where the first parts have come to, and may count on
all that is known of those runs. -/
theorem Matched.bind {x : Attempt σ ε α} {y : Attempt σ ε β} {f : α → Attempt σ ε γ}
    {g : β → Attempt σ ε δ} {s t : σ} (hx : Matched S P x s y t)
    (hS : ∀ {s t}, S s t → R s t)
    (hf : ∀ {a b s' t'}, x.on s = (.ok a, s') → y.on t = (.ok b, t') → P a b → S s' t' →
      Matched R Q (f a) s' (g b) t') :
    Matched R Q (x >>= f) s (y >>= g) t := by
  obtain ⟨hends, hstates⟩ := hx
  rcases hxs : x.on s with ⟨r, s'⟩
  rcases hyt : y.on t with ⟨r', t'⟩
  rw [hxs, hyt] at hends hstates
  cases hends with
  | error =>
      refine ⟨?_, ?_⟩ <;> rw [on_bind, on_bind, hxs, hyt]
      · exact .error
      · exact hS hstates
  | ok hab =>
      obtain ⟨hends', hstates'⟩ := hf hxs hyt hab hstates
      refine ⟨?_, ?_⟩ <;> rw [on_bind, on_bind, hxs, hyt]
      · exact hends'
      · exact hstates'

theorem Matched.map {x : Attempt σ ε α} {y : Attempt σ ε β} {f : α → γ} {g : β → δ} {s t : σ}
    (hx : Matched R P x s y t) (hf : ∀ a b, P a b → Q (f a) (g b)) :
    Matched R Q (f <$> x) s (g <$> y) t := by
  refine ⟨?_, ?_⟩ <;> rw [on_map, on_map]
  · exact hx.ends.map hf
  · exact hx.states

/-- Steps that take what they are given or refuse it, on the same grounds. -/
theorem Matched.of_option {ρ : Type} {x y : Attempt σ ε α} {s t : σ} {o : Option ρ} {e : ε}
    {a : α} {f g : ρ → σ} (hst : R s t) (hfg : ∀ r, R (f r) (g r))
    (hnone : o = none → x.on s = (.error e, s) ∧ y.on t = (.error e, t))
    (hsome : ∀ r, o = some r → x.on s = (.ok a, f r) ∧ y.on t = (.ok a, g r)) :
    Matched R Eq x s y t := by
  cases o with
  | none =>
      obtain ⟨hx, hy⟩ := hnone rfl
      refine ⟨?_, ?_⟩ <;> rw [hx, hy]
      · exact .error
      · exact hst
  | some r =>
      obtain ⟨hx, hy⟩ := hsome r rfl
      refine ⟨?_, ?_⟩ <;> rw [hx, hy]
      · exact .ok rfl
      · exact hfg r

namespace Parallel

theorem pure {a : α} {b : β} (h : P a b) :
    Parallel R P (Pure.pure a : Attempt σ ε α) (Pure.pure b) :=
  fun _ _ hst => ⟨.ok h, hst⟩

theorem throw (e : ε) :
    Parallel R P (MonadExcept.throw e : Attempt σ ε α) (MonadExcept.throw e) :=
  fun _ _ hst => ⟨.error, hst⟩

theorem liftM (r : Except ε α) :
    Parallel R (fun a b => a = b ∧ r = .ok a) (MonadLiftT.monadLift r : Attempt σ ε α)
      (MonadLiftT.monadLift r) := by
  intro s t hst
  refine ⟨?_, ?_⟩ <;> rw [on_liftM, on_liftM]
  · cases r with
    | error e => exact .error
    | ok a => exact .ok ⟨rfl, rfl⟩
  · exact hst

theorem bind {x : Attempt σ ε α} {y : Attempt σ ε β} {f : α → Attempt σ ε γ}
    {g : β → Attempt σ ε δ} (hx : Parallel R P x y)
    (hf : ∀ a b, P a b → Parallel R Q (f a) (g b)) : Parallel R Q (x >>= f) (y >>= g) :=
  fun s t hst => (hx s t hst).bind id fun _ _ hab => hf _ _ hab _ _

/-- The first parts have the same result. -/
theorem bind_eq {x y : Attempt σ ε α} {f : α → Attempt σ ε γ} {g : α → Attempt σ ε δ}
    (hx : Parallel R Eq x y) (hf : ∀ a, Parallel R Q (f a) (g a)) :
    Parallel R Q (x >>= f) (y >>= g) :=
  hx.bind fun a _ hab => hab ▸ hf a

theorem forM {f : α → Attempt σ ε PUnit} (hf : ∀ a, Parallel R Eq (f a) (f a)) :
    ∀ l : List α, Parallel R Eq (l.forM f) (l.forM f)
  | [] => .pure rfl
  | a :: l => (hf a).bind_eq fun _ => forM hf l

end Parallel

end Attempt

/-! ## Codes with labels apart -/

def Label.Shifted (d : Int) (l l' : Label) : Prop := (l' : Int) = l + d

/-- The same line, except that a label in it is greater by `d`. -/
inductive Line.Shifted (d : Int) : Line → Line → Prop where
  | label {l l' : Label} : l.Shifted d l' → Shifted d (.label l) (.label l')
  | branch {c : Comparison} {l l' : Label} : l.Shifted d l' →
      Shifted d (.instr (.branch c l)) (.instr (.branch c l'))
  | goto {l l' : Label} : l.Shifted d l' → Shifted d (.instr (.goto l)) (.instr (.goto l'))
  | plain {i : Instr} : i.target? = none → Shifted d (.instr i) (.instr i)
  | directive {x : Directive} : Shifted d (.directive x) (.directive x)
  | blank : Shifted d .blank .blank

theorem Label.Shifted.eq_of_zero {l l' : Label} (h : l.Shifted 0 l') : l = l' :=
  (Int.ofNat_inj.mp (h.trans (Int.add_zero _))).symm

theorem Line.Shifted.eq_of_zero {l l' : Line} (h : l.Shifted 0 l') : l = l' := by
  cases h with
  | label h | branch h | goto h => rw [h.eq_of_zero]
  | _ => rfl

/-- The same lines, except that all labels, defined or jumped to, are greater by `d`. -/
def Code.Shifted (d : Int) : Code → Code → Prop := List.Forall₂ (Line.Shifted d)

namespace Code.Shifted

variable {d : Int} {c c' e e' : Code}

theorem nil : Shifted d [] [] := List.Forall₂.nil

theorem cons {l l' : Line} (hl : l.Shifted d l') (h : Shifted d c c') :
    Shifted d (l :: c) (l' :: c') :=
  List.Forall₂.cons hl h

theorem instr {i : Instr} (hi : i.target? = none) (h : Shifted d c c') :
    Shifted d (.instr i :: c) (.instr i :: c') :=
  .cons (.plain hi) h

theorem append (h : Shifted d c c') (h' : Shifted d e e') : Shifted d (c ++ e) (c' ++ e') :=
  List.rel_append h h'

/-- Code without labels is the same in both. -/
theorem straight : ∀ {c : Code}, Code.labels c = [] → Code.targets c = [] → Shifted d c c
  | [], _, _ => .nil
  | .instr i :: c, hl, ht => by
      rw [Code.targets_instr, List.append_eq_nil_iff] at ht
      refine .instr ?_ (straight hl ht.2)
      cases hi : i.target? with
      | none => rfl
      | some l => rw [hi] at ht; cases ht.1
  | .label _ :: _, hl, _ => by cases hl
  | .directive _ :: c, hl, ht => .cons .directive (straight hl ht)
  | .blank :: c, hl, ht => .cons .blank (straight hl ht)

theorem choose {hit hit' done done' : Label} (fall taken : Int32) (hhit : hit.Shifted d hit')
    (hdone : done.Shifted d done') :
    Shifted d (Code.choose fall taken hit done) (Code.choose fall taken hit' done') :=
  .instr rfl (.cons (.goto hdone) (.cons (.label hhit) (.instr rfl (.cons (.label hdone) .nil))))

theorem ifThen {done done' : Label} (hcond : Shifted d c c') (hyes : Shifted d e e')
    (hdone : done.Shifted d done') :
    Shifted d (Code.ifThen c e done) (Code.ifThen c' e' done') :=
  (hcond.append (.cons (.branch hdone) hyes)).append (.cons (.label hdone) .nil)

theorem ifElse {no no' : Code} {otherwise otherwise' done done' : Label}
    (hcond : Shifted d c c') (hyes : Shifted d e e') (hno : Shifted d no no')
    (hother : otherwise.Shifted d otherwise') (hdone : done.Shifted d done') :
    Shifted d (Code.ifElse c e no otherwise done) (Code.ifElse c' e' no' otherwise' done') :=
  ((hcond.append (.cons (.branch hother) hyes)).append
    (.cons (.goto hdone) (.cons (.label hother) hno))).append (.cons (.label hdone) .nil)

theorem loop {start start' done done' : Label} (hcond : Shifted d c c') (hbody : Shifted d e e')
    (hstart : start.Shifted d start') (hdone : done.Shifted d done') :
    Shifted d (Code.loop c e start done) (Code.loop c' e' start' done') :=
  ((cons (.label hstart) hcond).append (.cons (.branch hdone) hbody)).append
    (.cons (.goto hstart) (.cons (.label hdone) .nil))

/-- Codes whose labels are not apart are equal. -/
theorem eq_of_zero (h : Shifted 0 c c') : c = c' :=
  List.forall₂_eq_eq_eq ▸ h.imp fun _ _ => Line.Shifted.eq_of_zero

end Code.Shifted

/-! ## What the two runs agree on -/

/-- Under both names the class has the same name, the same print routine and the same
members. Which of them came first, and what the default stack limit is, may differ. -/
structure Names.SameClass (Γ Γ' : Names) : Prop where
  className : Γ'.config.className = Γ.config.className
  printBuiltin : Γ'.config.printBuiltin = Γ.config.printBuiltin
  fields : ∀ x, Γ'.fields.find? x = Γ.fields.find? x
  functions : ∀ f, Γ'.functions.find? f = Γ.functions.find? f

namespace Names.SameClass

variable {Γ Γ' : Names}

theorem qualified_eq (h : Γ.SameClass Γ') (member : String) :
    Γ'.config.qualified member = Γ.config.qualified member := by
  rw [Config.qualified, Config.qualified, h.className]

theorem signature_eq (h : Γ.SameClass Γ') (f : String) : Γ'.signature f = Γ.signature f := by
  rw [signature, signature, h.functions f]

theorem calleeFor_eq (h : Γ.SameClass Γ') (f : String) (n : Nat) :
    Γ'.calleeFor f n = Γ.calleeFor f n := by
  have hmethod : Γ'.method = Γ.method := by
    funext s
    rw [method, method, h.qualified_eq]
  rw [calleeFor, calleeFor, callee, callee, h.printBuiltin, hmethod, h.signature_eq f]

end Names.SameClass

/-- Every name means the same. -/
structure Names.Alike (Γ Γ' : Names) : Prop extends Γ.SameClass Γ' where
  frame : Γ'.frame = Γ.frame

namespace Names.Alike

variable {Γ Γ' : Names}

theorem resolve_eq (h : Γ.Alike Γ') (x : String) : Γ'.resolve x = Γ.resolve x := by
  rw [resolve, resolve, h.frame, h.fields x]

theorem load?_eq (h : Γ.Alike Γ') (x : String) : Γ'.load? x = Γ.load? x := by
  rw [load?, load?, h.resolve_eq x, h.qualified_eq x]

theorem store_eq (h : Γ.Alike Γ') (x : String) : Γ'.store x = Γ.store x := by
  rw [store, store, h.resolve_eq x, h.qualified_eq x]

end Names.Alike

/-- The meters show the same, and `d` more labels were issued. -/
structure Counters.Shifted (d : Int) (k k' : Counters) : Prop where
  labels : Label.Shifted d k.labels k'.labels
  meter : k'.meter = k.meter

/-- Contexts within a method. -/
structure Context.Shifted (d : Int) (c c' : Context) : Prop where
  names : c.toNames.Alike c'.toNames
  counters : c.toCounters.Shifted d c'.toCounters

/-- Contexts between methods. -/
structure Context.Apart (d : Int) (c c' : Context) : Prop where
  names : c.toNames.SameClass c'.toNames
  labels : Label.Shifted d c.labels c'.labels
  archive : c'.meter.archive = c.meter.archive

namespace Context

variable {d : Int} {c c' : Context}

theorem Shifted.apart (h : c.Shifted d c') : c.Apart d c' :=
  ⟨h.names.toSameClass, h.counters.labels, congrArg StackMeter.archive h.counters.meter⟩

/-- A method begins with contexts that agree, whatever was left in them. -/
theorem Apart.fresh (h : c.Apart d c') : c.fresh.Shifted d c'.fresh where
  names := ⟨⟨h.names.1, h.names.2, h.names.3, h.names.4⟩, rfl⟩
  counters := ⟨h.labels, by
    change c'.meter.reset = c.meter.reset
    rw [StackMeter.reset, StackMeter.reset, h.archive]⟩

theorem Shifted.close (h : c.Shifted d c') : c.close.Shifted d c'.close where
  names := ⟨h.names.toSameClass, h.names.frame⟩
  counters := ⟨h.counters.labels, congrArg StackMeter.close h.counters.meter⟩

end Context

/-! ## Expressions -/

open Attempt (Matched Parallel)

namespace EmitM

variable {d : Int}

theorem parallel_shift (n : Int) : Parallel (Counters.Shifted d) Eq (shift n) (shift n) :=
  fun _ _ h => ⟨.ok rfl, h.labels, congrArg (StackMeter.move · n) h.meter⟩

theorem parallel_push : Parallel (Counters.Shifted d) Eq push push := parallel_shift 1

theorem parallel_pop : Parallel (Counters.Shifted d) Eq pop pop := parallel_shift (-1)

theorem parallel_freshLabel :
    Parallel (Counters.Shifted d) (Label.Shifted d) freshLabel freshLabel := by
  intro k k' h
  refine ⟨.ok h.labels, ?_, h.meter⟩
  have hlabels : (k'.labels : Int) = k.labels + d := h.labels
  change ((k'.labels + 1 : Nat) : Int) = (k.labels + 1 : Nat) + d
  omega

theorem parallel_truth : Parallel (Counters.Shifted d) (Code.Shifted d) truth truth :=
  parallel_freshLabel.bind fun _ _ hzero => parallel_freshLabel.bind fun _ _ hdone =>
    .pure (.cons (.branch hzero) (.choose 1 0 hzero hdone))

theorem parallel_compare (c : Comparison) :
    Parallel (Counters.Shifted d) (Code.Shifted d) (compare c) (compare c) :=
  parallel_freshLabel.bind fun _ _ hhit => parallel_freshLabel.bind fun _ _ hdone =>
    .pure (.instr rfl (.cons (.branch hhit) (.choose 0 1 hhit hdone)))

theorem parallel_negate : Parallel (Counters.Shifted d) (Code.Shifted d) negate negate :=
  parallel_freshLabel.bind fun _ _ hentry => parallel_freshLabel.bind fun _ _ hzero =>
    parallel_freshLabel.bind fun _ _ hdone =>
      .pure (.cons (.branch hzero) (.cons (.label hentry) (.choose 0 1 hzero hdone)))

theorem parallel_result (t : ReturnType) :
    Parallel (Counters.Shifted d) Eq (result t) (result t) := by
  cases t with
  | int => exact parallel_push
  | void => exact .pure rfl

variable {Γ Γ' : Names} (hΓ : Γ.Alike Γ')

include hΓ

theorem parallel_store (x : String) :
    Parallel (Counters.Shifted d) (Code.Shifted d) (store Γ x) (store Γ' x) := by
  rw [store, store, hΓ.store_eq x]
  refine (Parallel.liftM _).bind ?_
  rintro i _ ⟨rfl, hi⟩
  exact parallel_pop.bind_eq fun _ => .pure (.instr (Names.target?_of_store hi) .nil)

theorem parallel_unary (op : UnaryOp) (e : Expr) :
    Parallel (Counters.Shifted d) (Code.Shifted d) (unary Γ op e) (unary Γ' op e) := by
  have hback : Parallel (Counters.Shifted d) (Code.Shifted d) (writeBack Γ e) (writeBack Γ' e) := by
    rw [writeBack, writeBack]
    split
    · exact parallel_push.bind_eq fun _ => (parallel_store hΓ _).bind fun _ _ hput =>
        .pure (.instr rfl hput)
    · exact .pure .nil
  have hstep (op : ArithOp) :
      Parallel (Counters.Shifted d) (Code.Shifted d) (step Γ op e) (step Γ' op e) :=
    parallel_push.bind_eq fun _ => parallel_pop.bind_eq fun _ => hback.bind fun _ _ hput =>
      .pure (.instr rfl (.instr rfl hput))
  cases op with
  | neg => exact .pure (.instr rfl .nil)
  | not => exact parallel_negate
  | increment => exact hstep .add
  | decrement => exact hstep .sub

end EmitM

mutual

theorem Expr.parallel_lower {Γ Γ' : Names} (hΓ : Γ.Alike Γ') {d : Int} : ∀ e : Expr,
    Parallel (Counters.Shifted d) (Code.Shifted d) (e.lower Γ) (e.lower Γ')
  | .ident x => by
      rw [Expr.lower, Expr.lower, hΓ.load?_eq x]
      refine (Parallel.liftM _).bind ?_
      rintro i? _ ⟨rfl, hi⟩
      cases i? with
      | none => exact .pure .nil
      | some i =>
          exact EmitM.parallel_push.bind_eq fun _ =>
            .pure (.instr (Names.target?_of_load hi) .nil)
  | .lit v => by
      rw [Expr.lower, Expr.lower]
      exact EmitM.parallel_push.bind_eq fun _ => .pure (.instr rfl .nil)
  | .paren e => by
      rw [Expr.lower, Expr.lower]
      exact e.parallel_lower hΓ
  | .assign x e => by
      rw [Expr.lower, Expr.lower]
      exact (e.parallel_lower hΓ).bind fun _ _ hvalue => (EmitM.parallel_store hΓ x).bind
        fun _ _ hput => .pure (hvalue.append hput)
  | .unary op e => by
      rw [Expr.lower, Expr.lower]
      exact (e.parallel_lower hΓ).bind fun _ _ hvalue => (EmitM.parallel_unary hΓ op e).bind
        fun _ _ htail => .pure (hvalue.append htail)
  | .binary op l r => by
      have hl := l.parallel_lower hΓ (d := d)
      have hr := r.parallel_lower hΓ (d := d)
      cases op with
      | arith op =>
          rw [Expr.lower, Expr.lower]
          exact hl.bind fun _ _ hleft => hr.bind fun _ _ hright =>
            EmitM.parallel_pop.bind_eq fun _ =>
              .pure ((hleft.append hright).append (.instr rfl .nil))
      | compare c =>
          rw [Expr.lower, Expr.lower]
          exact hl.bind fun _ _ hleft => hr.bind fun _ _ hright =>
            EmitM.parallel_pop.bind_eq fun _ => (EmitM.parallel_compare c).bind fun _ _ htail =>
              .pure ((hleft.append hright).append htail)
      | and =>
          rw [Expr.lower, Expr.lower]
          exact hl.bind fun _ _ hleft => hr.bind fun _ _ hright =>
            EmitM.parallel_pop.bind_eq fun _ => EmitM.parallel_truth.bind fun _ _ htail =>
              .pure ((hleft.append hright).append (.instr rfl htail))
      | or =>
          rw [Expr.lower, Expr.lower]
          refine hl.bind fun _ _ hleft => ?_
          split
          · exact hr.bind fun _ _ hright => EmitM.parallel_pop.bind_eq fun _ =>
              EmitM.parallel_truth.bind fun _ _ htail =>
                .pure (((hleft.append hright).append (.instr rfl hleft)).append (.instr rfl htail))
          · exact EmitM.parallel_push.bind_eq fun _ => hr.bind fun _ _ hright =>
              (EmitM.parallel_shift _).bind_eq fun _ => EmitM.parallel_truth.bind fun _ _ htail =>
                .pure ((hleft.append (.instr rfl hright)).append (.instr rfl (.instr rfl htail)))
  | .call f es => by
      rw [Expr.lower, Expr.lower, hΓ.calleeFor_eq f]
      refine (Parallel.liftM _).bind ?_
      rintro t _ ⟨rfl, ht⟩
      obtain ⟨hlabels, htargets, hinvoke⟩ := Names.straight_of_calleeFor ht
      exact EmitM.parallel_push.bind_eq fun _ => (Expr.parallel_lowerAll hΓ es).bind
        fun _ _ hargs => (EmitM.parallel_shift _).bind_eq fun _ =>
          (EmitM.parallel_result _).bind_eq fun _ =>
            .pure (((Code.Shifted.straight hlabels htargets).append hargs).append
              (.instr hinvoke .nil))
  | .index a e => by
      rw [Expr.lower, Expr.lower]
      exact .throw _
  | .indexAssign a e v => by
      rw [Expr.lower, Expr.lower]
      exact .throw _

theorem Expr.parallel_lowerAll {Γ Γ' : Names} (hΓ : Γ.Alike Γ') {d : Int} : ∀ es : List Expr,
    Parallel (Counters.Shifted d) (Code.Shifted d) (Expr.lowerAll Γ es) (Expr.lowerAll Γ' es)
  | [] => by
      rw [Expr.lowerAll, Expr.lowerAll]
      exact .pure .nil
  | e :: es => by
      rw [Expr.lowerAll, Expr.lowerAll]
      exact (e.parallel_lower hΓ).bind fun _ _ hfirst => (Expr.parallel_lowerAll hΓ es).bind
        fun _ _ hrest => .pure (hfirst.append hrest)

end

/-! ## Statements -/

namespace LowerM

variable {d : Int}

theorem parallel_emit {α β : Type} {Q : α → β → Prop} {x : EmitM α} {y : EmitM β}
    (h : Parallel (Counters.Shifted d) Q x y) :
    Parallel (Context.Shifted d) Q (emit x) (emit y) := by
  intro c c' hc
  obtain ⟨hends, hstates⟩ := h _ _ hc.counters
  exact ⟨hends, hc.names, hstates⟩

theorem parallel_freshLabel : Parallel (Context.Shifted d) (Label.Shifted d)
    (emit EmitM.freshLabel) (emit EmitM.freshLabel) :=
  parallel_emit EmitM.parallel_freshLabel

theorem parallel_pop : Parallel (Context.Shifted d) Eq (emit EmitM.pop) (emit EmitM.pop) :=
  parallel_emit EmitM.parallel_pop

theorem parallel_names : Parallel (Context.Shifted d) Names.Alike names names :=
  fun _ _ hc => ⟨.ok hc.names, hc⟩

theorem parallel_depth : Parallel (Context.Shifted d) Eq depth depth :=
  fun _ _ hc => ⟨.ok (congrArg StackMeter.current hc.counters.meter).symm, hc⟩

theorem parallel_declare (v : Variable) :
    Parallel (Context.Shifted d) Eq (declare v) (declare v) := by
  intro c c' hc
  have hclass := hc.names.toSameClass
  have hframe := hc.names.frame
  have hsize : c'.frame.size = c.frame.size := congrArg Registry.size hframe
  refine Matched.of_option hc (fun frame => ?_)
    (fun h => ⟨on_declare_of_none h, on_declare_of_none (hframe ▸ h)⟩)
    (fun frame h => ⟨on_declare_of_some h, hsize ▸ on_declare_of_some (hframe ▸ h)⟩)
  exact ⟨⟨⟨hclass.1, hclass.2, hclass.3, hclass.4⟩, rfl⟩, hc.counters⟩

theorem parallel_declareAll : ∀ vs : List Variable,
    Parallel (Context.Shifted d) Eq (declareAll vs) (declareAll vs)
  | [] => by
      rw [declareAll]
      exact .pure rfl
  | v :: vs => by
      rw [declareAll]
      exact (parallel_declare v).bind_eq fun _ => parallel_declareAll vs

end LowerM

theorem Expr.parallel_lowerHere {d : Int} (e : Expr) :
    Parallel (Context.Shifted d) (Code.Shifted d) e.lowerHere e.lowerHere :=
  LowerM.parallel_names.bind fun _ _ hΓ => LowerM.parallel_emit (e.parallel_lower hΓ)

theorem VarDecl.parallel_lower {d : Int} (v : VarDecl) :
    Parallel (Context.Shifted d) (Code.Shifted d) v.lower v.lower := by
  refine (LowerM.parallel_declare _).bind_eq fun _ => ?_
  split
  · exact (LowerM.parallel_emit EmitM.parallel_push).bind_eq fun _ =>
      LowerM.parallel_pop.bind_eq fun _ => .pure (.instr rfl (.instr rfl .nil))
  · exact .pure .nil

theorem VarDecl.parallel_lowerAll {d : Int} : ∀ vs : List VarDecl,
    Parallel (Context.Shifted d) (Code.Shifted d) (VarDecl.lowerAll vs) (VarDecl.lowerAll vs)
  | [] => by
      rw [VarDecl.lowerAll]
      exact .pure .nil
  | v :: vs => by
      rw [VarDecl.lowerAll]
      exact v.parallel_lower.bind fun _ _ hfirst => (VarDecl.parallel_lowerAll vs).bind
        fun _ _ hrest => .pure (hfirst.append hrest)

mutual

theorem Stmt.parallel_lower {d : Int} : ∀ s : Stmt,
    Parallel (Context.Shifted d) (Code.Shifted d) s.lower s.lower
  | .expr e => by
      rw [Stmt.lower]
      refine LowerM.parallel_depth.bind_eq fun before => e.parallel_lowerHere.bind
        fun _ _ hcode => LowerM.parallel_depth.bind_eq fun after => ?_
      have hpops := Code.straight_pops (after - before).toNat
      exact (LowerM.parallel_emit (EmitM.parallel_shift _)).bind_eq fun _ =>
        .pure (hcode.append (.straight hpops.1 hpops.2))
  | .block ds ss => by
      rw [Stmt.lower]
      exact (VarDecl.parallel_lowerAll ds).bind fun _ _ hdecls =>
        (Stmt.parallel_lowerAll ss).bind fun _ _ hlines => .pure (hdecls.append hlines)
  | .ifThen e s => by
      rw [Stmt.lower]
      exact e.parallel_lowerHere.bind fun _ _ hcond => s.parallel_lower.bind fun _ _ hyes =>
        LowerM.parallel_freshLabel.bind fun _ _ hdone => LowerM.parallel_pop.bind_eq fun _ =>
          .pure (hcond.ifThen hyes hdone)
  | .ifElse e s s' => by
      rw [Stmt.lower]
      exact e.parallel_lowerHere.bind fun _ _ hcond => s.parallel_lower.bind fun _ _ hyes =>
        s'.parallel_lower.bind fun _ _ hno => LowerM.parallel_freshLabel.bind fun _ _ hdone =>
          LowerM.parallel_freshLabel.bind fun _ _ hother => LowerM.parallel_pop.bind_eq fun _ =>
            .pure (hcond.ifElse hyes hno hother hdone)
  | .loop e s => by
      rw [Stmt.lower]
      exact e.parallel_lowerHere.bind fun _ _ hcond => s.parallel_lower.bind fun _ _ hbody =>
        LowerM.parallel_freshLabel.bind fun _ _ hstart => LowerM.parallel_freshLabel.bind
          fun _ _ hdone => LowerM.parallel_pop.bind_eq fun _ =>
            .pure (hcond.loop hbody hstart hdone)
  | .ret none => by
      rw [Stmt.lower]
      exact .pure (.instr rfl .nil)
  | .ret (some e) => by
      rw [Stmt.lower]
      exact e.parallel_lowerHere.bind fun _ _ hvalue => LowerM.parallel_pop.bind_eq fun _ =>
        .pure (hvalue.append (.instr rfl .nil))

theorem Stmt.parallel_lowerAll {d : Int} : ∀ ss : List Stmt,
    Parallel (Context.Shifted d) (Code.Shifted d) (Stmt.lowerAll ss) (Stmt.lowerAll ss)
  | [] => by
      rw [Stmt.lowerAll]
      exact .pure .nil
  | s :: ss => by
      rw [Stmt.lowerAll]
      exact s.parallel_lower.bind fun _ _ hfirst => (Stmt.parallel_lowerAll ss).bind
        fun _ _ hrest => .pure (hfirst.append hrest)

end

/-! ## Methods -/

/-- The same method, except that the labels in its code are greater by `d`. -/
structure Method.Shifted (d : Int) (m m' : Method) : Prop where
  name : m'.name = m.name
  descriptor : m'.descriptor = m.descriptor
  stackLimit : m'.stackLimit = m.stackLimit
  localsLimit : m'.localsLimit = m.localsLimit
  code : m.code.Shifted d m'.code

theorem Method.Shifted.eq_of_zero {m m' : Method} (h : m.Shifted 0 m') : m = m' := by
  obtain ⟨hname, hdescriptor, hstack, hlocals, hcode⟩ := h
  cases m
  cases m'
  cases hname
  cases hdescriptor
  cases hstack
  cases hlocals
  cases Code.Shifted.eq_of_zero hcode
  rfl

theorem Context.Shifted.limit_eq {d : Int} {c c' : Context} (h : c.Shifted d c') :
    c'.limit = c.limit := by
  have hmeter : c'.close.meter = c.close.meter := h.close.counters.meter
  rw [limit, limit, hmeter]
  exact c.meter.takeLimit_close ..

/-- Two methods whose lines are parallel get the same limits: they have been ended, so
there is a watermark to take, and the default, on which the contexts need not agree, is
not used. -/
theorem Method.matched_make {d : Int} {c c' : Context} (h : c.Apart d c') {lines : LowerM Code}
    (hlines : Parallel (Context.Shifted d) (Code.Shifted d) lines lines)
    (access name descriptor : String) :
    Matched (Context.Apart d) (Method.Shifted d) (make access name descriptor lines) c
      (make access name descriptor lines) c' := by
  obtain ⟨hends, hstates⟩ := hlines _ _ h.fresh
  rcases hrun : lines.on c.fresh with ⟨r, b⟩
  rcases hrun' : lines.on c'.fresh with ⟨r', b'⟩
  rw [hrun, hrun'] at hends hstates
  cases hends with
  | error =>
      refine ⟨?_, ?_⟩ <;> rw [on_make, on_make, hrun, hrun']
      · exact .error
      · exact hstates.apart
  | ok hbody =>
      have hlocals : b'.frame.size = b.frame.size := congrArg Registry.size hstates.names.frame
      have hclass := hstates.names.toSameClass
      refine ⟨?_, ?_⟩ <;> rw [on_make, on_make, hrun, hrun']
      · simp only [hstates.limit_eq, hlocals]
        refine .ok ⟨rfl, rfl, rfl, rfl, ?_⟩
        exact Code.Shifted.append (.straight rfl rfl) (hbody.append (.straight rfl rfl))
      · exact ⟨⟨hclass.1, hclass.2, hclass.3, hclass.4⟩, hstates.counters.labels,
          congrArg (fun l : Nat × StackMeter => l.2.archive) hstates.limit_eq⟩

theorem FunDecl.parallel_lines {d : Int} (f : FunDecl) (s : Signature) :
    Parallel (Context.Shifted d) (Code.Shifted d) (f.lines s) (f.lines s) := by
  have hending := f.straight_ending s
  exact (LowerM.parallel_declareAll _).bind_eq fun _ => (Stmt.parallel_lower _).bind
    fun _ _ hcode => .pure (hcode.append (.straight hending.1 hending.2))

theorem FunDecl.matched_compile (f : FunDecl) {d : Int} {c c' : Context} (h : c.Apart d c') :
    Matched (Context.Apart d) (Method.Shifted d) f.compile c f.compile c' := by
  have hsignature := h.names.signature_eq f.name
  cases hs : c.toNames.signature f.name with
  | error e =>
      refine ⟨?_, ?_⟩ <;> rw [on_compile, on_compile, hsignature, hs]
      · exact .error
      · exact h
  | ok s =>
      have hmake := Method.matched_make h (f.parallel_lines s) "public static" s.name s.descriptor
      refine ⟨?_, ?_⟩ <;> rw [on_compile, on_compile, hsignature, hs]
      · exact hmake.ends
      · exact hmake.states

theorem StaticInit.parallel_lines {d : Int} (inits : List (String × Int32)) :
    Parallel (Context.Shifted d) (Code.Shifted d) (lines inits) (lines inits) := by
  refine LowerM.parallel_names.bind fun Γ Γ' hΓ => ?_
  have hstores (inits : List (String × Int32)) :
      Parallel (Counters.Shifted d) (Code.Shifted d) (lowerAll Γ inits) (lowerAll Γ' inits) := by
    induction inits with
    | nil => exact .pure .nil
    | cons init inits ih =>
        have hfirst : Parallel (Counters.Shifted d) (Code.Shifted d)
            (EmitM.initialise Γ init.1 init.2) (EmitM.initialise Γ' init.1 init.2) :=
          EmitM.parallel_push.bind_eq fun _ => (EmitM.parallel_store hΓ _).bind fun _ _ hput =>
            .pure (.instr rfl hput)
        exact hfirst.bind fun _ _ hfirst => ih.bind fun _ _ hrest => .pure (hfirst.append hrest)
  exact (LowerM.parallel_emit (hstores inits)).bind fun _ _ hstores =>
    .pure (hstores.append (.instr rfl .nil))

/-- Which fields have an initial value, and in what order, is decided by the registry. -/
theorem StaticInit.matched_compile {d : Int} {c c' : Context} (h : c.Apart d c')
    (hfields : c'.fields = c.fields) :
    Matched (Context.Apart d) (Option.Rel (Method.Shifted d)) compile c compile c' := by
  by_cases hnil : initialised c.fields = []
  · refine ⟨?_, ?_⟩ <;> rw [on_compile, on_compile, hfields, if_pos hnil, if_pos hnil]
    · exact .ok .none
    · exact h
  · have hlines := parallel_lines (d := d) (initialised c.fields)
    have hmake := (Method.matched_make h hlines "static" name descriptor).map
      fun _ _ => Option.Rel.some
    refine ⟨?_, ?_⟩ <;> rw [on_compile, on_compile, hfields, if_neg hnil, if_neg hnil]
    · exact hmake.ends
    · exact hmake.states

end JasminGen
