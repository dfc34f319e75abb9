/-!
# Attempts

An attempt works on a state and may fail; the state it reached outlives the
failure. `x.on s` runs the attempt `x` from the state `s` and gives both its
outcome and the state it leaves. Lowering and writing are attempts, because what
a failed step has already done can be seen by the next one.

Proofs read attempts through `on`: there is one equation for each way to build
an attempt, and `on_bind_eq_ok` and `on_bind_eq_error` take a sequence apart by
its outcome.
-/

namespace JasminGen

abbrev Attempt (σ ε : Type) := ExceptT ε (StateM σ)

namespace Attempt

variable {σ ε α β : Type}

def on (x : Attempt σ ε α) (s : σ) : Except ε α × σ := (x.run.run s).run

/-- The attempt that `on` runs as the given function. -/
def of (f : σ → Except ε α × σ) : Attempt σ ε α := ExceptT.mk fun s => pure (f s)

@[simp] theorem on_of (f : σ → Except ε α × σ) (s : σ) : (of f).on s = f s := rfl

@[simp] theorem on_pure (a : α) (s : σ) : (pure a : Attempt σ ε α).on s = (.ok a, s) := rfl

@[simp] theorem on_throw (e : ε) (s : σ) : (throw e : Attempt σ ε α).on s = (.error e, s) := rfl

@[simp] theorem on_get (s : σ) : (get : Attempt σ ε σ).on s = (.ok s, s) := rfl

@[simp] theorem on_set (t s : σ) : (set t : Attempt σ ε PUnit).on s = (.ok ⟨⟩, t) := rfl

@[simp] theorem on_modify (f : σ → σ) (s : σ) :
    (modify f : Attempt σ ε PUnit).on s = (.ok ⟨⟩, f s) := rfl

@[simp] theorem on_modifyGet (f : σ → α × σ) (s : σ) :
    (modifyGet f : Attempt σ ε α).on s = (.ok (f s).1, (f s).2) := rfl

@[simp] theorem on_liftM (r : Except ε α) (s : σ) : (liftM r : Attempt σ ε α).on s = (r, s) := by
  cases r <;> rfl

theorem on_bind (x : Attempt σ ε α) (f : α → Attempt σ ε β) (s : σ) :
    (x >>= f).on s =
      match x.on s with
      | (.ok a, t) => (f a).on t
      | (.error e, t) => (.error e, t) := by
  change (StateT.run (ExceptT.run (x >>= f)) s).run = _
  rw [ExceptT.run_bind, StateT.run_bind]
  rcases h : x.on s with ⟨r, t⟩
  have hx : StateT.run (ExceptT.run x) s = (r, t) := h
  rw [hx]
  cases r <;> rfl

theorem on_map (f : α → β) (x : Attempt σ ε α) (s : σ) :
    (f <$> x).on s = ((x.on s).1.map f, (x.on s).2) := by
  rw [map_eq_pure_bind, on_bind]
  rcases x.on s with ⟨_ | a, t⟩ <;> rfl

/-- A sequence succeeds when both its parts do. -/
theorem on_bind_eq_ok {x : Attempt σ ε α} {f : α → Attempt σ ε β} {s u : σ} {b : β} :
    (x >>= f).on s = (.ok b, u) ↔ ∃ a t, x.on s = (.ok a, t) ∧ (f a).on t = (.ok b, u) := by
  rw [on_bind]
  rcases x.on s with ⟨_ | a, t⟩
  · simp
  · constructor
    · exact fun h => ⟨a, t, rfl, h⟩
    · rintro ⟨_, _, ⟨⟩, h⟩
      exact h

/-- A sequence fails with its first part, or with its second after the first
has succeeded. -/
theorem on_bind_eq_error {x : Attempt σ ε α} {f : α → Attempt σ ε β} {s u : σ} {e : ε} :
    (x >>= f).on s = (.error e, u) ↔
      x.on s = (.error e, u) ∨
        ∃ a t, x.on s = (.ok a, t) ∧ (f a).on t = (.error e, u) := by
  rw [on_bind]
  rcases x.on s with ⟨_ | a, t⟩
  · simp
  · constructor
    · exact fun h => .inr ⟨a, t, rfl, h⟩
    · rintro (⟨⟨⟩⟩ | ⟨_, _, ⟨⟩, h⟩)
      exact h

/-- What `x` and every continuation of it keep, their sequence keeps. -/
theorem on_bind_rel {R : σ → σ → Prop} (htrans : ∀ {a b c}, R a b → R b c → R a c)
    {x : Attempt σ ε α} {f : α → Attempt σ ε β} {s : σ} (hx : R s (x.on s).2)
    (hf : ∀ a t, R t ((f a).on t).2) : R s ((x >>= f).on s).2 := by
  rw [on_bind]
  rcases h : x.on s with ⟨_ | a, t⟩ <;> rw [h] at hx
  · exact hx
  · exact htrans hx (hf a t)

end Attempt

end JasminGen
