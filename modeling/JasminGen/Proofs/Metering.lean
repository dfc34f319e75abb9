import JasminGen.Proofs.History
import JasminGen.StackMeter
import Mathlib.Order.Bounds.Basic

/-!
# A meter after any history

Lowering moves a meter up and down in balance, starts every method at zero and takes one
limit for each method that it ends. None of this is needed for the meter to be right.
`meter_follows_history` is about calls in any order, also pops without a push, methods that
are never ended and limits taken too early.

The depth is what was pushed less what was popped since the meter last restarted, and may be
negative. The maximum is the greatest depth since then, the initial zero included. So
it is never below the depth, a pop cannot raise it, and the watermark loses nothing when it is
cut off at zero. What was archived is taken in the order of archiving, and the fallback is
answered exactly when nothing is left to take.

The two halves of a meter are independent of each other. Depth and maximum depend on the
calls alone; the archive is related to the answers, by `archives = taken ++ archived`.
-/

namespace JasminGen

inductive MeterOp where
  | push
  | pop
  | reset
  | close
  | takeLimit
  deriving DecidableEq

namespace MeterOp

/-- The answer, if the call has one, and the meter after it. -/
def run (fallback : Nat) : MeterOp → StackMeter → Option Nat × StackMeter
  | push, m => (none, m.push)
  | pop, m => (none, m.pop)
  | reset, m => (none, m.reset)
  | close, m => (some m.watermark, m.close)
  | takeLimit, m => (some (m.takeLimit fallback).1, (m.takeLimit fallback).2)

abbrev Record := List (Call MeterOp (Option Nat) StackMeter)

/-- The calls of `ops` on a new meter. -/
def record (fallback : Nat) (ops : List MeterOp) : Record := Call.history (run fallback) ops {}

/-- The meter after these calls. -/
def meter (fallback : Nat) (ops : List MeterOp) : StackMeter := Call.final (run fallback) ops {}

/-! ## Depths -/

/-- Whether depth and maximum are zero after the call, whatever they were. -/
def restarts : MeterOp → Bool
  | reset => true
  | close => true
  | _ => false

/-- The calls since the last one that restarts the meter. -/
def sinceRestart (ops : List MeterOp) : List MeterOp := ops.rtakeWhile fun op => !op.restarts

/-- What was pushed less what was popped. -/
def balance (ops : List MeterOp) : Int := ops.count push - ops.count pop

/-- The depths that the calls pass through, the first and the last included. -/
def depths (ops : List MeterOp) : Set Int := { d | ∃ calls, calls <+: ops ∧ d = balance calls }

theorem sinceRestart_concat (ops : List MeterOp) (op : MeterOp) :
    sinceRestart (ops ++ [op]) = if op.restarts then [] else sinceRestart ops ++ [op] := by
  rw [sinceRestart, List.rtakeWhile_concat]
  cases op.restarts <;> rfl

theorem depths_nil : depths [] = {0} := by
  ext d
  simp [depths, balance]

theorem depths_concat (ops : List MeterOp) (op : MeterOp) :
    depths (ops ++ [op]) = insert (balance (ops ++ [op])) (depths ops) := by
  ext d
  constructor
  · rintro ⟨calls, hcalls, rfl⟩
    rcases List.prefix_concat_iff.mp hcalls with rfl | hcalls
    · exact .inl rfl
    · exact .inr ⟨calls, hcalls, rfl⟩
  · rintro (rfl | ⟨calls, hcalls, rfl⟩)
    · exact ⟨ops ++ [op], List.prefix_rfl, rfl⟩
    · exact ⟨calls, hcalls.trans (List.prefix_append ..), rfl⟩

/-- The meter shows the depth that the calls have come to, and the greatest on the way. -/
structure Shows (ops : List MeterOp) (m : StackMeter) : Prop where
  current : m.current = balance ops
  maximum : IsGreatest (depths ops) m.maximum

namespace Shows

variable {ops : List MeterOp} {m m' : StackMeter}

theorem restarted (hcurrent : m.current = 0) (hmaximum : m.maximum = 0) : Shows [] m where
  current := hcurrent
  maximum := by
    rw [depths_nil, hmaximum]
    exact isGreatest_singleton

theorem current_le (h : Shows ops m) : m.current ≤ m.maximum :=
  h.maximum.2 ⟨ops, List.prefix_rfl, h.current⟩

/-- The calls began at depth zero. -/
theorem maximum_nonneg (h : Shows ops m) : 0 ≤ m.maximum :=
  h.maximum.2 ⟨[], List.nil_prefix, rfl⟩

theorem maximum_pop (h : Shows ops m) : m.pop.maximum = m.maximum := by
  have hle := h.current_le
  rw [StackMeter.pop, StackMeter.maximum_move]
  omega

theorem move (h : Shows ops m) {op : MeterOp} {d : Int}
    (hd : balance (ops ++ [op]) = balance ops + d) : Shows (ops ++ [op]) (m.move d) where
  current := by rw [StackMeter.current_move, h.current, hd]
  maximum := by
    rw [StackMeter.maximum_move, h.current, ← hd, max_comm, depths_concat]
    exact h.maximum.insert _

/-- A call that leaves depth and maximum alone. -/
theorem stay (h : Shows ops m) {op : MeterOp} (hop : balance (ops ++ [op]) = balance ops)
    (hcurrent : m'.current = m.current) (hmaximum : m'.maximum = m.maximum) :
    Shows (ops ++ [op]) m' where
  current := by rw [hcurrent, h.current, hop]
  maximum := by
    have hmem : balance ops ∈ depths ops := ⟨ops, List.prefix_rfl, rfl⟩
    rw [depths_concat, hop, Set.insert_eq_of_mem hmem, hmaximum]
    exact h.maximum

end Shows

/-! ## The archive -/

namespace Record

/-- The watermark that a call archives. -/
def archived? (k : Call MeterOp (Option Nat) StackMeter) : Option Nat :=
  if k.op = close then k.answer else none

/-- The limit that a call takes out of the archive: after it one less is pending. -/
def taken? (k : Call MeterOp (Option Nat) StackMeter) : Option Nat :=
  if k.op = takeLimit ∧ k.after.pending < k.before.pending then k.answer else none

/-- The watermarks archived, in order. -/
def archives (log : Record) : List Nat := log.filterMap archived?

/-- The limits taken, in order. -/
def taken (log : Record) : List Nat := log.filterMap taken?

variable {log : Record} {m m' : StackMeter} {fallback : Nat}

theorem archives_concat (log : Record) (k : Call MeterOp (Option Nat) StackMeter) :
    archives (log ++ [k]) = archives log ++ (archived? k).toList :=
  Call.filterMap_concat ..

theorem taken_concat (log : Record) (k : Call MeterOp (Option Nat) StackMeter) :
    taken (log ++ [k]) = taken log ++ (taken? k).toList :=
  Call.filterMap_concat ..

/-- What was archived has been taken or is still in the archive. -/
def Kept (log : Record) (m : StackMeter) : Prop := log.archives = log.taken ++ m.archived

theorem Kept.stay (h : log.Kept m) {op : MeterOp} {r : Option Nat} (hop : op ≠ close)
    (hm : m'.archived = m.archived) : Kept (log ++ [⟨op, m, r, m'⟩]) m' := by
  have hpending : ¬ m'.pending < m.pending := by
    rw [StackMeter.pending_eq, StackMeter.pending_eq, hm]
    exact lt_irrefl _
  rw [Kept, archives_concat, taken_concat, archived?, if_neg hop, taken?,
    if_neg fun hk => hpending hk.2, hm, Option.toList_none, List.append_nil, List.append_nil]
  exact h

theorem Kept.close (h : log.Kept m) :
    Kept (log ++ [⟨.close, m, some m.watermark, m.close⟩]) m.close := by
  rw [Kept, archives_concat, taken_concat, archived?, if_pos rfl, taken?,
    if_neg (fun hk => nomatch hk.1), StackMeter.archived_close, h, Option.toList_some,
    Option.toList_none, List.append_nil, List.append_assoc]

theorem Kept.takeLimit (h : log.Kept m) :
    Kept (log ++ [Call.make (run fallback) .takeLimit m]) (m.takeLimit fallback).2 := by
  cases hm : m.archived with
  | nil =>
      have htake := StackMeter.takeLimit_of_nil hm fallback
      refine h.stay nofun ?_
      rw [run, htake]
  | cons w rest =>
      obtain ⟨archive, hrest, htake⟩ := StackMeter.takeLimit_of_cons hm fallback
      have harchived : ({ m with archive } : StackMeter).archived = rest := hrest
      have hpending : ({ m with archive } : StackMeter).pending < m.pending := by
        rw [StackMeter.pending_eq, StackMeter.pending_eq, harchived, hm]
        exact Nat.lt_succ_self _
      rw [Kept, archives_concat, taken_concat, Call.make, run, htake, archived?, if_neg nofun,
        taken?, if_pos ⟨rfl, hpending⟩, harchived, h, hm, Option.toList_none, Option.toList_some,
        List.append_nil, List.append_assoc, List.singleton_append]

theorem Kept.taken_first (h : log.Kept m) : log.taken <+: log.archives :=
  ⟨m.archived, h.symm⟩

theorem Kept.pending (h : log.Kept m) : m.pending = log.archives.length - log.taken.length := by
  rw [StackMeter.pending_eq, h, List.length_append, Nat.add_sub_cancel_left]

theorem Kept.archived_eq_nil_iff (h : log.Kept m) : m.archived = [] ↔ log.taken = log.archives := by
  rw [h, List.self_eq_append_right]

/-- The next limit is the oldest archived watermark that was not taken yet. -/
theorem Kept.limit (h : log.Kept m) (fallback : Nat) :
    (m.takeLimit fallback).1 = log.archives[log.taken.length]?.getD fallback := by
  rw [h, List.getElem?_append_right (Nat.le_refl _), Nat.sub_self]
  cases hm : m.archived with
  | nil => rw [StackMeter.takeLimit_of_nil hm]; rfl
  | cons w rest =>
      obtain ⟨archive, -, htake⟩ := StackMeter.takeLimit_of_cons hm fallback
      rw [htake]
      rfl

theorem Kept.takeLimit_eq_self_iff (h : log.Kept m) (fallback : Nat) :
    (m.takeLimit fallback).2 = m ↔ log.taken = log.archives := by
  rw [← h.archived_eq_nil_iff]
  cases hm : m.archived with
  | nil => simp [StackMeter.takeLimit_of_nil hm]
  | cons w rest =>
      obtain ⟨archive, hrest, htake⟩ := StackMeter.takeLimit_of_cons hm fallback
      rw [htake]
      simp only [reduceCtorEq, iff_false]
      intro hsame
      have harchived : archive.toList = w :: rest := by
        rw [← hm, ← hsame]
        rfl
      rw [hrest] at harchived
      exact List.cons_ne_self _ _ harchived.symm

end Record

/-! ## Every call -/

theorem takeLimit_counters (m : StackMeter) (fallback : Nat) :
    (m.takeLimit fallback).2.current = m.current
      ∧ (m.takeLimit fallback).2.maximum = m.maximum := by
  unfold StackMeter.takeLimit
  split <;> exact ⟨rfl, rfl⟩

/-- The meter is what the calls and their answers say. -/
structure Recorded (log : Record) (m : StackMeter) : Prop where
  shows : Shows (sinceRestart (log.map Call.op)) m
  kept : log.Kept m

theorem Recorded.start : Recorded [] {} := ⟨.restarted rfl rfl, rfl⟩

/-- One more call, and the meter is still what the record says. -/
theorem Recorded.concat {log : Record} {m : StackMeter} (h : Recorded log m) (fallback : Nat)
    (op : MeterOp) :
    Recorded (log ++ [Call.make (run fallback) op m]) (op.run fallback m).2 := by
  have hsince : sinceRestart ((log ++ [Call.make (run fallback) op m]).map Call.op) =
      if op.restarts then [] else sinceRestart (log.map Call.op) ++ [op] := by
    rw [List.map_append]
    exact sinceRestart_concat ..
  refine ⟨?_, ?_⟩
  · rw [hsince]
    cases op with
    | push =>
        refine h.shows.move ?_
        simp [balance]
        omega
    | pop =>
        refine h.shows.move ?_
        simp [balance]
        omega
    | reset => exact .restarted rfl rfl
    | close => exact .restarted rfl rfl
    | takeLimit =>
        have hbalance : balance (sinceRestart (log.map Call.op) ++ [takeLimit]) =
            balance (sinceRestart (log.map Call.op)) := by simp [balance]
        have hcounters := takeLimit_counters m fallback
        exact h.shows.stay hbalance hcounters.1 hcounters.2
  · cases op with
    | push => exact h.kept.stay nofun (m.archived_move 1)
    | pop => exact h.kept.stay nofun (m.archived_move (-1))
    | reset => exact h.kept.stay nofun m.archived_reset
    | close => exact h.kept.close
    | takeLimit => exact h.kept.takeLimit

theorem recorded (fallback : Nat) (ops : List MeterOp) :
    Recorded (record fallback ops) (meter fallback ops) :=
  Call.history_keeps (P := Recorded) (fun _ _ op h => h.concat fallback op) ops .start

end MeterOp

open MeterOp

/-- After any calls on a new meter the depth is the balance of pushes and pops since the last
restart, which may be negative, and the maximum is the greatest depth since then. It is not
negative, not below the depth, and not changed by a pop. So the watermark is the maximum
itself: cutting it off at zero never matters. Ending a method answers the watermark and archives
it. The limits taken are the archived watermarks in order, from the first on; the
next limit is the first one not taken, and the fallback exactly if all are taken. -/
theorem meter_follows_history (fallback : Nat) (ops : List MeterOp) :
    (meter fallback ops).current = balance (sinceRestart ops)
    ∧ (meter fallback (ops ++ [reset, pop])).current = -1
    ∧ IsGreatest (depths (sinceRestart ops)) (meter fallback ops).maximum
    ∧ 0 ≤ (meter fallback ops).maximum
    ∧ (meter fallback ops).current ≤ (meter fallback ops).maximum
    ∧ (meter fallback ops).pop.maximum = (meter fallback ops).maximum
    ∧ ((meter fallback ops).watermark : Int) = (meter fallback ops).maximum
    ∧ (close.run fallback (meter fallback ops)).1 = some (meter fallback ops).watermark
    ∧ (close.run fallback (meter fallback ops)).2.archived =
      (meter fallback ops).archived ++ [(meter fallback ops).watermark]
    ∧ (record fallback ops).taken <+: (record fallback ops).archives
    ∧ (meter fallback ops).pending =
      (record fallback ops).archives.length - (record fallback ops).taken.length
    ∧ (takeLimit.run fallback (meter fallback ops)).1 =
      some ((record fallback ops).archives[(record fallback ops).taken.length]?.getD fallback)
    ∧ ((takeLimit.run fallback (meter fallback ops)).2 = meter fallback ops ↔
      (record fallback ops).taken = (record fallback ops).archives) := by
  obtain ⟨hshows, hkept⟩ := recorded fallback ops
  have hops : (record fallback ops).map Call.op = ops := Call.map_op_history ..
  rw [hops] at hshows
  have hbelow : (meter fallback (ops ++ [reset, pop])).current = -1 := by
    rw [meter, Call.final, List.foldl_append]
    rfl
  exact ⟨hshows.current, hbelow, hshows.maximum, hshows.maximum_nonneg, hshows.current_le,
    hshows.maximum_pop, StackMeter.watermark_eq_maximum hshows.maximum_nonneg, rfl,
    StackMeter.archived_close _, hkept.taken_first, hkept.pending,
    congrArg some (hkept.limit fallback), hkept.takeLimit_eq_self_iff fallback⟩

end JasminGen
