import JasminGen.Proofs.Compiles
import JasminGen.Sink
import Mathlib.Data.ENat.Lattice

/-!
# What reaches a writer

A bounded writer takes at most `k` bytes with one write and at most `c` bytes in all
(`Writer.Bounded`). How many bytes it takes with a write is otherwise its own affair, as long
as it takes one when it can. Once it is full, a write fails or takes nothing.

Offering the remaining bytes again and again, `writeAll` gets all bytes through that there is
room for, whatever `k` is, and fails exactly if there is not room for all of them
(`Bounded.on_writeAll`). So a text reaches the writer as its first `min c n` bytes
(`output_takes_what_fits`). A writer that takes nothing at all is given up at once.

Sinks are bounded writers (`Sink.bounded`).
-/

namespace JasminGen

namespace Writer

variable {σ : Type}

/-- A writer with bounds. In a state with `holds taken`, it has taken the bytes `taken`. -/
structure Bounded (w : Writer σ) (holds : List UInt8 → σ → Prop) (k c : ℕ∞) : Prop where
  /-- A write takes some of the bytes, within the bounds, and at least one if `k` allows it. -/
  write_of_lt : ∀ {taken : List UInt8} {s : σ}, holds taken s → (taken.length : ℕ∞) < c →
    ∀ bytes : List UInt8, ∃ (m : ℕ) (s' : σ), (w.write bytes).on s = (.ok m, s')
      ∧ holds (taken ++ bytes.take m) s' ∧ m ≤ bytes.length ∧ (m : ℕ∞) ≤ k
      ∧ ((taken.length + m : ℕ) : ℕ∞) ≤ c ∧ (bytes ≠ [] → 0 < k → 0 < m)
  /-- A full writer fails or takes nothing. -/
  write_of_le : ∀ {taken : List UInt8} {s : σ}, holds taken s → c ≤ (taken.length : ℕ∞) →
    ∀ bytes : List UInt8, ∃ s' : σ, holds taken s'
      ∧ ((w.write bytes).on s = (.ok 0, s') ∨ ∃ f, (w.write bytes).on s = (.error f, s'))
  flush_holds : ∀ {taken : List UInt8} {s : σ}, holds taken s → holds taken (w.flush.on s).2

theorem on_writeAll_nil (w : Writer σ) (s : σ) : (w.writeAll []).on s = (.ok (), s) := by
  rw [writeAll]
  rfl

theorem on_writeAll_cons (w : Writer σ) (b : UInt8) (bytes : List UInt8) (s : σ) :
    (w.writeAll (b :: bytes)).on s =
      match (w.write (b :: bytes)).on s with
      | (.ok 0, t) => (.error .nothingTaken, t)
      | (.ok (m + 1), t) => (w.writeAll (bytes.drop m)).on t
      | (.error f, t) => (.error f, t) := by
  rw [writeAll, Attempt.on_bind]
  rcases (w.write (b :: bytes)).on s with ⟨_ | _ | _, _⟩ <;> rfl

/-- While bytes are offered, nothing depends on the flush. -/
theorem writeAll_flush (w : Writer σ) (flush : Attempt σ WriteFailure Unit) (bytes : List UInt8) :
    ({ w with flush } : Writer σ).writeAll bytes = w.writeAll bytes := by
  fun_induction w.writeAll bytes with
  | case1 => rw [writeAll]
  | case2 b bytes ih =>
      rw [writeAll]
      refine bind_congr fun m => ?_
      cases m with
      | zero => rfl
      | succ m => exact ih m

namespace Bounded

variable {w : Writer σ} {holds : List UInt8 → σ → Prop} {k c : ℕ∞}

/-- A write that cannot take anything is the last one. -/
theorem on_writeAll_of_stuck (hw : w.Bounded holds k c) {taken : List UInt8} {s : σ}
    (hs : holds taken s) (hstuck : k = 0 ∨ c ≤ (taken.length : ℕ∞)) (b : UInt8)
    (bytes : List UInt8) :
    ∃ f s', (w.writeAll (b :: bytes)).on s = (.error f, s') ∧ holds taken s' := by
  by_cases hfull : c ≤ (taken.length : ℕ∞)
  · obtain ⟨s', hs', hzero | ⟨f, herror⟩⟩ := hw.write_of_le hs hfull (b :: bytes)
    · exact ⟨.nothingTaken, s', by rw [on_writeAll_cons, hzero], hs'⟩
    · exact ⟨f, s', by rw [on_writeAll_cons, herror], hs'⟩
  · obtain ⟨m, s', hwrite, hs', -, hm, -, -⟩ :=
      hw.write_of_lt hs (not_le.mp hfull) (b :: bytes)
    have hzero : m = 0 := by
      rw [hstuck.resolve_right hfull] at hm
      exact Nat.cast_eq_zero.mp (nonpos_iff_eq_zero.mp hm)
    subst hzero
    rw [List.take_zero, List.append_nil] at hs'
    exact ⟨.nothingTaken, s', by rw [on_writeAll_cons, hwrite], hs'⟩

/-! Of the bytes `bytes` there is room for the first `n`. The invariant of the loop is that the
first `j` of them have been taken when the others are offered. -/

variable {bytes : List UInt8} {n j : ℕ} {s : σ}

/-- While there is room, a write takes more of the bytes. -/
theorem on_writeAll_step (hw : w.Bounded holds k c) (hk : 0 < k)
    (hn : (n : ℕ∞) = min c bytes.length) (hj : j < n) (hs : holds (bytes.take j) s) :
    ∃ j' s', j < j' ∧ j' ≤ n ∧ holds (bytes.take j') s'
      ∧ (w.writeAll (bytes.drop j)).on s = (w.writeAll (bytes.drop j')).on s' := by
  have hnc : (n : ℕ∞) ≤ c := hn ▸ min_le_left ..
  have hnl : n ≤ bytes.length := Nat.cast_le.mp (hn ▸ min_le_right ..)
  have hlength : (bytes.take j).length = j := by
    rw [List.length_take, Nat.min_eq_left (by omega)]
  have hroom : ((bytes.take j).length : ℕ∞) < c := by
    rw [hlength]
    exact (Nat.cast_lt.mpr hj).trans_le hnc
  obtain ⟨m, s', hwrite, hs', hm, -, hmc, hpos⟩ := hw.write_of_lt hs hroom (bytes.drop j)
  obtain ⟨b, others, hdrop⟩ : ∃ b others, bytes.drop j = b :: others :=
    ⟨_, _, List.drop_eq_getElem_cons (by omega)⟩
  have hm0 : 0 < m := hpos (by rw [hdrop]; exact List.cons_ne_nil _ _) hk
  obtain ⟨m, rfl⟩ := Nat.exists_eq_add_one_of_ne_zero hm0.ne'
  refine ⟨j + (m + 1), s', by omega, ?_, ?_, ?_⟩
  · rw [List.length_drop] at hm
    rw [hlength] at hmc
    have hle : ((j + (m + 1) : ℕ) : ℕ∞) ≤ n := hn ▸ le_min hmc (Nat.cast_le.mpr (by omega))
    exact Nat.cast_le.mp hle
  · rw [List.take_add]
    exact hs'
  · rw [← List.drop_drop, hdrop, List.drop_succ_cons, on_writeAll_cons, ← hdrop, hwrite]

/-- When all is taken that there is room for, the loop ends: successfully, if nothing remains. -/
theorem on_writeAll_last (hw : w.Bounded holds k c) (hn : (n : ℕ∞) = min c bytes.length)
    (hs : holds (bytes.take n) s) :
    ∃ r s', (w.writeAll (bytes.drop n)).on s = (r, s') ∧ holds (bytes.take n) s'
      ∧ (r = .ok () ↔ (bytes.length : ℕ∞) ≤ c) := by
  by_cases hfits : (bytes.length : ℕ∞) ≤ c
  · have hall : bytes.drop n = [] := by
      rw [min_eq_right hfits] at hn
      rw [Nat.cast_inj.mp hn, List.drop_length]
    rw [hall]
    exact ⟨.ok (), s, on_writeAll_nil w s, hs, iff_of_true rfl hfits⟩
  · have hnc : (n : ℕ∞) = c := hn.trans (min_eq_left (not_le.mp hfits).le)
    have hmore : n < bytes.length := Nat.cast_lt.mp (hnc ▸ not_le.mp hfits)
    have hfull : c ≤ ((bytes.take n).length : ℕ∞) := by
      rw [List.length_take, Nat.min_eq_left hmore.le, hnc]
    rw [List.drop_eq_getElem_cons hmore]
    obtain ⟨f, s', hrun, hs'⟩ := hw.on_writeAll_of_stuck hs (.inr hfull) _ _
    exact ⟨.error f, s', hrun, hs', iff_of_false (by simp) hfits⟩

/-- All bytes that there is room for get through, whatever the writer takes at a time. -/
theorem on_writeAll (hw : w.Bounded holds k c) (hk : 0 < k) (hn : (n : ℕ∞) = min c bytes.length)
    (hj : j ≤ n) (hs : holds (bytes.take j) s) :
    ∃ r s', (w.writeAll (bytes.drop j)).on s = (r, s') ∧ holds (bytes.take n) s'
      ∧ (r = .ok () ↔ (bytes.length : ℕ∞) ≤ c) := by
  induction hrest : n - j using Nat.strong_induction_on generalizing j s with
  | _ rest ih =>
    obtain rfl | hlt := Nat.eq_or_lt_of_le hj
    · exact hw.on_writeAll_last hn hs
    · obtain ⟨j', s', hjj', hj'n, hs', hstep⟩ := hw.on_writeAll_step hk hn hlt hs
      rw [hstep]
      exact ih (n - j') (by omega) hj'n hs' rfl

/-- What the loop comes to from the start, also for a writer that never takes anything. -/
theorem on_writeAll_start (hw : w.Bounded holds k c) (hbytes : bytes ≠ []) (hs : holds [] s) :
    ∃ r s' m, (w.writeAll bytes).on s = (r, s') ∧ holds (bytes.take m) s'
      ∧ (m : ℕ∞) = (if k = 0 then 0 else min c bytes.length)
      ∧ (r = .ok () ↔ 0 < k ∧ (bytes.length : ℕ∞) ≤ c) := by
  by_cases hk : k = 0
  · obtain ⟨b, others, rfl⟩ := List.exists_cons_of_ne_nil hbytes
    obtain ⟨f, s', hrun, hs'⟩ := hw.on_writeAll_of_stuck hs (.inl hk) b others
    exact ⟨.error f, s', 0, hrun, hs', (if_pos hk).symm, iff_of_false (by simp) (by simp [hk])⟩
  · have hk' : 0 < k := pos_iff_ne_zero.mpr hk
    obtain ⟨n, hn⟩ : ∃ n : ℕ, (n : ℕ∞) = min c bytes.length :=
      ENat.ne_top_iff_exists.mp (ne_top_of_le_ne_top (ENat.natCast_ne_top _) (min_le_right ..))
    obtain ⟨r, s', hrun, hs', hr⟩ := hw.on_writeAll hk' hn (Nat.zero_le n) hs
    exact ⟨r, s', n, hrun, hs', hn.trans (if_neg hk).symm, hr.trans (by simp [hk'])⟩

end Bounded

end Writer

/-! ## Sinks -/

namespace Sink

/-- A bound that may be absent. -/
def bound (n? : Option Nat) : ℕ∞ := n?.elim ⊤ (↑)

theorem isFull_iff (s : Sink) : s.isFull = true ↔ bound s.capacity? ≤ (s.taken.size : ℕ∞) := by
  cases h : s.capacity? with
  | none => simp [isFull, bound, h]
  | some c => simp [isFull, bound, h]

theorem take_length_accept (s : Sink) (bytes : List UInt8) :
    bytes.take (s.accept bytes).length = s.accept bytes := by
  obtain ⟨n, hn⟩ := s.accept_eq_take bytes
  rw [hn, List.length_take, ← List.take_eq_take_min]

/-- A write takes as much as the bounds allow. -/
theorem length_accept (s : Sink) (bytes : List UInt8) :
    ((s.accept bytes).length : ℕ∞) =
      min (bound s.chunk?) (min (bound s.capacity? - s.taken.size) bytes.length) := by
  have hcast (a b : ℕ) : ((min a b : ℕ) : ℕ∞) = min (a : ℕ∞) b := Nat.mono_cast.map_min
  cases hk : s.chunk? <;> cases hc : s.capacity? <;>
    simp [accept, bound, hk, hc, hcast, min_left_comm]

/-- From any sink on, writing stays within its bounds. -/
theorem bounded (s : Sink) :
    writer.Bounded (fun taken t => t = { s with taken := taken.toArray })
      (bound s.chunk?) (bound s.capacity?) where
  write_of_lt := by
    rintro taken t ht hroom bytes
    have hsize : t.taken.size = taken.length := by rw [ht]; rfl
    have hlength := t.length_accept bytes
    rw [hsize, show t.chunk? = s.chunk? by rw [ht], show t.capacity? = s.capacity? by rw [ht]]
      at hlength
    have hfree : t.refuses = false := by
      have hfull : t.isFull ≠ true := by
        rw [Ne, isFull_iff, hsize, ht]
        exact not_le.mpr hroom
      simp [refuses, hfull]
    refine ⟨_, _, on_write_of_not_refuses hfree bytes, ?_, ?_, ?_, ?_, ?_⟩
    · rw [take_length_accept, ht]
      simp
    · exact Nat.cast_le.mp (hlength ▸ (min_le_right ..).trans (min_le_right ..))
    · exact hlength ▸ min_le_left ..
    · have hle : ((t.accept bytes).length : ℕ∞) ≤ bound s.capacity? - taken.length :=
        hlength ▸ (min_le_right ..).trans (min_le_left ..)
      calc ((taken.length + (t.accept bytes).length : ℕ) : ℕ∞)
          ≤ taken.length + (bound s.capacity? - taken.length) := by
            push_cast
            exact add_le_add_right hle _
        _ = bound s.capacity? := add_tsub_cancel_of_le hroom.le
    · intro hne hk
      have hpos : (0 : ℕ∞) < bytes.length := by exact_mod_cast List.length_pos_iff.mpr hne
      exact_mod_cast hlength ▸ lt_min hk (lt_min (tsub_pos_of_lt hroom) hpos)
  write_of_le := by
    rintro taken t ht hfull bytes
    have hsize : t.taken.size = taken.length := by rw [ht]; rfl
    have hisFull : t.isFull = true := by
      rw [isFull_iff, hsize, ht]
      exact hfull
    cases hfails : t.refuses with
    | true => exact ⟨t, ht, .inr ⟨_, on_write_of_refuses hfails bytes⟩⟩
    | false =>
        have hnone : t.accept bytes = [] := by
          have hlength := t.length_accept bytes
          rw [tsub_eq_zero_of_le (t.isFull_iff.mp hisFull), min_eq_left zero_le,
            min_eq_right zero_le] at hlength
          exact List.length_eq_zero_iff.mp (by exact_mod_cast hlength)
        have hwrite := on_write_of_not_refuses hfails bytes
        rw [hnone] at hwrite
        exact ⟨t, ht, .inl hwrite⟩
  flush_holds := by
    rintro taken t rfl
    change (flush.on _).2 = _
    unfold flush
    cases s.flushFails <;> rfl

end Sink

/-! ## Classes -/

theorem ClassFile.bytes_ne_nil (c : ClassFile) : c.bytes ≠ [] := by
  rw [← List.length_pos_iff, length_bytes, text, head]
  simp only [String.utf8ByteSize_append]
  have hclass : 0 < ".class public ".utf8ByteSize := by decide
  omega

/-- The outcome of a flush, after all bytes of the class have been taken. -/
def ClassFile.flushed {σ : Type} (c : ClassFile) : Except WriteFailure Unit × σ →
    Except OutputError ClassFile × σ
  | (.ok (), s) => (.ok c, s)
  | (.error f, s) => (.error (.write f), s)

theorem ClassFile.flushed_cases {σ : Type} (c : ClassFile) (x : Except WriteFailure Unit × σ) :
    (c.flushed x).2 = x.2 ∧ ((c.flushed x).1 = .ok c ↔ x.1 = .ok ())
      ∧ ((c.flushed x).1 ≠ .ok c → ∃ f, (c.flushed x).1 = .error (.write f)) := by
  rcases x with ⟨f | u, s⟩
  · exact ⟨rfl, by simp [flushed], fun _ => ⟨f, rfl⟩⟩
  · exact ⟨rfl, by simp [flushed], fun h => absurd rfl h⟩

namespace Program

variable {config : Config} {p : Program} {cls : ClassFile} {σ : Type} {w : Writer σ} {s s' : σ}

/-- The writer is flushed when all bytes have been taken. -/
theorem outputTo_of_ok (h : p.generate config = .ok cls)
    (hrun : (w.writeAll cls.bytes).on s = (.ok (), s')) :
    p.outputTo config w s = cls.flushed (w.flush.on s') := by
  have hwrite : (cls.writeTo w).on s = w.flush.on s' := by
    rw [ClassFile.writeTo, Attempt.on_bind, hrun]
  rw [outputTo, h]
  simp only [hwrite]
  rcases w.flush.on s' with ⟨_ | _, _⟩ <;> rfl

theorem outputTo_of_error (h : p.generate config = .ok cls) {f : WriteFailure}
    (hrun : (w.writeAll cls.bytes).on s = (.error f, s')) :
    p.outputTo config w s = (.error (.write f), s') := by
  have hwrite : (cls.writeTo w).on s = (.error f, s') := by
    rw [ClassFile.writeTo, Attempt.on_bind, hrun]
  rw [outputTo, h]
  simp only [hwrite]

end Program

/-- **Output.** A program that cannot be lowered asks nothing of any writer: the error is
returned, and the state is as it was. Otherwise let the text have `n` bytes, and let the
writer take at most `k` bytes with one write and at most `c` in all. If `k` is not zero, it
takes the first `min c n` bytes, and the class is returned exactly if `n ≤ c` and the flush
succeeds, after all bytes were taken. If `k` is zero, it takes nothing and no class is
returned. When not all bytes were taken the writer is not flushed: nothing depends on what
its flush would do. Whatever else fails, the error is one of writing. -/
theorem output_takes_what_fits (config : Config) (p : Program) :
    (∀ e, p.generate config = .error e → ∀ (σ : Type) (w : Writer σ) (s : σ),
      p.outputTo config w s = (.error (.lowering e), s))
    ∧ ∀ cls, p.generate config = .ok cls →
      ∀ (σ : Type) (w : Writer σ) (holds : List UInt8 → σ → Prop) (k c : ℕ∞) (s : σ),
        w.Bounded holds k c → holds [] s →
          let n := cls.bytes.length
          let written := ((w.writeAll cls.bytes).on s).2
          let out := p.outputTo config w s
          (0 < k → (∃ m : ℕ, (m : ℕ∞) = min c n ∧ holds (cls.bytes.take m) out.2)
            ∧ (out.1 = .ok cls ↔ (n : ℕ∞) ≤ c ∧ (w.flush.on written).1 = .ok ()))
          ∧ (k = 0 → holds [] out.2 ∧ out.1 ≠ .ok cls)
          ∧ (if 0 < k ∧ (n : ℕ∞) ≤ c then holds cls.bytes written
            else ∀ flush, p.outputTo config { w with flush } s = out)
          ∧ (out.1 ≠ .ok cls → ∃ f, out.1 = .error (.write f)) := by
  refine ⟨fun e he σ w s => by rw [Program.outputTo, he], fun cls hcls σ w holds k c s hw hs => ?_⟩
  intro n written out
  obtain ⟨r, s', m, hrun, hs', hm, hr⟩ := hw.on_writeAll_start cls.bytes_ne_nil hs
  have hwritten : written = s' := congrArg Prod.snd hrun
  cases r with
  | error f =>
      have hout : out = (.error (.write f), s') := Program.outputTo_of_error hcls hrun
      have hnot : ¬ (0 < k ∧ (n : ℕ∞) ≤ c) := fun h => by cases hr.mpr h
      rw [hout, if_neg hnot]
      refine ⟨fun hk => ⟨⟨m, hm.trans (if_neg hk.ne'), hs'⟩, ?_⟩, fun hk => ⟨?_, by simp⟩, ?_,
        fun _ => ⟨f, rfl⟩⟩
      · exact iff_of_false (by simp) fun h => hnot ⟨hk, h.1⟩
      · have hm0 : m = 0 := by exact_mod_cast hm.trans (if_pos hk)
        rw [hm0] at hs'
        exact hs'
      · intro flush
        rw [← w.writeAll_flush flush] at hrun
        exact Program.outputTo_of_error hcls hrun
  | ok u =>
      have hout : out = cls.flushed (w.flush.on s') := Program.outputTo_of_ok hcls hrun
      obtain ⟨hk, hfits⟩ := hr.mp rfl
      have hmn : (m : ℕ∞) = min c n := hm.trans (if_neg hk.ne')
      have hall : cls.bytes.take m = cls.bytes := by
        rw [min_eq_right hfits] at hmn
        rw [Nat.cast_inj.mp hmn, List.take_length]
      obtain ⟨hstate, hok, herror⟩ := cls.flushed_cases (w.flush.on s')
      rw [hwritten, hout, hstate, if_pos ⟨hk, hfits⟩]
      refine ⟨fun _ => ⟨⟨m, hmn, hw.flush_holds hs'⟩, ?_⟩, fun hk0 => absurd hk0 hk.ne',
        hall ▸ hs', herror⟩
      exact hok.trans (and_iff_right hfits).symm

/-- A sink that the class fits exactly takes it all, eleven bytes at a time. One that is a byte
smaller takes all bytes but the last and fails. -/
theorem euclid_output_fits_exactly : ∃ cls, Program.euclid.generate {} = .ok cls
    ∧ (let out := Program.euclid.output {}
          { chunk? := some 11, capacity? := some cls.bytes.length }
      out.1 = .ok cls ∧ out.2.taken = cls.bytes.toArray)
    ∧ (let out := Program.euclid.output {}
          { chunk? := some 11, capacity? := some (cls.bytes.length - 1) }
      (∃ f, out.1 = .error (.write f)) ∧ out.2.taken = cls.bytes.dropLast.toArray) := by
  obtain ⟨cls, hcls⟩ := Program.exists_generate_euclid
  have hout (s : Sink) (hs : s.taken = #[]) :=
    (output_takes_what_fits {} Program.euclid).2 cls hcls Sink Sink.writer _ _ _ s s.bounded
      (by rw [← hs])
  have hk : 0 < Sink.bound (some 11) := Nat.cast_pos'.mpr (by decide)
  refine ⟨cls, hcls, ?_, ?_⟩
  · obtain ⟨hfits, -, hwritten, -⟩ :=
      hout { chunk? := some 11, capacity? := some cls.bytes.length } rfl
    obtain ⟨⟨m, hm, htaken⟩, hok⟩ := hfits hk
    have hm' : m = cls.bytes.length := Nat.cast_inj.mp (hm.trans (min_self _))
    simp only [Program.output]
    refine ⟨hok.mpr ⟨le_refl _, ?_⟩, ?_⟩
    · rw [if_pos ⟨hk, le_refl _⟩] at hwritten
      rw [hwritten]
      rfl
    · rw [htaken, hm', List.take_length]
  · obtain ⟨hfits, -, -, herror⟩ :=
      hout { chunk? := some 11, capacity? := some (cls.bytes.length - 1) } rfl
    obtain ⟨⟨m, hm, htaken⟩, hok⟩ := hfits hk
    have hpos : 0 < cls.bytes.length := List.length_pos_iff.mpr cls.bytes_ne_nil
    have hsmall : Sink.bound (some (cls.bytes.length - 1)) < (cls.bytes.length : ℕ∞) :=
      Nat.cast_lt.mpr (by omega)
    have hm' : m = cls.bytes.length - 1 := Nat.cast_inj.mp (hm.trans (min_eq_left hsmall.le))
    simp only [Program.output]
    refine ⟨herror fun h => hsmall.not_ge (hok.mp h).1, ?_⟩
    rw [htaken, hm', List.dropLast_eq_take]

end JasminGen
