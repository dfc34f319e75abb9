import Std.Data.TreeMap

/-!
# Registries

A registry keeps named entries in the order of their arrival and refuses a
second entry of the same name. A frame's variables, a class's fields and its
functions are all kept this way. Nothing is ever removed, so an entry's
position never changes; the position of a frame's variable is its slot.

A registry means its list of `entries`, and every statement below is about that
list. It is stored latest first, so that adding an entry does not copy the
others, together with an index from names to entries and their positions, so
that a lookup does not walk the list. The index is determined by the list,
hence two registries with the same entries are equal (`Registry.ext`); and the
entries of the index, sorted by their positions, are the list again
(`Registry.indexed_eq`). The distinctness of names is part of the type, so every
lookup has at most one answer.
-/

namespace JasminGen

namespace Registry

/-- Entries, with their positions, by name. -/
abbrev Index (α : Type) := Std.TreeMap String (α × Nat)

/-- The index of a list that holds the latest entry first: the positions count
from its end. -/
def indexOf {α : Type} (nameOf : α → String) : List α → Index α
  | [] => ∅
  | a :: l => (indexOf nameOf l).insert (nameOf a) (a, (indexOf nameOf l).size)

end Registry

structure Registry (α : Type) (nameOf : α → String) where
  /-- The entries, the latest first. -/
  latest : List α
  index : Registry.Index α
  index_eq : index = Registry.indexOf nameOf latest
  nodup : (latest.map nameOf).Nodup

namespace Registry

variable {α : Type} {nameOf : α → String}

def empty : Registry α nameOf := ⟨[], ∅, rfl, .nil⟩

instance : Inhabited (Registry α nameOf) := ⟨empty⟩

/-- The entries in the order of their arrival. -/
def entries (r : Registry α nameOf) : List α := r.latest.reverse

/-- Every entry with its position, as the index has it, in the order of the
positions. -/
def indexed (r : Registry α nameOf) : List (α × Nat) :=
  (r.index.toList.map Prod.snd).mergeSort fun a b => a.2 ≤ b.2

def size (r : Registry α nameOf) : Nat := r.index.size

def isEmpty (r : Registry α nameOf) : Bool := r.latest.isEmpty

/-- The entry of the given name, with its position. -/
def locate? (r : Registry α nameOf) (x : String) : Option (α × Nat) := r.index[x]?

def find? (r : Registry α nameOf) (x : String) : Option α := (r.locate? x).map Prod.fst

@[simp] theorem entries_empty : (empty : Registry α nameOf).entries = [] := rfl

@[ext] theorem ext {r r' : Registry α nameOf} (h : r.entries = r'.entries) : r = r' := by
  obtain ⟨l, _, rfl, _⟩ := r
  obtain ⟨l', _, rfl, _⟩ := r'
  have hl : l = l' := List.reverse_inj.mp h
  subst hl
  rfl

theorem nodup_entries (r : Registry α nameOf) : (r.entries.map nameOf).Nodup := by
  rw [entries, List.map_reverse]
  exact List.pairwise_reverse.mpr (r.nodup.imp Ne.symm)

/-! ## The index agrees with the list -/

theorem mem_indexOf {l : List α} {x : String} : x ∈ indexOf nameOf l ↔ x ∈ l.map nameOf := by
  induction l with
  | nil => simp [indexOf]
  | cons a l ih =>
    rw [indexOf, Std.TreeMap.mem_insert, Std.LawfulEqCmp.compare_eq_iff_eq, ih, List.map_cons,
      List.mem_cons, eq_comm]

theorem size_indexOf {l : List α} (h : (l.map nameOf).Nodup) :
    (indexOf nameOf l).size = l.length := by
  induction l with
  | nil => rfl
  | cons a l ih =>
    rw [List.map_cons, List.nodup_cons] at h
    have hfresh : ¬ (indexOf nameOf l).contains (nameOf a) = true :=
      fun hmem => h.1 (mem_indexOf.mp hmem)
    rw [indexOf, Std.TreeMap.size_insert, if_neg hfresh, ih h.2, List.length_cons]

theorem getElem?_indexOf {l : List α} (h : (l.map nameOf).Nodup) {x : String} {a : α} {i : Nat} :
    (indexOf nameOf l)[x]? = some (a, i) ↔ l.reverse[i]? = some a ∧ nameOf a = x := by
  induction l with
  | nil => simp [indexOf]
  | cons b l ih =>
    rw [List.map_cons, List.nodup_cons] at h
    rw [indexOf, Std.TreeMap.getElem?_insert, size_indexOf h.2, List.reverse_cons]
    by_cases hb : nameOf b = x
    · rw [if_pos (Std.LawfulEqCmp.compare_eq_iff_eq.mpr hb)]
      constructor
      · rintro ⟨⟩
        exact ⟨by simp, hb⟩
      · rintro ⟨hi, hx⟩
        have hlt : ¬ i < l.reverse.length := by
          intro hlt
          rw [List.getElem?_append_left hlt] at hi
          have hmem := List.mem_reverse.mp (List.mem_of_getElem? hi)
          exact h.1 (List.mem_map.mpr ⟨a, hmem, hx.trans hb.symm⟩)
        obtain ⟨hi', ha⟩ := List.getElem?_eq_some_iff.mp hi
        rw [List.length_reverse] at hlt
        rw [List.length_append, List.length_reverse, List.length_singleton] at hi'
        have hil : i = l.length := by omega
        subst hil
        simp at hi
        rw [hi]
    · rw [if_neg (fun he => hb (Std.LawfulEqCmp.compare_eq_iff_eq.mp he)), ih h.2]
      constructor
      · rintro ⟨hi, hx⟩
        refine ⟨?_, hx⟩
        rw [List.getElem?_append_left (List.getElem?_eq_some_iff.mp hi).1]
        exact hi
      · rintro ⟨hi, hx⟩
        refine ⟨?_, hx⟩
        by_cases hlt : i < l.reverse.length
        · rwa [List.getElem?_append_left hlt] at hi
        · rw [List.getElem?_append_right (Nat.le_of_not_lt hlt)] at hi
          have hmem := List.mem_singleton.mp (List.mem_of_getElem? hi)
          exact absurd (hmem ▸ hx) hb

/-- What the index of a list stores, under whatever names, is the list with its
positions. -/
theorem toList_indexOf_perm {l : List α} (h : (l.map nameOf).Nodup) :
    ((indexOf nameOf l).toList.map Prod.snd).Perm l.reverse.zipIdx := by
  induction l with
  | nil => exact .nil
  | cons a l ih =>
    rw [List.map_cons, List.nodup_cons] at h
    have hfresh : (indexOf nameOf l).toList.filter (fun e => decide (¬ (nameOf a == e.1) = true)) =
        (indexOf nameOf l).toList := by
      rw [List.filter_eq_self]
      intro e he
      rw [decide_eq_true_eq, beq_iff_eq]
      intro hname
      have hmem : e.1 ∈ indexOf nameOf l := by
        rw [← Std.TreeMap.mem_keys, ← Std.TreeMap.map_fst_toList_eq_keys]
        exact List.mem_map_of_mem he
      exact h.1 (hname ▸ mem_indexOf.mp hmem)
    have hinsert := Std.TreeMap.toList_insert_perm (t := indexOf nameOf l) (k := nameOf a)
      (v := (a, (indexOf nameOf l).size))
    rw [hfresh, size_indexOf h.2] at hinsert
    rw [indexOf, List.reverse_cons, List.zipIdx_append, size_indexOf h.2]
    refine (hinsert.map Prod.snd).trans ?_
    rw [List.map_cons, List.length_reverse, Nat.zero_add]
    exact ((ih h.2).cons _).trans (List.perm_append_singleton ..).symm

/-- The positions in the index are those in the list: sorting by them gives the
entries in the order of their arrival. -/
theorem indexed_eq (r : Registry α nameOf) : r.indexed = r.entries.zipIdx := by
  have hperm : r.indexed.Perm r.entries.zipIdx := by
    refine (List.mergeSort_perm _ _).trans ?_
    rw [r.index_eq]
    exact toList_indexOf_perm r.nodup
  have hsorted : r.indexed.Pairwise fun a b => a.2 ≤ b.2 := by
    refine (List.pairwise_mergeSort ?_ ?_ _).imp of_decide_eq_true
    · intro a b c hab hbc
      exact decide_eq_true (Nat.le_trans (of_decide_eq_true hab) (of_decide_eq_true hbc))
    · intro a b
      simpa using Nat.le_total a.2 b.2
  have hzip : r.entries.zipIdx.Pairwise fun a b => a.2 ≤ b.2 := by
    have hpositions := List.pairwise_le_range' (s := 0) (n := r.entries.length)
    rw [← List.zipIdx_map_snd, List.pairwise_map] at hpositions
    exact hpositions
  refine hperm.eq_of_pairwise (fun a b ha hb hab hba => ?_) hsorted hzip
  -- no position occurs twice
  have hpos : a.2 = b.2 := Nat.le_antisymm hab hba
  have ha' := List.mem_zipIdx_iff_getElem?.mp (hperm.subset ha)
  rw [hpos, List.mem_zipIdx_iff_getElem?.mp hb] at ha'
  exact Prod.ext (Option.some.inj ha').symm hpos

/-! ## Lookup -/

theorem mem_index {r : Registry α nameOf} {x : String} :
    x ∈ r.index ↔ x ∈ r.entries.map nameOf := by
  rw [r.index_eq, mem_indexOf, entries, List.map_reverse, List.mem_reverse]

theorem size_eq (r : Registry α nameOf) : r.size = r.entries.length := by
  rw [size, r.index_eq, size_indexOf r.nodup, entries, List.length_reverse]

/-- An entry is located under its own name, at the position where it stands. -/
theorem locate?_eq_some_iff {r : Registry α nameOf} {x : String} {a : α} {i : Nat} :
    r.locate? x = some (a, i) ↔ r.entries[i]? = some a ∧ nameOf a = x := by
  rw [locate?, r.index_eq]
  exact getElem?_indexOf r.nodup

theorem locate?_eq_none_iff {r : Registry α nameOf} {x : String} :
    r.locate? x = none ↔ x ∉ r.entries.map nameOf := by
  rw [← mem_index, Std.TreeMap.mem_iff_isSome_getElem?, Bool.not_eq_true,
    Option.isSome_eq_false_iff, Option.isNone_iff_eq_none, locate?]

theorem find?_eq_none_iff {r : Registry α nameOf} {x : String} :
    r.find? x = none ↔ x ∉ r.entries.map nameOf := by
  rw [find?, Option.map_eq_none_iff, locate?_eq_none_iff]

/-- Names are distinct, so an entry is found under its own name. -/
theorem find?_eq_some_iff {r : Registry α nameOf} {x : String} {a : α} :
    r.find? x = some a ↔ a ∈ r.entries ∧ nameOf a = x := by
  rw [find?, Option.map_eq_some_iff]
  constructor
  · rintro ⟨⟨b, i⟩, hb, rfl⟩
    obtain ⟨hi, hx⟩ := locate?_eq_some_iff.mp hb
    exact ⟨List.mem_of_getElem? hi, hx⟩
  · rintro ⟨ha, hx⟩
    obtain ⟨i, hi⟩ := List.getElem?_of_mem ha
    exact ⟨(a, i), locate?_eq_some_iff.mpr ⟨hi, hx⟩, rfl⟩

/-- Registries with the same entries, in whatever order, find the same. -/
theorem find?_congr {r r' : Registry α nameOf} (h : ∀ a, a ∈ r'.entries ↔ a ∈ r.entries)
    (x : String) : r'.find? x = r.find? x := by
  ext a
  rw [find?_eq_some_iff, find?_eq_some_iff, h a]

/-! ## Insertion -/

/-- Adds an entry at the end, unless its name is taken. -/
def insert? (r : Registry α nameOf) (a : α) : Option (Registry α nameOf) :=
  if h : nameOf a ∈ r.index then none
  else
    some
      { latest := a :: r.latest
        index := r.index.insert (nameOf a) (a, r.index.size)
        index_eq := by rw [r.index_eq, indexOf]
        nodup := by
          rw [r.index_eq, mem_indexOf] at h
          exact List.nodup_cons.mpr ⟨h, r.nodup⟩ }

theorem insert?_eq_none_iff {r : Registry α nameOf} {a : α} :
    r.insert? a = none ↔ nameOf a ∈ r.entries.map nameOf := by
  rw [← mem_index]
  unfold insert?
  split <;> simp_all

theorem insert?_eq_some_iff {r r' : Registry α nameOf} {a : α} :
    r.insert? a = some r' ↔
      nameOf a ∉ r.entries.map nameOf ∧ r'.entries = r.entries ++ [a] := by
  rw [← mem_index]
  unfold insert?
  split
  · simp_all
  · rename_i h
    rw [Option.some.injEq]
    constructor
    · rintro rfl
      exact ⟨h, List.reverse_cons⟩
    · rintro ⟨_, hentries⟩
      exact Registry.ext (List.reverse_cons.trans hentries.symm)

/-- The new entry takes the next free position. -/
theorem size_insert? {r r' : Registry α nameOf} {a : α} (h : r.insert? a = some r') :
    r'.size = r.size + 1 := by
  simp [size_eq, (insert?_eq_some_iff.mp h).2]

end Registry

end JasminGen
