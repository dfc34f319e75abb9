/-!
# Queues

First in, first out. A queue means its list `toList`, oldest first. It is kept
in two halves, the newer one latest first, so that neither end needs a walk
over the whole queue: the newer half is turned around once, when the older one
is used up.
-/

namespace JasminGen

structure Queue (α : Type) where
  /-- The older half, oldest first. -/
  older : List α := []
  /-- The newer half, latest first. -/
  newer : List α := []
  deriving DecidableEq

namespace Queue

variable {α : Type}

def toList (q : Queue α) : List α := q.older ++ q.newer.reverse

def size (q : Queue α) : Nat := q.older.length + q.newer.length

def enqueue (q : Queue α) (a : α) : Queue α := { q with newer := a :: q.newer }

/-- The oldest item and the queue without it. -/
def dequeue? (q : Queue α) : Option (α × Queue α) :=
  match q.older with
  | a :: older => some (a, { q with older })
  | [] =>
    match q.newer.reverse with
    | a :: older => some (a, { older })
    | [] => none

theorem size_eq (q : Queue α) : q.size = q.toList.length := by
  simp [size, toList]

@[simp] theorem toList_empty : ({} : Queue α).toList = [] := rfl

@[simp] theorem toList_enqueue (q : Queue α) (a : α) : (q.enqueue a).toList = q.toList ++ [a] := by
  simp [toList, enqueue]

/-- What is taken out is the head of the list. -/
theorem dequeue?_map_toList (q : Queue α) :
    q.dequeue?.map (fun r => (r.1, r.2.toList)) =
      match q.toList with
      | [] => none
      | a :: rest => some (a, rest) := by
  obtain ⟨older, newer⟩ := q
  cases older with
  | cons a older => rfl
  | nil =>
    simp only [dequeue?, toList, List.nil_append]
    cases newer.reverse with
    | nil => rfl
    | cons a older => simp

theorem dequeue?_eq_none_iff {q : Queue α} : q.dequeue? = none ↔ q.toList = [] := by
  rw [← Option.map_eq_none_iff, dequeue?_map_toList]
  cases q.toList <;> simp

theorem toList_of_dequeue? {q q' : Queue α} {a : α} (h : q.dequeue? = some (a, q')) :
    q.toList = a :: q'.toList := by
  have hq := q.dequeue?_map_toList
  rw [h] at hq
  cases hl : q.toList with
  | nil => rw [hl] at hq; cases hq
  | cons b rest => rw [hl] at hq; cases hq; rfl

/-- The two halves of a queue without items are empty. -/
theorem eq_empty {q : Queue α} (h : q.toList = []) : q = {} := by
  obtain ⟨older, newer⟩ := q
  obtain ⟨rfl, hnewer⟩ := List.append_eq_nil_iff.mp h
  cases List.reverse_eq_nil_iff.mp hnewer
  rfl

end Queue

end JasminGen
