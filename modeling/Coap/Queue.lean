/-
# Queues

A queue hands out its elements in the order in which they came in.  It is kept as two lists,
so that adding an element and dropping old ones take little time on average, and knows how
many elements it holds.
-/

namespace Coap

/-- A queue: the older elements in order, the newer ones in reverse, and their number. -/
structure Queue (α : Type) where
  older : List α
  newer : List α
  size : Nat
  size_eq : size = older.length + newer.length

namespace Queue

variable {α : Type}

/-- The queue without elements. -/
def empty : Queue α := ⟨[], [], 0, rfl⟩

/-- The elements, oldest first. -/
def toList (q : Queue α) : List α := q.older ++ q.newer.reverse

/-- Adds an element. -/
def push (q : Queue α) (x : α) : Queue α :=
  ⟨q.older, x :: q.newer, q.size + 1, by simp [q.size_eq]; omega⟩

/-- Drops the oldest elements of a list while they pass a test, and counts the rest down. -/
def dropCounting (p : α → Bool) : List α → Nat → List α × Nat
  | [], n => ([], n)
  | x :: rest, n => if p x then dropCounting p rest (n - 1) else (x :: rest, n)

theorem dropCounting_eq (p : α → Bool) (l : List α) (n k : Nat) (h : n = l.length + k) :
    dropCounting p l n = (l.dropWhile p, (l.dropWhile p).length + k) := by
  induction l generalizing n with
  | nil => simp [dropCounting, h]
  | cons x rest ih =>
    by_cases hp : p x
    · simp only [dropCounting, hp, if_true, List.dropWhile_cons]
      exact ih (n - 1) (by simp only [List.length_cons] at h; omega)
    · simp [dropCounting, hp, h]

/-- Drops the oldest elements while they pass a test. -/
def dropWhile (q : Queue α) (p : α → Bool) : Queue α :=
  match h : dropCounting p q.older q.size with
  | (x :: rest, n) =>
    ⟨x :: rest, q.newer, n, by
      rw [dropCounting_eq p q.older q.size q.newer.length q.size_eq] at h
      simp only [Prod.mk.injEq] at h
      rw [← h.2, h.1]⟩
  | ([], n) =>
    let kept := dropCounting p q.newer.reverse n
    ⟨kept.1, [], kept.2, by
      rw [dropCounting_eq p q.older q.size q.newer.length q.size_eq] at h
      simp only [Prod.mk.injEq] at h
      have hn : n = q.newer.reverse.length + 0 := by
        rw [← h.2, h.1]
        simp
      simp [kept, dropCounting_eq p q.newer.reverse n 0 hn]⟩

@[simp] theorem toList_empty : (empty : Queue α).toList = [] := rfl

@[simp] theorem toList_push (q : Queue α) (x : α) : (q.push x).toList = q.toList ++ [x] := by
  simp [push, toList]

theorem size_eq_length (q : Queue α) : q.size = q.toList.length := by
  simp [toList, q.size_eq]

theorem toList_dropWhile (q : Queue α) (p : α → Bool) :
    (q.dropWhile p).toList = q.toList.dropWhile p := by
  have hd := dropCounting_eq p q.older q.size q.newer.length q.size_eq
  unfold dropWhile
  split
  · next x rest n h =>
    rw [hd] at h
    simp only [Prod.mk.injEq] at h
    simp [toList, List.dropWhile_append, h.1]
  · next n h =>
    rw [hd] at h
    simp only [Prod.mk.injEq] at h
    have hn : n = q.newer.reverse.length + 0 := by
      rw [← h.2, h.1]
      simp
    simp [toList, dropCounting_eq p q.newer.reverse n 0 hn, List.dropWhile_append, h.1]

end Queue

end Coap
