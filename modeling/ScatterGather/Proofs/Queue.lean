import ScatterGather.BoundedQueue

/-! # What a bounded queue holds

`Holds q l` says that the queue `q` stands for the list `l`, oldest element first. Each operation is
described by what it does to the list; nothing else about slots and indices is used elsewhere.
-/
namespace ScatterGather.BoundedQueue
variable {α : Type} {n : Nat}

theorem wrap_of_lt {i capacity : Nat} (h : i < capacity) : wrap i capacity = i :=
  if_neg (Nat.not_le.mpr h)

theorem wrap_lt {i capacity : Nat} (h : i < 2 * capacity) : wrap i capacity < capacity := by
  unfold wrap
  split <;> omega

/-- The slots from the head on hold the elements of the list, in its order. -/
structure Holds (q : BoundedQueue α n) (l : List α) : Prop where
  size : q.size = l.length
  fits : l.length ≤ n
  head : q.head ≤ n - 1
  slot : ∀ i a, l[i]? = some a → q.slot? (wrap (q.head + i) n) = some a

theorem holds_empty : Holds (empty : BoundedQueue α n) [] where
  size := rfl
  fits := Nat.zero_le n
  head := Nat.zero_le _
  slot _ _ h := by simp at h

theorem Holds.isEmpty {q : BoundedQueue α n} {l : List α} (h : Holds q l) :
    q.isEmpty = l.isEmpty := by
  cases l <;> simp [BoundedQueue.isEmpty, h.size]

theorem Holds.isFull {q : BoundedQueue α n} {l : List α} (h : Holds q l) :
    q.isFull = decide (l.length = n) := by
  simp [BoundedQueue.isFull, h.size]

theorem Holds.push {q : BoundedQueue α n} {l : List α} (h : Holds q l) (hl : l.length < n) (a : α) :
    Holds (q.push a) (l ++ [a]) := by
  have hfull : q.isFull = false := by rw [h.isFull, decide_eq_false_iff_not]; omega
  have hhead := h.head
  have hpush : q.push a = { q with
      slots := q.slots.setIfInBounds (wrap (q.head + l.length) n) (some a), size := q.size + 1 } := by
    simp [BoundedQueue.push, hfull, h.size]
  rw [hpush]
  refine ⟨by simp [h.size], by simp; omega, hhead, ?_⟩
  intro i b hi
  have hlast : wrap (q.head + l.length) n < n := wrap_lt (by omega)
  have hil : i ≤ l.length := by
    have hlen := (List.getElem?_eq_some_iff.mp hi).1
    simp only [List.length_append, List.length_singleton] at hlen
    omega
  rcases Nat.lt_or_eq_of_le hil with hlt | rfl
  · -- the new element lies in a slot of its own
    have hne : wrap (q.head + l.length) n ≠ wrap (q.head + i) n := by
      unfold wrap
      split <;> split <;> omega
    have hb := h.slot i b (by rwa [List.getElem?_append_left hlt] at hi)
    simp only [slot?] at hb ⊢
    rw [Vector.getElem?_setIfInBounds, if_neg hne]
    exact hb
  · have hb : a = b := by simpa using hi
    subst hb
    simp [slot?, hlast]

theorem Holds.pop_cons {q : BoundedQueue α n} {a : α} {l : List α} (h : Holds q (a :: l)) :
    ∃ rest, q.pop = (some a, rest) ∧ Holds rest l := by
  have hhead := h.head
  have hfits := h.fits
  simp only [List.length_cons] at hfits
  have hempty : q.isEmpty = false := h.isEmpty
  have hfirst : q.slot? q.head = some a := by
    have := h.slot 0 a rfl
    rwa [Nat.add_zero, wrap_of_lt (by omega)] at this
  refine ⟨_, by simp only [BoundedQueue.pop, hempty, hfirst]; rfl, ?_⟩
  refine ⟨by simp [h.size], by omega, ?_, ?_⟩
  · have : wrap (q.head + 1) n < n := wrap_lt (by omega)
    simp only
    omega
  · intro i b hi
    have hil := (List.getElem?_eq_some_iff.mp hi).1
    have hb := h.slot (i + 1) b (by simpa using hi)
    have hnext : wrap (wrap (q.head + 1) n + i) n = wrap (q.head + (i + 1)) n := by
      unfold wrap
      split <;> split <;> split <;> omega
    have hne : q.head ≠ wrap (q.head + (i + 1)) n := by
      unfold wrap
      split <;> omega
    simp only [slot?, hnext] at hb ⊢
    rw [Vector.getElem?_setIfInBounds, if_neg hne]
    exact hb

theorem Holds.pop_nil {q : BoundedQueue α n} (h : Holds q []) : q.pop = (none, q) := by
  simp [BoundedQueue.pop, h.isEmpty]

theorem Holds.drain {q : BoundedQueue α n} {l : List α} (h : Holds q l) :
    Holds (q.drain l.length) [] := by
  induction l generalizing q with
  | nil => exact h
  | cons a l ih =>
    obtain ⟨rest, hpop, hrest⟩ := h.pop_cons
    simp only [List.length_cons, BoundedQueue.drain, hpop]
    exact ih hrest

theorem Holds.clear {q : BoundedQueue α n} {l : List α} (h : Holds q l) : Holds q.clear [] where
  size := by simpa [BoundedQueue.clear, h.size] using h.drain.size
  fits := Nat.zero_le n
  head := Nat.zero_le _
  slot _ _ hi := by simp at hi

theorem Holds.toList {q : BoundedQueue α n} {l : List α} (h : Holds q l) : q.toList = l := by
  have key : ∀ k ≤ l.length, ((List.range k).filterMap fun i => q.slot? (wrap (q.head + i) n)) =
      l.take k := by
    intro k hk
    induction k with
    | zero => simp
    | succ k ih =>
      have hslot := h.slot k _ (List.getElem?_eq_getElem (by omega : k < l.length))
      rw [List.range_succ, List.filterMap_append, ih (by omega), List.take_add_one]
      simp [hslot, List.getElem?_eq_getElem (by omega : k < l.length)]
  rw [BoundedQueue.toList, h.size, key _ (Nat.le_refl _), List.take_length]

end ScatterGather.BoundedQueue
