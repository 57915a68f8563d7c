import ScatterGather.Proofs.Queue

/-! # First in, first out

Whatever is pushed, popped and cleared, a bounded queue answers as a list of at most as many elements
as there are slots, and its used slots are those from the head on, with none beyond the end of the
ring. One conditional subtraction always has the value of the remainder.
-/
namespace ScatterGather.BoundedQueue
variable {α : Type} {n : Nat}

inductive Call (α : Type) where
  | push (a : α)
  | pop
  | clear
deriving DecidableEq, Repr

def call (q : BoundedQueue α n) : Call α → Option α × BoundedQueue α n
  | .push a => (none, q.push a)
  | .pop => q.pop
  | .clear => (none, q.clear)

/-- The answers of the calls, the first one first, and the queue that they leave. -/
def callEach (q : BoundedQueue α n) : List (Call α) → List (Option α) × BoundedQueue α n
  | [] => ([], q)
  | c :: calls =>
    let rest := (q.call c).2.callEach calls
    ((q.call c).1 :: rest.1, rest.2)

/-- What a call does to a list that holds at most `n` elements. -/
def Call.onList (n : Nat) (l : List α) : Call α → Option α × List α
  | push a => (none, if l.length = n then l else l ++ [a])
  | pop => (l.head?, l.tail)
  | clear => (none, [])

def Call.eachOnList (n : Nat) (l : List α) : List (Call α) → List (Option α) × List α
  | [] => ([], l)
  | c :: calls =>
    let rest := eachOnList n (c.onList n l).2 calls
    ((c.onList n l).1 :: rest.1, rest.2)

/-! ## Indices that must be in range

The same queue with its indices reduced by division. It has no value if an index is not that of a
slot. -/
namespace Checked

def push (q : BoundedQueue α n) (a : α) : Option (BoundedQueue α n) :=
  if q.isFull then some q
  else
    let tail := (q.head + q.size) % n
    if tail < n then
      some { q with slots := q.slots.setIfInBounds tail (some a), size := q.size + 1 }
    else none

def pop (q : BoundedQueue α n) : Option (Option α × BoundedQueue α n) :=
  if q.isEmpty then some (none, q)
  else do
    let value ← q.slots[q.head]?
    some (value, { slots := q.slots.setIfInBounds q.head none
                   head := (q.head + 1) % n
                   size := q.size - 1 })

def front (q : BoundedQueue α n) : Option (Option α) :=
  if q.isEmpty then some none else q.slots[q.head]?

def back (q : BoundedQueue α n) : Option (Option α) :=
  if q.isEmpty then some none else q.slots[(q.head + q.size - 1) % n]?

def drain : Nat → BoundedQueue α n → Option (BoundedQueue α n)
  | 0, q => some q
  | count + 1, q => do
    match ← pop q with
    | (some _, rest) => drain count rest
    | (none, rest) => some rest

def call (q : BoundedQueue α n) : Call α → Option (Option α × BoundedQueue α n)
  | .push a => (push q a).map (none, ·)
  | .pop => pop q
  | .clear => (drain q.size q).map fun rest => (none, { rest with head := 0 })

def callEach (q : BoundedQueue α n) : List (Call α) → Option (List (Option α) × BoundedQueue α n)
  | [] => some ([], q)
  | c :: calls => do
    let (answer, next) ← call q c
    let (answers, last) ← callEach next calls
    some (answer :: answers, last)

end Checked

/-- The queue stands for the list, and whatever is asked of it is asked of the list. -/
structure Represents (q : BoundedQueue α n) (l : List α) : Prop where
  toList : q.toList = l
  fits : l.length ≤ n
  size : q.size = l.length
  isEmpty : q.isEmpty = l.isEmpty
  isFull : q.isFull = decide (l.length = n)
  front : q.front? = l.head?
  back : q.back? = l.getLast?
  head : q.head < n ∨ n = 0 ∧ q.head = 0
  stored : ∀ k a, l[k]? = some a → q.slots[(q.head + k) % n]? = some (some a)
  /-- The slots from the head on are in use, and no others. -/
  occupied : ∀ i (h : i < n), q.slots[i].isSome = true ↔ ∃ k < q.size, i = (q.head + k) % n
  /-- To clear the queue is to pop until a pop yields none, however long that takes: no element is
  left then. -/
  drained : ∀ more, q.drain (q.size + more) = q.drain q.size ∧ (q.drain q.size).size = 0
  /-- A look at either end finds a slot. -/
  looks : Checked.front q = some q.front? ∧ Checked.back q = some q.back?

theorem wrap_eq_mod {i capacity : Nat} (h : i < 2 * capacity) : wrap i capacity = i % capacity := by
  unfold wrap
  split
  · next hle =>
    rw [Nat.mod_eq_sub_mod hle, Nat.mod_eq_of_lt (by omega)]
  · next hlt => exact (Nat.mod_eq_of_lt (by omega)).symm

/-- Slots that hold none of the elements hold nothing. -/
structure Neat (q : BoundedQueue α n) (l : List α) : Prop extends q.Holds l where
  free : ∀ i (h : i < n), (∀ k < l.length, i ≠ wrap (q.head + k) n) → q.slots[i] = none

theorem Holds.index_lt {q : BoundedQueue α n} {l : List α} (h : q.Holds l) {k : Nat} (hk : k < n) :
    q.head + k < 2 * n := by
  have hhead := h.head
  omega

namespace Neat
variable {q : BoundedQueue α n} {l : List α}

theorem slot_eq (h : q.Neat l) {k : Nat} {a : α} (hk : l[k]? = some a) :
    q.slots[wrap (q.head + k) n]? = some (some a) := by
  have hslot := h.slot k a hk
  unfold slot? at hslot
  cases hs : q.slots[wrap (q.head + k) n]? with
  | none => simp [hs] at hslot
  | some stored =>
    rw [hs] at hslot
    exact congrArg some hslot

theorem empty : (BoundedQueue.empty : BoundedQueue α n).Neat [] where
  toHolds := holds_empty
  free _ _ _ := Vector.getElem_replicate ..

theorem push (h : q.Neat l) (hl : l.length < n) (a : α) : (q.push a).Neat (l ++ [a]) where
  toHolds := h.toHolds.push hl a
  free i hi hout := by
    have hfull : q.isFull = false := by rw [h.isFull, decide_eq_false_iff_not]; omega
    have hslots : (q.push a).slots = q.slots.setIfInBounds (wrap (q.head + l.length) n) (some a) := by
      simp [BoundedQueue.push, hfull, h.size]
    have hhead : (q.push a).head = q.head := by simp [BoundedQueue.push, hfull]
    simp only [hhead, List.length_append, List.length_singleton] at hout
    have hnew : wrap (q.head + l.length) n ≠ i := (hout l.length (by omega)).symm
    have hold : q.slots[i] = none := h.free i hi fun k hk => hout k (by omega)
    simp only [hslots, Vector.getElem_setIfInBounds hi, if_neg hnew, hold]

theorem push_full (h : q.Neat l) (hl : l.length = n) (a : α) : q.push a = q := by
  simp [BoundedQueue.push, h.isFull, hl]

theorem pop_cons {a : α} (h : q.Neat (a :: l)) : ∃ rest, q.pop = (some a, rest) ∧ rest.Neat l := by
  obtain ⟨rest, hpop, hrest⟩ := h.toHolds.pop_cons
  refine ⟨rest, hpop, hrest, ?_⟩
  intro i hi hout
  have hempty : q.isEmpty = false := h.isEmpty
  have hhead := h.head
  have hfits := h.fits
  simp only [List.length_cons] at hfits
  have hpopped : rest = { slots := q.slots.setIfInBounds q.head none
                          head := wrap (q.head + 1) n
                          size := q.size - 1 } := by
    rw [BoundedQueue.pop, hempty] at hpop
    exact (congrArg Prod.snd hpop).symm
  subst hpopped
  simp only [Vector.getElem_setIfInBounds hi] at hout ⊢
  split
  · rfl
  · next hne =>
    apply h.free i hi
    intro k hk
    rw [List.length_cons] at hk
    cases k with
    | zero =>
      rw [Nat.add_zero, wrap_of_lt (by omega)]
      exact Ne.symm hne
    | succ k =>
      have hnext : wrap (wrap (q.head + 1) n + k) n = wrap (q.head + (k + 1)) n := by
        unfold wrap
        split <;> split <;> split <;> omega
      exact hnext ▸ hout k (by omega)

/-- However many pops are allowed beyond the elements, each element is popped and nothing else happens. -/
theorem drain (h : q.Neat l) (more : Nat) :
    q.drain (l.length + more) = q.drain l.length ∧ (q.drain l.length).Neat [] := by
  induction l generalizing q with
  | nil =>
    refine ⟨?_, h⟩
    cases more with
    | zero => rfl
    | succ more => simp only [List.length_nil, BoundedQueue.drain, h.pop_nil]
  | cons a l ih =>
    obtain ⟨rest, hpop, hrest⟩ := h.pop_cons
    rw [List.length_cons, Nat.add_right_comm, BoundedQueue.drain, BoundedQueue.drain, hpop]
    exact ih hrest

theorem clear (h : q.Neat l) : q.clear.Neat [] where
  toHolds := h.toHolds.clear
  free i hi _ := by
    have hnone := (h.drain 0).2.free i hi nofun
    rw [← h.size] at hnone
    exact hnone

/-- A call on the queue is a call on the list. -/
theorem call (h : q.Neat l) (c : Call α) :
    (q.call c).1 = (c.onList n l).1 ∧ (q.call c).2.Neat (c.onList n l).2 := by
  cases c with
  | push a =>
    refine ⟨rfl, ?_⟩
    simp only [BoundedQueue.call, Call.onList]
    split
    · next hl => rwa [h.push_full hl]
    · next hl => exact h.push (Nat.lt_of_le_of_ne h.fits hl) a
  | pop =>
    cases l with
    | nil =>
      simp only [BoundedQueue.call, Call.onList, h.pop_nil]
      exact ⟨rfl, h⟩
    | cons a l =>
      obtain ⟨rest, hpop, hrest⟩ := h.pop_cons
      simp only [BoundedQueue.call, Call.onList, hpop]
      exact ⟨rfl, hrest⟩
  | clear => exact ⟨rfl, h.clear⟩

theorem callEach (h : q.Neat l) (calls : List (Call α)) :
    (q.callEach calls).1 = (Call.eachOnList n l calls).1 ∧
      (q.callEach calls).2.Neat (Call.eachOnList n l calls).2 := by
  induction calls generalizing q l with
  | nil => exact ⟨rfl, h⟩
  | cons c calls ih =>
    obtain ⟨hanswer, hnext⟩ := h.call c
    obtain ⟨hanswers, hlast⟩ := ih hnext
    refine ⟨?_, hlast⟩
    rw [BoundedQueue.callEach, Call.eachOnList, hanswer, hanswers]

/-! Each checked operation has the value of the one that does not check. -/

section Ranges

theorem checked_push (h : q.Neat l) (a : α) : Checked.push q a = some (q.push a) := by
  unfold Checked.push BoundedQueue.push
  split
  · rfl
  · next hfull =>
    have hlt : l.length < n := by
      rw [h.isFull, decide_eq_true_eq] at hfull
      exact Nat.lt_of_le_of_ne h.fits hfull
    have htail : wrap (q.head + q.size) n = (q.head + q.size) % n :=
      wrap_eq_mod (h.size ▸ h.index_lt hlt)
    rw [htail]
    exact if_pos (Nat.mod_lt _ (by omega))

theorem checked_pop (h : q.Neat l) : Checked.pop q = some q.pop := by
  unfold Checked.pop BoundedQueue.pop
  split
  · rfl
  · next hempty =>
    cases l with
    | nil => exact absurd h.isEmpty hempty
    | cons a l =>
      have hpos : 0 < n := Nat.lt_of_lt_of_le (Nat.succ_pos _) h.fits
      have hhead := h.head
      have hnext : wrap (q.head + 1) n = (q.head + 1) % n := wrap_eq_mod (by omega)
      have hvalue := h.slot_eq (k := 0) rfl
      rw [Nat.add_zero, wrap_of_lt (by omega)] at hvalue
      rw [hnext, hvalue, slot?, hvalue]
      rfl

theorem checked_drain (h : q.Neat l) : Checked.drain l.length q = some (q.drain l.length) := by
  induction l generalizing q with
  | nil => rfl
  | cons a l ih =>
    obtain ⟨rest, hpop, hrest⟩ := h.pop_cons
    rw [List.length_cons, Checked.drain, h.checked_pop, BoundedQueue.drain, hpop]
    exact ih hrest

theorem checked_call (h : q.Neat l) (c : Call α) : Checked.call q c = some (q.call c) := by
  cases c with
  | push a => rw [Checked.call, h.checked_push]; rfl
  | pop => exact h.checked_pop
  | clear => rw [Checked.call, h.size, h.checked_drain, BoundedQueue.call, BoundedQueue.clear, h.size]; rfl

theorem checked_callEach (h : q.Neat l) (calls : List (Call α)) :
    Checked.callEach q calls = some (q.callEach calls) := by
  induction calls generalizing q l with
  | nil => rfl
  | cons c calls ih =>
    rw [Checked.callEach, h.checked_call, Option.bind_eq_bind, Option.bind_some]
    dsimp only
    rw [ih (h.call c).2]
    rfl

end Ranges

theorem front_eq (h : q.Neat l) : q.front? = l.head? ∧ Checked.front q = some q.front? := by
  unfold BoundedQueue.front? Checked.front
  rw [h.isEmpty]
  cases l with
  | nil => exact ⟨rfl, rfl⟩
  | cons a l =>
    have hpos : 0 < n := Nat.lt_of_lt_of_le (Nat.succ_pos _) h.fits
    have hhead := h.head
    have hvalue := h.slot_eq (k := 0) rfl
    rw [Nat.add_zero, wrap_of_lt (by omega)] at hvalue
    simp [slot?, hvalue]

theorem back_eq (h : q.Neat l) : q.back? = l.getLast? ∧ Checked.back q = some q.back? := by
  unfold BoundedQueue.back? Checked.back
  rw [h.isEmpty]
  cases hl : l.getLast? with
  | none => simp [List.getLast?_eq_none_iff.mp hl]
  | some a =>
    have hne : l ≠ [] := by rintro rfl; cases hl
    have hpos := List.length_pos_iff.mpr hne
    have hfits := h.fits
    rw [List.getLast?_eq_getElem?] at hl
    have hvalue := h.slot_eq hl
    have hplace : q.head + q.size - 1 = q.head + (l.length - 1) := by rw [h.size]; omega
    rw [hplace, ← wrap_eq_mod (h.index_lt (by omega))]
    simp [slot?, hvalue, hne]

theorem occupied (h : q.Neat l) (i : Nat) (hi : i < n) :
    q.slots[i].isSome = true ↔ ∃ k < q.size, i = (q.head + k) % n := by
  have hplace {k : Nat} (hk : k < l.length) : wrap (q.head + k) n = (q.head + k) % n :=
    wrap_eq_mod (h.index_lt (Nat.lt_of_lt_of_le hk h.fits))
  rw [h.size]
  constructor
  · intro hsome
    refine Classical.byContradiction fun hout => ?_
    have hfree := h.free i hi fun k hk heq => hout ⟨k, hk, heq.trans (hplace hk)⟩
    rw [hfree] at hsome
    cases hsome
  · rintro ⟨k, hk, rfl⟩
    have hvalue := h.slot_eq (List.getElem?_eq_getElem hk)
    rw [hplace hk, Vector.getElem?_eq_getElem hi, Option.some.injEq] at hvalue
    rw [hvalue]
    rfl

theorem represents (h : q.Neat l) : q.Represents l where
  toList := h.toHolds.toList
  fits := h.fits
  size := h.size
  isEmpty := h.isEmpty
  isFull := h.isFull
  front := h.front_eq.1
  back := h.back_eq.1
  head := by
    have hhead := h.head
    omega
  stored k a hk := by
    have hlt : k < l.length := (List.getElem?_eq_some_iff.mp hk).1
    rw [← wrap_eq_mod (h.index_lt (Nat.lt_of_lt_of_le hlt h.fits))]
    exact h.slot_eq hk
  occupied := h.occupied
  drained more := by
    rw [h.size]
    exact ⟨(h.drain more).1, (h.drain more).2.size⟩
  looks := ⟨h.front_eq.2, h.back_eq.2⟩

end Neat

/-- With any number of slots and any elements, a queue that was empty at first answers all calls as a
list that refuses elements beyond its capacity, and it stands for this list in the end. No index that
is used on the way is out of range, and each is the remainder of what it was computed from. -/
theorem callEach_refines (calls : List (Call α)) :
    let called := (BoundedQueue.empty : BoundedQueue α n).callEach calls
    let expected := Call.eachOnList n [] calls
    called.1 = expected.1 ∧ called.2.Represents expected.2 ∧
      Checked.callEach BoundedQueue.empty calls = some called := by
  intro called expected
  obtain ⟨hanswers, hneat⟩ := (Neat.empty (α := α) (n := n)).callEach calls
  exact ⟨hanswers, hneat.represents, Neat.empty.checked_callEach calls⟩

/-- A ring of three slots, a push that finds it full, and a head that has gone around. -/
example : ((BoundedQueue.empty : BoundedQueue Nat 3).callEach
    [.push 1, .push 2, .push 3, .push 4, .pop, .pop, .push 5, .pop, .pop, .pop]).1 =
      [none, none, none, none, some 1, some 2, none, some 3, some 5, none] := by decide

end ScatterGather.BoundedQueue
