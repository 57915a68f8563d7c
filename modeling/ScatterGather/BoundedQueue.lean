/-! # Bounded queue

A first-in first-out queue of at most `n` elements in a ring of `n` slots. A push on a full queue
and a pop on an empty one leave it as it is. An index moves by at most `n`, so one conditional
subtraction brings it back into the ring.
-/
namespace ScatterGather

/-- A ring of `n` slots of which the `size` slots from `head` on are in use. -/
structure BoundedQueue (α : Type) (n : Nat) where
  slots : Vector (Option α) n
  head : Nat
  size : Nat

namespace BoundedQueue
variable {α : Type} {n : Nat}

/-- The slot of an index that has run past the end of the ring at most once. -/
def wrap (index capacity : Nat) : Nat :=
  if capacity ≤ index then index - capacity else index

def empty : BoundedQueue α n := ⟨Vector.replicate n none, 0, 0⟩

def isEmpty (q : BoundedQueue α n) : Bool := q.size = 0

def isFull (q : BoundedQueue α n) : Bool := q.size = n

def slot? (q : BoundedQueue α n) (i : Nat) : Option α := q.slots[i]?.join

def push (q : BoundedQueue α n) (a : α) : BoundedQueue α n :=
  if q.isFull then q
  else
    { q with
      slots := q.slots.setIfInBounds (wrap (q.head + q.size) n) (some a)
      size := q.size + 1 }

def pop (q : BoundedQueue α n) : Option α × BoundedQueue α n :=
  if q.isEmpty then (none, q)
  else
    (q.slot? q.head,
      { slots := q.slots.setIfInBounds q.head none
        head := wrap (q.head + 1) n
        size := q.size - 1 })

def front? (q : BoundedQueue α n) : Option α :=
  if q.isEmpty then none else q.slot? q.head

def back? (q : BoundedQueue α n) : Option α :=
  if q.isEmpty then none else q.slot? (wrap (q.head + q.size - 1) n)

/-- Pops at most `count` elements, up to the first pop that yields none. -/
def drain : Nat → BoundedQueue α n → BoundedQueue α n
  | 0, q => q
  | count + 1, q =>
    match q.pop with
    | (some _, rest) => drain count rest
    | (none, rest) => rest

def clear (q : BoundedQueue α n) : BoundedQueue α n := { q.drain q.size with head := 0 }

def toList (q : BoundedQueue α n) : List α :=
  (List.range q.size).filterMap fun i => q.slot? (wrap (q.head + i) n)

end BoundedQueue
end ScatterGather
