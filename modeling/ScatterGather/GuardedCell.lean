/-! # Guarded cells

A value that may be read by many or changed by one, never both at once. An access that conflicts
with one that is still open is refused.
-/
namespace ScatterGather

/-- The accesses to a cell that are still open. -/
inductive Access where
  | free
  | reading (count : Nat)
  | changing
deriving DecidableEq, Repr

structure GuardedCell (α : Type) where
  value : α
  access : Access := .free
deriving DecidableEq, Repr

namespace GuardedCell
variable {α β : Type}

def read? (c : GuardedCell α) (body : α → GuardedCell α → Option β) : Option β :=
  match c.access with
  | .free => body c.value { c with access := .reading 1 }
  | .reading count => body c.value { c with access := .reading (count + 1) }
  | .changing => none

def change? (c : GuardedCell α) (body : α → GuardedCell α → Option (β × α)) :
    Option (β × GuardedCell α) :=
  match c.access with
  | .free => (body c.value { c with access := .changing }).map fun r => (r.1, { c with value := r.2 })
  | _ => none

end GuardedCell
end ScatterGather
