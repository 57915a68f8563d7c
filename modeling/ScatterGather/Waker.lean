/-! # Wakers

A task that finds no work leaves its waker behind; whoever brings work wakes it. A slot holds at
most one waker, and waking takes it out. Tasks are known by number.
-/
namespace ScatterGather

/-- The place where one waiting task can be registered. -/
structure WakerSlot where
  registered : Option Nat := none
  woken : List Nat := []
deriving DecidableEq, Repr

namespace WakerSlot

def register (w : WakerSlot) (task : Nat) : WakerSlot := { w with registered := some task }

def wake (w : WakerSlot) : WakerSlot :=
  match w.registered with
  | some task => { registered := none, woken := task :: w.woken }
  | none => w

def wakeCount (w : WakerSlot) (task : Nat) : Nat := w.woken.count task

end WakerSlot
end ScatterGather
