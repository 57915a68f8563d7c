/-! # Directions of a transfer

The controller has one descriptor ring, one table and one register side for each direction, so
most of the driver's state comes in pairs. `Sides α` is such a pair, read and written by direction.
-/
namespace ScatterGather

inductive Direction where
  | deviceToHost
  | hostToDevice
deriving DecidableEq, Repr

namespace Direction

/-- The device writes host memory, so the pages of the transfer come back dirty. -/
def writesHost : Direction → Bool
  | deviceToHost => true
  | hostToDevice => false

def other : Direction → Direction
  | deviceToHost => hostToDevice
  | hostToDevice => deviceToHost

theorem other_ne (d : Direction) : d.other ≠ d := by cases d <;> decide

theorem eq_other_of_ne {d e : Direction} (h : e ≠ d) : e = d.other := by
  cases d <;> cases e <;> first | rfl | exact absurd rfl h

end Direction

@[ext] structure Sides (α : Type) where
  deviceToHost : α
  hostToDevice : α
deriving DecidableEq, Repr

namespace Sides
variable {α : Type}

def both (a : α) : Sides α := ⟨a, a⟩

def get (s : Sides α) : Direction → α
  | .deviceToHost => s.deviceToHost
  | .hostToDevice => s.hostToDevice

def set (s : Sides α) : Direction → α → Sides α
  | .deviceToHost, a => { s with deviceToHost := a }
  | .hostToDevice, a => { s with hostToDevice := a }

def toList (s : Sides α) : List α := [s.deviceToHost, s.hostToDevice]

@[simp, grind =] theorem get_both (a : α) (d : Direction) : (both a).get d = a := by cases d <;> rfl

@[simp, grind =] theorem get_set_self (s : Sides α) (d : Direction) (a : α) :
    (s.set d a).get d = a := by cases d <;> rfl

theorem get_set_of_ne (s : Sides α) {d e : Direction} (a : α) (h : e ≠ d) :
    (s.set d a).get e = s.get e := by
  cases d <;> cases e <;> first | rfl | exact absurd rfl h

theorem get_set (s : Sides α) (d e : Direction) (a : α) :
    (s.set d a).get e = if e = d then a else s.get e := by
  cases d <;> cases e <;> rfl

@[simp] theorem set_get (s : Sides α) (d : Direction) : s.set d (s.get d) = s := by cases d <;> rfl

@[simp] theorem set_set (s : Sides α) (d : Direction) (a b : α) : (s.set d a).set d b = s.set d b := by
  cases d <;> rfl

end Sides
end ScatterGather
