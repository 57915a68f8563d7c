import ScatterGather.Direction
import ScatterGather.Geometry

/-! # Registers of the controller

The controller has one side of six registers for each direction. A `RegisterFile` holds the value
of every register by its byte offset, zero where none was stored, and remembers the writes.
-/
namespace ScatterGather

inductive Register where
  | tableLow
  | tableHigh
  /-- The base of the controller's own copy of the ring, low half. -/
  | fifoLow
  | fifoHigh
  /-- The last id handed over. A write sets the controller to work. -/
  | lastId
  | tableSize
deriving DecidableEq, Repr

namespace Register

def all : List Register := [tableLow, tableHigh, fifoLow, fifoHigh, lastId, tableSize]

def offset : Register → Nat
  | tableLow => 0x00
  | tableHigh => 0x04
  | fifoLow => 0x08
  | fifoHigh => 0x0C
  | lastId => 0x10
  | tableSize => 0x14

def sideBase : Direction → Nat
  | .hostToDevice => 0x000
  | .deviceToHost => 0x100

def address (dir : Direction) (r : Register) : Nat := sideBase dir + r.offset

theorem address_inj {d e : Direction} {r s : Register} :
    address d r = address e s ↔ d = e ∧ r = s := by
  cases d <;> cases e <;> cases r <;> cases s <;> decide

end Register

def fifoBase : Direction → Nat
  | .hostToDevice => 0x7FFFFFFF0000
  | .deviceToHost => 0x7FFFFFFF2000

structure RegisterFile where
  cells : List (Nat × UInt32) := []
  /-- The writes since they were last forgotten, the latest first. -/
  writes : List (Nat × UInt32) := []
deriving DecidableEq, Repr

namespace RegisterFile

def read (r : RegisterFile) (offset : Nat) : UInt32 := (r.cells.lookup offset).getD 0

def preset (r : RegisterFile) (offset : Nat) (value : UInt32) : RegisterFile :=
  { r with cells := (offset, value) :: r.cells.filter fun cell => cell.1 != offset }

def write (r : RegisterFile) (offset : Nat) (value : UInt32) : RegisterFile :=
  { r.preset offset value with writes := (offset, value) :: r.writes }

def writeCount (r : RegisterFile) (offset : Nat) : Nat := r.writes.countP fun w => w.1 == offset

def forgetWrites (r : RegisterFile) : RegisterFile := { r with writes := [] }

def reset : RegisterFile :=
  (({} : RegisterFile).preset (Register.address .hostToDevice .lastId) (UInt32.ofNat noId)).preset
    (Register.address .deviceToHost .lastId) (UInt32.ofNat noId)

def lastId (r : RegisterFile) (dir : Direction) : Nat := (r.read (Register.address dir .lastId)).toNat

@[simp] theorem read_preset_self (r : RegisterFile) (offset : Nat) (value : UInt32) :
    (r.preset offset value).read offset = value := by simp [read, preset]

theorem read_preset_of_ne (r : RegisterFile) {offset o : Nat} (value : UInt32) (h : o ≠ offset) :
    (r.preset offset value).read o = r.read o := by
  have hb : (o == offset) = false := by simpa using h
  have key : ∀ l : List (Nat × UInt32),
      (l.filter fun cell => cell.1 != offset).lookup o = l.lookup o := by
    intro l
    induction l with
    | nil => rfl
    | cons c l ih =>
      obtain ⟨place, stored⟩ := c
      by_cases hc : place = offset
      · subst hc
        simp [List.lookup_cons, ih, hb]
      · by_cases ho : o = place <;> simp [List.lookup_cons, hc, ho, ih]
  simp [read, preset, List.lookup_cons, hb, key]

@[simp] theorem read_write_self (r : RegisterFile) (offset : Nat) (value : UInt32) :
    (r.write offset value).read offset = value := read_preset_self r offset value

theorem read_write_of_ne (r : RegisterFile) {offset o : Nat} (value : UInt32) (h : o ≠ offset) :
    (r.write offset value).read o = r.read o := read_preset_of_ne r value h

end RegisterFile
end ScatterGather
