import ScatterGather.Machine

/-! # Descriptor rings

Ids run from 0 to 127 and go on from the last id that the controller was given. A batch that begins
at id 0 announces the ring: all flags are zeroed and the registers of the ring are programmed. Each
batch is published by a write of its last id, after everything that the controller and the
interrupt handler read for it is in place.
-/
namespace ScatterGather

structure Ring where
  tableBus : Sides Nat
  /-- The last id handed over. -/
  lastId : Sides Nat := .both noId
deriving DecidableEq, Repr

namespace Ring
variable {σ : Type} [Platform σ]

def reset (ring : Ring) : Ring := { ring with lastId := .both noId }

def track (ring : Ring) (dir : Direction) (id : Nat) : Ring :=
  { ring with lastId := ring.lastId.set dir id }

def resume (ring : Ring) (m : Machine σ) (dir : Direction) : Ring × Machine σ :=
  let answer := m.readRegister dir .lastId
  (ring.track dir answer.1.toNat, answer.2)

def start? (ring : Ring) (dir : Direction) : Except BatchFault BatchPlace :=
  let last := ring.lastId.get dir
  if last = noId ∨ last = lastSlot then .ok { id := 0, announce := true }
  else if last < lastSlot then .ok { id := last + 1, announce := false }
  else .error (.unrecognizedLastId last)

def lastIdOf (start : BatchPlace) (entries : List Entry) : Nat := start.id + entries.length - 1

def announce (ring : Ring) (m : Machine σ) (dir : Direction) : Machine σ :=
  ((m.programTable dir (ring.tableBus.get dir)).programFifo dir).programSize dir

/-- Puts everything of a batch in place but the last id in the controller's register. -/
def stage (ring : Ring) (m : Machine σ) (dir : Direction) (start : BatchPlace)
    (entries : List Entry) : Ring × Machine σ :=
  let last := lastIdOf start entries
  let m := m.record (.issue dir start entries)
  let m := if start.announce then m.mapTable dir Table.zeroFlags else m
  let m := m.mapTable dir (·.writeAll entries)
  let m := if start.announce then ring.announce m dir else m
  (ring.track dir last, { m with channel := m.channel.setIssued dir last })

def publish (ring : Ring) (m : Machine σ) (dir : Direction) (start : BatchPlace)
    (entries : List Entry) : Ring × Machine σ :=
  let staged := ring.stage m dir start entries
  (staged.1, staged.2.programLastId dir (lastIdOf start entries))

/-- Publishes like `publish`, if the table has a slot for every id. -/
def publish? (ring : Ring) (m : Machine σ) (dir : Direction) (start : BatchPlace)
    (entries : List Entry) : Option (Ring × Machine σ) :=
  if entries.all (fun e => e.id.toNat < slotCount) then some (ring.publish m dir start entries)
  else none

end Ring
end ScatterGather
