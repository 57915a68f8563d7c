import ScatterGather.Bench.Memory
import ScatterGather.Machine

/-! # Models of the controller

A controller takes the descriptors from the one after the last that it consumed up to the last-id
register. A new write of the table size announces the ring, and it begins at id 0 again. When it is
through it flags the last id. `RingReader` only reads the descriptors; `MemoryDevice` also moves
the bytes.
-/
namespace ScatterGather.Bench

class DeviceModel (δ σ : Type) where
  /-- Takes the new descriptors of one direction. There is no answer if one cannot be taken. -/
  run? : δ → Machine σ → Direction → Option (List Entry × δ × Machine σ)

/-- Where a controller stands in one ring. -/
structure RingPosition where
  announces : Nat := 0
  consumed : Option Nat := none
deriving DecidableEq, Repr

def RingPosition.first? (p : RingPosition) (announces last : Nat) : Option Nat :=
  if announces ≠ p.announces then some 0
  else
    match p.consumed with
    | none => some 0
    | some consumed => if consumed < last then some (consumed + 1) else none

structure RingReader where
  positions : Sides RingPosition := .both {}
deriving DecidableEq, Repr

namespace RingReader
variable {σ : Type}

def take? (r : RingReader) (registers : RegisterFile) (dir : Direction) :
    Option (List Nat × RingReader) :=
  let last := registers.lastId dir
  if lastSlot < last then none
  else
    let announces := registers.writeCount (Register.address dir .tableSize)
    ((r.positions.get dir).first? announces last).map fun first =>
      (List.range' first (last + 1 - first),
        ⟨r.positions.set dir { announces, consumed := some last }⟩)

def flagLast (m : Machine σ) (dir : Direction) : Machine σ := m.incur (.complete dir)

instance : DeviceModel RingReader σ where
  run? r m dir :=
    match r.take? m.registers dir with
    | none => some ([], r, m)
    | some (ids, r) => some (ids.map (m.channel.table dir).entry, r, flagLast m dir)

end RingReader

/-- A controller with memory of its own, and the host memory it reaches. -/
structure MemoryDevice where
  reader : RingReader := {}
  memory : Bytes
  host : HostMemory := {}

namespace MemoryDevice
variable {σ : Type}

def ofSize (bytes : Nat) : MemoryDevice := { memory := Array.replicate bytes 0 }

def fill (d : MemoryDevice) (seed : UInt8) : MemoryDevice :=
  { d with memory := Array.ofFn (n := d.memory.size) fun i => devicePattern seed i.val }

def execute? (d : MemoryDevice) (dir : Direction) (e : Entry) : Option MemoryDevice :=
  match dir with
  | .deviceToHost => do
    let bytes ← Bytes.slice? d.memory e.src.toNat e.size
    let host ← d.host.store? e.dst.toNat bytes
    return { d with host }
  | .hostToDevice => do
    let bytes ← d.host.load? e.src.toNat e.size
    let memory ← Bytes.store? d.memory e.dst.toNat bytes
    return { d with memory }

/-- Executes the descriptors in the given slots, each of which must hold the id of its slot. -/
def executeAll? (table : Table) (dir : Direction) :
    List Nat → MemoryDevice → Option (List Entry × MemoryDevice)
  | [], d => some ([], d)
  | id :: rest, d => do
    let e := table.entry id
    if e.id.toNat ≠ id then none
    else
      let d ← d.execute? dir e
      let (entries, d) ← executeAll? table dir rest d
      return (e :: entries, d)

instance : DeviceModel MemoryDevice σ where
  run? d m dir :=
    match d.reader.take? m.registers dir with
    | none => some ([], d, m)
    | some (ids, reader) =>
      (executeAll? (m.channel.table dir) dir ids { d with reader }).map fun r =>
        (r.1, r.2, RingReader.flagLast m dir)

end MemoryDevice
end ScatterGather.Bench
