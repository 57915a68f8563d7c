import ScatterGather.Descriptor.Entry

/-! # Descriptor tables

A table is a flat run of words that the controller reads: a completion flag for each id, then the
slots of the descriptors. In memory each word is little-endian.
-/
namespace ScatterGather

structure Table where
  words : Vector UInt32 wordsPerTable
deriving DecidableEq

namespace Table

def blank : Table := ⟨Vector.replicate wordsPerTable 0⟩

/-- The completion flag of an id. Past the flags the words of the slots follow. -/
def flag? (t : Table) (id : Nat) : Option UInt32 := t.words[id]?

def setWord (t : Table) (index : Nat) (value : UInt32) : Table :=
  ⟨t.words.setIfInBounds index value⟩

/-- The device reports the descriptors up to `id` as done. -/
def putFlag (t : Table) (id : Nat) (value : UInt32) : Table := t.setWord id value

def HasFlag (id : Nat) : Prop := id < wordsPerTable

instance (id : Nat) : Decidable (HasFlag id) := inferInstanceAs (Decidable (_ < _))

def zeroFlags (t : Table) : Table :=
  ⟨t.words.mapIdx fun i w => if i < slotCount then 0 else w⟩

def slotBase (slot : Nat) : Nat := slotCount + slot * wordsPerEntry

/-- Stores words from `base` on; what would lie past the table is dropped. -/
def storeWords (t : Table) (base : Nat) : List UInt32 → Table
  | [] => t
  | w :: ws => (t.setWord base w).storeWords (base + 1) ws

def write (t : Table) (slot : Nat) (e : Entry) : Table := t.storeWords (slotBase slot) e.words.toList

/-- The words of a slot, zero where the table has none. -/
def slotWords (t : Table) (slot : Nat) : Vector UInt32 wordsPerEntry :=
  Vector.ofFn fun k => t.words[slotBase slot + k]?.getD 0

def entry (t : Table) (slot : Nat) : Entry := Entry.ofWords (t.slotWords slot)

def entryAt? (t : Table) (slot : Nat) : Option Entry :=
  if slot < slotCount then some (t.entry slot) else none

def writeAll (t : Table) (entries : List Entry) : Table :=
  entries.foldl (fun t e => t.write e.id.toNat e) t

def wordToBytes (w : UInt32) : List UInt8 :=
  [w.toUInt8, (w >>> 8).toUInt8, (w >>> 16).toUInt8, (w >>> 24).toUInt8]

def bytes (t : Table) : List UInt8 := t.words.toList.flatMap wordToBytes

def byteSlice? (t : Table) (start len : Nat) : Option (List UInt8) :=
  if start + len ≤ wordsPerTable * wordBytes then some ((t.bytes.drop start).take len) else none

end Table
end ScatterGather
