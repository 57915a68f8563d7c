import ScatterGather.Direction
import ScatterGather.Geometry

/-! # Descriptors

One descriptor moves one run of words between a bus address and a device address. In the table it
takes eight words: both addresses as low and high halves, a control word that packs the length in
words below the id, and three words that stay zero.
-/
namespace ScatterGather

structure Entry where
  src : UInt64
  dst : UInt64
  length : UInt32
  id : UInt32
deriving DecidableEq, Repr

namespace Entry

def idShift : UInt32 := 18

def lengthMask : UInt32 := (1 <<< idShift) - 1

def idMask : UInt32 := UInt32.ofNat lastSlot

def moving (dir : Direction) (host device len id : Nat) : Entry :=
  let ends := match dir with
    | .deviceToHost => (device, host)
    | .hostToDevice => (host, device)
  { src := UInt64.ofNat ends.1
    dst := UInt64.ofNat ends.2
    length := UInt32.ofNat (len / wordBytes)
    id := UInt32.ofNat id }

def size (e : Entry) : Nat := e.length.toNat * wordBytes

def total : List Entry → Nat
  | [] => 0
  | e :: rest => e.size + total rest

@[simp] theorem total_nil : total [] = 0 := rfl

@[simp] theorem total_cons (e : Entry) (rest : List Entry) : total (e :: rest) = e.size + total rest :=
  rfl

theorem total_append (entries rest : List Entry) :
    total (entries ++ rest) = total entries + total rest := by
  induction entries with
  | nil => exact (Nat.zero_add _).symm
  | cons e entries ih => rw [List.cons_append, total_cons, total_cons, ih, Nat.add_assoc]

/-- The control word. Bits of the length and of the id that do not fit are dropped. -/
def control (e : Entry) : UInt32 := (e.length &&& lengthMask) ||| ((e.id &&& idMask) <<< idShift)

def words (e : Entry) : Vector UInt32 wordsPerEntry :=
  #v[e.src.toUInt32, (e.src >>> 32).toUInt32, e.dst.toUInt32, (e.dst >>> 32).toUInt32,
    e.control, 0, 0, 0]

def joinHalves (low high : UInt32) : UInt64 := (high.toUInt64 <<< 32) ||| low.toUInt64

/-- The descriptor that table words stand for. The last three words are not looked at. -/
def ofWords (w : Vector UInt32 wordsPerEntry) : Entry :=
  { src := joinHalves w[0] w[1]
    dst := joinHalves w[2] w[3]
    length := w[4] &&& lengthMask
    id := (w[4] >>> idShift) &&& idMask }

end Entry
end ScatterGather
