import ScatterGather.Memory.Page

/-! # Bytes of host and device

Host buffers lie at chosen offsets inside their first page, each on pages of its own, so that every
host address belongs to at most one buffer.
-/
namespace ScatterGather.Bench

abbrev Bytes := Array UInt8

namespace Bytes

def slice? (b : Bytes) (start len : Nat) : Option (List UInt8) :=
  if start + len ≤ b.size then some (b.extract start (start + len)).toList else none

def store (b : Bytes) (start : Nat) : List UInt8 → Bytes
  | [] => b
  | x :: xs => store (b.setIfInBounds start x) (start + 1) xs

def store? (b : Bytes) (start : Nat) (xs : List UInt8) : Option Bytes :=
  if start + xs.length ≤ b.size then some (store b start xs) else none

end Bytes

def bufferPattern (i : Nat) : UInt8 := UInt8.ofNat ((i * 7) ^^^ (i >>> 8))

def devicePattern (seed : UInt8) (i : Nat) : UInt8 :=
  let run : UInt8 := UInt8.ofNat i * 31 + seed
  run ^^^ UInt8.ofNat (i >>> 12)

structure Buffer where
  base : Nat
  offsetInPage : Nat
  len : Nat
  /-- All bytes from `base` on: those before the buffer, its own, and a page behind it. -/
  storage : Bytes

namespace Buffer

def pageBytes : Nat := 4096

def place (base offsetInPage len : Nat) (byte : Nat → UInt8) : Buffer where
  base
  offsetInPage
  len
  storage := Array.ofFn (n := offsetInPage + len + pageBytes) fun i =>
    if offsetInPage ≤ i.val ∧ i.val < offsetInPage + len then byte (i.val - offsetInPage) else 0

def address (b : Buffer) : Nat := b.base + b.offsetInPage

def data (b : Buffer) : List UInt8 :=
  (b.storage.extract b.offsetInPage (b.offsetInPage + b.len)).toList

def limit (b : Buffer) : Nat := b.base + b.storage.size

def Holds (b : Buffer) (address : Nat) : Prop := b.base ≤ address ∧ address < b.limit

instance (b : Buffer) (address : Nat) : Decidable (b.Holds address) :=
  inferInstanceAs (Decidable (_ ∧ _))

end Buffer

/-- Host memory as far as there are buffers, in the order of their addresses. -/
structure HostMemory where
  buffers : Array Buffer := #[]

namespace HostMemory

def nextBase (m : HostMemory) : Nat :=
  match m.buffers.back? with
  | none => 0x100000
  | some b => (b.limit / Buffer.pageBytes + 1) * Buffer.pageBytes

def add (m : HostMemory) (offsetInPage len : Nat) (byte : Nat → UInt8) : HostMemory :=
  ⟨m.buffers.push (.place m.nextBase offsetInPage len byte)⟩

def locate? (m : HostMemory) (address : Nat) : Option (Nat × Nat) := do
  let i ← m.buffers.findIdx? fun b => decide (b.Holds address)
  let b ← m.buffers[i]?
  return (i, address - b.base)

/-- Reads bytes that lie inside one buffer. No bytes can be read anywhere. -/
def load? (m : HostMemory) (address len : Nat) : Option (List UInt8) :=
  if len = 0 then some []
  else do
    let (i, start) ← m.locate? address
    let b ← m.buffers[i]?
    Bytes.slice? b.storage start len

/-- Writes bytes that fit into one buffer. No bytes can be written anywhere. -/
def store? (m : HostMemory) (address : Nat) (xs : List UInt8) : Option HostMemory :=
  if xs.isEmpty then some m
  else do
    let (i, start) ← m.locate? address
    let b ← m.buffers[i]?
    let storage ← Bytes.store? b.storage start xs
    return ⟨m.buffers.setIfInBounds i { b with storage }⟩

end HostMemory
end ScatterGather.Bench
