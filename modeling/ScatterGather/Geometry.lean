/-! # Fixed sizes of the controller interface

Numbers that the controller, and not the user, decides: the slots of a ring, the words of a
descriptor and of a table, and the width of an address.
-/
namespace ScatterGather

/-- Bytes in a word. Every length, address and descriptor is a whole number of words. -/
def wordBytes : Nat := 4

def slotCount : Nat := 128

def lastSlot : Nat := slotCount - 1

/-- The id that stands for "no descriptor since reset". -/
def noId : Nat := 0xFF

def wordsPerEntry : Nat := 8

def wordsPerTable : Nat := slotCount + slotCount * wordsPerEntry

def bytesPerTable : Nat := wordsPerTable * wordBytes

/-- Host and bus addresses are below this bound. -/
def addressLimit : Nat := 0x10000000000000000

def lowWord (n : Nat) : UInt32 := UInt32.ofNat n

def highWord (n : Nat) : UInt32 := UInt32.ofNat (n >>> 32)

end ScatterGather
