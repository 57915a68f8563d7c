import ScatterGather.Failure
import ScatterGather.Geometry

/-! # Settings of the driver

What the user chooses, with defaults. `validate` accepts page sizes that are powers of two of at
least one word, windows of at least one page, and chunks of at least one word below a page.
-/
namespace ScatterGather

def minChunkLog : Nat := 2

structure Settings where
  pageSize : Nat := 0x1000
  windowPages : Nat := 256
  /-- The base-two logarithm of the largest chunk of a partial page. -/
  chunkLog : Nat := 11
  pollInterval : Nat := 100
  /-- Looks at the idle flag, each followed by a delay, before a wait is given up. -/
  pollLimit : Nat := 0x1000000
  payload : UInt32 := 0
deriving DecidableEq, Repr

namespace Settings

/-- The bytes of a full window. The product has no limit here, while no machine word holds it from
`addressLimit` on. -/
def fullWindow (s : Settings) : Nat := s.windowPages * s.pageSize

/-- The first fault of the settings, looked for in the order page, window, chunk. -/
def fault? (s : Settings) : Option SettingsFault :=
  if 1 <<< s.pageSize.log2 ≠ s.pageSize then some .pageSize
  else if s.pageSize < wordBytes then some .pageSize
  else if s.windowPages = 0 then some .windowSize
  else if s.chunkLog < minChunkLog then some .chunkSize
  -- the exponent is bounded before the power is taken
  else if 64 ≤ s.chunkLog then some .chunkSize
  else if s.pageSize ≤ 1 <<< s.chunkLog then some .chunkSize
  else none

def Valid (s : Settings) : Prop := s.fault? = none

instance (s : Settings) : Decidable s.Valid := inferInstanceAs (Decidable (_ = none))

end Settings
end ScatterGather
