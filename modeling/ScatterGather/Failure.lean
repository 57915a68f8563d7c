/-! # Causes of failure

Each part of the driver has its own causes; `Failure` is their union, and what a transfer or a
submission reports. `summary` names a cause, `message` adds its figures.
-/
namespace ScatterGather

inductive SettingsFault where
  | pageSize
  | windowSize
  | chunkSize
  | finished
deriving DecidableEq, Repr

def SettingsFault.message : SettingsFault → String
  | pageSize => "invalid page size"
  | windowSize => "invalid pipeline size"
  | chunkSize => "invalid non-aligned chunk size"
  | finished => "engine finished"

inductive RequestFault where
  | unalignedLength
  | unalignedAddress
  | transferInProgress
  | queueFull
deriving DecidableEq, Repr

def RequestFault.message : RequestFault → String
  | unalignedLength => "length is not a multiple of 4"
  | unalignedAddress => "host address is not 4-byte aligned"
  | transferInProgress => "transfer already in progress"
  | queueFull => "work queue full"

inductive MemoryFault where
  /-- The locker gave fewer pages than the range has. -/
  | partialLock (requested locked : Nat)
  | invalidRange
deriving DecidableEq, Repr

namespace MemoryFault

def summary : MemoryFault → String
  | partialLock _ _ => "partial page lock"
  | invalidRange => "invalid address range"

def message : MemoryFault → String
  | e@(partialLock requested locked) =>
    s!"{e.summary}: {locked} of {requested} pages"
  | invalidRange => invalidRange.summary

end MemoryFault

inductive BatchFault where
  | noChunkSize
  | chunkOverflow
  | sliceTooLarge
  /-- The controller's last-id register holds no id of the ring. -/
  | unrecognizedLastId (id : Nat)
deriving DecidableEq, Repr

namespace BatchFault

def summary : BatchFault → String
  | noChunkSize => "no chunk size fits non-aligned slice"
  | chunkOverflow => "non-aligned chunk count overflow"
  | sliceTooLarge => "non-aligned slice not below page size"
  | unrecognizedLastId _ => "unrecognized last id"

def message : BatchFault → String
  | e@(unrecognizedLastId id) => s!"{e.summary} {id}"
  | e => e.summary

end BatchFault

inductive Failure where
  | settings (cause : SettingsFault)
  | request (cause : RequestFault)
  | memory (cause : MemoryFault)
  | batch (cause : BatchFault)
  | timeout
deriving DecidableEq, Repr

def Failure.message : Failure → String
  | settings cause => s!"config: {cause.message}"
  | request cause => s!"request: {cause.message}"
  | memory cause => s!"resource: {cause.message}"
  | batch cause => s!"build: {cause.message}"
  | timeout => "operation timed out"

end ScatterGather
