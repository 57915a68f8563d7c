import ScatterGather.BoundedQueue
import ScatterGather.Descriptor.Table
import ScatterGather.Settings
import ScatterGather.Waker

/-! # The channel between submitter, interrupt handler and worker

A `Channel` is the state that all three contexts reach. A submitter clears the idle flag and queues
a start. The interrupt handler queues an advance when the flag of the last issued descriptor is
set, one at a time. The worker takes both out of the queue.
-/
namespace ScatterGather

structure Request where
  direction : Direction
  host : Nat
  device : Nat
  len : Nat
deriving DecidableEq, Repr

inductive Job where
  | start (request : Request)
  | advance
deriving DecidableEq, Repr

def workDepth : Nat := 4

structure Channel where
  settings : Settings
  work : BoundedQueue Job workDepth
  /-- An advance is queued or being handled. -/
  advanceOpen : Bool
  waker : WakerSlot
  idle : Bool
  finished : Bool
  direction : Direction
  /-- The last id issued, where the interrupt handler looks for it. -/
  issued : Sides Nat
  payload : UInt32
  /-- Host pages locked by the driver. The count wraps at 64 bits. -/
  pagesLocked : UInt64
  tables : Sides Table

namespace Channel

def ofSettings (settings : Settings) : Channel where
  settings
  work := .empty
  advanceOpen := false
  waker := {}
  idle := true
  finished := false
  direction := .deviceToHost
  issued := .both noId
  payload := settings.payload
  pagesLocked := 0
  tables := .both .blank

def table (c : Channel) (dir : Direction) : Table := c.tables.get dir

def setTable (c : Channel) (dir : Direction) (t : Table) : Channel :=
  { c with tables := c.tables.set dir t }

def setIssued (c : Channel) (dir : Direction) (id : Nat) : Channel :=
  { c with issued := c.issued.set dir id }

def wake (c : Channel) : Channel := { c with waker := c.waker.wake }

def workWaiting (c : Channel) : Bool := !c.work.isEmpty

/-- Queues a transfer, or says why it is refused. The refusal is looked for in the order finished,
length, address, transfer in progress. -/
def submit (c : Channel) (request : Request) : Option Failure × Channel :=
  if c.finished then (some (.settings .finished), c)
  else if request.len % wordBytes ≠ 0 then (some (.request .unalignedLength), c)
  else if request.host % wordBytes ≠ 0 then (some (.request .unalignedAddress), c)
  else if !c.idle then (some (.request .transferInProgress), c)
  else
    let c := { c with direction := request.direction }
    if c.work.isFull then (some (.request .queueFull), c)
    else (none, { c with idle := false, work := c.work.push (.start request) }.wake)

def takeWork (c : Channel) : Option Job × Channel :=
  let popped := c.work.pop
  (popped.1, { c with work := popped.2 })

def completed (c : Channel) : Bool :=
  let id := c.issued.get c.direction
  id != noId && ((c.table c.direction).flag? id).any (· != 0)

/-- Queues an advance, unless one is pending or the queue is full. Answers whether it did. -/
def requestAdvance (c : Channel) : Bool × Channel :=
  if c.advanceOpen || c.work.isFull then (false, c)
  else (true, { c with advanceOpen := true, work := c.work.push .advance })

/-- Closes the advance that was handled. A completion that arrived meanwhile was not queued, so the
flag is looked at once more. -/
def closeAdvance (c : Channel) : Channel :=
  let c := { c with advanceOpen := false }
  if !c.idle && c.completed then c.requestAdvance.2 else c

def dropWork (c : Channel) : Channel := { c with work := c.work.clear, advanceOpen := false }

def settle (c : Channel) : Channel := { c with issued := .both noId, idle := true }

end Channel
end ScatterGather
