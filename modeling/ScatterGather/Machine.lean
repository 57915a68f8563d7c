import ScatterGather.Channel.Interrupt
import ScatterGather.Memory.Region
import ScatterGather.Registers

/-! # The machine around the worker

A `Machine` is everything the worker acts on: the channel, the controller's registers, the platform
that locks pages, the listener that hears of completions, and the history of all that was seen from
outside. The worker is interrupted while it acts: an incident can strike while pages are locked,
right after a register write, and when the listener is notified.
-/
namespace ScatterGather

inductive Incident where
  | complete (dir : Direction)
  /-- A flag is stored by someone else. -/
  | flag (dir : Direction) (id : Nat) (value : UInt32)
  | interrupt (status : UInt32)
  | submit (request : Request)
deriving DecidableEq, Repr

inductive Outcome where
  | completed (bytes : Nat)
  | failed (cause : Failure)
deriving DecidableEq, Repr

structure BatchPlace where
  id : Nat
  /-- The ring begins anew: its registers are programmed and its flags are zeroed. -/
  announce : Bool
deriving DecidableEq, Repr

def BatchPlace.capacity (s : BatchPlace) : Nat := slotCount - s.id

inductive Event where
  | read (offset : Nat) (value : UInt32)
  | write (offset : Nat) (value : UInt32)
  | lock (range : PageRun) (writable : Bool) (pages : List Page)
  | unlock (pages : List Page) (dirty : Bool)
  /-- A batch is handed to the ring, before the first of its register writes. -/
  | issue (dir : Direction) (start : BatchPlace) (entries : List Entry)
  | notify (payload : UInt32) (outcome : Outcome)
  | complete (dir : Direction) (id : Nat)
  | flag (dir : Direction) (id : Nat) (value : UInt32)
  | interrupt (status : UInt32) (report : InterruptReport)
  /-- A submission, with the cause of its refusal or `none`. -/
  | submit (request : Request) (refusal : Option Failure)
deriving DecidableEq, Repr

structure LockAnswer (σ : Type) where
  pages : List Page
  incidents : List Incident
  platform : σ

/-- A platform in state `σ`: it locks and unlocks host pages, and the device reacts to writes. -/
class Platform (σ : Type) where
  lock : σ → PageRun → (writable : Bool) → LockAnswer σ
  unlock : σ → List Page → (dirty : Bool) → σ
  /-- What happens right after a register was written. -/
  written : σ → (offset : Nat) → (value : UInt32) → List Incident × σ

structure Machine (σ : Type) where
  channel : Channel
  registers : RegisterFile
  platform : σ
  /-- What the listener does at its next notifications, in order; after that, nothing. -/
  listener : List (List Incident) := []
  /-- All events so far, the latest first. -/
  history : List Event := []

namespace Machine
variable {σ : Type}

def initial (settings : Settings) (platform : σ) (listener : List (List Incident) := []) : Machine σ :=
  { channel := .ofSettings settings, registers := .reset, platform, listener }

def record (m : Machine σ) (e : Event) : Machine σ := { m with history := e :: m.history }

def mapTable (m : Machine σ) (dir : Direction) (f : Table → Table) : Machine σ :=
  { m with channel := m.channel.setTable dir (f (m.channel.table dir)) }

/-- One incident strikes. The device flags nothing while its register holds no id of the ring. -/
def incur (m : Machine σ) : Incident → Machine σ
  | .complete dir =>
    let id := m.registers.lastId dir
    if id ≤ lastSlot then (m.mapTable dir (·.putFlag id 1)).record (.complete dir id) else m
  | .flag dir id value => (m.mapTable dir (·.putFlag id value)).record (.flag dir id value)
  | .interrupt status =>
    let handled := m.channel.interrupt status
    { m with channel := handled.2 }.record (.interrupt status handled.1)
  | .submit request =>
    let answer := m.channel.submit request
    { m with channel := answer.2 }.record (.submit request answer.1)

def incurAll (m : Machine σ) (incidents : List Incident) : Machine σ := incidents.foldl incur m

def readAt (m : Machine σ) (offset : Nat) : UInt32 × Machine σ :=
  let value := m.registers.read offset
  (value, m.record (.read offset value))

def readRegister (m : Machine σ) (dir : Direction) (r : Register) : UInt32 × Machine σ :=
  m.readAt (r.address dir)

def writeAt [Platform σ] (m : Machine σ) (offset : Nat) (value : UInt32) : Machine σ :=
  let reaction := Platform.written m.platform offset value
  let m := { m with registers := m.registers.write offset value, platform := reaction.2 }
  (m.record (.write offset value)).incurAll reaction.1

def writeRegister [Platform σ] (m : Machine σ) (dir : Direction) (r : Register) (value : UInt32) :
    Machine σ := m.writeAt (r.address dir) value

def writeHalves [Platform σ] (m : Machine σ) (dir : Direction) (low high : Register) (value : Nat) :
    Machine σ :=
  (m.writeRegister dir low (lowWord value)).writeRegister dir high (highWord value)

def programTable [Platform σ] (m : Machine σ) (dir : Direction) (bus : Nat) : Machine σ :=
  m.writeHalves dir .tableLow .tableHigh bus

def programFifo [Platform σ] (m : Machine σ) (dir : Direction) : Machine σ :=
  m.writeHalves dir .fifoLow .fifoHigh (fifoBase dir)

def programSize [Platform σ] (m : Machine σ) (dir : Direction) : Machine σ :=
  m.writeRegister dir .tableSize (UInt32.ofNat lastSlot)

def programLastId [Platform σ] (m : Machine σ) (dir : Direction) (id : Nat) : Machine σ :=
  m.writeRegister dir .lastId (UInt32.ofNat id)

def lock [Platform σ] (m : Machine σ) (range : PageRun) (writable : Bool) :
    List Page × Machine σ :=
  let answer := Platform.lock m.platform range writable
  let m := { m with platform := answer.platform }.record (.lock range writable answer.pages)
  (answer.pages, m.incurAll answer.incidents)

def unlock [Platform σ] (m : Machine σ) (pages : List Page) (dirty : Bool) : Machine σ :=
  { m with platform := Platform.unlock m.platform pages dirty }.record (.unlock pages dirty)

def notify (m : Machine σ) (outcome : Outcome) : Machine σ :=
  let m := m.record (.notify m.channel.payloadForTransfer outcome)
  match m.listener with
  | [] => m
  | reaction :: rest => { m with listener := rest }.incurAll reaction

end Machine
end ScatterGather
