import ScatterGather.Memory.Pipeline
import ScatterGather.Ring
import ScatterGather.Worker.Carving

/-! # The worker

The worker drives one transfer at a time. It takes jobs from the channel: a start begins a
transfer, an advance says that the last batch is done. Either one issues the next batch, or ends
the transfer when every byte was described. Whatever ends a transfer unpins all memory and makes
the channel idle before the listener is told.
-/
namespace ScatterGather

inductive Phase where
  | idle
  | draining
  | fault
  | finished
deriving DecidableEq, Repr

structure Progress where
  request : Request
  sent : Nat := 0
deriving DecidableEq, Repr

def Progress.remaining (p : Progress) : Nat := p.request.len - p.sent

structure Worker where
  ring : Ring
  pipeline : Pipeline := {}
  transfer : Option Progress := none
  phase : Phase := .idle
deriving DecidableEq, Repr

/-- A worker for a channel, unless the settings are faulty or the channel is finished. -/
def Worker.create (c : Channel) (tableBus : Sides Nat) : Except SettingsFault Worker :=
  match c.settings.fault? with
  | some e => .error e
  | none => if c.finished then .error .finished else .ok { ring := { tableBus } }

def Worker.sent (w : Worker) : Nat := (w.transfer.map Progress.sent).getD 0

structure Station (σ : Type) where
  worker : Worker
  machine : Machine σ

namespace Station
variable {σ : Type} [Platform σ]

def settings (s : Station σ) : Settings := s.machine.channel.settings

def mapChannel (s : Station σ) (f : Channel → Channel) : Station σ :=
  { s with machine := { s.machine with channel := f s.machine.channel } }

def unpinAll (s : Station σ) : Station σ :=
  let released := s.worker.pipeline.unpinAll s.machine
  { worker := { s.worker with pipeline := released.1 }, machine := released.2 }

def reset (s : Station σ) (phase : Phase) : Station σ :=
  let s := { s with worker := { s.worker with ring := s.worker.ring.reset } }.unpinAll
  { s with worker := { s.worker with transfer := none, phase } }.mapChannel Channel.settle

def complete (s : Station σ) (p : Progress) : Station σ :=
  let s := s.reset .idle
  { s with machine := s.machine.notify (.completed p.request.len) }

def fail (s : Station σ) (cause : Failure) : Station σ :=
  let s := s.reset .fault
  { s with machine := s.machine.notify (.failed cause) }

/-- Pins the window that begins at byte `next` of the request, unless one is pinned ahead already
or the request ends before it. A failure does no harm: the window is pinned when it is needed. -/
def pinAhead (s : Station σ) (request : Request) (next : Nat) : Station σ :=
  if s.worker.pipeline.next.isSome ∨ request.len ≤ next then s
  else
    let len := min (request.len - next) s.settings.fullWindow
    match s.machine.pin s.settings.pageSize (request.host + next) len request.direction with
    | (.ok region, machine) =>
      { worker := { s.worker with pipeline := s.worker.pipeline.keepNext region }, machine }
    | (.error _, machine) => { s with machine }

def windowFor (s : Station σ) (p : Progress) : Except MemoryFault Window × Station σ :=
  let settings := s.settings
  let fresh (m : Machine σ) :=
    m.pin settings.pageSize (p.request.host + p.sent)
      (min p.remaining settings.fullWindow) p.request.direction
  let found := s.worker.pipeline.supply s.machine fresh
  (found.1, { worker := { s.worker with pipeline := found.2.1 }, machine := found.2.2 })

/-- Hands over descriptors that were carved from the active window, then releases the drained
region and pins the next one. -/
def hand (s : Station σ) (p : Progress) (start : BatchPlace) (entries : List Entry) : Station σ :=
  let bytes := Entry.total entries
  let pipeline := s.worker.pipeline.consume bytes
  let left := (pipeline.active.map Window.left).getD 0
  let handed := s.worker.ring.publish s.machine p.request.direction start entries
  let sent := p.sent + bytes
  let released := pipeline.unpinDone handed.2
  let worker := { s.worker with
    ring := handed.1, pipeline := released.1, transfer := some { p with sent } }
  ({ worker, machine := released.2 } : Station σ).pinAhead p.request (sent + left)

def nextBatch (s : Station σ) (p : Progress) : Option Failure × Station σ :=
  match s.worker.ring.start? p.request.direction with
  | .error e => (some (.batch e), s)
  | .ok start =>
    match s.windowFor p with
    | (.error e, s) => (some (.memory e), s)
    | (.ok w, s) =>
      match w.carve s.settings p.request.direction (p.request.device + p.sent) start with
      | .error e => (some e, s)
      | .ok entries => (none, s.hand p start entries)

def advance (s : Station σ) : Station σ :=
  match s.worker.transfer with
  | none => s
  | some p =>
    if p.remaining = 0 then s.complete p
    else
      match s.nextBatch p with
      | (some cause, s) => s.fail cause
      | (none, s) => s

def start (s : Station σ) (request : Request) : Station σ :=
  let resumed := s.worker.ring.resume s.machine request.direction
  let worker := { s.worker with
    ring := resumed.1, transfer := some { request }, phase := .draining }
  ({ worker, machine := resumed.2 } : Station σ).advance

def handle (s : Station σ) : Job → Station σ
  | .start request => s.start request
  | .advance => s.advance.mapChannel Channel.closeAdvance

def takeWork (s : Station σ) : Option Job × Station σ :=
  let popped := s.machine.channel.takeWork
  (popped.1, s.mapChannel fun _ => popped.2)

/-- Handles jobs until there are none, at most `limit` of them. Answers their number. -/
def serveUpTo : (limit : Nat) → Station σ → Nat × Station σ
  | 0, s => (0, s)
  | limit + 1, s =>
    match s.takeWork with
    | (none, s) => (0, s)
    | (some job, s) =>
      let rest := serveUpTo limit (s.handle job)
      (rest.1 + 1, rest.2)

end Station

def Request.workload (r : Request) : Nat := r.len / wordBytes + 2

def Job.workload : Job → Nat
  | start request => request.workload
  | advance => 1

def Incident.workload : Incident → Nat
  | submit request => request.workload
  | _ => 0

namespace Station
variable {σ : Type} [Platform σ]

/-- A bound on the jobs that can be handled before the queue is empty: each one ends a
transfer or describes at least a word, and only the listener brings new requests. -/
def workload (s : Station σ) : Nat :=
  (s.machine.channel.work.toList.map Job.workload).foldl (· + ·) 0 +
    (s.worker.transfer.map fun p => p.remaining / wordBytes + 1).getD 0 +
    (s.machine.listener.flatten.map Incident.workload).foldl (· + ·) 0

def serve (s : Station σ) : Nat × Station σ := s.serveUpTo s.workload

/-- Abandons the transfer, if any, and all queued work. The controller is not told. -/
def stop (s : Station σ) : Station σ :=
  let s := s.unpinAll
  let phase := if s.worker.phase = .finished then Phase.finished else .idle
  { s with worker := { s.worker with ring := s.worker.ring.reset, transfer := none, phase } }.mapChannel
    fun c => c.dropWork.settle

def finish (s : Station σ) : Station σ :=
  let s := (s.mapChannel ({ · with finished := true })).stop
  { s with worker := { s.worker with phase := .finished } }

end Station
end ScatterGather
