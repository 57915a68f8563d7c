import ScatterGather.Worker.Run

/-! # The worker as a task

Under an executor the worker is a task that runs when it is polled. It serves the queue and then
leaves its waker in the channel. Whether the channel is finished is looked at before it waits, and
not while it waits.
-/
namespace ScatterGather

def Channel.pollWork (c : Channel) (task : Nat) : Bool × Channel :=
  if c.workWaiting then (true, c) else (false, { c with waker := c.waker.register task })

inductive TaskState where
  | fresh
  | waiting
  | done
deriving DecidableEq, Repr

namespace Station
variable {σ : Type} [Platform σ]

/-- Waits for work, and serves it if there is some. The queue is empty then, so the task ends or
waits again. -/
def awaitWork (s : Station σ) (task : Nat) : TaskState × Station σ :=
  let found := s.machine.channel.pollWork task
  let s := s.mapChannel fun _ => found.2
  if found.1 then
    let s := s.serve.2
    if s.machine.channel.finished then (.done, s)
    else (.waiting, s.mapChannel fun c => (c.pollWork task).2)
  else (.waiting, s)

def poll (s : Station σ) (task : Nat) : TaskState → TaskState × Station σ
  | .fresh => if s.machine.channel.finished then (.done, s) else s.awaitWork task
  | .waiting => s.awaitWork task
  | .done => (.done, s)

end Station

/-- What happens to a task: something strikes while it waits, or it is polled. -/
inductive TaskAct where
  | strike (incident : Incident)
  | poll
deriving DecidableEq, Repr

/-- The call that is made where there is no task that could be polled. -/
def TaskAct.direct : TaskAct → Act
  | strike incident => .strike incident
  | poll => .serve

/-- A worker that runs as the task `id`. -/
structure WorkerTask (σ : Type) where
  id : Nat
  state : TaskState := .fresh
  station : Station σ

namespace WorkerTask
variable {σ : Type} [Platform σ]

def act (t : WorkerTask σ) : TaskAct → WorkerTask σ
  | .strike incident => { t with station := t.station.strike incident }
  | .poll =>
    let polled := t.station.poll t.id t.state
    { t with state := polled.1, station := polled.2 }

def run (t : WorkerTask σ) (acts : List TaskAct) : WorkerTask σ := acts.foldl act t

end WorkerTask
end ScatterGather
