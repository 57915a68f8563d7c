import ScatterGather.Worker.Task

/-! # Several workers on one channel

The workers that were created for one channel share its machine. Each of them is called directly, or
runs as a task. A task has its worker to itself until it is dropped, also when it has ended.
-/
namespace ScatterGather

/-- A worker, and the task that has it, if there is one. -/
structure Member where
  worker : Worker
  task : Option TaskState := none
deriving DecidableEq, Repr

namespace Member
variable {σ : Type}

def station (m : Member) (machine : Machine σ) : Station σ := { worker := m.worker, machine }

/-- A call does not reach a worker that a task has. -/
def call (f : Station σ → Station σ) (m : Member) (machine : Machine σ) : Member × Machine σ :=
  match m.task with
  | none =>
    let s := f (m.station machine)
    ({ m with worker := s.worker }, s.machine)
  | some _ => (m, machine)

def poll [Platform σ] (waker : Nat) (m : Member) (machine : Machine σ) : Member × Machine σ :=
  match m.task with
  | none => (m, machine)
  | some state =>
    let polled := (m.station machine).poll waker state
    ({ worker := polled.2.worker, task := some polled.1 }, polled.2.machine)

def spawn (m : Member) : Member := { m with task := m.task.or (some .fresh) }

def drop (m : Member) : Member := { m with task := none }

end Member

structure Crew (σ : Type) where
  members : List Member := []
  machine : Machine σ

/-- What happens to a crew, whose members go by number. -/
inductive CrewAct where
  | strike (incident : Incident)
  | setPayload (payload : UInt32)
  /-- Someone who has no worker looks for work, and leaves a waker behind if there is none. -/
  | look (waker : Nat)
  | create (tableBus : Sides Nat)
  | serve (i : Nat)
  | stop (i : Nat)
  | finish (i : Nat)
  | spawn (i : Nat)
  | poll (i waker : Nat)
  | drop (i : Nat)
deriving DecidableEq, Repr

namespace Crew
variable {σ : Type}

def initial (settings : Settings) (registers : RegisterFile) (platform : σ)
    (listener : List (List Incident)) : Crew σ where
  machine := { Machine.initial settings platform listener with registers }

def channel (c : Crew σ) : Channel := c.machine.channel

def mapChannel (c : Crew σ) (f : Channel → Channel) : Crew σ :=
  { c with machine := { c.machine with channel := f c.machine.channel } }

/-- The task that has the member's worker. -/
def task? (c : Crew σ) (i : Nat) : Option TaskState := c.members[i]?.bind Member.task

/-- A member does something at the machine. -/
def meet (c : Crew σ) (i : Nat) (f : Member → Machine σ → Member × Machine σ) : Crew σ :=
  match c.members[i]? with
  | none => c
  | some m =>
    let met := f m c.machine
    { members := c.members.set i met.1, machine := met.2 }

/-- A worker joins, unless the settings are faulty or the channel is finished. -/
def create (c : Crew σ) (tableBus : Sides Nat) : Except SettingsFault (Crew σ) :=
  (Worker.create c.channel tableBus).map fun worker =>
    { c with members := c.members ++ [{ worker }] }

variable [Platform σ]

def act (c : Crew σ) : CrewAct → Crew σ
  | .strike incident => { c with machine := c.machine.incur incident }
  | .setPayload payload => c.mapChannel ({ · with payload })
  | .look waker => c.mapChannel fun channel => (channel.pollWork waker).2
  | .create tableBus => (c.create tableBus).toOption.getD c
  | .serve i => c.meet i (Member.call fun s => s.serve.2)
  | .stop i => c.meet i (Member.call Station.stop)
  | .finish i => c.meet i (Member.call Station.finish)
  | .spawn i => c.meet i fun m machine => (m.spawn, machine)
  | .poll i waker => c.meet i (Member.poll waker)
  | .drop i => c.meet i fun m machine => (m.drop, machine)

def run (c : Crew σ) (acts : List CrewAct) : Crew σ := acts.foldl act c

end Crew
end ScatterGather
