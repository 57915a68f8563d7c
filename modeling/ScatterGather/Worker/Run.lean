import ScatterGather.Worker.Basic

/-! # Runs of a worker

A run is a sequence of calls, with incidents between them. Incidents also strike inside a call:
while the platform locks pages, right after a last id was written, and when the listener is told.
-/
namespace ScatterGather

inductive Act where
  | strike (incident : Incident)
  | interrupt (status : UInt32)
  | serve
  | stop
  | finish
  | setPayload (payload : UInt32)
deriving DecidableEq, Repr

/-- The incidents of a world in which no one but the device stores a flag. -/
def Incident.Honest : Incident → Prop
  | flag _ _ _ => False
  | _ => True

def Act.Within (A : Incident → Prop) : Act → Prop
  | strike incident => A incident
  | _ => True

/-- The act ends the transfer in flight, if there is one. -/
def Act.Halts : Act → Prop
  | stop | finish => True
  | _ => False

structure Platform.Within (σ : Type) [Platform σ] (A : Incident → Prop) : Prop where
  lock : ∀ (x : σ) range writable, ∀ i ∈ (Platform.lock x range writable).incidents, A i
  written : ∀ (x : σ) offset value, ∀ i ∈ (Platform.written x offset value).1, A i

/-- Of all writes, only those of a last id are followed by incidents. -/
def Platform.Quiet (σ : Type) [Platform σ] : Prop :=
  ∀ (x : σ) offset value, (∀ dir, offset ≠ Register.address dir .lastId) →
    (Platform.written x offset value).1 = []

namespace Station
variable {σ : Type}

def initial (settings : Settings) (tableBus : Sides Nat) (registers : RegisterFile) (platform : σ)
    (listener : List (List Incident)) : Station σ where
  worker := { ring := { tableBus } }
  machine := { Machine.initial settings platform listener with registers }

def strike (s : Station σ) (i : Incident) : Station σ := { s with machine := s.machine.incur i }

def strikeAll (s : Station σ) (incidents : List Incident) : Station σ := incidents.foldl strike s

variable [Platform σ]

def act (s : Station σ) : Act → Station σ
  | .strike incident => s.strike incident
  | .interrupt status => s.mapChannel fun c => (c.interrupt status).2
  | .serve => s.serve.2
  | .stop => s.stop
  | .finish => s.finish
  | .setPayload payload => s.mapChannel ({ · with payload })

def run (s : Station σ) (acts : List Act) : Station σ := acts.foldl act s

/-- Whenever one of the acts halts the worker, the worker is one of `H`. -/
def HaltsOnly (H : Worker → Prop) (s : Station σ) : List Act → Prop
  | [] => True
  | a :: acts => (a.Halts → H s.worker) ∧ (s.act a).HaltsOnly H acts

end Station
end ScatterGather
