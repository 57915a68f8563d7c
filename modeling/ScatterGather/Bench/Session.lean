import ScatterGather.Bench.Drive
import ScatterGather.Worker.Run

/-! # Sessions

In a session a worker and a device run side by side, in any order and for any number of transfers:
acts of the world on the worker take turns with runs of the device. What the device has executed is
kept, apart from what the worker knows of it.
-/
namespace ScatterGather.Bench

inductive Call where
  | act (act : Act)
  /-- The device takes the new descriptors of one direction. -/
  | batch (dir : Direction)
deriving DecidableEq, Repr

structure Session (σ δ : Type) extends Setup σ δ where
  /-- All descriptors that the device was through with, the first one first. -/
  executed : Sides (List Entry) := .both []

namespace Session
variable {σ δ : Type} [Platform σ] [DeviceModel δ σ]

/-- There is no answer to a call if the device finds a descriptor that it cannot execute. -/
def call? (x : Session σ δ) : Call → Option (Session σ δ)
  | .act a => some { x with station := x.station.act a }
  | .batch dir => (x.toSetup.batch? dir).map fun (entries, setup) =>
    { setup with executed := x.executed.set dir (x.executed.get dir ++ entries) }

def run? (x : Session σ δ) : List Call → Option (Session σ δ)
  | [] => some x
  | c :: calls => (x.call? c).bind fun y => y.run? calls

/-- Whenever one of the calls halts the worker, the worker is one of `T`. -/
def HaltsOnly (T : Worker → Prop) (x : Session σ δ) : List Call → Prop
  | [] => True
  | c :: calls => (∀ a, c = .act a → a.Halts → T x.station.worker) ∧
    ∀ y, x.call? c = some y → y.HaltsOnly T calls

end Session
end ScatterGather.Bench
