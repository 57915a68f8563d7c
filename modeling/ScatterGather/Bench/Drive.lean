import ScatterGather.Bench.Device
import ScatterGather.Worker.Basic

/-! # Driving a transfer to its end

A rig is a worker at its machine, and a device. To drive it is to serve the worker, then to let
the device run, to raise the interrupt and to serve again, until the channel is idle or the device
finds nothing to do.
-/
namespace ScatterGather.Bench

structure Setup (σ δ : Type) where
  station : Station σ
  device : δ

structure DriveLog where
  batches : List (List Entry) := []
  handled : List Nat := []
deriving DecidableEq, Repr

namespace Setup
variable {σ δ : Type} [Platform σ] [DeviceModel δ σ]

def serve (b : Setup σ δ) : Nat × Setup σ δ :=
  let served := b.station.serve
  (served.1, { b with station := served.2 })

def batch? (b : Setup σ δ) (dir : Direction) : Option (List Entry × Setup σ δ) :=
  (DeviceModel.run? b.device b.station.machine dir).map fun (entries, device, machine) =>
    (entries, { station := { b.station with machine }, device })

def interrupt (b : Setup σ δ) : Setup σ δ :=
  { b with station := b.station.mapChannel fun c => (c.interrupt 0).2 }

def rounds? : (rounds : Nat) → Setup σ δ → Option (DriveLog × Setup σ δ)
  | 0, b => some ({}, b)
  | rounds + 1, b =>
    if b.station.machine.channel.idle then some ({}, b)
    else
      match b.batch? b.station.machine.channel.direction with
      | none => none
      | some ([], b) => some ({}, b)
      | some (entries, b) =>
        let served := b.interrupt.serve
        (rounds? rounds served.2).map fun (log, b) =>
          ({ batches := entries :: log.batches, handled := served.1 :: log.handled }, b)

/-- Serves the worker, then goes through at most `rounds` rounds. -/
def drive? (rounds : Nat) (b : Setup σ δ) : Option (DriveLog × Setup σ δ) :=
  let served := b.serve
  (rounds? rounds served.2).map fun (log, b) =>
    ({ log with handled := served.1 :: log.handled }, b)

end Setup
end ScatterGather.Bench
