import ScatterGather.Channel.Basic

/-! # Interrupts

The board raises one interrupt for the user's kernels and for the controller. The status word tells
the kernels' part; whether a batch is done is read off the completion flag of its last id.
-/
namespace ScatterGather

def kernelDoneBit : UInt32 := 1

/-- The payload bit that marks a completion as one of the controller. -/
def transferDoneBit : UInt32 := 1

structure InterruptReport where
  kernelDone : Bool := false
  batchDone : Bool := false
  advanceQueued : Bool := false
deriving DecidableEq, Repr

namespace Channel

/-- Handles one interrupt. The waiting task is woken when an advance was queued, and only then. -/
def interrupt (c : Channel) (status : UInt32) : InterruptReport × Channel :=
  let kernelDone := status &&& kernelDoneBit != 0
  if !c.idle && c.completed then
    let queued := c.requestAdvance
    ({ kernelDone, batchDone := true, advanceQueued := queued.1 },
      if queued.1 then queued.2.wake else queued.2)
  else ({ kernelDone }, c)

def payloadForKernel (c : Channel) : UInt32 := c.payload &&& ~~~transferDoneBit

def payloadForTransfer (c : Channel) : UInt32 := c.payload ||| transferDoneBit

end Channel
end ScatterGather
