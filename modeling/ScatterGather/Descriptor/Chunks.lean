import ScatterGather.Failure
import ScatterGather.Geometry
import ScatterGather.Settings

/-! # Chunks of a partial page

The controller moves whole pages, and powers of two below a page. A slice below a page is cut
greedily: the largest chunk as often as it fits, then the next smaller one, down to one word, and
never more chunks than the ring has slots left. What is cut off goes into the next batch.
-/
namespace ScatterGather

/-- Cuts `left` bytes into at most `free` chunks of sizes `2 ^ (steps + 1)` down to `2 ^ 2`. With
`once` set, a size that fits more than once is an error. -/
def cutChunks (once : Bool) : (steps left free : Nat) → Except BatchFault (List Nat)
  | 0, _, _ => .ok []
  | steps + 1, left, free =>
    let log := steps + minChunkLog
    if free = 0 then .ok []
    else
      let size := 1 <<< log
      let count := left / size
      if once && 1 < count then .error .chunkOverflow
      else
        let take := min count free
        match cutChunks once steps (left - take * size) (free - take) with
        | .ok rest => .ok (List.replicate take size ++ rest)
        | .error e => .error e

/-- The chunks of a slice of `bytes` bytes, at most `capacity` of them and none above
`2 ^ maxLog`. -/
def chunkPlan (bytes capacity pageSize maxLog : Nat) : Except BatchFault (List Nat) :=
  if pageSize ≤ bytes then .error .sliceTooLarge
  else
    -- below a page of 4 KiB, chunks from 2 KiB on make every size fit at most once
    let once := decide (pageSize ≤ 4096) && decide (11 ≤ maxLog)
    match cutChunks once (maxLog + 1 - minChunkLog) bytes capacity with
    | .ok [] => .error .noChunkSize
    | result => result

end ScatterGather
