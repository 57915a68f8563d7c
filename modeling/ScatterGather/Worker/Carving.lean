import ScatterGather.Descriptor.Chunks
import ScatterGather.Machine

/-! # Carving a batch from a window

A batch is cut from the bytes at the cursor: chunks up to the end of the page if the cursor stands
inside a page or less than a page is left, whole pages otherwise. The ring's free slots bound it.
-/
namespace ScatterGather.Window

def pieces (w : Window) (settings : Settings) (capacity : Nat) : Except BatchFault (List Nat) :=
  let page := settings.pageSize
  let inPage := w.offsetInPage page
  if inPage ≠ 0 ∨ w.left < page then
    chunkPlan (min (page - inPage) w.left) capacity page settings.chunkLog
  else .ok (List.replicate (min (w.left / page) capacity) page)

/-- The descriptors of consecutive pieces: the first one begins `offset` bytes past the cursor, at
the device address `device + offset`, and takes the given id. -/
def describe (w : Window) (dir : Direction) (device : Nat) :
    List Nat → (id offset : Nat) → Except MemoryFault (List Entry)
  | [], _, _ => .ok []
  | len :: rest, id, offset =>
    match w.busAt? offset with
    | none => .error .invalidRange
    | some bus =>
      match w.describe dir device rest (id + 1) (offset + len) with
      | .error e => .error e
      | .ok entries => .ok (.moving dir bus (device + offset) len id :: entries)

def carve (w : Window) (settings : Settings) (dir : Direction) (device : Nat) (start : BatchPlace) :
    Except Failure (List Entry) :=
  match w.pieces settings start.capacity with
  | .error e => .error (.batch e)
  | .ok lens =>
    match w.describe dir device lens start.id 0 with
    | .error e => .error (.memory e)
    | .ok entries => .ok entries

end ScatterGather.Window
