import ScatterGather.Machine

/-! # Pinning host memory

To pin a stretch of memory is to lock every page it meets. A locker that comes back short gets its
pages back at once. The channel counts the pages that are locked.
-/
namespace ScatterGather.Machine
variable {σ : Type} [Platform σ]

def countLocked (m : Machine σ) (pages : Nat) : Machine σ :=
  { m with channel := { m.channel with pagesLocked := m.channel.pagesLocked + UInt64.ofNat pages } }

def countUnlocked (m : Machine σ) (pages : Nat) : Machine σ :=
  { m with channel := { m.channel with pagesLocked := m.channel.pagesLocked - UInt64.ofNat pages } }

def Pinnable (start len : Nat) : Prop := len ≠ 0 ∧ start + len < addressLimit

instance (start len : Nat) : Decidable (Pinnable start len) := inferInstanceAs (Decidable (_ ∧ _))

def pin (m : Machine σ) (pageSize start len : Nat) (dir : Direction) :
    Except MemoryFault Region × Machine σ :=
  if Pinnable start len then
    let range := PageRun.covering start len pageSize
    let answer := m.lock range dir.writesHost
    if answer.1.length < range.pages then
      (.error (.partialLock range.pages answer.1.length), answer.2.unlock answer.1 false)
    else
      (.ok { start, len, direction := dir, pageSize, pages := answer.1, valid := true },
        answer.2.countLocked range.pages)
  else (.error .invalidRange, m)

/-- Pins like `pin`. A page size of zero divides no range into pages, so there is no answer. -/
def pin? (m : Machine σ) (pageSize start len : Nat) (dir : Direction) :
    Option (Except MemoryFault Region × Machine σ) :=
  if pageSize = 0 ∧ Pinnable start len then none else some (m.pin pageSize start len dir)

def unpin (m : Machine σ) (r : Region) : Region × Machine σ :=
  if r.valid then
    (r.released, (m.unlock r.pages r.direction.writesHost).countUnlocked r.pages.length)
  else (r, m)

end ScatterGather.Machine
