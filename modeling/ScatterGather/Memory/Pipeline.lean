import ScatterGather.Memory.Pinning

/-! # The window pipeline

A transfer is pinned window by window. The active window is the one that batches are carved from;
the next region is pinned ahead of time; the region that was drained last stays pinned as done,
because its last batch may still be running.
-/
namespace ScatterGather

/-- The three places of a pinned region. -/
structure Pipeline where
  active : Option Window := none
  next : Option Region := none
  done : Option Region := none
deriving DecidableEq, Repr

namespace Pipeline
variable {σ : Type} [Platform σ]

def regions (p : Pipeline) : List Region :=
  p.done.toList ++ (p.active.map Window.region).toList ++ p.next.toList

def pinned (p : Pipeline) : Nat := p.regions.length

def drained (p : Pipeline) : Bool := p.active.all fun w => w.left = 0

def needsFresh (p : Pipeline) : Bool := p.drained && p.next.isNone

def unpinDone (p : Pipeline) (m : Machine σ) : Pipeline × Machine σ :=
  match p.done with
  | some r => ({ p with done := none }, (m.unpin r).2)
  | none => (p, m)

def unpinAll (p : Pipeline) (m : Machine σ) : Pipeline × Machine σ :=
  let m := (p.unpinDone m).2
  let m := match p.active with
    | some w => (m.unpin w.region).2
    | none => m
  let m := match p.next with
    | some r => (m.unpin r).2
    | none => m
  ({}, m)

/-- Retires the active window and puts the next region, or a fresh one, in its place. Without a
fresh one no window is active, and the drained region stays in place as done. -/
def rotate (p : Pipeline) (m : Machine σ)
    (fresh : Machine σ → Except MemoryFault Region × Machine σ) :
    Except MemoryFault Window × Pipeline × Machine σ :=
  let m := (p.unpinDone m).2
  let p := { p with done := p.active.map Window.region, active := none }
  match p.next with
  | some r => (.ok { region := r }, { p with active := some { region := r }, next := none }, m)
  | none =>
    match fresh m with
    | (.ok r, m) => (.ok { region := r }, { p with active := some { region := r } }, m)
    | (.error e, m) => (.error e, p, m)

/-- A window with bytes left: the active one, or what rotation brings. -/
def supply (p : Pipeline) (m : Machine σ)
    (fresh : Machine σ → Except MemoryFault Region × Machine σ) :
    Except MemoryFault Window × Pipeline × Machine σ :=
  match p.active with
  | some w => if w.left = 0 then p.rotate m fresh else (.ok w, p, m)
  | none => p.rotate m fresh

def consume (p : Pipeline) (bytes : Nat) : Pipeline :=
  { p with active := p.active.map (·.consume bytes) }

def keepNext (p : Pipeline) (r : Region) : Pipeline := { p with next := some r }

end Pipeline
end ScatterGather
