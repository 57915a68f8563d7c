import ScatterGather.Machine

/-! # A page locker that counts

Nothing is locked in earnest. The locker keeps account of how often each page is locked, and a page
has the same address on the bus as in host memory.
-/
namespace ScatterGather.Bench

structure PageTally where
  /-- The locked pages by host address, one entry for each time a page is locked. -/
  held : List Nat := []
  limit : Option Nat := none
  /-- The lock call that gets no page, the first call being number one. -/
  emptyCall : Option Nat := none
  calls : Nat := 0
  unlocks : Nat := 0
  dirtied : List Nat := []
deriving DecidableEq, Repr

namespace PageTally

def outstanding (h : PageTally) : Nat := h.held.length

def grant (h : PageTally) (pages : Nat) : Nat :=
  if h.emptyCall = some (h.calls + 1) then 0
  else
    match h.limit with
    | none => pages
    | some limit => min pages (limit - h.outstanding)

def lock (h : PageTally) (range : PageRun) : List Page × PageTally :=
  let addresses := ({ range with pages := h.grant range.pages } : PageRun).addresses
  (addresses.map fun a => { host := a, bus := a },
    { h with calls := h.calls + 1, held := addresses ++ h.held })

/-- The pages left after each of `pages` was given back once, if all of them are held. -/
def giveBack? (held : List Nat) : (pages : List Page) → Option (List Nat)
  | [] => some held
  | p :: rest => if p.host ∈ held then giveBack? (held.erase p.host) rest else none

def unlock? (h : PageTally) (pages : List Page) (dirty : Bool) : Option PageTally :=
  (giveBack? h.held pages).map fun held =>
    { h with
      held
      unlocks := h.unlocks + 1
      dirtied := if dirty then h.dirtied ++ pages.map Page.host else h.dirtied }

/-- The driver gives back what it was handed, so a refusal to unlock cannot come up. -/
instance : Platform PageTally where
  lock h range _ := let answer := h.lock range; ⟨answer.1, [], answer.2⟩
  unlock h pages dirty := (h.unlock? pages dirty).getD h
  written h _ _ := ([], h)

end PageTally
end ScatterGather.Bench
