import ScatterGather.Machine

/-! # A platform by script

A platform for experiments. It can be told to lock fewer or more pages than asked for, to place the
pages anywhere on the bus, to interrupt the driver while it locks, and to have the device finish
each batch at the very write that hands it over.
-/
namespace ScatterGather.Bench

/-- What the device does at once when a last id is written. -/
inductive Echo where
  | silent
  | flag
  | interrupt
deriving DecidableEq, Repr

def Echo.incidents (dir : Direction) : Echo → List Incident
  | silent => []
  | flag => [.complete dir]
  | interrupt => [.complete dir, .interrupt 0]

structure ScriptedHost where
  limit : Option Nat := none
  /-- The number of pages to lock at given calls, the first call being number one. Of two entries
  for one call the later one counts. -/
  short : List (Nat × Nat) := []
  /-- The bus address of a page is its host address times the scale plus the offset. -/
  busScale : Nat := 1
  busOffset : Nat := 0
  echo : Echo := .silent
  interruptOnLock : Bool := false
  calls : Nat := 0
  outstanding : Nat := 0
deriving DecidableEq, Repr

namespace ScriptedHost

def maxGrant : Nat := 4096

def grant (h : ScriptedHost) (pages : Nat) : Nat :=
  let want := min ((h.short.reverse.lookup (h.calls + 1)).getD pages) maxGrant
  match h.limit with
  | none => want
  | some limit => min want (limit - h.outstanding)

def page (h : ScriptedHost) (range : PageRun) (i : Nat) : Page :=
  let host := (range.base + i * range.pageSize) % addressLimit
  { host, bus := (host * h.busScale + h.busOffset) % addressLimit }

instance : Platform ScriptedHost where
  lock h range _ :=
    let granted := h.grant range.pages
    { pages := (List.range granted).map (h.page range)
      incidents := if h.interruptOnLock then [.interrupt 0] else []
      platform := { h with calls := h.calls + 1, outstanding := h.outstanding + granted } }
  unlock h pages _ := { h with outstanding := h.outstanding - pages.length }
  written h offset value :=
    if value.toNat ≤ lastSlot then
      if offset = Register.address .hostToDevice .lastId then (h.echo.incidents .hostToDevice, h)
      else if offset = Register.address .deviceToHost .lastId then (h.echo.incidents .deviceToHost, h)
      else ([], h)
    else ([], h)

end ScriptedHost
end ScatterGather.Bench
