import ScatterGather.Direction
import ScatterGather.Memory.Page

/-! # Pinned regions and windows

A region is a stretch of host memory whose pages are locked. A window is a region with a cursor:
the bytes before it are described to the controller, the bytes after it are not.
-/
namespace ScatterGather

structure Region where
  start : Nat
  len : Nat
  direction : Direction
  pageSize : Nat
  /-- The locked pages, none once the region is unpinned. -/
  pages : List Page
  valid : Bool
deriving DecidableEq, Repr

namespace Region

def isEmpty (r : Region) : Bool := r.len = 0

def headOffset (r : Region) : Nat := r.start % r.pageSize

/-- The bytes used of a last page that is used in part, else zero. -/
def tailOffset (r : Region) : Nat := (r.start + r.len) % r.pageSize

def busAt? (r : Region) (offset : Nat) : Option Nat :=
  if r.valid ∧ offset < r.len then
    let place := r.headOffset + offset
    r.pages[place / r.pageSize]?.map fun page => page.bus + place % r.pageSize
  else none

def released (r : Region) : Region := { r with pages := [], valid := false }

end Region

structure Window where
  region : Region
  cursor : Nat := 0
deriving DecidableEq, Repr

namespace Window

def left (w : Window) : Nat := w.region.len - w.cursor

def position (w : Window) : Nat := w.region.start + w.cursor

def offsetInPage (w : Window) (pageSize : Nat) : Nat := w.position % pageSize

def busAt? (w : Window) (offset : Nat) : Option Nat := w.region.busAt? (w.cursor + offset)

def consume (w : Window) (bytes : Nat) : Window :=
  { w with cursor := min (w.cursor + bytes) w.region.len }

end Window
end ScatterGather
