import ScatterGather.Geometry

/-! # Host pages

A range of whole pages is what the operating system is asked to lock; locked pages come back with
the addresses at which the controller reaches them.
-/
namespace ScatterGather

structure Page where
  host : Nat
  bus : Nat
deriving DecidableEq, Repr

/-- The number of pages that the bytes from `start` on meet, `len` of them. -/
def pagesMet (start len pageSize : Nat) : Nat :=
  if len = 0 then 0 else (start + len + pageSize - 1) / pageSize - start / pageSize

/-- The count of pages, which nonempty ranges have only for nonempty pages. -/
def pagesMet? (start len pageSize : Nat) : Option Nat :=
  if len ≠ 0 ∧ pageSize = 0 then none else some (pagesMet start len pageSize)

structure PageRun where
  base : Nat
  pages : Nat
  pageSize : Nat
deriving DecidableEq, Repr

namespace PageRun

def covering (start len pageSize : Nat) : PageRun :=
  { base := start - start % pageSize, pages := pagesMet start len pageSize, pageSize }

def addresses (r : PageRun) : List Nat := (List.range r.pages).map fun i => r.base + i * r.pageSize

end PageRun
end ScatterGather
