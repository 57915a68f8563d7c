import ScatterGather.Machine

/-! # Meters

Small observers: a delay that adds up the time asked for, a listener that keeps what it hears, and
wakers that count.
-/
namespace ScatterGather.Bench

structure Stopwatch where
  total : Nat := 0
deriving DecidableEq, Repr

namespace Stopwatch

def nanoseconds (s : Stopwatch) (n : Nat) : Stopwatch := ⟨s.total + n⟩

def microseconds (s : Stopwatch) (n : Nat) : Stopwatch := s.nanoseconds (n * 1000)

def milliseconds (s : Stopwatch) (n : Nat) : Stopwatch := s.nanoseconds (n * 1000000)

end Stopwatch

abbrev Notice := UInt32 × Outcome

structure Recorder where
  notices : List Notice := []
deriving DecidableEq, Repr

namespace Recorder

def hear (r : Recorder) (notice : Notice) : Recorder := ⟨r.notices ++ [notice]⟩

def last? (r : Recorder) : Option Notice := r.notices.getLast?

def ofHistory (history : List Event) : Recorder :=
  ⟨history.reverse.filterMap fun
    | .notify payload outcome => some (payload, outcome)
    | _ => none⟩

theorem ofHistory_notify (payload : UInt32) (outcome : Outcome) (history : List Event) :
    (ofHistory (.notify payload outcome :: history)).notices =
      (ofHistory history).notices ++ [(payload, outcome)] := by
  simp [ofHistory]

theorem ofHistory_cons {e : Event} (he : ∀ payload outcome, e ≠ .notify payload outcome)
    (history : List Event) : ofHistory (e :: history) = ofHistory history := by
  cases e with
  | notify payload outcome => exact absurd rfl (he payload outcome)
  | _ => simp [ofHistory]

end Recorder

/-- Wakers that count together. A waker is live until it is used up by waking or dropped. -/
structure WakeTally where
  count : Nat := 0
  live : List Bool := [true]
deriving DecidableEq, Repr

namespace WakeTally

def add (w : WakeTally) : WakeTally := { w with live := w.live ++ [true] }

def wakeByRef (w : WakeTally) : WakeTally := { w with count := w.count + 1 }

def drop (w : WakeTally) (i : Nat) : WakeTally := { w with live := w.live.set i false }

def wake (w : WakeTally) (i : Nat) : WakeTally := (w.drop i).wakeByRef

end WakeTally
end ScatterGather.Bench
