import ScatterGather.Settings

/-! # Waiting for the idle flag

A waiter looks at the flag, delays, and looks again, as often as the settings allow. While it
delays, anything may happen to the state it looks at.
-/
namespace ScatterGather
variable {τ : Type}

/-- Delays until the state is idle, at most `limit` times. After the last delay there is one more
look. Answers the failure, if any, and the state it ended in. -/
def pollIdle (idle : τ → Bool) (delay : τ → τ) : (limit : Nat) → τ → Option Failure × τ
  | 0, s => (if idle s then none else some .timeout, s)
  | limit + 1, s => if idle s then (none, s) else pollIdle idle delay limit (delay s)

def Settings.awaitIdle (settings : Settings) (idle : τ → Bool)
    (delay : (nanoseconds : Nat) → τ → τ) (s : τ) : Option Failure × τ :=
  pollIdle idle (delay settings.pollInterval) settings.pollLimit s

end ScatterGather
