import Mathlib.Data.Nat.SuccPred
import ScatterGather.Bench.PageTally
import ScatterGather.Channel.Waiting
import ScatterGather.Worker.Crew

/-! # How often a wait looks

A wait ends with the first look that finds the channel idle, and has then delayed once for each look
before it. There is one look more than there are delays, so a channel that becomes idle during the last
delay is still found idle. The delays may do whatever they like to what is looked at.
-/
namespace ScatterGather
variable {τ : Type} {idle : τ → Bool} {delay : τ → τ} {limit : Nat} {s : τ}

/-- The first look that finds the state idle, by the number of the delays before it. -/
def firstIdle? (idle : τ → Bool) (delay : τ → τ) (limit : Nat) (s : τ) : Option Nat :=
  (List.range (limit + 1)).find? fun k => idle (delay^[k] s)

theorem firstIdle?_succ : firstIdle? idle delay (limit + 1) s =
    if idle s then some 0 else (firstIdle? idle delay limit (delay s)).map (· + 1) := by
  rw [firstIdle?, List.range_succ_eq_map, List.find?_cons, List.find?_map]
  cases h : idle s <;> simp [h, firstIdle?, Function.comp_def]

theorem firstIdle?_eq_some {k : Nat} : firstIdle? idle delay limit s = some k ↔
    k ≤ limit ∧ idle (delay^[k] s) = true ∧ ∀ j < k, idle (delay^[j] s) = false := by
  simp only [firstIdle?, List.find?_range_eq_some, List.mem_range, Nat.lt_succ_iff,
    Bool.not_eq_true']
  exact ⟨fun ⟨hk, hle, hbefore⟩ => ⟨hle, hk, hbefore⟩, fun ⟨hle, hk, hbefore⟩ => ⟨hk, hle, hbefore⟩⟩

theorem firstIdle?_eq_none : firstIdle? idle delay limit s = none ↔
    ∀ k ≤ limit, idle (delay^[k] s) = false := by
  simp only [firstIdle?, List.find?_range_eq_none, Nat.lt_succ_iff, Bool.not_eq_true']

/-- The loop is a search: it ends where the first look that succeeds is made, or after the last delay. -/
theorem pollIdle_eq : pollIdle idle delay limit s = match firstIdle? idle delay limit s with
    | some k => (none, delay^[k] s)
    | none => (some .timeout, delay^[limit] s) := by
  induction limit generalizing s with
  | zero => cases h : idle s <;> simp [pollIdle, firstIdle?, h]
  | succ limit ih =>
    rw [pollIdle, firstIdle?_succ, ih]
    cases h : idle s with
    | true => rfl
    | false => cases firstIdle? idle delay limit (delay s) <;> rfl

/-- What the looks find can be any sequence at all: the state is the number of delays so far. -/
theorem pollIdle_sequence (looks : Nat → Bool) (limit : Nat) :
    pollIdle looks Nat.succ limit 0 = match (List.range (limit + 1)).find? looks with
      | some k => (none, k)
      | none => (some .timeout, limit) := by
  simp only [pollIdle_eq, firstIdle?, Nat.succ_iterate, Nat.zero_add]

/-- The delays that are asked for are noted, and then take place. -/
def noting (delay : Nat → τ → τ) (nanoseconds : Nat) (x : List Nat × τ) : List Nat × τ :=
  (nanoseconds :: x.1, delay nanoseconds x.2)

theorem noting_iterate (delay : Nat → τ → τ) (nanoseconds k : Nat) (s : τ) :
    (noting delay nanoseconds)^[k] ([], s) =
      (List.replicate k nanoseconds, (delay nanoseconds)^[k] s) := by
  induction k with
  | zero => rfl
  | succ k ih => rw [Function.iterate_succ_apply', ih, Function.iterate_succ_apply']; rfl

theorem firstIdle?_noting (delay : Nat → τ → τ) (nanoseconds : Nat) :
    firstIdle? (fun x => idle x.2) (noting delay nanoseconds) limit ([], s) =
      firstIdle? idle (delay nanoseconds) limit s := by
  simp only [firstIdle?, noting_iterate]

theorem awaitIdle_noting (settings : Settings) (idle : τ → Bool) (delay : Nat → τ → τ) (s : τ) :
    settings.awaitIdle (fun x => idle x.2) (noting delay) ([], s) =
      match firstIdle? idle (delay settings.pollInterval) settings.pollLimit s with
      | some k => (none, List.replicate k settings.pollInterval, (delay settings.pollInterval)^[k] s)
      | none => (some .timeout, List.replicate settings.pollLimit settings.pollInterval,
          (delay settings.pollInterval)^[settings.pollLimit] s) := by
  rw [Settings.awaitIdle, pollIdle_eq, firstIdle?_noting]
  cases firstIdle? idle (delay settings.pollInterval) settings.pollLimit s <;>
    simp only [noting_iterate]

/-- A wait looks no more often than it has to, and gives up no earlier than it may. -/
structure Settings.WaitsExactly (settings : Settings) (idle : τ → Bool) (delay : Nat → τ → τ)
    (s : τ) : Prop where
  succeeds : (settings.awaitIdle idle delay s).1 = none ↔
    ∃ k ≤ settings.pollLimit, idle ((delay settings.pollInterval)^[k] s) = true
  /-- Up to the first look that finds the state idle there is one delay for each look, of the interval
  that is set. Nothing but these delays has changed the state. -/
  first : ∀ k ≤ settings.pollLimit, idle ((delay settings.pollInterval)^[k] s) = true →
    (∀ j < k, idle ((delay settings.pollInterval)^[j] s) = false) →
    settings.awaitIdle (fun x => idle x.2) (noting delay) ([], s) =
      (none, List.replicate k settings.pollInterval, (delay settings.pollInterval)^[k] s)
  timeout : (∀ k ≤ settings.pollLimit, idle ((delay settings.pollInterval)^[k] s) = false) →
    settings.awaitIdle (fun x => idle x.2) (noting delay) ([], s) =
      (some .timeout, List.replicate settings.pollLimit settings.pollInterval,
        (delay settings.pollInterval)^[settings.pollLimit] s)
  /-- A wait whose delays are not noted ends alike. -/
  unnoted : settings.awaitIdle idle delay s =
    let noted := settings.awaitIdle (fun x => idle x.2) (noting delay) ([], s)
    (noted.1, noted.2.2)

/-- Whoever waits, and whatever happens to the channel during the delays. -/
theorem awaitIdle_exact (channel : τ → Channel) (delay : Nat → τ → τ) (s : τ) :
    (channel s).settings.WaitsExactly (fun x => (channel x).idle) delay s := by
  have hnoted := awaitIdle_noting (channel s).settings (fun x => (channel x).idle) delay s
  have hplain : (channel s).settings.awaitIdle (fun x => (channel x).idle) delay s = _ := pollIdle_eq
  constructor
  case succeeds =>
    rw [hplain]
    cases hfound : firstIdle? (fun x => (channel x).idle) (delay (channel s).settings.pollInterval)
        (channel s).settings.pollLimit s with
    | some k =>
      obtain ⟨hle, hidle, -⟩ := firstIdle?_eq_some.mp hfound
      exact ⟨fun _ => ⟨k, hle, hidle⟩, fun _ => rfl⟩
    | none =>
      have hbusy := firstIdle?_eq_none.mp hfound
      refine ⟨nofun, fun ⟨k, hle, hidle⟩ => ?_⟩
      cases (hbusy k hle).symm.trans hidle
  case first =>
    intro k hle hidle hbefore
    rw [hnoted, firstIdle?_eq_some.mpr ⟨hle, hidle, hbefore⟩]
  case timeout =>
    intro hbusy
    rw [hnoted, firstIdle?_eq_none.mpr hbusy]
  case unnoted =>
    rw [hnoted, hplain]
    cases firstIdle? (fun x => (channel x).idle) (delay (channel s).settings.pollInterval)
      (channel s).settings.pollLimit s <;> rfl

/-- A worker refuses to serve a request for more memory than can be locked, during the second delay,
which is the last that the settings allow. -/
theorem awaitIdle_exact_last :
    let busy := (Crew.initial { pollInterval := 7, pollLimit := 2 } .reset
      ({ limit := some 1 } : Bench.PageTally) []).run
        [.create (.both 0), .strike (.submit ⟨.hostToDevice, 0x1ffc, 0, 8⟩)]
    let looked : List CrewAct := [.look 3]
    let served : List CrewAct := [.serve 0]
    let delay (_ : Nat) (x : Crew Bench.PageTally × List (List CrewAct)) :=
      (x.1.run (x.2.headD []), x.2.tail)
    busy.channel.settings.awaitIdle (fun x => x.2.1.channel.idle) (noting delay)
      ([], busy, [looked, served]) = (none, [7, 7], busy.run (looked ++ served), []) := by
  intro busy looked served delay
  have hinterval : busy.channel.settings.pollInterval = 7 := by decide +kernel
  have hlimit : 2 ≤ busy.channel.settings.pollLimit := by decide +kernel
  have hbusy : busy.channel.idle = false := by decide +kernel
  have hlooked : (busy.run looked).channel.idle = false := by decide +kernel
  have hserved : (busy.run (looked ++ served)).channel.idle = true := by decide +kernel
  clear_value busy
  have hend : (delay 7)^[2] (busy, [looked, served]) = (busy.run (looked ++ served), []) := by
    simp [delay, Crew.run]
  have hwaited := (awaitIdle_exact (fun x => x.1.channel) delay (busy, [looked, served])).first 2 hlimit
  rw [hinterval, hend] at hwaited
  refine hwaited hserved fun j hj => ?_
  cases j with
  | zero => exact hbusy
  | succ j =>
    obtain rfl : j = 0 := by omega
    exact hlooked

end ScatterGather
