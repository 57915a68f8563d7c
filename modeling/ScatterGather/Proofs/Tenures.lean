import ScatterGather.Proofs.Effects

/-! # The windows that a history tells of

What a history, its latest event first, tells of the windows of a request: which of them were pinned, in
which order their pages are held, and which one is to be pinned next.
-/
namespace ScatterGather

structure Tenure where
  /-- The ranges that were locked for the request accepted last, the first one first. -/
  pins : List PageRun := []
  /-- The pages of each range that is held, the oldest first. -/
  held : List (List Page) := []
  /-- Pages that came short of their range and go back at once. -/
  short : Option (List Page) := none
deriving DecidableEq, Repr

namespace Tenure

def after (t : Tenure) : Event → Tenure
  | .submit _ none => { t with pins := [] }
  | .lock range _ pages =>
    if pages.length < range.pages then { t with short := some pages }
    else { t with pins := t.pins ++ [range], held := t.held ++ [pages] }
  | .unlock _ _ => if t.short.isSome then { t with short := none } else { t with held := t.held.tail }
  | _ => t

def ofHistory : List Event → Tenure
  | [] => {}
  | e :: older => (ofHistory older).after e

@[simp] theorem ofHistory_cons (e : Event) (older : List Event) :
    ofHistory (e :: older) = (ofHistory older).after e := rfl

/-- Pages that come short of their range are in hand until they go back. -/
theorem ofHistory_short {range : PageRun} {pages : List Page} (h : pages.length < range.pages)
    (writable : Bool) (older : List Event) : ofHistory (.lock range writable pages :: older) =
      { ofHistory older with short := some pages } := if_pos h

theorem ofHistory_locked {range : PageRun} {pages : List Page} (h : ¬ pages.length < range.pages)
    (writable : Bool) (older : List Event) : ofHistory (.lock range writable pages :: older) =
      { ofHistory older with
        pins := (ofHistory older).pins ++ [range]
        held := (ofHistory older).held ++ [pages] } := if_neg h

/-- Window `i` was pinned. Ranges go back in the order in which they were locked, so it was not given
back yet. -/
def Holds (t : Tenure) (i : Nat) : Prop := i < t.pins.length ∧ t.pins.length ≤ i + t.held.length

end Tenure

/-- The windows that were pinned so far for the request accepted last. -/
def pinsOf (history : List Event) : List PageRun := (Tenure.ofHistory history).pins

/-- After this history the window at byte `next` is the one to be pinned: the first that is not pinned,
after bytes of the one before were described. -/
structure NextWindow (s : Settings) (history : List Event) (r : Request) (next : Nat) : Prop where
  request : (Account.ofHistory history).request = some r
  place : next = (pinsOf history).length * s.fullWindow
  inside : next < r.len
  len : next + r.windowLen s next = min (((pinsOf history).length + 1) * s.fullWindow) r.len
  begun : (pinsOf history).length ≠ 0 →
    ((pinsOf history).length - 1) * s.fullWindow < (Account.ofHistory history).bytes

/-- The latest event is in keeping with the windows. Only the next window is asked for; pages that come
short go back at once, and all others in the order in which they came; and when a transfer is told to be
complete, its windows were pinned, and nothing beyond them. -/
def Tiles (s : Settings) : List Event → Prop
  | .lock range writable _ :: older => (Tenure.ofHistory older).short = none ∧
      ∃ r next, NextWindow s older r next ∧ range = r.windowRun s next ∧
        writable = r.direction.writesHost
  | .unlock pages _ :: older => (Tenure.ofHistory older).short = some pages ∨
      (Tenure.ofHistory older).short = none ∧ (Tenure.ofHistory older).held.head? = some pages
  | .notify _ (.completed _) :: older => ∀ r, (Account.ofHistory older).request = some r →
      ∀ k, k < (pinsOf older).length ↔ k * s.fullWindow < r.len
  | _ => True

/-- The windows that were pinned are the first windows of the request, in their order. -/
def PinnedInOrder (s : Settings) (history : List Event) : Prop :=
  ∀ r, (Account.ofHistory history).request = some r → pinsOf history =
    (List.range (pinsOf history).length).map fun k => r.windowRun s (k * s.fullWindow)

/-- Events at which no page is moved, and no transfer begins or ends. -/
def Event.LeavesWindows : Event → Prop
  | lock .. | unlock .. | notify .. | submit _ none => False
  | _ => True

theorem Event.Silent.leavesWindows {e : Event} (h : e.Silent) : e.LeavesWindows := by
  cases e with
  | submit request refusal => cases refusal <;> exact h
  | lock | unlock | notify => exact h
  | _ => trivial

/-- Events that neither pin a window nor begin another request. -/
def Event.KeepsPins : Event → Prop
  | lock .. | submit _ none => False
  | _ => True

theorem keepsPins_unlocks (regions : List Region) :
    ∀ e ∈ regions.flatMap Region.unlocks, e.KeepsPins :=
  Region.forall_unlocks (fun _ _ => trivial) regions

/-- Events between a batch and the wish for the next window. -/
def Event.BeforeWish : Event → Prop
  | lock .. => False
  | e => e.Passive

/-- With every batch of a window, if the request goes on behind that window, the next window is pinned,
or it goes beyond all addresses, or it is asked for before anything else is. -/
def PinnedAhead (s : Settings) (history : List Event) : Prop :=
  ∀ newer dir start entries older r, history = newer ++ .issue dir start entries :: older →
    (Account.ofHistory older).request = some r →
    let k := (Account.ofHistory older).bytes / s.fullWindow
    let next := (k + 1) * s.fullWindow
    next < r.len → (Tenure.ofHistory older).Holds (k + 1) ∨
      ¬ Machine.Pinnable (r.host + next) (r.windowLen s next) ∨
      ∃ newest pages between,
        newer = newest ++ .lock (r.windowRun s next) r.direction.writesHost pages :: between ∧
        ∀ e ∈ between, e.BeforeWish

theorem Event.Silent.beforeWish {e : Event} (h : e.Silent) : e.BeforeWish := by
  cases e with
  | lock => exact h
  | _ => exact h.passive

section Histories
variable {s : Settings} {history l : List Event} {e : Event}

theorem Event.LeavesWindows.tenure (he : e.LeavesWindows) (history : List Event) :
    Tenure.ofHistory (e :: history) = Tenure.ofHistory history := by
  cases e with
  | submit request refusal =>
    cases refusal with
    | none => exact he.elim
    | some cause => rfl
  | lock | unlock | notify => exact he.elim
  | _ => rfl

theorem Tenure.ofHistory_append (he : ∀ e ∈ l, e.LeavesWindows) :
    ofHistory (l ++ history) = ofHistory history :=
  unchanged_append (fun _ older h => h.tenure older) he history

theorem pinsOf_append (he : ∀ e ∈ l, e.KeepsPins) : pinsOf (l ++ history) = pinsOf history := by
  refine unchanged_append (fun e older hfirst => ?_) he history
  cases e with
  | submit request refusal =>
    cases refusal with
    | none => exact hfirst.elim
    | some cause => rfl
  | lock => exact hfirst.elim
  | unlock pages dirty =>
    rw [pinsOf, Tenure.ofHistory_cons, Tenure.after]
    split <;> rfl
  | _ => rfl

theorem Event.LeavesWindows.tiles (he : e.LeavesWindows) (history : List Event) :
    Tiles s (e :: history) := by
  cases e with
  | lock | unlock | notify => exact he.elim
  | _ => trivial

/-- Whoever pins only the next window pins the windows in their order. -/
theorem pinnedInOrder_of_tiles (h : Throughout (Tiles s) history) : PinnedInOrder s history := by
  induction history with
  | nil => exact nofun
  | cons e older ih =>
    have hrest := ih (Throughout.older [e] h)
    intro r hr
    cases e with
    | submit request refusal =>
      cases refusal with
      | none => rfl
      | some cause => exact hrest r hr
    | lock range writable pages =>
      obtain ⟨-, r', next, hnext, rfl, -⟩ := h.now
      obtain rfl : r = r' := Option.some.inj (hr.symm.trans hnext.request)
      have hpins := hrest r hr
      by_cases hshort : pages.length < (r.windowRun s next).pages
      · rwa [pinsOf, Tenure.ofHistory_short hshort]
      · have hmore : pinsOf (.lock (r.windowRun s next) writable pages :: older) =
            pinsOf older ++ [r.windowRun s next] :=
          congrArg Tenure.pins (Tenure.ofHistory_locked hshort writable older)
        rw [hmore, List.length_append, List.length_singleton, List.range_succ, List.map_append,
          List.map_singleton, ← hpins, ← hnext.place]
    | unlock pages dirty =>
      rw [show pinsOf (.unlock pages dirty :: older) = pinsOf older from
        pinsOf_append (l := [.unlock pages dirty]) (by simp [Event.KeepsPins])]
      exact hrest r hr
    | _ => exact hrest r hr

/-- Regions that are given back in their order leave those that came later. -/
theorem Tenure.freed {regions : List Region} {rest : List (List Page)}
    (hv : ∀ r ∈ regions, r.valid = true)
    (hh : ofHistory history = { ofHistory history with held := regions.map Region.pages ++ rest, short := none })
    (ht : Throughout (Tiles s) history) :
    ofHistory (regions.reverse.flatMap Region.unlocks ++ history) =
        { ofHistory history with held := rest, short := none } ∧
      Throughout (Tiles s) (regions.reverse.flatMap Region.unlocks ++ history) := by
  induction regions generalizing history with
  | nil => exact ⟨hh, ht⟩
  | cons r regions ih =>
    have hunlock : r.unlocks = [.unlock r.pages r.direction.writesHost] :=
      if_pos (hv r List.mem_cons_self)
    rw [List.reverse_cons, List.flatMap_append, List.append_assoc, List.flatMap_singleton, hunlock]
    have hlater : ofHistory (.unlock r.pages r.direction.writesHost :: history) =
        { ofHistory history with held := regions.map Region.pages ++ rest, short := none } := by
      rw [ofHistory_cons, hh]
      rfl
    have hnow : Tiles s (.unlock r.pages r.direction.writesHost :: history) := by
      refine .inr ⟨?_, ?_⟩ <;> rw [hh]
      rfl
    obtain ⟨hheld, htiled⟩ := ih (fun x hx => hv x (List.mem_cons_of_mem _ hx))
      (by rw [hlater]) (Throughout.cons ht hnow)
    refine ⟨?_, htiled⟩
    rw [List.singleton_append, hheld, hlater]

end Histories
end ScatterGather
