import ScatterGather.Bench.PageTally
import ScatterGather.Proofs.Inventory
import ScatterGather.Proofs.Lengths
import ScatterGather.Proofs.Tenures

/-! # Windows tile the request

The windows of a request are pinned one after the other, each at most once, whether ahead of time or when
they are needed, and whatever attempts fail. How many were pinned follows from where the pipeline stands:
every window that is pinned lies before the cursor, under it, or next to it.
-/
namespace ScatterGather
open Relation

namespace Juncture

/-- Pages in hand that are enough for their range. -/
def granted (st : Settings) : Juncture → List (List Page)
  | asked _ p _ pages => if pages.length < (p.request.windowRun st p.sent).pages then [] else [pages]
  | askedAhead _ p next pages =>
    if pages.length < (p.request.windowRun st next).pages then [] else [pages]
  | _ => []

/-- Pages in hand that are too few for their range. -/
def short (st : Settings) : Juncture → Option (List Page)
  | asked _ p _ pages =>
    if pages.length < (p.request.windowRun st p.sent).pages then some pages else none
  | askedAhead _ p next pages =>
    if pages.length < (p.request.windowRun st next).pages then some pages else none
  | _ => none

/-- A batch was just taken from the active window. -/
def Handing : Juncture → Prop
  | handed .. | released .. => True
  | _ => False

end Juncture

namespace Pipeline

def cursor (q : Pipeline) : Nat := (q.active.map Window.cursor).getD 0

/-- The number of windows at the cursor and behind it. -/
def standing (q : Pipeline) : Nat := q.active.toList.length + q.next.toList.length

variable {q : Pipeline}

theorem cursor_of_none (h : q.active = none) : q.cursor = 0 := by
  rw [cursor, h]
  rfl

theorem cursor_of_some {w : Window} (h : q.active = some w) : q.cursor = w.cursor := by
  rw [cursor, h]
  rfl

theorem standing_activate (h : q.active = none) (w : Window) :
    ({ q with active := some w } : Pipeline).standing = q.standing + 1 := by
  simp [standing, h, Nat.add_comm]

theorem standing_keepNext (h : q.next = none) (g : Region) :
    (q.keepNext g).standing = q.standing + 1 := by
  simp [standing, keepNext, h]

theorem standing_consume (q : Pipeline) (bytes : Nat) : (q.consume bytes).standing = q.standing := by
  rcases q with ⟨active, next, done⟩
  cases active <;> rfl

theorem cursor_consume {w : Window} {bytes : Nat} (h : q.active = some w) (hb : bytes ≤ w.left)
    (hw : w.cursor ≤ w.region.len) : (q.consume bytes).cursor = q.cursor + bytes := by
  rw [Window.left] at hb
  rw [cursor_of_some h, cursor_of_some (w := w.consume bytes) (by simp [consume, h])]
  exact Nat.min_eq_left (by omega)

end Pipeline

/-- What the history tells of the windows, and what the pipeline holds. -/
structure Tiling {σ : Type} (st : Settings) (j : Juncture) (s : Station σ) : Prop where
  held : (Tenure.ofHistory s.machine.history).held =
    s.worker.pipeline.regions.map Region.pages ++ j.granted st
  short : (Tenure.ofHistory s.machine.history).short = j.short st
  /-- The window under the cursor is the last but those that stand behind it. -/
  place : ∀ p, s.worker.transfer = some p →
    (pinsOf s.machine.history).length * st.fullWindow + s.worker.pipeline.cursor =
      p.sent + (s.worker.pipeline.standing + (j.granted st).length) * st.fullWindow
  fresh : s.worker.transfer = none → s.machine.channel.idle = false → pinsOf s.machine.history = []
  begun : j.Handing → s.worker.pipeline.cursor ≠ 0
  tiles : Throughout (Tiles st) s.machine.history

section Frames
variable {σ : Type} {st : Settings} {s t : Station σ} {j j' : Juncture} {l : List Event}
  {r : Request} {p : Progress} {next : Nat} {pages : List Page}

namespace Tiling

/-- No page is moved, and no region leaves the pipeline or comes into it. -/
theorem resettle (h : Tiling st j s) (hh : t.machine.history = l ++ s.machine.history)
    (hl : ∀ e ∈ l, e.LeavesWindows) (hr : t.worker.pipeline.regions = s.worker.pipeline.regions)
    (hg : j'.granted st = j.granted st) (hs : j'.short st = j.short st)
    (hplace : ∀ p, t.worker.transfer = some p →
      (pinsOf s.machine.history).length * st.fullWindow + t.worker.pipeline.cursor =
        p.sent + (t.worker.pipeline.standing + (j.granted st).length) * st.fullWindow)
    (hfresh : t.worker.transfer = none → t.machine.channel.idle = false →
      pinsOf s.machine.history = [])
    (hb : j'.Handing → t.worker.pipeline.cursor ≠ 0) : Tiling st j' t := by
  have hsame : Tenure.ofHistory t.machine.history = Tenure.ofHistory s.machine.history := by
    rw [hh, Tenure.ofHistory_append hl]
  have hpins : pinsOf t.machine.history = pinsOf s.machine.history := congrArg Tenure.pins hsame
  constructor
  case held => rw [hsame, hr, hg, h.held]
  case short => rw [hsame, hs, h.short]
  case place => rw [hpins, hg]; exact hplace
  case fresh => rw [hpins]; exact hfresh
  case begun => exact hb
  case tiles => exact hh ▸ h.tiles.append fun e he older _ => (hl e he).tiles older

theorem frame (h : Tiling st j s) (hh : t.machine.history = l ++ s.machine.history)
    (hl : ∀ e ∈ l, e.LeavesWindows) (hw : t.worker = s.worker)
    (hi : t.machine.channel.idle = s.machine.channel.idle) (hg : j'.granted st = j.granted st)
    (hs : j'.short st = j.short st) (hb : j'.Handing → j.Handing) : Tiling st j' t := by
  refine h.resettle hh hl (by rw [hw]) hg hs ?_ ?_ ?_
  · rw [hw]; exact h.place
  · rw [hw, hi]; exact h.fresh
  · rw [hw]; exact fun hj => h.begun (hb hj)

/-- The platform has answered the wish for the next window. -/
theorem lock (h : Tiling st j s) (hnext : NextWindow st s.machine.history r next)
    (hh : t.machine.history =
      .lock (r.windowRun st next) r.direction.writesHost pages :: s.machine.history)
    (hw : t.worker = s.worker) (ht : s.worker.transfer = some p) (hg : j.granted st = [])
    (hs : j.short st = none)
    (hg' : j'.granted st = if pages.length < (r.windowRun st next).pages then [] else [pages])
    (hs' : j'.short st = if pages.length < (r.windowRun st next).pages then some pages else none)
    (hb : ¬ j'.Handing) : Tiling st j' t := by
  have hheld := h.held
  have hplace := h.place
  rw [hg, List.append_nil] at hheld
  rw [hg] at hplace
  have htiles : Throughout (Tiles st) t.machine.history :=
    hh ▸ h.tiles.cons ⟨h.short.trans hs, r, next, hnext, rfl, rfl⟩
  have hfresh : t.worker.transfer = none → t.machine.channel.idle = false →
      pinsOf t.machine.history = [] := by
    intro hnone
    cases ht.symm.trans (hw ▸ hnone)
  by_cases hfew : pages.length < (r.windowRun st next).pages
  · rw [if_pos hfew] at hg' hs'
    have hnow : Tenure.ofHistory t.machine.history =
        { Tenure.ofHistory s.machine.history with short := some pages } := by
      rw [hh, Tenure.ofHistory_short hfew]
    have hpins : pinsOf t.machine.history = pinsOf s.machine.history := by
      rw [pinsOf, hnow]
      rfl
    constructor
    case held => rw [hnow, hw, hg', List.append_nil]; exact hheld
    case short => rw [hnow, hs']
    case place => rw [hpins, hw, hg']; exact hplace
    case fresh => exact hfresh
    case begun => exact fun hj => absurd hj hb
    case tiles => exact htiles
  · rw [if_neg hfew] at hg' hs'
    have hnow : Tenure.ofHistory t.machine.history = { Tenure.ofHistory s.machine.history with
        pins := pinsOf s.machine.history ++ [r.windowRun st next]
        held := (Tenure.ofHistory s.machine.history).held ++ [pages] } := by
      rw [hh, Tenure.ofHistory_locked hfew]
      rfl
    have hpins : pinsOf t.machine.history = pinsOf s.machine.history ++ [r.windowRun st next] :=
      congrArg Tenure.pins hnow
    constructor
    case held => rw [hnow, hw, hg', hheld]
    case short => rw [hnow, hs', ← hs]; exact h.short
    case place =>
      intro p hp
      have := hplace p (hw ▸ hp)
      rw [hpins, hw, hg', List.length_append, List.length_singleton, List.length_singleton,
        Nat.succ_mul, Nat.succ_mul]
      rw [List.length_nil, Nat.add_zero] at this
      omega
    case fresh => exact hfresh
    case begun => exact fun hj => absurd hj hb
    case tiles => exact htiles

/-- Pages that came short are given back. -/
theorem decline {dirty : Bool} (h : Tiling st j s) (hs : j.short st = some pages)
    (hh : t.machine.history = .unlock pages dirty :: s.machine.history) (hw : t.worker = s.worker)
    (hi : t.machine.channel.idle = s.machine.channel.idle) (hg : j'.granted st = j.granted st)
    (hs' : j'.short st = none) (hb : ¬ j'.Handing) : Tiling st j' t := by
  have hshort := h.short.trans hs
  have hnow : Tenure.ofHistory t.machine.history =
      { Tenure.ofHistory s.machine.history with short := none } := by
    rw [hh, Tenure.ofHistory_cons, Tenure.after, if_pos (by rw [hshort]; rfl)]
  have hpins : pinsOf t.machine.history = pinsOf s.machine.history := by
    rw [pinsOf, hnow]
    rfl
  constructor
  case held => rw [hnow, hw, hg]; exact h.held
  case short => rw [hnow, hs']
  case place => rw [hpins, hw, hg]; exact h.place
  case fresh => rw [hpins, hw, hi]; exact h.fresh
  case begun => exact fun hj => absurd hj hb
  case tiles => exact hh ▸ h.tiles.cons (.inl hshort)

/-- The region in hand takes its place in the pipeline. -/
theorem adopt {g : Region} (h : Tiling st j s) (hh : t.machine.history = s.machine.history)
    (hr : t.worker.pipeline.regions = s.worker.pipeline.regions ++ [g])
    (hc : t.worker.pipeline.cursor = s.worker.pipeline.cursor)
    (hn : t.worker.pipeline.standing = s.worker.pipeline.standing + 1)
    (ht : t.worker.transfer = s.worker.transfer)
    (hi : t.machine.channel.idle = s.machine.channel.idle) (hg : j.granted st = [g.pages])
    (hg' : j'.granted st = []) (hs : j'.short st = j.short st) (hb : ¬ j'.Handing) :
    Tiling st j' t := by
  have hheld := h.held
  have hplace := h.place
  rw [hg] at hheld hplace
  constructor
  case held => rw [hh, hr, hg', hheld, List.map_append, List.append_nil]; rfl
  case short => rw [hh, hs, h.short]
  case place => rw [hh, hc, hn, ht, hg']; exact hplace
  case fresh => rw [hh, ht, hi]; exact h.fresh
  case begun => exact fun hj => absurd hj hb
  case tiles => exact hh ▸ h.tiles

/-- The first regions of the pipeline are given back. -/
theorem freed (h : Tiling st j s) (freed : List Region)
    (hr : s.worker.pipeline.regions = freed ++ t.worker.pipeline.regions)
    (hv : ∀ r ∈ s.worker.pipeline.regions, r.valid = true)
    (hh : t.machine.history = freed.reverse.flatMap Region.unlocks ++ s.machine.history)
    (hg : j.granted st = [] ∧ j'.granted st = []) (hs : j.short st = none ∧ j'.short st = none)
    (hplace : ∀ p, t.worker.transfer = some p →
      (pinsOf s.machine.history).length * st.fullWindow + t.worker.pipeline.cursor =
        p.sent + t.worker.pipeline.standing * st.fullWindow)
    (hfresh : t.worker.transfer = none → t.machine.channel.idle = true)
    (hb : j'.Handing → t.worker.pipeline.cursor ≠ 0) : Tiling st j' t := by
  have hheld := h.held
  rw [hg.1, hr, List.append_nil, List.map_append] at hheld
  rw [hr] at hv
  have hsame : Tenure.ofHistory s.machine.history = { Tenure.ofHistory s.machine.history with
      held := freed.map Region.pages ++ t.worker.pipeline.regions.map Region.pages, short := none } := by
    rw [← hheld, ← hs.1, ← h.short]
  obtain ⟨hnow, htiles⟩ :=
    Tenure.freed (fun r hm => hv r (List.mem_append_left _ hm)) hsame h.tiles
  rw [← hh] at hnow htiles
  have hpins : pinsOf t.machine.history = pinsOf s.machine.history := by
    rw [pinsOf, hnow]
    rfl
  constructor
  case held => rw [hnow, hg.2, List.append_nil]
  case short => rw [hnow, hs.2]
  case place => rw [hpins, hg.2]; exact hplace
  case fresh =>
    intro ht hidle
    cases hidle.symm.trans (hfresh ht)
  case begun => exact hb
  case tiles => exact htiles

end Tiling
end Frames

/-- The worker tries to pin the window at byte `next`, because it needs one or to have it ahead of time. -/
inductive Attempts {σ : Type} : Juncture × Station σ → Request → Nat → Prop
  | onDemand {k p start s} : s.worker.pipeline.next = none →
      Attempts (.turned k p start, s) p.request p.sent
  | ahead {k p s} : s.worker.pipeline.next = none → s.reach p < p.request.len →
      Attempts (.released k p, s) p.request (s.reach p)

section Attempts
variable {σ : Type} {st : Settings} {s : Station σ} {k : Errand} {p : Progress} {start : BatchPlace}

/-- Where the active window ends, if the request goes on there. -/
theorem Pipeline.Carries.reach {Q : PageRun → List Page → Prop} {w : Window}
    (h : s.worker.pipeline.Carries Q p.request st p.sent) (hw : s.worker.pipeline.active = some w)
    (hlt : s.reach p < p.request.len) :
    ∃ b, b % st.fullWindow = 0 ∧ p.sent = b + w.cursor ∧ s.reach p = b + st.fullWindow := by
  obtain ⟨v, b, hv, hcovers, hcursor, hx, -⟩ := h
  obtain rfl : w = v := Option.some.inj (hw.symm.trans hv)
  have hreach : s.reach p = p.sent + (w.region.len - w.cursor) := by
    rw [Station.reach, hw]
    rfl
  have hlen := hcovers.len
  rw [Request.windowLen] at hlen
  exact ⟨b, hcovers.whole, hx, by omega⟩

theorem nextWindow_of_place {history : List Event} {r : Request} {next : Nat}
    (hr : (Account.ofHistory history).request = some r)
    (hp : (pinsOf history).length * st.fullWindow = next) (hlt : next < r.len)
    (hb : (pinsOf history).length ≠ 0 → next < (Account.ofHistory history).bytes + st.fullWindow) :
    NextWindow st history r next := by
  constructor
  case request => exact hr
  case place => exact hp.symm
  case inside => exact hlt
  case len =>
    rw [Nat.succ_mul, hp, Request.windowLen]
    omega
  case begun =>
    intro hne
    have hlater := hb hne
    obtain ⟨m, hm⟩ : ∃ m, (pinsOf history).length = m + 1 := Nat.exists_eq_succ_of_ne_zero hne
    rw [hm, Nat.succ_mul] at hp
    rw [hm, Nat.add_sub_cancel]
    omega

/-- Only the next window is tried. -/
theorem Attempts.nextWindow {z : Juncture × Station σ} {r : Request} {next : Nat}
    (h : Attempts z r next) (hs : st.Valid) (hc : Control z.2.view z.1)
    (hw : Windows (fun _ _ => True) st z.2.worker z.1) (ht : Tiling st z.1 z.2) :
    NextWindow st z.2.machine.history r next := by
  have hfull := hs.fullWindow_pos
  cases h with
  | @onDemand k p start s hn =>
    change NextWindow st s.machine.history p.request p.sent
    have hplace : (pinsOf s.machine.history).length * st.fullWindow + s.worker.pipeline.cursor =
        p.sent + (s.worker.pipeline.standing + 0) * st.fullWindow := ht.place p hc.1.transfer
    have hsent : p.sent = (Account.ofHistory s.machine.history).bytes := hc.1.sent
    rw [Pipeline.cursor_of_none hw.active, Pipeline.standing, hw.active, hn] at hplace
    simp only [Option.toList_none, List.length_nil, Nat.add_zero, Nat.zero_mul] at hplace
    exact nextWindow_of_place hc.1.request hplace hw.inside fun _ => by omega
  | @ahead k p s hn hlt =>
    change NextWindow st s.machine.history p.request (s.reach p)
    have hplace : (pinsOf s.machine.history).length * st.fullWindow + s.worker.pipeline.cursor =
        p.sent + (s.worker.pipeline.standing + 0) * st.fullWindow :=
      ht.place p (View.Running.toEngaged hc).transfer
    have hsent : p.sent = (Account.ofHistory s.machine.history).bytes := (View.Running.toEngaged hc).sent
    have hbegun := ht.begun trivial
    obtain ⟨w, -, hactive, -⟩ := id hw
    obtain ⟨b, -, hx, hreach⟩ := Pipeline.Carries.reach (s := s) hw hactive hlt
    rw [Pipeline.cursor_of_some hactive] at hplace hbegun
    rw [Pipeline.standing, hactive, hn] at hplace
    simp only [Option.toList_none, Option.toList_some, List.length_nil, List.length_singleton,
      Nat.add_zero, Nat.one_mul] at hplace
    exact nextWindow_of_place (View.Running.toEngaged hc).request (by omega) hlt fun _ => by omega

/-- When every byte was described, all windows of the request were pinned. -/
theorem Tiling.all_pinned (hs : st.Valid) (h : Tiling st (.due k p) s)
    (hw : Windows (fun _ _ => True) st s.worker (.due k p)) (ht : s.worker.transfer = some p)
    (hr : p.remaining = 0) (i : Nat) :
    i < (pinsOf s.machine.history).length ↔ i * st.fullWindow < p.request.len := by
  have hfull := hs.fullWindow_pos
  have hplace := h.place p ht
  rw [Progress.remaining] at hr
  rcases hw with ⟨w, b, hactive, hcovers, hcursor, hx, hnext⟩ | ⟨hactive, hnext, hzero⟩
  · have hlen := hcovers.len
    have hinside := hcovers.inside
    rw [Request.windowLen] at hlen
    have hnone : s.worker.pipeline.next = none := by
      cases hn : s.worker.pipeline.next with
      | none => rfl
      | some g =>
        have := (hnext g hn).inside
        omega
    obtain ⟨m, rfl⟩ := Nat.dvd_of_mod_eq_zero hcovers.whole
    rw [Pipeline.cursor_of_some hactive, Pipeline.standing, hactive, hnone] at hplace
    simp only [Juncture.granted, Option.toList_none, Option.toList_some, List.length_nil,
      List.length_singleton, Nat.add_zero, Nat.one_mul] at hplace
    have hcount : (pinsOf s.machine.history).length = m + 1 := by
      apply Nat.eq_of_mul_eq_mul_right hfull
      rw [Nat.succ_mul, Nat.mul_comm m]
      omega
    rw [hcount, Nat.lt_succ_iff]
    constructor
    · intro hle
      have := Nat.mul_le_mul_right st.fullWindow hle
      rw [Nat.mul_comm m] at this
      omega
    · intro hlt
      apply Nat.le_of_lt_succ
      apply Nat.lt_of_mul_lt_mul_right (a := st.fullWindow)
      rw [Nat.succ_mul, Nat.mul_comm m]
      omega
  · rw [Pipeline.cursor_of_none hactive, Pipeline.standing, hactive, hnext, hzero] at hplace
    simp only [Juncture.granted, Option.toList_none, List.length_nil, Nat.add_zero, Nat.zero_mul] at hplace
    rcases Nat.mul_eq_zero.mp hplace with hn | hn
    · omega
    · omega

/-- A window that stands behind the active one is the one after it. -/
theorem Tiling.holds_next {w : Window} {g : Region} {index : Nat} (hs : st.Valid)
    (h : Tiling st (.supplied k p start w) s) (ht : s.worker.transfer = some p)
    (hw : s.worker.pipeline.active = some w) (hn : s.worker.pipeline.next = some g)
    (hx : p.sent = index * st.fullWindow + w.cursor) :
    (Tenure.ofHistory s.machine.history).Holds (index + 1) := by
  have hplace := h.place p ht
  have hheld := congrArg List.length h.held
  rw [Pipeline.cursor_of_some hw, Pipeline.standing, hw, hn, hx] at hplace
  rw [Pipeline.regions, hw, hn] at hheld
  simp only [Juncture.granted, Option.toList_some, List.length_singleton, List.length_nil] at hplace
  simp only [List.length_append, List.length_map, Option.toList_some, List.length_singleton] at hheld
  have hcount : (pinsOf s.machine.history).length = index + 2 := by
    apply Nat.eq_of_mul_eq_mul_right hs.fullWindow_pos
    rw [Nat.add_mul]
    omega
  rw [pinsOf] at hcount
  constructor <;> omega

end Attempts

section Steps
variable {σ : Type} [Platform σ] {A : Incident → Prop} {H : Act → Worker → Prop}
  {st : Settings} {s t : Station σ} {j : Juncture} {k : Errand} {p : Progress}
  {x y : Juncture × Station σ}

omit [Platform σ] in
/-- An accepted request finds nothing pinned. -/
theorem Tiling.strike (h : Tiling st j s) (hc : Control s.view j) (i : Incident) :
    Tiling st j (s.strike i) := by
  rcases s.machine.incur_cases i with ⟨l, hh, hsilent, hidle⟩ | ⟨hidle, r, hh⟩
  · exact h.frame hh (fun e he => (hsilent e he).leavesWindows) rfl hidle rfl rfl id
  · have hnow : Tenure.ofHistory (s.strike i).machine.history =
        { Tenure.ofHistory s.machine.history with pins := [] } :=
      congrArg Tenure.ofHistory hh
    constructor
    case held => rw [hnow]; exact h.held
    case short => rw [hnow]; exact h.short
    case place =>
      intro p hp
      cases (hc.engaged hp).idle.symm.trans hidle
    case fresh =>
      intro _ _
      rw [pinsOf, hnow]
    case begun => exact h.begun
    case tiles => exact hh ▸ h.tiles.cons trivial

omit [Platform σ] in
/-- All regions are given back in their order. -/
theorem Tiling.clear (h : Tiling st j s) (hv : ∀ r ∈ s.worker.pipeline.regions, r.valid = true)
    (hg : j.granted st = []) (hs : j.short st = none) (hp : t.worker.pipeline = {})
    (ht : t.worker.transfer = none) (hi : t.machine.channel.idle = true)
    (hh : t.machine.history = s.worker.pipeline.unlocks ++ s.machine.history) {j' : Juncture}
    (hg' : j'.granted st = []) (hs' : j'.short st = none) (hb : ¬ j'.Handing) : Tiling st j' t := by
  refine h.freed s.worker.pipeline.regions (by simp [hp, Pipeline.regions]) hv hh ⟨hg, hg'⟩ ⟨hs, hs'⟩
    (fun p hp => ?_) (fun _ => hi) fun hj => absurd hj hb
  cases hp.symm.trans ht

theorem Tiling.tell {phase : Phase} {outcome : Outcome} (h : Tiling st j s)
    (hv : ∀ r ∈ s.worker.pipeline.regions, r.valid = true) (hg : j.granted st = [])
    (hs : j.short st = none) (hlaw : ∀ payload, Tiles st (.notify payload outcome :: s.machine.history)) :
    Tiling st (.told k) (s.tell phase outcome) := by
  have hreset : Tiling st (.told k) (s.reset phase) :=
    h.clear hv hg hs rfl rfl rfl (s.worker.pipeline.unpinAll_sees s.machine).history rfl rfl nofun
  have hpins : pinsOf (s.reset phase).machine.history = pinsOf s.machine.history := by
    rw [show (s.reset phase).machine.history = _ from
      (s.worker.pipeline.unpinAll_sees s.machine).history]
    exact pinsOf_append (keepsPins_unlocks _)
  have haccount : Account.ofHistory (s.reset phase).machine.history =
      Account.ofHistory s.machine.history := by
    rw [show (s.reset phase).machine.history = _ from
      (s.worker.pipeline.unpinAll_sees s.machine).history]
    exact Account.ofHistory_passive (passive_unlocks _)
  have hnow (payload : UInt32) : Tiles st (.notify payload outcome :: (s.reset phase).machine.history) := by
    have hbefore := hlaw payload
    cases outcome with
    | failed => trivial
    | completed bytes =>
      simp only [Tiles, hpins, haccount] at hbefore ⊢
      exact hbefore
  exact ⟨hreset.held, hreset.short, hreset.place, hreset.fresh, nofun, hreset.tiles.cons (hnow _)⟩

/-- The window under the cursor makes room for the next one when it is described to its end. -/
theorem Tiling.turn {start : BatchPlace} (h : Tiling s.settings (.due k p) s)
    (hw : Windows (fun _ _ => True) s.settings s.worker (.due k p)) (ht : s.worker.transfer = some p)
    (hv : ∀ r ∈ s.worker.pipeline.regions, r.valid = true) (hr : p.remaining ≠ 0)
    (hd : s.worker.pipeline.drained) : Tiling s.settings (.turned k p start) s.turn := by
  have hplace : (pinsOf s.machine.history).length * s.settings.fullWindow +
      s.worker.pipeline.cursor = p.sent + (s.worker.pipeline.standing + 0) * s.settings.fullWindow :=
    h.place p ht
  rw [Progress.remaining] at hr
  refine h.freed s.worker.pipeline.done.toList (by simp [Station.turn, Pipeline.regions]) hv ?_
    ⟨rfl, rfl⟩ ⟨rfl, rfl⟩ ?_ ?_ False.elim
  · rw [show s.turn.machine.history = _ from (s.worker.pipeline.unpinDone_sees s.machine).history]
    cases s.worker.pipeline.done <;> rfl
  · intro p' hp'
    obtain rfl : p' = p := Option.some.inj ((show s.worker.transfer = some p' from hp').symm.trans ht)
    have hstands : s.turn.worker.pipeline.standing = s.worker.pipeline.next.toList.length := by
      simp [Station.turn, Pipeline.standing]
    rw [hstands, Pipeline.cursor_of_none rfl]
    cases hactive : s.worker.pipeline.active with
    | none =>
      rw [Pipeline.cursor_of_none hactive, Pipeline.standing, hactive] at hplace
      simpa using hplace
    | some w =>
      -- the window under the cursor is described to its end, and it is not the last one
      have hleft : w.left = 0 := by simpa [Pipeline.drained, hactive] using hd
      have hend : s.reach p' = p'.sent := by
        rw [Station.reach, hactive]
        exact congrArg (p'.sent + ·) hleft
      have hcarries := Or.resolve_right hw fun hnone => by cases hactive.symm.trans hnone.1
      obtain ⟨b, -, hx, hreach⟩ : ∃ b, b % s.settings.fullWindow = 0 ∧ p'.sent = b + w.cursor ∧
          s.reach p' = b + s.settings.fullWindow :=
        Pipeline.Carries.reach hcarries hactive (by omega)
      rw [Pipeline.cursor_of_some hactive, Pipeline.standing, hactive] at hplace
      simp only [Option.toList_some, List.length_singleton, Nat.add_zero, Nat.add_mul, Nat.one_mul]
        at hplace
      omega
  · intro hnone
    cases ht.symm.trans hnone

/-- A batch moves the cursor and what was sent by the same bytes. -/
theorem Tiling.issue {start : BatchPlace} {w : Window} {entries : List Entry} (hs : s.settings.Valid)
    (hsmall : s.settings.pageSize ≤ 2 ^ 19) (h : Tiling s.settings (.supplied k p start w) s)
    (hc : Control s.view (.supplied k p start w))
    (hw : Windows (fun _ _ => True) s.settings s.worker (.supplied k p start w))
    (hcarve : w.carve s.settings p.request.direction (p.request.device + p.sent) start = .ok entries) :
    Tiling s.settings (.handed k (p.past entries)) (s.issue p start entries) := by
  obtain ⟨hcarries, hactive, -⟩ := hw
  obtain ⟨v, b, hv, -, hcursor, -⟩ := hcarries
  obtain rfl : w = v := Option.some.inj (hactive.symm.trans hv)
  have hlarge : s.settings.pageSize < 2 ^ 34 := Nat.lt_of_le_of_lt hsmall (by decide)
  have hid := Ring.start?_le hc.2
  have hbytes := Window.carve_total_le hs hid hcarve
  have hsome : 0 < Entry.total entries :=
    Nat.lt_of_lt_of_le (by decide) (Window.carve_advances hs hlarge hid hcarve)
  have hmoved : (s.issue p start entries).worker.pipeline.cursor =
      s.worker.pipeline.cursor + Entry.total entries := Pipeline.cursor_consume hactive hbytes hcursor
  have hadvanced : (s.issue p start entries).worker.pipeline.cursor ≠ 0 := by omega
  have hplace := h.place p hc.1.transfer
  obtain ⟨events, hsilent, hh⟩ := Station.issue_history hc.1.busy p start entries
  refine h.resettle (l := .write (Register.address p.request.direction .lastId)
    (UInt32.ofNat (Ring.lastIdOf start entries)) ::
      (events ++ [.issue p.request.direction start entries])) (by simp [hh]) ?_
    (Pipeline.regions_consume _ _) rfl rfl ?_ (fun hnone => by cases hnone) fun _ => hadvanced
  · intro e he
    simp only [List.mem_cons, List.mem_append, List.not_mem_nil, or_false] at he
    rcases he with rfl | he | rfl
    · trivial
    · exact (hsilent e he).leavesWindows
    · trivial
  · intro p' hp'
    obtain rfl : p' = p.past entries := (Option.some.inj hp').symm
    rw [hmoved, show (s.issue p start entries).worker.pipeline.standing = s.worker.pipeline.standing from
      Pipeline.standing_consume _ _, ← Nat.add_assoc, hplace, Progress.past]
    dsimp only
    omega

theorem Tiling.release (h : Tiling s.settings (.handed k p) s) (ht : s.worker.transfer = some p)
    (hv : ∀ r ∈ s.worker.pipeline.regions, r.valid = true) :
    Tiling s.settings (.released k p) s.release := by
  have hpipeline : s.release.worker.pipeline = { s.worker.pipeline with done := none } :=
    Pipeline.unpinDone_pipeline _ _
  refine h.freed s.worker.pipeline.done.toList (by simp [hpipeline, Pipeline.regions]) hv ?_
    ⟨rfl, rfl⟩ ⟨rfl, rfl⟩ ?_ ?_ ?_
  · rw [show s.release.machine.history = _ from (s.worker.pipeline.unpinDone_sees s.machine).history]
    cases s.worker.pipeline.done <;> rfl
  · intro p' hp'
    rw [hpipeline]
    exact h.place p' hp'
  · intro hnone
    cases ht.symm.trans hnone
  · intro _
    rw [hpipeline]
    exact h.begun trivial

theorem Tiling.step (hs : st.Valid) (hsmall : st.pageSize ≤ 2 ^ 19) (hst : x.2.settings = st)
    (hstep : Step A H x y) (hc : Control x.2.view x.1)
    (hw : Windows (fun _ _ => True) st x.2.worker x.1) (hroom : x.2.worker.pipeline.HasRoom x.1)
    (hv : ∀ r ∈ x.2.worker.pipeline.regions, r.valid = true) (h : Tiling st x.1 x.2) :
    Tiling st y.1 y.2 := by
  subst hst
  cases hstep with
  | strike => exact h.strike hc _
  | @interrupt s status =>
    exact h.frame (l := []) rfl (by simp) rfl (s.machine.channel.interrupt_idle status) rfl rfl id
  | @stop s =>
    exact h.clear hv rfl rfl rfl rfl rfl (s.worker.pipeline.unpinAll_sees s.machine).history rfl rfl id
  | @finish s =>
    exact h.clear hv rfl rfl rfl rfl rfl (s.worker.pipeline.unpinAll_sees
      (s.mapChannel ({ · with finished := true })).machine).history rfl rfl id
  | @begin s r hj =>
    obtain ⟨-, ⟨r', -, hqueued⟩ | ⟨p, hr, -⟩⟩ := hc.taken hj
    · have hnone : pinsOf s.machine.history = [] := h.fresh hqueued.transfer hqueued.idle
      have hempty : s.worker.pipeline = {} := hqueued.pipeline
      refine h.resettle (l := [_]) rfl (by simp [Event.LeavesWindows]) rfl rfl rfl ?_ (fun _ _ => hnone)
        False.elim
      intro p hp
      obtain rfl : p = { request := r } := (Option.some.inj hp).symm
      have hpipeline : (s.takeWork.2.begin r).worker.pipeline = {} := hempty
      rw [hnone, hpipeline]
      exact (Nat.zero_mul _).trans (by simp [Pipeline.standing, Juncture.granted])
    · cases hr
  | @complete k p s hr =>
    refine h.tell hv rfl rfl fun payload r hreq => ?_
    obtain rfl : r = p.request := Option.some.inj (hreq.symm.trans (View.Poised.toEngaged hc).request)
    exact h.all_pinned hs hw (View.Poised.toEngaged hc).transfer hr
  | @fail k cause s => exact h.tell hv rfl rfl fun _ => trivial
  | turn hr _ hd => exact h.turn hw (View.Poised.toEngaged hc).transfer hv hr hd
  | @promote k p s start r hn =>
    have hactive : s.worker.pipeline.active = none := hroom
    refine h.resettle (l := []) rfl (by simp) (Pipeline.regions_promote hactive hn) rfl rfl ?_ ?_ False.elim
    · intro p' hp'
      have hplace := h.place p' hp'
      rw [Pipeline.cursor_of_none hactive, Pipeline.standing, hactive, hn] at hplace
      exact hplace
    · intro hnone
      cases hc.1.transfer.symm.trans hnone
  | @ask k p s start hn hb =>
    have hnext := (Attempts.onDemand hn).nextWindow hs hc hw h
    exact h.lock hnext rfl rfl hc.1.transfer rfl rfl rfl rfl id
  | @short k p s start pages hl =>
    exact h.decline (if_pos hl) rfl rfl rfl (if_pos hl).symm rfl id
  | @pinned k p s start pages hl =>
    have hactive : s.worker.pipeline.active = none := hroom.1
    have hfew : ¬ pages.length < (p.request.windowRun s.settings p.sent).pages := Nat.not_lt_of_le hl
    exact h.adopt rfl (Pipeline.regions_activate hroom.1 hroom.2 _) (Pipeline.cursor_of_none hactive).symm
      (Pipeline.standing_activate hactive _) rfl rfl (if_neg hfew) rfl (if_neg hfew).symm id
  | issue hcarve => exact h.issue hs hsmall hc hw hcarve
  | release => exact h.release (View.Running.toEngaged hc).transfer hv
  | @askAhead k p s hn hl hb =>
    have hnext := (Attempts.ahead hn hl).nextWindow hs hc hw h
    exact h.lock hnext rfl rfl (View.Running.toEngaged hc).transfer rfl rfl rfl rfl id
  | @shortAhead k p s next pages hl =>
    exact h.decline (if_pos hl) rfl rfl rfl (if_pos hl).symm rfl id
  | @keepNext k p s next pages hl =>
    have hfew : ¬ pages.length < (p.request.windowRun s.settings next).pages := Nat.not_lt_of_le hl
    exact h.adopt rfl (Pipeline.regions_keepNext hroom.2 _) rfl (Pipeline.standing_keepNext hroom.2 _)
      rfl rfl (if_neg hfew) rfl (if_neg hfew).symm id
  | @closeAdvance s =>
    exact h.frame (l := []) rfl (by simp) rfl s.machine.channel.closeAdvance_idle rfl rfl False.elim
  | _ => exact h.frame (l := []) rfl (by simp) rfl rfl rfl rfl False.elim

/-- What is known of the windows at a juncture. -/
structure Tiled (st : Settings) (x : Juncture × Station σ) : Prop where
  windows : Windows (fun _ _ => True) st x.2.worker x.1
  room : x.2.worker.pipeline.HasRoom x.1
  inventory : Inventory x.2 x.1
  tiling : Tiling st x.1 x.2

theorem Path.tiled (hs : st.Valid) (hsmall : st.pageSize ≤ 2 ^ 19) (hst : x.2.settings = st)
    (hc : Control x.2.view x.1) (h : Tiled st x) (hpath : Path A H x y) : Tiled st y := by
  subst hst
  refine Path.keep (P := Tiled x.2.settings) hs hc ?_ h hpath
  intro u v hst hcu hstep hu
  constructor
  case windows => exact hu.windows.step hs (fun _ _ _ => trivial) hst hstep hcu
  case room => exact hu.room.step hstep
  case inventory => exact hu.inventory.step hstep hcu hu.room
  case tiling =>
    exact hu.tiling.step hs hsmall hst hstep hcu hu.windows hu.room hu.inventory.valid

theorem Event.BeforeWish.unlocks {regions : List Region} :
    ∀ e ∈ regions.flatMap Region.unlocks, e.BeforeWish := by
  intro e he
  have hpassive := passive_unlocks _ e he
  cases e with
  | lock => exact absurd rfl (not_lock_unlocks _ _ he _ _ _)
  | _ => exact hpassive

/-- Behind a batch the worker does not rest before it has tried to pin the window behind the active one,
if there is one to pin. -/
theorem Path.tries_released {last : Station σ}
    (h : Path A H (.released k p, s) (.rest, last)) :
    s.worker.pipeline.next.isSome ∨ p.request.len ≤ s.reach p ∨
      ¬ Machine.Pinnable (p.request.host + s.reach p) (p.request.windowLen s.settings (s.reach p)) ∨
      ∃ newest pages, last.machine.history = newest ++
        .lock (p.request.windowRun s.settings (s.reach p)) p.request.direction.writesHost pages ::
          s.machine.history := by
  rcases h.cases_head with heq | ⟨z, hstep, hrest⟩
  · cases heq
  cases hstep with
  | strike hj => exact hj.elim
  | skip hn => exact hn.imp_right .inl
  | unpinnableAhead hn hb => exact .inr (.inr (.inl hb))
  | askAhead hn hl hb =>
    obtain ⟨newest, hlast⟩ := Path.grows hrest
    exact .inr (.inr (.inr ⟨newest, (s.answer p.request (s.reach p)).pages, hlast.symm⟩))

theorem Path.tries_ahead {last : Station σ} (hc : Control s.view (.handed k p))
    (h : Path A H (.handed k p, s) (.rest, last)) :
    s.worker.pipeline.next.isSome ∨ p.request.len ≤ s.reach p ∨
      ¬ Machine.Pinnable (p.request.host + s.reach p) (p.request.windowLen s.settings (s.reach p)) ∨
      ∃ newest pages between, last.machine.history = newest ++
          .lock (p.request.windowRun s.settings (s.reach p)) p.request.direction.writesHost pages ::
            (between ++ s.machine.history) ∧ ∀ e ∈ between, e.BeforeWish := by
  generalize hx : (Juncture.handed k p, s) = x at h
  induction h using ReflTransGen.head_induction_on generalizing s with
  | refl => cases hx
  | @head u v hstep hpath ih =>
    subst hx
    cases hstep with
    | @strike _ _ i hj hi =>
      obtain ⟨l, hh, hsilent⟩ : ∃ l, (s.machine.incur i).history = l ++ s.machine.history ∧
          ∀ e ∈ l, e.Silent := by
        rcases s.machine.incur_cases i with ⟨l, hh, hsilent, -⟩ | ⟨hidle, -⟩
        · exact ⟨l, hh, hsilent⟩
        · cases (View.Running.toEngaged hc).idle.symm.trans hidle
      have hrest := ih (hc.strike hj i) rfl
      have hsettings : (s.strike i).settings = s.settings := Machine.incur_settings _ _
      have hreach : (s.strike i).reach p = s.reach p := rfl
      rw [hsettings, hreach] at hrest
      refine hrest.imp_right (Or.imp_right (Or.imp_right ?_))
      rintro ⟨newest, pages, between, hlast, hbetween⟩
      refine ⟨newest, pages, between ++ l, ?_, ?_⟩
      · rw [hlast, show (s.strike i).machine.history = _ from hh, List.append_assoc]
      · exact List.forall_mem_append.mpr ⟨hbetween, fun e he => (hsilent e he).beforeWish⟩
    | release =>
      have hpipeline : s.release.worker.pipeline = { s.worker.pipeline with done := none } :=
        Pipeline.unpinDone_pipeline _ _
      have hreach : s.release.reach p = s.reach p := by rw [Station.reach, hpipeline]; rfl
      have hreleased := Path.tries_released hpath
      rw [hreach, hpipeline, show s.release.settings = s.settings from
          (s.worker.pipeline.unpinDone_sees s.machine).settings,
        show s.release.machine.history = _ from (s.worker.pipeline.unpinDone_sees s.machine).history]
        at hreleased
      refine hreleased.imp_right (Or.imp_right (Or.imp_right ?_))
      rintro ⟨newest, pages, hlast⟩
      exact ⟨newest, pages, _, hlast, Event.BeforeWish.unlocks⟩

/-- The window is described to its end. -/
theorem Station.reach_issue {start : BatchPlace} {w : Window} {entries : List Entry}
    (hw : s.worker.pipeline.active = some w) (hb : Entry.total entries ≤ w.left) :
    (s.issue p start entries).reach (p.past entries) = p.sent + w.left := by
  have hmoved : (s.issue p start entries).worker.pipeline.active =
      some (w.consume (Entry.total entries)) := by
    simp [issue, Pipeline.consume, hw]
  rw [Window.left] at hb
  rw [reach, hmoved]
  simp only [Progress.past, Option.map_some, Option.getD_some, Window.left, Window.consume]
  omega

theorem Path.pinned_ahead (hs : st.Valid) (hsmall : st.pageSize ≤ 2 ^ 19) {first last : Station σ}
    (hst : first.settings = st) (hc : Control first.view .rest) (h : Tiled st (.rest, first))
    (hnil : first.machine.history = []) (hpath : Path A H (.rest, first) (.rest, last)) :
    PinnedAhead st last.machine.history := by
  subst hst
  intro newer dir start entries older r hh hreq index next hlt
  have hsuffix : .issue dir start entries :: older <:+ last.machine.history := ⟨newer, hh.symm⟩
  obtain ⟨⟨j, x⟩, v, hx, hstep, hv, holder, hnow⟩ :=
    Path.crossing hpath hsuffix (hnil ▸ List.nil_suffix)
  obtain ⟨hcx, hsame⟩ := Path.control (x := (.rest, first)) hs hc hx
  have hset : x.settings = first.settings := hsame
  have htiled := Path.tiled hs hsmall rfl hc h hx
  obtain ⟨k, p, w, rfl, rfl, rfl, hcarve⟩ := hstep.issued hcx holder hnow
  cases hstep with
  | strike hj => exact hj.elim
  | uncarved herror => cases hcarve.symm.trans herror
  | @issue _ _ _ _ _ batch hcarve' =>
    obtain rfl : batch = entries := Except.ok.inj (hcarve'.symm.trans hcarve)
    obtain rfl : r = p.request := Option.some.inj (hreq.symm.trans hcx.1.request)
    obtain ⟨hcarries, hactive, hleft⟩ := htiled.windows
    have hbytes := Window.carve_total_le (hset ▸ hs) (Ring.start?_le hcx.2) hcarve'
    obtain ⟨w', b, hw', hcovers, -, hat, -⟩ := hcarries
    obtain rfl : w = w' := Option.some.inj (hactive.symm.trans hw')
    have hindex : index * first.settings.fullWindow = b := by
      rw [← hcovers.index hs hat hleft, hcx.1.sent]
      rfl
    have hnext : next = b + first.settings.fullWindow := by
      rw [← hindex]
      exact Nat.succ_mul _ _
    -- the window ends inside the request, so it ends where the next one begins
    have hreach : (x.issue p start batch).reach (p.past batch) = next := by
      have hlen := hcovers.len
      rw [Request.windowLen] at hlen
      rw [Station.reach_issue hactive hbytes]
      rw [Window.left] at hleft ⊢
      omega
    have hissue : Step A H (.supplied k p start w, x) (.handed k (p.past batch), x.issue p start batch) :=
      .issue hcarve'
    have hsettings : (x.issue p start batch).settings = first.settings := hissue.settings.trans hset
    have htries := Path.tries_ahead (hcx.step (hset ▸ hs) hissue) hv
    rw [hreach, hsettings] at htries
    rcases htries with hheld | hend | hbeyond | ⟨newest, pages, between, hlast, hbetween⟩
    · left
      obtain ⟨g, hg⟩ : ∃ g, x.worker.pipeline.next = some g := Option.isSome_iff_exists.mp hheld
      exact htiled.tiling.holds_next hs hcx.1.transfer hactive hg (hindex ▸ hat)
    · exact absurd hend (Nat.not_le_of_lt hlt)
    · exact .inr (.inl hbeyond)
    · right; right
      obtain ⟨events, hsilent, hissued⟩ := Station.issue_history hcx.1.busy p start batch
      rw [hissued] at hlast
      refine ⟨newest, pages, between ++ .write (Register.address p.request.direction .lastId)
        (UInt32.ofNat (Ring.lastIdOf start batch)) :: events, ?_, ?_⟩
      · apply (List.append_left_inj (.issue p.request.direction start batch :: x.machine.history)).mp
        rw [← hh, hlast]
        simp [Progress.past]
      · refine List.forall_mem_append.mpr ⟨hbetween, List.forall_mem_cons.mpr ⟨trivial, fun e he => ?_⟩⟩
        exact (hsilent e he).beforeWish

/-- In every run of a worker, whatever the platform answers and whatever strikes meanwhile, the windows
tile the request: they are pinned one after the other, each of them once, and given back in that order;
no other range is ever wished for; and each one is wished for with the first batch of the one before. -/
theorem run_tiles_windows (settings : Settings) (hs : settings.Valid) (hsmall : settings.pageSize ≤ 2 ^ 19)
    (tableBus : Sides Nat) (registers : RegisterFile) (platform : σ) (listener : List (List Incident))
    (acts : List Act) :
    let first := Station.initial settings tableBus registers platform listener
    let last := first.run acts
    Throughout (Tiles settings) last.machine.history ∧
      Throughout (PinnedInOrder settings) last.machine.history ∧
      PinnedAhead settings last.machine.history ∧
      ∀ z r next, Midway (fun _ => True) (fun _ _ => True) first last z → Attempts z r next →
        NextWindow settings z.2.machine.history r next := by
  intro first last
  have hcontrol : Control first.view .rest := Control.initial ..
  have hrun := Path.everyRun first acts
  have hfirst : Tiled settings (.rest, first) :=
    { windows := nofun
      room := rfl
      inventory := Inventory.initial ..
      tiling := ⟨rfl, rfl, nofun, fun _ _ => rfl, nofun, Throughout.nil trivial⟩ }
  have hlast : Tiled settings (.rest, last) := Path.tiled hs hsmall rfl hcontrol hfirst hrun
  refine ⟨hlast.tiling.tiles, ?_, ?_, ?_⟩
  · intro newer older hh
    exact pinnedInOrder_of_tiles (Throughout.older newer (hh ▸ hlast.tiling.tiles))
  · exact Path.pinned_ahead hs hsmall rfl hcontrol hfirst rfl hrun
  · intro z r next hz hattempts
    have hthere : Tiled settings z := Path.tiled hs hsmall rfl hcontrol hfirst hz.1
    exact hattempts.nextWindow hs (Path.control (x := (.rest, first)) hs hcontrol hz.1).1 hthere.windows
      hthere.tiling

end Steps

/-- The second window is pinned with the first batch. -/
theorem run_tiles_windows_ahead :
    let settings : Settings := { windowPages := 1 }
    let request : Request := { direction := .hostToDevice, host := 0x1000, device := 0, len := 0x3000 }
    let first := Station.initial settings (.both 0) .reset ({} : Bench.PageTally) []
    let last := first.run [.strike (.submit request), .serve]
    (pinsOf last.machine.history).map PageRun.base = [0x1000, 0x2000] ∧
      Throughout (Tiles settings) last.machine.history ∧
      Throughout (PinnedInOrder settings) last.machine.history ∧
      PinnedAhead settings last.machine.history ∧
      ∀ z r next, Midway (fun _ => True) (fun _ _ => True) first last z → Attempts z r next →
        NextWindow settings z.2.machine.history r next :=
  ⟨by decide +kernel, run_tiles_windows { windowPages := 1 } (by decide) (by decide) (.both 0) .reset
    ({} : Bench.PageTally) [] _⟩
end ScatterGather
