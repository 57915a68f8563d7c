import ScatterGather.Proofs.Control

/-! # The windows of a transfer

The regions that the pipeline holds are consecutive windows of the request, and the active one
stands at the first byte that was not described. `Q` is what is known of every answer of the
platform to a wish for pages.
-/
namespace ScatterGather

def Platform.Answers (σ : Type) [Platform σ] (Q : PageRun → List Page → Prop) : Prop :=
  ∀ (x : σ) range writable, Q range (Platform.lock x range writable).pages

variable {Q : PageRun → List Page → Prop}

/-- The region is the window of the request that begins at byte `b`. -/
structure Region.Covers (Q : PageRun → List Page → Prop) (g : Region) (r : Request) (s : Settings)
    (b : Nat) : Prop where
  whole : b % s.fullWindow = 0
  inside : b < r.len
  below : r.host + b + r.windowLen s b < addressLimit
  region : g = r.windowRegion s b g.pages
  pages : Q (r.windowRun s b) g.pages
  enough : (r.windowRun s b).pages ≤ g.pages.length

namespace Pipeline

/-- The pipeline carries the window in which byte `x` of the request lies or ends, and at most the
window after it. -/
def Carries (Q : PageRun → List Page → Prop) (q : Pipeline) (r : Request) (s : Settings) (x : Nat) :
    Prop :=
  ∃ w b, q.active = some w ∧ w.region.Covers Q r s b ∧ w.cursor ≤ w.region.len ∧ x = b + w.cursor ∧
    ∀ g, q.next = some g → g.Covers Q r s (b + w.region.len)

structure Turned (Q : PageRun → List Page → Prop) (q : Pipeline) (r : Request) (s : Settings)
    (x : Nat) : Prop where
  active : q.active = none
  whole : x % s.fullWindow = 0
  inside : x < r.len
  next : ∀ g, q.next = some g → g.Covers Q r s x

end Pipeline

/-- What the pipeline holds at a juncture. -/
def Windows (Q : PageRun → List Page → Prop) (s : Settings) (w : Worker) : Juncture → Prop
  | .due _ p => w.pipeline.Carries Q p.request s p.sent ∨
      w.pipeline.active = none ∧ w.pipeline.next = none ∧ p.sent = 0
  | .turned _ p _ => w.pipeline.Turned Q p.request s p.sent
  | .asked _ p _ pages => w.pipeline.Turned Q p.request s p.sent ∧ w.pipeline.next = none ∧
      Q (p.request.windowRun s p.sent) pages ∧
      p.request.host + p.sent + p.request.windowLen s p.sent < addressLimit
  | .supplied _ p _ v => w.pipeline.Carries Q p.request s p.sent ∧ w.pipeline.active = some v ∧
      v.left ≠ 0
  | .handed _ p | .released _ p => w.pipeline.Carries Q p.request s p.sent
  | .askedAhead _ p next pages => w.pipeline.Carries Q p.request s p.sent ∧
      w.pipeline.next = none ∧ Q (p.request.windowRun s next) pages ∧
      p.request.host + next + p.request.windowLen s next < addressLimit ∧ next < p.request.len ∧
      ∀ v, w.pipeline.active = some v → next = p.sent + v.left
  | .broken .. | .told _ => True
  | _ => ∀ p, w.transfer = some p → w.pipeline.Carries Q p.request s p.sent

section Regions
variable {s : Settings} {r : Request} {g : Region} {w : Window} {q : Pipeline} {b x : Nat}

namespace Region.Covers

theorem start (h : g.Covers Q r s b) : g.start = r.host + b := by
  rw [h.region]
  rfl

theorem len (h : g.Covers Q r s b) : g.len = r.windowLen s b := by
  rw [h.region]
  rfl

theorem pageSize (h : g.Covers Q r s b) : g.pageSize = s.pageSize := by
  rw [h.region]
  rfl

theorem len_pos (hs : s.Valid) (h : g.Covers Q r s b) : 0 < g.len := by
  have hw := hs.fullWindow_pos
  have hb := h.inside
  rw [h.len, Request.windowLen]
  omega

theorem next_whole (h : g.Covers Q r s b) (hlt : b + g.len < r.len) :
    (b + g.len) % s.fullWindow = 0 := by
  have hlen := h.len
  rw [Request.windowLen] at hlen
  rw [show g.len = s.fullWindow by omega, Nat.add_mod_right]
  exact h.whole

/-- While bytes are left the window is the one in which byte `x` of the request lies. -/
theorem index (hs : s.Valid) (h : w.region.Covers Q r s b) (hx : x = b + w.cursor)
    (hl : w.left ≠ 0) : x / s.fullWindow * s.fullWindow = b := by
  have hw := hs.fullWindow_pos
  have hlen := h.len
  rw [Request.windowLen] at hlen
  obtain ⟨k, hk⟩ := Nat.dvd_of_mod_eq_zero h.whole
  have hcursor : w.cursor < s.fullWindow := by
    rw [Window.left] at hl
    omega
  rw [hx, hk, Nat.mul_add_div hw, Nat.div_eq_of_lt hcursor, Nat.add_zero, Nat.mul_comm]

/-- While bytes are left the window stands at byte `x` of the request. -/
theorem stands (hs : s.Valid) (h : w.region.Covers Q r s b) (hx : x = b + w.cursor)
    (hl : w.left ≠ 0) : w.Stands r s x := by
  have hlen := h.len
  rw [Request.windowLen] at hlen
  constructor
  · rw [Window.position, h.start, hx, Nat.add_assoc]
  · rw [Window.left, Request.windowEnd, Nat.succ_mul, h.index hs hx hl]
    omega

end Region.Covers

namespace Pipeline

theorem Carries.consume {bytes : Nat} (h : q.Carries Q r s x) (hw : q.active = some w)
    (hb : bytes ≤ w.left) : (q.consume bytes).Carries Q r s (x + bytes) := by
  obtain ⟨w', b, hw', hcovers, hcursor, hx, hnext⟩ := h
  obtain rfl : w = w' := Option.some.inj (hw.symm.trans hw')
  have hle : w.cursor + bytes ≤ w.region.len := by
    rw [Window.left] at hb
    omega
  refine ⟨w.consume bytes, b, by simp [Pipeline.consume, hw], hcovers, ?_, ?_, hnext⟩
  · exact Nat.min_le_right _ _
  · simp only [Window.consume, Nat.min_eq_left hle]
    omega

theorem Carries.turned (h : q.Carries Q r s x) (hd : q.drained) (hx : x < r.len) {q' : Pipeline}
    (ha : q'.active = none) (hn : q'.next = q.next) : q'.Turned Q r s x := by
  obtain ⟨w, b, hw, hcovers, hcursor, rfl, hnext⟩ := h
  have hend : w.cursor = w.region.len := by
    rw [drained, hw] at hd
    have hleft : w.region.len - w.cursor = 0 := of_decide_eq_true hd
    omega
  rw [hend] at hx ⊢
  exact ⟨ha, hcovers.next_whole hx, hx, hn ▸ hnext⟩

/-- A region that is pinned for the byte at which the pipeline stands is its next window. -/
theorem Turned.covers (h : q.Turned Q r s x) {pages : List Page} (hpages : Q (r.windowRun s x) pages)
    (hbelow : r.host + x + r.windowLen s x < addressLimit)
    (henough : (r.windowRun s x).pages ≤ pages.length) :
    (r.windowRegion s x pages).Covers Q r s x :=
  ⟨h.whole, h.inside, hbelow, rfl, hpages, henough⟩

theorem Carries.of_covers (hg : g.Covers Q r s x) {q' : Pipeline}
    (ha : q'.active = some { region := g }) (hn : q'.next = none) : q'.Carries Q r s x :=
  ⟨_, x, ha, hg, Nat.zero_le _, rfl, by simp [hn]⟩

theorem Carries.keepNext (h : q.Carries Q r s x) {next : Nat} {pages : List Page}
    (hnext : ∀ w, q.active = some w → next = x + w.left) (hinside : next < r.len)
    (hpages : Q (r.windowRun s next) pages)
    (hbelow : r.host + next + r.windowLen s next < addressLimit)
    (henough : (r.windowRun s next).pages ≤ pages.length) :
    (q.keepNext (r.windowRegion s next pages)).Carries Q r s x := by
  obtain ⟨w, b, hw, hcovers, hcursor, hx, -⟩ := h
  have hend : next = b + w.region.len := by
    have := hnext w hw
    rw [Window.left] at this
    omega
  subst hend
  refine ⟨w, b, hw, hcovers, hcursor, hx, ?_⟩
  intro g hg
  obtain rfl : r.windowRegion s (b + w.region.len) pages = g := Option.some.inj hg
  exact ⟨hcovers.next_whole hinside, hinside, hbelow, rfl, hpages, henough⟩

end Pipeline
end Regions

section Steps
variable {σ : Type} [Platform σ] {A : Incident → Prop} {H : Act → Worker → Prop}
  {x y : Juncture × Station σ}

theorem Windows.step {st : Settings} (hs : st.Valid) (hq : Platform.Answers σ Q)
    (hst : x.2.settings = st) (hstep : Step A H x y) (hc : Control x.2.view x.1) (h : Windows Q st x.2.worker x.1) :
    Windows Q st y.2.worker y.1 := by
  subst hst
  -- behind a batch only the transfer in hand can be meant
  have hsome {s : Station σ} {k : Errand} {p : Progress} {q : Pipeline} (hr : s.view.Running k p)
      (hcarries : q.Carries Q p.request x.2.settings p.sent) :
      ∀ p', s.worker.transfer = some p' → q.Carries Q p'.request x.2.settings p'.sent := by
    intro p' hp'
    obtain rfl : p' = p := Option.some.inj (hp'.symm.trans hr.transfer)
    exact hcarries
  cases hstep with
  | stop | finish => exact nofun
  | begin hj =>
    obtain ⟨-, ⟨r, -, hqueued⟩ | ⟨p, hr, -⟩⟩ := hc.taken hj
    · refine .inr ⟨?_, ?_, rfl⟩
      · exact congrArg Pipeline.active hqueued.pipeline
      · exact congrArg Pipeline.next hqueued.pipeline
    · cases hr
  | resume hj ht => exact .inl (h _ ht)
  | stale hj ht => exact absurd ht (hc.not_stale hj)
  | complete | fail | refuse | unpinnable | short | uncarved => trivial
  | keep _ _ hw hl =>
    rcases h with hcarries | ⟨hactive, -⟩
    · exact ⟨hcarries, hw, hl⟩
    · cases hw.symm.trans hactive
  | @turn k p s start hr _ hd =>
    have hinside : p.sent < p.request.len := by
      rw [Progress.remaining] at hr
      omega
    rcases h with hcarries | ⟨-, hnext, hzero⟩
    · exact hcarries.turned hd hinside rfl rfl
    · refine ⟨rfl, ?_, hinside, ?_⟩
      · rw [hzero, Nat.zero_mod]
      · intro g hg
        cases hg.symm.trans hnext
  | promote hn =>
    have hcovers := h.next _ hn
    exact ⟨Pipeline.Carries.of_covers hcovers rfl rfl, rfl, Nat.ne_of_gt (hcovers.len_pos hs)⟩
  | ask hn hb => exact ⟨h, hn, hq _ _ _, hb.2⟩
  | @pinned k p s start pages henough =>
    obtain ⟨hturned, hn, hpages, hbelow⟩ := h
    have hcovers := hturned.covers hpages hbelow henough
    exact ⟨Pipeline.Carries.of_covers hcovers rfl hn, rfl, Nat.ne_of_gt (hcovers.len_pos hs)⟩
  | @issue k p s start w entries hcarve =>
    obtain ⟨hcarries, hactive, -⟩ := h
    exact hcarries.consume hactive (Window.carve_total_le hs (Ring.start?_le hc.2) hcarve)
  | @release k p s =>
    obtain ⟨w, b, hw, hrest⟩ := h
    have hpipeline : s.release.worker.pipeline = { s.worker.pipeline with done := none } :=
      Pipeline.unpinDone_pipeline _ _
    simp only [Windows, hpipeline]
    exact ⟨w, b, hw, hrest⟩
  | skip => exact hsome hc h
  | unpinnableAhead => exact hsome hc h
  | @askAhead k p s hn hl hb =>
    refine ⟨h, hn, hq _ _ _, hb.2, hl, ?_⟩
    intro v hv
    have hactive : s.worker.pipeline.active = some v := hv
    rw [Station.reach, hactive]
    rfl
  | shortAhead => exact hsome hc h.1
  | @keepNext k p s next pages henough =>
    obtain ⟨hcarries, -, hpages, hbelow, hinside, hnext⟩ := h
    exact hsome (s := s) hc (hcarries.keepNext hnext hinside hpages hbelow henough)
  | heard =>
    intro p hp
    cases hp.symm.trans (View.Between.transfer hc)
  | _ => exact h

theorem Path.windows {st : Settings} (hs : st.Valid) (hq : Platform.Answers σ Q) (hst : x.2.settings = st) (hc : Control x.2.view x.1)
    (h : Windows Q st x.2.worker x.1) (hpath : Path A H x y) : Windows Q st y.2.worker y.1 := by
  induction hpath with
  | refl => exact h
  | tail hpath hstep ih =>
    obtain ⟨hcontrol, hsame⟩ := Path.control (hst ▸ hs) hc hpath
    exact ih.step hs hq (hsame.trans hst) hstep hcontrol

end Steps
end ScatterGather
