import ScatterGather.Proofs.Inventory
import ScatterGather.Proofs.Validity

/-! # The count of locked pages

The channel counts the pages that the driver has locked. The count is exact as long as the platform
never answers with more pages than it was asked for, and two windows of pages bound it.
-/
namespace ScatterGather

/-- The platform never answers with more pages than it was asked for. -/
def AtMost (range : PageRun) (pages : List Page) : Prop := pages.length ≤ range.pages

def pageCount (regions : List Region) : Nat := (regions.map fun r => r.pages.length).sum

theorem pageCount_cons (r : Region) (rest : List Region) :
    pageCount (r :: rest) = r.pages.length + pageCount rest := rfl

theorem pageCount_append (regions rest : List Region) :
    pageCount (regions ++ rest) = pageCount regions + pageCount rest := by
  simp [pageCount]

theorem length_flatMap_pages (regions : List Region) :
    (regions.flatMap Region.pages).length = pageCount regions := by
  rw [List.length_flatMap]
  rfl

theorem pageCount_le {regions : List Region} {bound : Nat}
    (h : ∀ r ∈ regions, r.pages.length ≤ bound) : pageCount regions ≤ regions.length * bound := by
  induction regions with
  | nil => exact Nat.zero_le _
  | cons r regions ih =>
    have hfirst := h r List.mem_cons_self
    have hrest := ih fun x hx => h x (List.mem_cons_of_mem _ hx)
    rw [pageCount_cons, List.length_cons, Nat.succ_mul]
    omega

/-- A window meets one page more than it is long, if it begins inside a page. -/
theorem pagesMet_le {start len count size : Nat} (hsize : 0 < size) (h : len ≤ count * size) :
    pagesMet start len size ≤ count + 1 := by
  unfold pagesMet
  split
  · exact Nat.zero_le _
  · have hstart := Nat.lt_div_mul_add hsize (a := start)
    have hend : (start + len + size - 1) / size < start / size + count + 2 := by
      apply Nat.div_lt_of_lt_mul
      rw [Nat.mul_add, Nat.mul_add, Nat.mul_comm size (start / size), Nat.mul_comm size count]
      omega
    omega

theorem Settings.Valid.windows_fit {s : Settings} (hs : s.Valid) (h : s.fullWindow < addressLimit) :
    2 * (s.windowPages + 1) < addressLimit := by
  have hpage : 8 ≤ s.pageSize := by
    have hchunk := Nat.pow_le_pow_right (show 0 < 2 by decide) hs.minChunkLog_le
    have hlt := hs.chunk_lt
    have hword := Nat.le_of_dvd hs.pageSize_pos hs.word_dvd_pageSize
    obtain ⟨n, hn⟩ := hs.word_dvd_pageSize
    simp only [minChunkLog, wordBytes] at *
    omega
  have hwindow : s.windowPages * 8 ≤ s.fullWindow := Nat.mul_le_mul_left _ hpage
  simp only [addressLimit] at *
  omega

theorem Request.windowRun_pages_le {s : Settings} (hs : s.Valid) (r : Request) (next : Nat) :
    (r.windowRun s next).pages ≤ s.windowPages + 1 :=
  pagesMet_le hs.pageSize_pos (Nat.min_le_right _ _)

namespace Machine
variable {σ : Type}

@[simp] theorem incur_pagesLocked (m : Machine σ) (i : Incident) :
    (m.incur i).channel.pagesLocked = m.channel.pagesLocked := by
  obtain ⟨work, advanceOpen, idle, direction, waker, tables, h⟩ := m.incur_frame i
  rw [h]

@[simp] theorem incurAll_pagesLocked (m : Machine σ) (incidents : List Incident) :
    (m.incurAll incidents).channel.pagesLocked = m.channel.pagesLocked := by
  induction incidents generalizing m with
  | nil => rfl
  | cons i rest ih => rw [incurAll_cons, ih, incur_pagesLocked]

variable [Platform σ]

@[simp] theorem writeAt_pagesLocked (m : Machine σ) (offset : Nat) (value : UInt32) :
    (m.writeAt offset value).channel.pagesLocked = m.channel.pagesLocked := incurAll_pagesLocked _ _

theorem unpin_pagesLocked {m : Machine σ} {r : Region} {count : Nat} (hv : r.valid = true)
    (h : m.channel.pagesLocked.toNat = r.pages.length + count) :
    (m.unpin r).2.channel.pagesLocked.toNat = count := by
  have hlt := m.channel.pagesLocked.toNat_lt
  have hsize : (UInt64.ofNat r.pages.length).toNat = r.pages.length :=
    UInt64.toNat_ofNat_of_lt' (show r.pages.length < 2 ^ 64 by omega)
  have hle : UInt64.ofNat r.pages.length ≤ m.channel.pagesLocked := by
    rw [UInt64.le_iff_toNat_le]
    omega
  calc
    (m.unpin r).2.channel.pagesLocked.toNat =
        (m.channel.pagesLocked - UInt64.ofNat r.pages.length).toNat := by
      rw [unpin, if_pos hv]
      rfl
    _ = count := by
      rw [UInt64.toNat_sub_of_le _ _ hle]
      omega

theorem unpinEach_pagesLocked {m : Machine σ} {freed : List Region} {count : Nat}
    (hv : ∀ r ∈ freed, r.valid = true)
    (h : m.channel.pagesLocked.toNat = pageCount freed + count) :
    (m.unpinEach freed).channel.pagesLocked.toNat = count := by
  induction freed generalizing m with
  | nil => exact h.trans (Nat.zero_add _)
  | cons r freed ih =>
    rw [pageCount_cons, Nat.add_assoc] at h
    exact ih (fun x hx => hv x (List.mem_cons_of_mem _ hx))
      (unpin_pagesLocked (hv r List.mem_cons_self) h)

omit [Platform σ] in
theorem countLocked_pagesLocked {m : Machine σ} {count : Nat}
    (h : m.channel.pagesLocked.toNat + count < addressLimit) :
    (m.countLocked count).channel.pagesLocked.toNat = m.channel.pagesLocked.toNat + count := by
  have hsize : (UInt64.ofNat count).toNat = count :=
    UInt64.toNat_ofNat_of_lt' (Nat.lt_of_le_of_lt (Nat.le_add_left _ _) h)
  rw [countLocked, UInt64.toNat_add, hsize]
  exact Nat.mod_eq_of_lt h

end Machine

section Pipelines
variable {σ : Type} [Platform σ]

theorem Ring.stage_pagesLocked (ring : Ring) (m : Machine σ) (dir : Direction) (start : BatchPlace)
    (entries : List Entry) :
    (ring.stage m dir start entries).2.channel.pagesLocked = m.channel.pagesLocked := by
  unfold Ring.stage Ring.announce
  cases start.announce <;>
    simp [Machine.record, Machine.mapTable, Machine.programTable, Machine.programFifo,
      Machine.programSize, Machine.writeHalves, Machine.writeRegister, Channel.setTable,
      Channel.setIssued]

end Pipelines

/-- The answer that the worker has in hand is not longer than it was asked for. -/
def Juncture.Exact (st : Settings) : Juncture → Prop
  | asked _ p _ pages => AtMost (p.request.windowRun st p.sent) pages
  | askedAhead _ p next pages => AtMost (p.request.windowRun st next) pages
  | _ => True

/-- What is counted at a juncture. -/
structure Tally {σ : Type} (st : Settings) (s : Station σ) (j : Juncture) : Prop where
  count : s.machine.channel.pagesLocked.toNat = pageCount s.worker.pipeline.regions
  small : ∀ r ∈ s.worker.pipeline.regions, r.pages.length ≤ st.windowPages + 1
  answer : j.Exact st

section Frames
variable {σ : Type} {st : Settings} {s t : Station σ} {j j' : Juncture}

theorem Tally.same (h : Tally st s j)
    (hp : t.machine.channel.pagesLocked = s.machine.channel.pagesLocked)
    (hr : t.worker.pipeline.regions = s.worker.pipeline.regions) (ha : j'.Exact st) :
    Tally st t j' where
  count := by
    rw [hp, hr]
    exact h.count
  small := hr ▸ h.small
  answer := ha

/-- A region that was pinned has exactly the pages that were asked for. -/
theorem Tally.adopt (h : Tally st s j) (hs : st.Valid) (hfit : st.fullWindow < addressLimit)
    {r : Request} {next : Nat} {pages : List Page} (hlow : (r.windowRun st next).pages ≤ pages.length)
    (hhigh : AtMost (r.windowRun st next) pages) (hone : s.worker.pipeline.regions.length ≤ 1)
    (hp : t.machine.channel = (s.machine.countLocked (r.windowRun st next).pages).channel)
    (hr : t.worker.pipeline.regions = s.worker.pipeline.regions ++ [r.windowRegion st next pages])
    (ha : j'.Exact st) : Tally st t j' := by
  have hlen : pages.length = (r.windowRun st next).pages := Nat.le_antisymm hhigh hlow
  have hbound := Request.windowRun_pages_le hs r next
  have hwindows := hs.windows_fit hfit
  have hheld : pageCount s.worker.pipeline.regions ≤ st.windowPages + 1 :=
    calc
      pageCount s.worker.pipeline.regions ≤
          s.worker.pipeline.regions.length * (st.windowPages + 1) := pageCount_le h.small
      _ ≤ 1 * (st.windowPages + 1) := Nat.mul_le_mul_right _ hone
      _ = st.windowPages + 1 := Nat.one_mul _
  refine ⟨?_, ?_, ha⟩
  · rw [hp, Machine.countLocked_pagesLocked (by rw [h.count]; omega), h.count, hr, pageCount_append,
      ← hlen]
    rfl
  · intro g hg
    rcases List.mem_append.mp (hr ▸ hg) with hg | hg
    · exact h.small g hg
    · obtain rfl := List.mem_singleton.mp hg
      exact hlen ▸ hbound

variable [Platform σ]

theorem Tally.freed (h : Tally st s j) (hi : Inventory s j) (freed : List Region)
    (hr : s.worker.pipeline.regions = freed ++ t.worker.pipeline.regions)
    (hp : t.machine.channel.pagesLocked = (s.machine.unpinEach freed).channel.pagesLocked)
    (ha : j'.Exact st) : Tally st t j' := by
  have hvalid := hi.valid
  have hcount := h.count
  have hsmall := h.small
  rw [hr] at hvalid hsmall
  rw [hr, pageCount_append] at hcount
  refine ⟨?_, fun r hm => hsmall r (List.mem_append_right _ hm), ha⟩
  rw [hp]
  exact Machine.unpinEach_pagesLocked (fun r hm => hvalid r (List.mem_append_left _ hm)) hcount

theorem Tally.clear (h : Tally st s j) (hi : Inventory s j) (ht : t.worker.pipeline = {})
    (hp : t.machine.channel.pagesLocked =
      (s.worker.pipeline.unpinAll s.machine).2.channel.pagesLocked)
    (ha : j'.Exact st) : Tally st t j' := by
  rw [Pipeline.unpinAll_eq] at hp
  apply h.freed hi s.worker.pipeline.regions _ hp ha
  rw [ht]
  simp [Pipeline.regions]

theorem Tally.retire (h : Tally st s j) (hi : Inventory s j)
    (hr : s.worker.pipeline.regions = s.worker.pipeline.done.toList ++ t.worker.pipeline.regions)
    (hp : t.machine.channel.pagesLocked =
      (s.worker.pipeline.unpinDone s.machine).2.channel.pagesLocked)
    (ha : j'.Exact st) : Tally st t j' := by
  rw [Pipeline.unpinDone_eq] at hp
  exact h.freed hi _ hr hp ha

end Frames

section Steps
variable {σ : Type} [Platform σ] {A : Incident → Prop} {H : Act → Worker → Prop} {st : Settings}
  {x y : Juncture × Station σ}

theorem Tally.step (hs : st.Valid) (hfit : st.fullWindow < addressLimit)
    (hq : Platform.Answers σ AtMost) (hst : x.2.settings = st) (hstep : Step A H x y)
    (hroom : x.2.worker.pipeline.HasRoom x.1) (hi : Inventory x.2 x.1) (h : Tally st x.2 x.1) :
    Tally st y.2 y.1 := by
  subst hst
  have hlength := hroom.length_le
  cases hstep with
  | strike => exact h.same (Machine.incur_pagesLocked _ _) rfl h.answer
  | @interrupt s status =>
    obtain ⟨work, advanceOpen, waker, he⟩ := s.machine.channel.interrupt_frame status
    exact h.same (by rw [Station.mapChannel, he]) rfl trivial
  | @closeAdvance s =>
    obtain ⟨work, advanceOpen, he⟩ := s.machine.channel.closeAdvance_frame
    exact h.same (by rw [Station.mapChannel, he]) rfl trivial
  | stop | complete | fail => exact h.clear hi rfl rfl trivial
  | @finish s =>
    let marked := s.mapChannel ({ · with finished := true })
    have hmarked : Tally s.settings marked .rest := h.same rfl rfl trivial
    have hheld : Inventory marked .rest := ⟨hi.valid, hi.held, hi.bracketed, hi.few⟩
    exact hmarked.clear hheld rfl rfl trivial
  | @turn k p s => exact h.retire hi (by simp [Station.turn, Pipeline.regions]) rfl trivial
  | @release k p s =>
    refine h.retire hi ?_ rfl trivial
    have hpipeline : s.release.worker.pipeline = { s.worker.pipeline with done := none } :=
      Pipeline.unpinDone_pipeline _ _
    rw [hpipeline]
    simp [Pipeline.regions]
  | ask | askAhead => exact h.same rfl rfl (hq _ _ _)
  | pinned hlow =>
    exact h.adopt hs hfit hlow h.answer (Nat.le_of_succ_le_succ hlength) rfl
      (Pipeline.regions_activate hroom.1 hroom.2 _) trivial
  | keepNext hlow =>
    exact h.adopt hs hfit hlow h.answer (Nat.le_of_succ_le_succ hlength) rfl
      (Pipeline.regions_keepNext hroom.2 _) trivial
  | promote hn => exact h.same rfl (Pipeline.regions_promote hroom hn) trivial
  | issue => exact h.same (Ring.stage_pagesLocked _ _ _ _ _) (Pipeline.regions_consume _ _) trivial
  | _ => exact h.same rfl rfl trivial

theorem Path.tally (hs : st.Valid) (hfit : st.fullWindow < addressLimit)
    (hq : Platform.Answers σ AtMost) (hst : x.2.settings = st) (hc : Control x.2.view x.1)
    (hroom : x.2.worker.pipeline.HasRoom x.1) (hi : Inventory x.2 x.1) (h : Tally st x.2 x.1)
    (hpath : Path A H x y) : Tally st y.2 y.1 := by
  induction hpath with
  | refl => exact h
  | tail hpath hstep ih =>
    obtain ⟨hcontrol, hsame⟩ := Path.control (hst ▸ hs) hc hpath
    obtain ⟨hroom', hheld⟩ := Path.inventory (hst ▸ hs) hc hroom hi hpath
    exact ih.step hs hfit hq (hsame.trans hst) hstep hroom' hheld

omit [Platform σ] in
theorem Tally.initial (settings : Settings) (tableBus : Sides Nat) (registers : RegisterFile)
    (platform : σ) (listener : List (List Incident)) :
    Tally settings (Station.initial settings tableBus registers platform listener) .rest where
  count := rfl
  small _ hr := by cases hr
  answer := trivial

end Steps

/-- No call of the worker is running, or the listener has just been told of the end of a transfer. -/
def Juncture.Quiescent : Juncture → Prop
  | rest | told _ => True
  | _ => False

section Runs
variable {σ : Type} [Platform σ]

/-- The pages of a run from `s` to `t` are accounted for. -/
structure Accounted (s t : Station σ) : Prop where
  bracketed : Bracketed t.machine.history
  balance : Throughout (fun now => (lent now).Perm (returned now ++ (heldRuns now).flatten))
    t.machine.history
  few : Few t.machine.history
  regions : ∀ j x, Midway (fun _ => True) (fun _ _ => True) s t (j, x) →
    (∀ r ∈ x.worker.pipeline.regions, r.valid = true) ∧ x.worker.pipeline.regions.length ≤ 2
  quiescent : ∀ j x, Midway (fun _ => True) (fun _ _ => True) s t (j, x) → j.Quiescent →
    (lent x.machine.history).Perm
      (returned x.machine.history ++ x.worker.pipeline.regions.flatMap Region.pages) ∧
    (x.machine.channel.idle = true → x.worker.pipeline.regions = [])

/-- The count of a run from `s` to `t` is exact when no call is running, and bounded whenever it is
read, also while regions are given back one after the other. -/
structure Counted (st : Settings) (s t : Station σ) : Prop where
  exact : ∀ x, Midway (fun _ => True) (fun _ _ => True) s t (.rest, x) →
    (lent x.machine.history).length =
      (returned x.machine.history).length + x.machine.channel.pagesLocked.toNat
  bounded : ∀ j x freed rest, Midway (fun _ => True) (fun _ _ => True) s t (j, x) →
    x.worker.pipeline.regions = freed ++ rest →
    (x.machine.unpinEach freed).channel.pagesLocked.toNat = pageCount rest ∧
      pageCount rest ≤ 2 * (st.windowPages + 1)

variable {s t : Station σ} {j : Juncture} {x : Station σ}

omit [Platform σ] in
theorem Control.vacant_of_idle (h : Control s.view j) (hj : j.Quiescent)
    (hidle : s.machine.channel.idle = true) : ∃ opened, s.view.Vacant opened := by
  have hbetween {opened : Bool} (hb : s.view.Between opened) : s.view.Vacant opened := by
    rcases hb with hv | ⟨r, hq⟩
    · exact hv
    · cases hidle.symm.trans hq.idle
  cases j with
  | rest =>
    rcases h with hb | ⟨p, hr⟩
    · exact ⟨_, hbetween hb⟩
    · cases hidle.symm.trans hr.idle
  | told => exact ⟨_, hbetween h⟩
  | _ => exact hj.elim

omit [Platform σ] in
/-- Where nothing is in hand, what was handed out and not given back are the pages of the regions. -/
theorem Inventory.lent_perm (h : Inventory x j) (hin : j.inHand = []) :
    (lent x.machine.history).Perm
      (returned x.machine.history ++ x.worker.pipeline.regions.flatMap Region.pages) := by
  have hheld := h.held
  rw [hin, List.append_nil] at hheld
  refine h.bracketed.lent_perm.trans (List.Perm.append_left _ ?_)
  rw [List.flatMap_def]
  exact hheld.flatten

theorem Juncture.Quiescent.inHand (h : j.Quiescent) : j.inHand = [] := by
  cases j with
  | rest | told => rfl
  | _ => exact h.elim

/-- In every run of a worker whose windows fit into the address space, whatever the platform answers,
however incidents strike and however the run is halted: the pages that were handed out and not given
back are those of the regions in the pipeline, and none when the channel is idle; every answer is given
back whole and once; and there are never more than two valid regions. If the platform never answers
with more pages than it was asked for, the count of locked pages is exact whenever no call is running,
and always bounded by two windows with their odd pages. -/
theorem run_accounted (settings : Settings) (hs : settings.Valid)
    (hfit : settings.fullWindow < addressLimit) (tableBus : Sides Nat) (registers : RegisterFile)
    (platform : σ) (listener : List (List Incident)) (acts : List Act) :
    let s := Station.initial settings tableBus registers platform listener
    Accounted s (s.run acts) ∧ (Platform.Answers σ AtMost → Counted settings s (s.run acts)) := by
  intro s
  have hcontrol : Control s.view .rest := Control.initial ..
  have hmoment {j : Juncture} {x : Station σ}
      (hx : Path (fun _ => True) (fun _ _ => True) (.rest, s) (j, x)) :
      Control x.view j ∧ x.worker.pipeline.HasRoom j ∧ Inventory x j := by
    have hinventory := Path.inventory (x := (.rest, s)) hs hcontrol rfl (Inventory.initial ..) hx
    exact ⟨(Path.control (x := (.rest, s)) hs hcontrol hx).1, hinventory⟩
  obtain ⟨-, -, hend⟩ := hmoment (Path.everyRun s acts)
  refine ⟨⟨hend.bracketed, ?_, hend.few, ?_, ?_⟩, ?_⟩
  · intro newer older heq
    have hbracketed : Bracketed (newer ++ older) := heq ▸ hend.bracketed
    exact Bracketed.lent_perm (Throughout.older newer hbracketed)
  · rintro j x ⟨hx, -⟩
    obtain ⟨-, hroom, hheld⟩ := hmoment hx
    exact ⟨hheld.valid, Nat.le_trans (Nat.le_add_right _ _) hroom.length_le⟩
  · rintro j x ⟨hx, -⟩ hj
    obtain ⟨hc, -, hheld⟩ := hmoment hx
    refine ⟨hheld.lent_perm hj.inHand, ?_⟩
    intro hidle
    obtain ⟨opened, hv⟩ := hc.vacant_of_idle hj hidle
    rw [show x.worker.pipeline = {} from hv.pipeline]
    rfl
  · intro hq
    have htally {j : Juncture} {x : Station σ}
        (hx : Path (fun _ => True) (fun _ _ => True) (.rest, s) (j, x)) : Tally settings x j :=
      Path.tally (x := (.rest, s)) hs hfit hq rfl hcontrol rfl (Inventory.initial ..)
        (Tally.initial ..) hx
    constructor
    · rintro x ⟨hx, -⟩
      obtain ⟨-, -, hheld⟩ := hmoment hx
      have hlength := (hheld.lent_perm rfl).length_eq
      rwa [List.length_append, length_flatMap_pages, ← (htally hx).count] at hlength
    · rintro j x freed rest ⟨hx, -⟩ hregions
      obtain ⟨-, hroom, hheld⟩ := hmoment hx
      have hcounted := htally hx
      have hvalid := hheld.valid
      have hsmall := hcounted.small
      have hcount := hcounted.count
      have hlength := hroom.length_le
      rw [hregions] at hvalid hsmall hcount hlength
      rw [pageCount_append] at hcount
      constructor
      · exact Machine.unpinEach_pagesLocked (fun r hm => hvalid r (List.mem_append_left _ hm)) hcount
      · calc
          pageCount rest ≤ rest.length * (settings.windowPages + 1) :=
            pageCount_le fun r hm => hsmall r (List.mem_append_right _ hm)
          _ ≤ 2 * (settings.windowPages + 1) := by
            apply Nat.mul_le_mul_right
            rw [List.length_append] at hlength
            omega

end Runs

theorem Bench.PageTally.at_most : Platform.Answers Bench.PageTally AtMost := by
  intro h range writable
  simpa [AtMost, Platform.lock, Bench.PageTally.lock, PageRun.addresses] using h.grant_le range.pages

/-- A transfer that is stopped with two windows pinned, and one that begins after it. -/
theorem run_accounted_tally :
    let s := Station.initial { windowPages := 1 } (.both 0) .reset ({} : Bench.PageTally) []
    let t := s.run [
      .strike (.submit { direction := .hostToDevice, host := 0x2004, device := 16, len := 0x2000 }),
      .serve, .stop,
      .strike (.submit { direction := .deviceToHost, host := 0x7000, device := 0, len := 0x20 }),
      .serve]
    Accounted s t ∧ Counted { windowPages := 1 } s t := by
  intro s t
  obtain ⟨haccounted, hcounted⟩ := run_accounted { windowPages := 1 } (by decide) (by decide) (.both 0)
    .reset ({} : Bench.PageTally) [] [
      .strike (.submit { direction := .hostToDevice, host := 0x2004, device := 16, len := 0x2000 }),
      .serve, .stop,
      .strike (.submit { direction := .deviceToHost, host := 0x7000, device := 0, len := 0x20 }),
      .serve]
  exact ⟨haccounted, hcounted Bench.PageTally.at_most⟩
end ScatterGather
