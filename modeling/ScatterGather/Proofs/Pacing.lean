import ScatterGather.Proofs.Acknowledgement
import ScatterGather.Proofs.Control
import ScatterGather.Proofs.Hosts

/-! # The worker never runs ahead of the device

As long as only the device stores flags, and only that of the id it was given last, a flag is never
set above that id. So the flag of a batch is zero when the batch is issued, and when an advance is
queued the batch has been acknowledged.
-/
namespace ScatterGather

/-- No flag is set above the id that the controller was given. -/
def Machine.Calm {σ : Type} (m : Machine σ) : Prop :=
  ∀ dir id, id ≤ lastSlot → lastSlot < m.registers.lastId dir ∨ m.registers.lastId dir < id →
    (m.channel.table dir).flag? id = some 0

/-- The batch in flight was acknowledged, or it was handed over and neither its flag is set nor is an
advance queued. -/
def Station.Watched {σ : Type} (s : Station σ) (dir : Direction) : Prop :=
  ∃ last, s.view.Published dir last ∧ (Acknowledged s.machine.history ∨
    HandedOver dir last s.machine.history ∧
      (s.machine.channel.table dir).flag? last = some 0 ∧ s.view.posture.work.isEmpty = true)

theorem Channel.not_completed {c : Channel}
    (h : (c.table c.direction).flag? (c.issued.get c.direction) = some 0) : c.completed = false := by
  simp [completed, h]

section Frames
variable {σ : Type} {m m' : Machine σ} {s t : Station σ} {events : List Event} {dir : Direction}
  {k : Errand} {p : Progress}

theorem Machine.Calm.sees (h : m.Calm) (hs : m.Sees events m') : m'.Calm := by
  intro dir id hid hlast
  rw [hs.registers] at hlast
  rw [Channel.table, hs.tables]
  exact h dir id hid hlast

theorem Station.Watched.sees (h : s.Watched dir) (hs : s.machine.Sees events t.machine)
    (he : ∀ e ∈ events, e.Passive) (ht : t.worker.transfer = s.worker.transfer)
    (hr : t.worker.ring = s.worker.ring) : t.Watched dir := by
  have halike := hs.alike he ht hr
  obtain ⟨last, hl, hstate⟩ := h
  refine ⟨last, halike.published hl, ?_⟩
  rw [hs.history, halike.posture, Channel.table, hs.tables]
  rcases hstate with hack | ⟨hhanded, hflag, hempty⟩
  · exact .inl (hack.append he)
  · exact .inr ⟨hhanded.append he, hflag, hempty⟩

structure Station.Requeued (s t : Station σ) : Prop where
  worker : t.worker = s.worker
  registers : t.machine.registers = s.machine.registers
  history : t.machine.history = s.machine.history
  tables : t.machine.channel.tables = s.machine.channel.tables
  issued : t.machine.channel.issued = s.machine.channel.issued

namespace Station.Requeued

theorem published {last : Nat} (h : s.Requeued t) (hl : s.view.Published dir last) :
    t.view.Published dir last where
  le := hl.le
  ring := by
    simp only [view, h.worker]
    exact hl.ring
  issued := h.issued.trans hl.issued
  held := by
    simp only [view, h.registers]
    exact hl.held

theorem watched (h : s.Requeued t) (hw : s.Watched dir)
    (hd : s.machine.channel.direction = dir)
    (hq : t.view.posture.work.isEmpty = s.view.posture.work.isEmpty ∨
      s.machine.channel.completed = true) : t.Watched dir := by
  obtain ⟨last, hl, hstate⟩ := hw
  refine ⟨last, h.published hl, ?_⟩
  rw [h.history, Channel.table, h.tables]
  rcases hstate with hack | ⟨hhanded, hflag, hempty⟩
  · exact .inl hack
  · rcases hq with hq | hc
    · exact .inr ⟨hhanded, hflag, hq.trans hempty⟩
    · have hissued : s.machine.channel.issued.get dir = last := by
        rw [show s.machine.channel.issued = (Sides.both noId).set dir last from hl.issued,
          Sides.get_set_self]
      subst hd
      rw [Channel.not_completed (hissued ▸ hflag)] at hc
      cases hc

end Station.Requeued

theorem Station.Watched.interrupt (h : s.Watched dir) (hd : s.machine.channel.direction = dir)
    (status : UInt32) : (s.mapChannel fun c => (c.interrupt status).2).Watched dir := by
  rcases s.machine.channel.interrupt_cases status with he | ⟨-, hc, -, he⟩
  · rwa [mapChannel, he]
  · refine Station.Requeued.watched (s := s) ⟨rfl, rfl, rfl, ?_, ?_⟩ h hd (.inr hc) <;>
      rw [mapChannel, he] <;> rfl

theorem Station.Watched.closeAdvance (h : s.Watched dir) (hd : s.machine.channel.direction = dir) :
    (s.mapChannel Channel.closeAdvance).Watched dir := by
  rcases s.machine.channel.closeAdvance_cases with he | ⟨-, hc, he⟩
  · refine Station.Requeued.watched (s := s) ⟨rfl, rfl, rfl, ?_, ?_⟩ h hd (.inl ?_) <;>
      simp only [mapChannel, he, view, Channel.posture]
  · refine Station.Requeued.watched (s := s) ⟨rfl, rfl, rfl, ?_, ?_⟩ h hd (.inr hc) <;>
      rw [mapChannel, he]

end Frames

section Incidents
variable {σ : Type} {m : Machine σ} {s : Station σ} {i : Incident} {dir : Direction} {k : Errand}
  {p : Progress}

theorem Machine.Calm.incur (h : m.Calm) (hi : i.Honest) : (m.incur i).Calm := by
  cases i with
  | flag => exact hi.elim
  | complete dir =>
    simp only [Machine.incur]
    split
    · intro d id hid hlast
      by_cases hd : d = dir
      · subst hd
        have hne : m.registers.lastId d ≠ id := by
          rintro rfl
          rcases hlast with hlast | hlast <;> simp only [record, mapTable] at hlast <;> omega
        simp only [record, mapTable, Channel.setTable, Channel.table, Sides.get_set_self]
        rw [Table.flag?_putFlag_of_ne _ hne]
        exact h d id hid hlast
      · simp only [record, mapTable, Channel.setTable, Channel.table, Sides.get_set_of_ne _ _ hd]
        exact h d id hid hlast
    · exact h
  | interrupt status =>
    obtain ⟨work, advanceOpen, waker, he⟩ := m.channel.interrupt_frame status
    rw [Machine.incur, he]
    exact h
  | submit r =>
    obtain ⟨work, idle, direction, waker, he⟩ := m.channel.submit_frame r
    rw [Machine.incur, he]
    exact h

theorem Paced.incur (h : Paced m.history) (i : Incident) : Paced (m.incur i).history := by
  obtain ⟨events, hh, hsilent | ⟨-, r, rfl⟩⟩ := m.incur_history i <;> rw [hh]
  · exact h.append fun e he => (hsilent e he).passive
  · exact Throughout.cons h trivial

theorem Acknowledged.incur (h : Acknowledged m.history) (i : Incident)
    (hbusy : m.channel.idle = false) : Acknowledged (m.incur i).history := by
  obtain ⟨events, hh, hsilent | ⟨hidle, -⟩⟩ := m.incur_history i
  · rw [hh]
    exact h.append fun e he => (hsilent e he).passive
  · rw [hbusy] at hidle
    cases hidle

theorem Station.Watched.complete (h : s.Watched dir) (d : Direction) :
    (s.strike (.complete d)).Watched dir := by
  simp only [strike, Machine.incur]
  split
  · obtain ⟨last, hl, hstate⟩ := h
    have hpassive : ∀ e ∈ [Event.complete d (s.machine.registers.lastId d)], e.Passive := by
      simp [Event.Passive]
    refine ⟨last, ⟨hl.le, hl.ring, hl.issued, hl.held⟩, ?_⟩
    rcases hstate with hack | ⟨hhanded, hflag, hempty⟩
    · exact .inl (hack.append hpassive)
    · by_cases hd : dir = d
      · subst hd
        -- the register holds the id of the batch, so it is this one that is acknowledged
        have hheld : s.machine.registers.lastId dir = last := hl.held
        simp only [hheld]
        exact .inl hhanded.acknowledged
      · refine .inr ⟨hhanded.append hpassive, ?_, hempty⟩
        simp only [Machine.record, Machine.mapTable, Channel.setTable, Channel.table,
          Sides.get_set_of_ne _ _ hd]
        exact hflag
  · exact h

theorem Station.Watched.strike (h : s.Watched dir) (hd : s.machine.channel.direction = dir)
    (hbusy : s.machine.channel.idle = false) (hi : i.Honest) : (s.strike i).Watched dir := by
  cases i with
  | flag => exact hi.elim
  | complete d => exact h.complete d
  | interrupt status =>
    exact (h.interrupt hd status).sees (t := s.strike (.interrupt status))
      (Machine.record_sees _ _) (by simp [Event.Passive]) rfl rfl
  | submit r =>
    rcases s.machine.channel.submit_cases r with ⟨e, he⟩ | ⟨hidle, -⟩ | ⟨hidle, -⟩
    · have hsees : s.machine.Sees [.submit r (some e)] (s.strike (.submit r)).machine := by
        simp only [Station.strike, Machine.incur, he]
        exact Machine.record_sees _ _
      exact h.sees hsees (by simp [Event.Passive]) rfl rfl
    all_goals
      rw [hbusy] at hidle
      cases hidle

end Incidents

/-- Flow control at a juncture. -/
structure Pacing {σ : Type} (s : Station σ) (j : Juncture) : Prop where
  calm : s.machine.Calm
  paced : Paced s.machine.history
  batch : match j with
    | .due k _ | .turned k _ _ | .asked k _ _ _ | .supplied k _ _ _ | .broken k _ =>
      k = .advance → Acknowledged s.machine.history
    | .told _ => True
    | _ => ∀ p, s.worker.transfer = some p → s.Watched p.request.direction

section Steps
variable {σ : Type} {s t : Station σ} {j : Juncture} {k : Errand} {p : Progress}
  {events : List Event}

theorem Pacing.sees (h : Pacing s j) (hs : s.machine.Sees events t.machine)
    (he : ∀ e ∈ events, e.Passive) (ht : t.worker.transfer = s.worker.transfer)
    (hr : t.worker.ring = s.worker.ring) : Pacing t j where
  calm := h.calm.sees hs
  paced := hs.history ▸ h.paced.append he
  batch := by
    have hbatch := h.batch
    cases j with
    | due | turned | asked | supplied | broken =>
      exact fun hk => hs.history ▸ (hbatch hk).append he
    | told => trivial
    | _ => exact fun p hp => (hbatch p (ht ▸ hp)).sees hs he ht hr

theorem Pacing.strike {i : Incident} (hj : j.Exposed) (hc : Control s.view j) (h : Pacing s j)
    (hi : i.Honest) : Pacing (s.strike i) j where
  calm := h.calm.incur hi
  paced := h.paced.incur i
  batch := by
    have hbatch := h.batch
    have hwatched : (∀ p, s.worker.transfer = some p → s.Watched p.request.direction) →
        ∀ p, s.worker.transfer = some p → (s.strike i).Watched p.request.direction := by
      intro hw p hp
      have he := hc.engaged hp
      exact (hw p hp).strike he.direction he.idle hi
    cases j with
    | asked =>
      -- while a window is awaited the channel is busy, and no request can be accepted
      intro hk
      exact (hbatch hk).incur i hc.1.idle
    | rest | handed | askedAhead => exact hwatched hbatch
    | told => trivial
    | _ => exact hj.elim

/-- An advance that was queued was queued because the batch was acknowledged. -/
theorem Pacing.resume (h : Pacing s .ready)
    (hj : s.takeWork.1 = some .advance) (ht : s.worker.transfer = some p) :
    Pacing s.takeWork.2 (.due .advance p) where
  calm := h.calm
  paced := h.paced
  batch _ := by
    obtain ⟨last, -, hack | ⟨-, -, hempty⟩⟩ := h.batch p ht
    · exact hack
    · rw [show s.takeWork.1 = s.view.posture.work.pop.1 from rfl] at hj
      simp [BoundedQueue.pop, hempty] at hj

theorem Pacing.interrupt (h : Pacing s .rest) (hc : Control s.view .rest) (status : UInt32) :
    Pacing (s.mapChannel fun c => (c.interrupt status).2) .rest where
  calm := by
    obtain ⟨work, advanceOpen, waker, he⟩ := s.machine.channel.interrupt_frame status
    rw [Station.mapChannel, he]
    exact h.calm
  paced := h.paced
  batch _ hp := (h.batch _ hp).interrupt (hc.engaged hp).direction status

theorem Pacing.closeAdvance (h : Pacing s (.closing .advance))
    (hc : Control s.view (.closing .advance)) : Pacing (s.mapChannel Channel.closeAdvance) .ready where
  calm := by
    obtain ⟨work, advanceOpen, he⟩ := s.machine.channel.closeAdvance_frame
    rw [Station.mapChannel, he]
    exact h.calm
  paced := h.paced
  batch _ hp := (h.batch _ hp).closeAdvance (hc.engaged hp).direction

theorem Pacing.drained (h : Pacing s .ready) (hc : Control s.view .ready)
    (hn : s.takeWork.1 = none) : Pacing s.takeWork.2 .rest where
  calm := h.calm
  paced := h.paced
  batch p hp := by
    have hrequeued : s.Requeued s.takeWork.2 := ⟨rfl, rfl, rfl, rfl, rfl⟩
    apply hrequeued.watched (h.batch p hp) (hc.engaged hp).direction
    exact .inl (by rw [hc.drained_view hn])

/-- All bytes were described, so the last batch was acknowledged, or there was nothing to move. -/
theorem Pacing.settled (h : Pacing s (.due k p)) (hc : s.view.Poised k p) (hr : p.remaining = 0)
    (hne : p.request.len ≠ 0) : Acknowledged s.machine.history := by
  cases k with
  | advance => exact h.batch rfl
  | start =>
    have hsent := hc.sent
    rw [Account.bytes, Account.entries, hc.place.batches] at hsent
    simp only [Progress.remaining] at hr
    simp at hsent
    omega

variable [Platform σ]

theorem Pacing.tell {phase : Phase} {outcome : Outcome} (h : Pacing s j)
    (ho : ∀ bytes, outcome = .completed bytes → bytes ≠ 0 → Acknowledged s.machine.history) :
    Pacing (s.tell phase outcome) (.told k) := by
  have hsees := s.worker.pipeline.unpinAll_sees s.machine
  have hpassive : ∀ e ∈ s.worker.pipeline.unlocks, e.Passive := passive_unlocks _
  have hpaced := (h.paced.append hpassive)
  rw [← hsees.history] at hpaced
  have hcalm := h.calm.sees hsees
  refine ⟨hcalm, Throughout.cons hpaced ?_, trivial⟩
  cases outcome with
  | completed bytes => exact fun hb => hsees.history ▸ (ho bytes rfl hb).append hpassive
  | failed cause => trivial

theorem Pacing.stop (h : Pacing s .rest) : Pacing s.stop .rest where
  calm := by
    have hcalm := h.calm.sees (s.worker.pipeline.unpinAll_sees s.machine)
    exact hcalm
  paced := (s.worker.pipeline.unpinAll_sees s.machine).history ▸
    h.paced.append (passive_unlocks _)
  batch _ hp := by cases hp

theorem Pacing.finish (h : Pacing s .rest) : Pacing s.finish .rest := by
  have hstop : Pacing (s.mapChannel ({ · with finished := true })).stop .rest :=
    Pacing.stop ⟨h.calm, h.paced, h.batch⟩
  exact ⟨hstop.calm, hstop.paced, fun _ hp => by cases hp⟩

theorem Ring.start?_place {ring : Ring} {dir : Direction} {start : BatchPlace}
    (h : ring.start? dir = .ok start) : start.announce = true ∨
      start.announce = false ∧ start.id = ring.lastId.get dir + 1 := by
  unfold Ring.start? at h
  dsimp only at h
  split at h
  · simp only [Except.ok.injEq] at h
    exact .inl (by rw [← h])
  · split at h
    · simp only [Except.ok.injEq] at h
      exact .inr ⟨by rw [← h], by rw [← h]⟩
    · cases h

variable {start : BatchPlace} {entries : List Entry}

omit [Platform σ] in
/-- The flags from the last id of a batch on are zero when the batch is issued. -/
theorem Machine.Calm.staged {m : Machine σ} (h : m.Calm) {ring : Ring} {dir : Direction}
    (hstart : ring.start? dir = .ok start) (hring : ring.lastId.get dir = m.registers.lastId dir)
    (hne : entries ≠ []) {id : Nat} (hid : id ≤ lastSlot) (hlast : Ring.lastIdOf start entries ≤ id) :
    ((m.channel.table dir).staged start entries).flag? id = some 0 := by
  have hslot : id < slotCount := Nat.lt_of_le_of_lt hid (by decide)
  rw [Table.staged, Table.flag?_writeAll _ _ hslot]
  -- a new lap zeroes all flags, and within a lap those behind the last id are zero already
  rcases Ring.start?_place hstart with ha | ⟨ha, hplace⟩
  · rw [ha, if_pos rfl, Table.flag?_zeroFlags _ hslot]
  · rw [ha, if_neg (by simp)]
    refine h _ _ hid (.inr ?_)
    have hlen := List.length_pos_iff.mpr hne
    rw [Ring.lastIdOf] at hlast
    omega

theorem Machine.Calm.issue (hq : Platform.Quiet σ) (hc : s.view.Poised k p)
    (hstart : s.worker.ring.start? p.request.direction = .ok start) (h : s.machine.Calm)
    (hne : entries ≠ []) (hlast : Ring.lastIdOf start entries ≤ lastSlot) :
    (s.issue p start entries).machine.Calm := by
  intro dir id hid hlater
  by_cases hd : dir = p.request.direction
  · subst hd
    have hheld := (hc.issue_published hlast).held
    rw [s.issue_table hq]
    apply h.staged hstart hc.ring_held hne hid
    simp only [Station.view] at hheld
    omega
  · have hheld := Station.issue_held_of_ne hc.busy p start entries hd
    rw [s.issue_table_of_ne hq p start entries hd]
    simp only [Station.view] at hheld
    rw [hheld] at hlater
    exact h dir id hid hlater

theorem Pacing.issue (hq : Platform.Quiet σ) (hc : s.view.Poised k p)
    (hstart : s.worker.ring.start? p.request.direction = .ok start) {w : Window}
    (h : Pacing s (.supplied k p start w)) (hne : entries ≠ [])
    (hlast : Ring.lastIdOf start entries ≤ lastSlot) :
    Pacing (s.issue p start entries) (.handed k (p.past entries)) := by
  obtain ⟨events, hsilent, hh⟩ := Station.issue_history hc.busy p start entries
  have hpassive : ∀ e ∈ events, e.Passive := fun e he => (hsilent e he).passive
  have hflag := h.calm.staged hstart hc.ring_held hne hlast (Nat.le_refl _)
  rw [← s.issue_table hq] at hflag
  have hissued : Paced (.issue p.request.direction start entries :: s.machine.history) := by
    apply Throughout.cons h.paced
    intro hbatches
    apply h.batch
    cases k with
    | start => exact absurd hc.place.batches hbatches
    | advance => rfl
  refine ⟨h.calm.issue hq hc hstart hne hlast, ?_, ?_⟩
  · rw [hh]
    exact (hissued.append hpassive).append (l := [_]) (by simp [Event.Passive])
  · intro q hq
    obtain rfl : p.past entries = q := Option.some.inj hq
    refine ⟨_, hc.issue_published hlast, .inr ⟨?_, hflag, ?_⟩⟩
    · rw [hh]
      exact ⟨[], events, start, entries, _, rfl, rfl, fun e he => (hpassive e he).neutral⟩
    · have hwork : (s.issue p start entries).view.posture.work = s.view.posture.work := by
        rw [Station.issue_posture hc.busy]
      rw [hwork, hc.work.isEmpty]
      rfl

variable {H : Act → Worker → Prop} {x y : Juncture × Station σ}

theorem Pacing.step (hq : Platform.Quiet σ) (hs : x.2.settings.Valid)
    (hstep : Step Incident.Honest H x y) (hc : Control x.2.view x.1) (h : Pacing x.2 x.1) :
    Pacing y.2 y.1 := by
  cases hstep with
  | strike hj hi => exact h.strike hj hc hi
  | interrupt => exact h.interrupt hc _
  | setPayload | serve | leave | refuse | keep | promote | unpinnable | pinned | uncarved | skip
  | unpinnableAhead | closeStart => exact ⟨h.calm, h.paced, h.batch⟩
  | stop => exact h.stop
  | finish => exact h.finish
  | drained hn => exact h.drained hc hn
  | begin =>
    refine ⟨h.calm, h.paced.append (l := [_]) (by simp [Event.Passive]), ?_⟩
    intro hk
    cases hk
  | resume hj ht => exact h.resume hj ht
  | stale hj ht => exact absurd ht (hc.not_stale hj)
  | @complete k p s hr =>
    apply h.tell
    intro bytes hb hne
    simp only [Outcome.completed.injEq] at hb
    exact h.settled hc hr (hb ▸ hne)
  | @turn k p s =>
    have hturn := h.sees (t := s.turn) (s.worker.pipeline.unpinDone_sees s.machine)
      (passive_unlocks _) rfl rfl
    exact ⟨hturn.calm, hturn.paced, hturn.batch⟩
  | @ask k p s start =>
    have hask := h.sees (t := s.ask p.request p.sent) (s.machine.asked_sees _ _)
      (by simp [Event.Passive]) rfl rfl
    exact ⟨hask.calm, hask.paced, hask.batch⟩
  | @short k p s start pages =>
    have hshort := h.sees (t := s.decline pages) (s.machine.unlock_sees _ _)
      (by simp [Event.Passive]) rfl rfl
    exact ⟨hshort.calm, hshort.paced, hshort.batch⟩
  | issue hcarve =>
    obtain ⟨hne, hlast⟩ := Window.carve_fits hs (Ring.start?_le hc.2) hcarve
    exact h.issue hq hc.1 hc.2 hne hlast
  | @release k p s =>
    have hrelease := h.sees (t := s.release) (s.worker.pipeline.unpinDone_sees s.machine)
      (passive_unlocks _) rfl rfl
    exact ⟨hrelease.calm, hrelease.paced, hrelease.batch⟩
  | @askAhead k p s =>
    have hask := h.sees (t := s.ask p.request (s.reach p)) (s.machine.asked_sees _ _)
      (by simp [Event.Passive]) rfl rfl
    exact ⟨hask.calm, hask.paced, hask.batch⟩
  | @shortAhead k p s next pages =>
    have hshort := h.sees (t := s.decline pages) (s.machine.unlock_sees _ _)
      (by simp [Event.Passive]) rfl rfl
    exact ⟨hshort.calm, hshort.paced, hshort.batch⟩
  | @keepNext k p s next pages =>
    let kept := (s.count (p.request.windowRun s.settings next).pages).keepNext
      (p.request.windowRegion s.settings next pages)
    have hkept := h.sees (t := kept) (s.machine.countLocked_sees _) (by simp) rfl rfl
    exact ⟨hkept.calm, hkept.paced, hkept.batch⟩
  | fail => exact h.tell (by simp)
  | @heard k s =>
    refine ⟨h.calm, h.paced, ?_⟩
    intro p hp
    cases hp.symm.trans (View.Between.transfer hc)
  | closeAdvance => exact h.closeAdvance hc

theorem Path.pacing (hq : Platform.Quiet σ) (hs : x.2.settings.Valid)
    (hc : Control x.2.view x.1) (h : Pacing x.2 x.1) (hpath : Path Incident.Honest H x y) :
    Pacing y.2 y.1 := by
  induction hpath with
  | refl => exact h
  | tail hpath hstep ih =>
    -- what is agreed on before the last step is known for the whole path before it
    have hcontrol := Path.control hs hc hpath
    exact ih.step hq (hcontrol.2 ▸ hs) hstep hcontrol.1

omit [Platform σ] in
theorem Pacing.initial (settings : Settings) (tableBus : Sides Nat) (registers : RegisterFile)
    (platform : σ) (listener : List (List Incident)) :
    Pacing (Station.initial settings tableBus registers platform listener) .rest where
  calm dir id hid _ := by
    have hflag : Table.HasFlag id := Nat.lt_of_le_of_lt hid (by decide)
    cases dir <;> exact Table.flag?_blank hflag
  paced := .nil trivial
  batch _ hp := by cases hp

/-- In every run of a worker on a controller that was just reset, no batch but the first of its
transfer is issued, and no transfer that moves anything is completed, before the device has flagged
the batch before. -/
theorem run_paced (settings : Settings) (hs : settings.Valid) (tableBus : Sides Nat) (platform : σ)
    (hp : Platform.Within σ Incident.Honest) (hq : Platform.Quiet σ) (listener : List (List Incident))
    (hl : ∀ reaction ∈ listener, ∀ i ∈ reaction, i.Honest) (acts : List Act)
    (ha : ∀ a ∈ acts, a.Within Incident.Honest) :
    Paced ((Station.initial settings tableBus .reset platform listener).run acts).machine.history := by
  let s := Station.initial settings tableBus .reset platform listener
  have hpath := Path.run (s := s) hp hl ha (s.haltsOnly_true acts)
  exact (Path.pacing (x := (.rest, s)) hq hs (Control.initial ..) (Pacing.initial ..) hpath).paced

end Steps

/-- Two transfers with a device that answers at once. The second one is submitted by the listener. -/
theorem run_paced_echo :
    Paced ((Station.initial {} (.both 0) .reset ({ echo := .interrupt } : Bench.ScriptedHost)
      [[.submit { direction := .deviceToHost, host := 0x3000, device := 0, len := 8 }]]).run
      [.strike (.submit { direction := .hostToDevice, host := 0x2ffc, device := 0, len := 8 }),
        .serve, .interrupt 0, .serve]).machine.history :=
  run_paced {} (by decide) _ _ Bench.ScriptedHost.honest Bench.ScriptedHost.quiet _
    (by simp [Incident.Honest]) _ (by simp [Act.Within, Incident.Honest])
end ScatterGather
