import ScatterGather.Proofs.Carvings
import ScatterGather.Proofs.Turns

/-! # Every step keeps the turns

What the channel, the worker and the controller's registers agree on is kept by each step, and so it
holds throughout every run, whatever flags are stored and whatever the platform answers.
-/
namespace ScatterGather

section Steps
variable {σ : Type} {s s' : Station σ} {k : Errand} {p : Progress}

theorem Machine.Sees.alike {events : List Event} (h : s.machine.Sees events s'.machine)
    (he : ∀ e ∈ events, e.Passive) (ht : s'.worker.transfer = s.worker.transfer)
    (hr : s'.worker.ring = s.worker.ring) : s.view.Alike s'.view where
  transfer := ht
  ring := hr
  posture := h.posture
  held := congrArg RegisterFile.lastId h.registers
  account := by
    simp only [Station.view, h.history]
    exact Account.ofHistory_passive he

theorem Station.count_alike (s : Station σ) (pages : Nat) : s.view.Alike (s.count pages).view :=
  ⟨rfl, rfl, rfl, rfl, rfl⟩

theorem Station.activate_alike (s : Station σ) (r : Region) : s.view.Alike (s.activate r).view :=
  ⟨rfl, rfl, rfl, rfl, rfl⟩

theorem Station.promote_alike (s : Station σ) (r : Region) : s.view.Alike (s.promote r).view :=
  ⟨rfl, rfl, rfl, rfl, rfl⟩

theorem Station.keepNext_alike (s : Station σ) (r : Region) : s.view.Alike (s.keepNext r).view :=
  ⟨rfl, rfl, rfl, rfl, rfl⟩

variable [Platform σ]

theorem Station.turn_alike (s : Station σ) : s.view.Alike s.turn.view :=
  (s.worker.pipeline.unpinDone_sees s.machine).alike (passive_unlocks _) rfl rfl

theorem Station.release_alike (s : Station σ) : s.view.Alike s.release.view :=
  (s.worker.pipeline.unpinDone_sees s.machine).alike (passive_unlocks _) rfl rfl

theorem Station.ask_alike (s : Station σ) (r : Request) (next : Nat) :
    s.view.Alike (s.ask r next).view :=
  (s.machine.asked_sees _ _).alike (by simp [Event.Passive]) rfl rfl

theorem Station.decline_alike (s : Station σ) (pages : List Page) :
    s.view.Alike (s.decline pages).view :=
  (s.machine.unlock_sees _ _).alike (by simp [Event.Passive]) rfl rfl

theorem Station.tell_posture (s : Station σ) (phase : Phase) (outcome : Outcome) :
    (s.tell phase outcome).view.posture = { s.view.posture with issued := .both noId, idle := true } := by
  have hsees := s.worker.pipeline.unpinAll_sees s.machine
  have := hsees.posture
  simp only [Channel.posture, Posture.mk.injEq] at this
  simp only [view, tell, reset, unpinAll, mapChannel, Machine.told, Machine.record, Channel.settle,
    Channel.posture, this]

theorem View.Poised.tell (h : s.view.Poised k p) (phase : Phase) (outcome : Outcome) :
    (s.tell phase outcome).view.Vacant k.opened := by
  refine ⟨rfl, rfl, rfl, ?_, ?_, ?_, ?_⟩ <;> rw [Station.tell_posture]
  · exact h.work
  · exact h.advanceOpen

theorem Station.stop_vacant {jobs : List Job} (h : s.view.posture.work.Holds jobs) :
    s.stop.view.Vacant false := by
  have hsees := s.worker.pipeline.unpinAll_sees s.machine
  have hposture : s.stop.view.posture = { s.view.posture with
      work := s.view.posture.work.clear, advanceOpen := false, issued := .both noId, idle := true } := by
    have := hsees.posture
    simp only [Channel.posture, Posture.mk.injEq] at this
    simp only [view, stop, unpinAll, mapChannel, Channel.dropWork, Channel.settle,
      Channel.posture, this]
  refine ⟨rfl, rfl, rfl, ?_, ?_, ?_, ?_⟩ <;> rw [hposture]
  exact h.clear

theorem Station.finish_vacant {jobs : List Job} (h : s.view.posture.work.Holds jobs) :
    s.finish.view.Vacant false := by
  have hwork : (s.mapChannel ({ · with finished := true })).view.posture.work.Holds jobs := h
  have hstop := stop_vacant hwork
  exact ⟨hstop.transfer, hstop.pipeline, hstop.ring, hstop.issued, hstop.work, hstop.advanceOpen,
    hstop.idle⟩

theorem Control.halt_vacant (h : Control s.view .rest) {a : Act} (ha : a.Halts) :
    (s.act a).view.Vacant false := by
  obtain ⟨jobs, hjobs⟩ := h.holds
  cases a with
  | stop => exact Station.stop_vacant hjobs
  | finish => exact Station.finish_vacant hjobs
  | _ => exact ha.elim

theorem Ring.start?_le {ring : Ring} {dir : Direction} {start : BatchPlace}
    (h : ring.start? dir = .ok start) : start.id ≤ lastSlot := by
  unfold Ring.start? at h
  dsimp only at h
  split at h
  · simp only [Except.ok.injEq] at h
    rw [← h]
    exact Nat.zero_le _
  · split at h
    · next hlt =>
      simp only [Except.ok.injEq] at h
      rw [← h]
      exact hlt
    · cases h

section Issue
variable {m m' m'' : Machine σ} {start : BatchPlace} {entries : List Entry}

def Posture.Busy (c : Posture) : Prop :=
  c.idle = false ∧ (c.advanceOpen = true ∨ c.issued = .both noId)

omit [Platform σ] in
theorem View.Poised.busy {v : View} (h : v.Poised k p) : v.posture.Busy := by
  refine ⟨h.idle, ?_⟩
  cases k with
  | start => exact .inr h.place.issued
  | advance => exact .inl h.advanceOpen

/-- There were but silent events, and what is agreed on has not changed. -/
structure Machine.Drifts (m m' : Machine σ) : Prop where
  posture : m'.channel.posture = m.channel.posture
  lastId : ∀ dir, m'.registers.lastId dir = m.registers.lastId dir
  history : ∃ events, m'.history = events ++ m.history ∧ ∀ e ∈ events, e.Silent

omit [Platform σ] in
theorem Machine.Drifts.refl (m : Machine σ) : m.Drifts m := ⟨rfl, fun _ => rfl, [], rfl, by simp⟩

omit [Platform σ] in
theorem Machine.Drifts.trans (h : m.Drifts m') (h' : m'.Drifts m'') : m.Drifts m'' where
  posture := h'.posture.trans h.posture
  lastId dir := (h'.lastId dir).trans (h.lastId dir)
  history := by
    obtain ⟨events, hh, he⟩ := h.history
    obtain ⟨newer, hh', he'⟩ := h'.history
    exact ⟨newer ++ events, by rw [hh', hh, List.append_assoc], List.forall_mem_append.mpr ⟨he', he⟩⟩

omit [Platform σ] in
theorem Machine.incur_drifts (hb : m.channel.posture.Busy) (i : Incident) : m.Drifts (m.incur i) := by
  let s : Station σ := { worker := { ring := { tableBus := .both 0 } }, machine := m }
  have hsame : (s.strike i).view = s.view := by
    rcases s.strike_view i with he | ⟨-, hc, ho, -⟩ | ⟨hi, -⟩
    · exact he
    · -- an advance is open already, or nothing was issued that could be completed
      rcases hb.2 with hopen | hissued
      · cases ho.symm.trans hopen
      · cases hc.symm.trans (Channel.not_completed_of_issued hissued)
    · cases hi.symm.trans hb.1
  refine ⟨congrArg View.posture hsame, fun dir => congrFun (congrArg View.held hsame) dir, ?_⟩
  obtain ⟨events, hh, hsilent | ⟨hidle, -⟩⟩ := m.incur_history i
  · exact ⟨events, hh, hsilent⟩
  · cases hidle.symm.trans hb.1

theorem Ring.announce_drifts (hb : m.channel.posture.Busy) (ring : Ring) (dir : Direction) :
    m.Drifts (ring.announce m dir) :=
  announce_induction dir
    (fun m' _ value hr hm => hm.trans ⟨rfl, fun d => m'.wrote_lastId dir d hr value, [_], rfl, by
      simp [Event.Silent]⟩)
    (fun m' i hm => hm.trans (m'.incur_drifts (hm.posture.symm ▸ hb) i)) ring (.refl m)

/-- What a batch changes for the view before its last id is written, whatever happens meanwhile. -/
theorem Ring.stage_view (hb : m.channel.posture.Busy) (ring : Ring) (dir : Direction)
    (start : BatchPlace) (entries : List Entry) :
    let m' := (ring.stage m dir start entries).2
    m'.channel.posture =
      { m.channel.posture with issued := m.channel.issued.set dir (lastIdOf start entries) } ∧
    (∀ d, m'.registers.lastId d = m.registers.lastId d) ∧
    ∃ events, m'.history = events ++ .issue dir start entries :: m.history ∧
      ∀ e ∈ events, e.Silent := by
  unfold stage
  cases start.announce with
  | false => exact ⟨rfl, fun _ => rfl, [], rfl, by simp⟩
  | true =>
    have hd := ring.announce_drifts (m := ((m.record (.issue dir start entries)).mapTable dir
      Table.zeroFlags).mapTable dir (·.writeAll entries)) hb dir
    have hposture := hd.posture
    simp only [Channel.posture, Posture.mk.injEq] at hposture
    obtain ⟨hwork, hopen, hidle, hdir, hissued⟩ := hposture
    refine ⟨?_, hd.lastId, hd.history⟩
    simp only [if_true, Channel.posture, Channel.setIssued, hwork, hopen, hidle, hdir, hissued]
    rfl

variable (hb : s.machine.channel.posture.Busy)
include hb

theorem Station.issue_posture (p : Progress) (start : BatchPlace) (entries : List Entry) :
    (s.issue p start entries).view.posture = { s.view.posture with
      issued := s.view.posture.issued.set p.request.direction (Ring.lastIdOf start entries) } :=
  (s.worker.ring.stage_view hb p.request.direction start entries).1

/-- A batch is in the history before the write of its last id, which is the latest event. -/
theorem Station.issue_history (p : Progress) (start : BatchPlace) (entries : List Entry) :
    ∃ events, (∀ e ∈ events, e.Silent) ∧ (s.issue p start entries).machine.history =
      .write (Register.address p.request.direction .lastId)
          (UInt32.ofNat (Ring.lastIdOf start entries)) ::
        (events ++ .issue p.request.direction start entries :: s.machine.history) := by
  obtain ⟨events, hh, he⟩ := (s.worker.ring.stage_view hb p.request.direction start entries).2.2
  exact ⟨events, he, by rw [← hh]; rfl⟩

theorem Station.issue_account (p : Progress) (start : BatchPlace) (entries : List Entry) :
    (s.issue p start entries).view.account =
      { s.view.account with batches := s.view.account.batches ++ [entries] } := by
  obtain ⟨events, he, hh⟩ := s.issue_history hb p start entries
  rw [view, hh, Account.ofHistory_cons, Account.ofHistory_passive fun e hmem => (he e hmem).passive]
  rfl

theorem Station.issue_held_of_ne (p : Progress) (start : BatchPlace) (entries : List Entry)
    {dir : Direction} (hd : dir ≠ p.request.direction) :
    (s.issue p start entries).view.held dir = s.view.held dir := by
  have hne : Register.address dir .lastId ≠ Register.address p.request.direction .lastId := fun h =>
    hd (Register.address_inj.mp h).1
  calc
    (s.issue p start entries).view.held dir =
        (s.worker.ring.stage s.machine p.request.direction start entries).2.registers.lastId dir :=
      congrArg UInt32.toNat (RegisterFile.read_write_of_ne _ _ hne)
    _ = s.view.held dir :=
      (s.worker.ring.stage_view hb p.request.direction start entries).2.1 dir

omit hb

theorem Station.issue_held (p : Progress) (hlast : Ring.lastIdOf start entries ≤ lastSlot) :
    (s.issue p start entries).view.held p.request.direction = Ring.lastIdOf start entries := by
  have hlt : Ring.lastIdOf start entries < UInt32.size := Nat.lt_of_le_of_lt hlast (by decide)
  calc
    (s.issue p start entries).view.held p.request.direction =
        (UInt32.ofNat (Ring.lastIdOf start entries)).toNat :=
      congrArg UInt32.toNat (RegisterFile.read_write_self ..)
    _ = Ring.lastIdOf start entries := UInt32.toNat_ofNat_of_lt' hlt

theorem Station.issue_table (hq : Platform.Quiet σ) (s : Station σ) (p : Progress)
    (start : BatchPlace) (entries : List Entry) :
    (s.issue p start entries).machine.channel.table p.request.direction =
      (s.machine.channel.table p.request.direction).staged start entries :=
  (congrArg (·.get p.request.direction) (Ring.stage_tables hq ..)).trans (Sides.get_set_self _ _ _)

theorem Station.issue_table_of_ne (hq : Platform.Quiet σ) (s : Station σ) (p : Progress)
    (start : BatchPlace) (entries : List Entry) {dir : Direction} (hd : dir ≠ p.request.direction) :
    (s.issue p start entries).machine.channel.table dir = s.machine.channel.table dir :=
  (congrArg (·.get dir) (Ring.stage_tables hq ..)).trans (Sides.get_set_of_ne _ _ hd)

theorem View.Poised.issue_published (h : s.view.Poised k p)
    (hlast : Ring.lastIdOf start entries ≤ lastSlot) :
    (s.issue p start entries).view.Published p.request.direction (Ring.lastIdOf start entries) := by
  have hboth : s.view.worker.ring.lastId.set p.request.direction (Ring.lastIdOf start entries) =
        (Sides.both noId).set p.request.direction (Ring.lastIdOf start entries) ∧
      s.view.posture.issued.set p.request.direction (Ring.lastIdOf start entries) =
        (Sides.both noId).set p.request.direction (Ring.lastIdOf start entries) := by
    cases k with
    | start =>
      rw [h.place.ring, h.place.issued, Sides.set_set]
      exact ⟨rfl, rfl⟩
    | advance =>
      obtain ⟨-, last, hl⟩ := h.place
      rw [hl.ring, hl.issued, Sides.set_set]
      exact ⟨rfl, rfl⟩
  refine ⟨hlast, hboth.1, ?_, ?_⟩
  · rw [Station.issue_posture h.busy]
    exact hboth.2
  · exact Station.issue_held p hlast

theorem View.Poised.issue (h : s.view.Poised k p) (hlast : Ring.lastIdOf start entries ≤ lastSlot) :
    (s.issue p start entries).view.Running k (p.past entries) := by
  have hposture := Station.issue_posture h.busy p start entries
  have haccount := Station.issue_account h.busy p start entries
  refine ⟨⟨rfl, ?_, ?_, h.aligned, ?_, ?_⟩, ?_, ⟨_, h.issue_published hlast⟩, .inl ?_⟩
  · rw [hposture]
    exact h.idle
  · rw [hposture]
    exact h.direction
  · rw [haccount]
    exact h.request
  · rw [haccount]
    simp [Progress.past, Account.bytes, Account.entries, h.sent, Entry.total_append]
  · rw [haccount]
    simp
  · rw [hposture]
    exact ⟨h.work, h.advanceOpen⟩

end Issue

variable {A : Incident → Prop} {H : Act → Worker → Prop} {x y : Juncture × Station σ}

theorem Step.settings (h : Step A H x y) :
    y.2.settings = x.2.settings := by
  cases h with
  | strike => exact Machine.incur_settings _ _
  | @interrupt s status =>
    obtain ⟨work, advanceOpen, waker, h⟩ := s.machine.channel.interrupt_frame status
    simp only [Station.settings, Station.mapChannel, h]
  | @closeAdvance s =>
    obtain ⟨work, advanceOpen, h⟩ := s.machine.channel.closeAdvance_frame
    simp only [Station.settings, Station.mapChannel, h]
  | issue => exact stage_settings _ _ _ _ _
  | @stop s => exact (s.worker.pipeline.unpinAll_sees s.machine).settings
  | @finish s => exact (s.worker.pipeline.unpinAll_sees _).settings
  | @complete k p s => exact (s.worker.pipeline.unpinAll_sees s.machine).settings
  | @fail k cause s => exact (s.worker.pipeline.unpinAll_sees s.machine).settings
  | @turn k p s => exact (s.worker.pipeline.unpinDone_sees s.machine).settings
  | @release k p s => exact (s.worker.pipeline.unpinDone_sees s.machine).settings
  | _ => rfl

/-- Every step keeps the agreement. -/
theorem Control.step (hs : x.2.settings.Valid) (h : Step A H x y)
    (hc : Control x.2.view x.1) : Control y.2.view y.1 := by
  cases h with
  | strike hj => exact hc.strike hj _
  | interrupt status => exact Control.strike (j := .rest) trivial hc (.interrupt status)
  | setPayload => exact hc
  | stop =>
    obtain ⟨jobs, hjobs⟩ := hc.holds
    exact .inl (.inl (Station.stop_vacant hjobs))
  | finish =>
    obtain ⟨jobs, hjobs⟩ := hc.holds
    exact .inl (.inl (Station.finish_vacant hjobs))
  | serve => exact hc
  | leave => exact hc
  | drained hn => exact hc.drained hn
  | begin hj => exact hc.begin hj
  | resume hj ht => exact hc.resume hj ht
  | stale hj ht => exact absurd ht (hc.not_stale hj)
  | complete => exact .inl (View.Poised.tell hc _ _)
  | refuse => exact ⟨_, hc⟩
  | keep _ hstart => exact ⟨hc, hstart⟩
  | turn _ hstart => exact ⟨(Station.turn_alike _).poised hc, hstart⟩
  | promote => exact ⟨(Station.promote_alike _ _).poised hc.1, hc.2⟩
  | unpinnable => exact ⟨_, hc.1⟩
  | ask => exact ⟨(Station.ask_alike _ _ _).poised hc.1, hc.2⟩
  | short => exact ⟨_, (Station.decline_alike _ _).poised hc.1⟩
  | pinned => exact ⟨((Station.count_alike _ _).trans (Station.activate_alike _ _)).poised hc.1, hc.2⟩
  | uncarved => exact ⟨_, hc.1⟩
  | issue hcarve => exact hc.1.issue (Window.carve_fits hs (Ring.start?_le hc.2) hcarve).2
  | release => exact (Station.release_alike _).running hc
  | skip => exact .inr ⟨_, hc⟩
  | unpinnableAhead => exact .inr ⟨_, hc⟩
  | askAhead => exact (Station.ask_alike _ _ _).running hc
  | shortAhead => exact .inr ⟨_, (Station.decline_alike _ _).running hc⟩
  | keepNext => exact .inr ⟨_, ((Station.count_alike _ _).trans (Station.keepNext_alike _ _)).running hc⟩
  | fail =>
    obtain ⟨p, hpoised⟩ := hc
    exact .inl (hpoised.tell _ _)
  | heard => exact .inl hc
  | closeStart => exact hc
  | closeAdvance =>
    rcases hc with hb | ⟨p, hr⟩
    · exact .inl (Station.closeAdvance_between hb)
    · exact .inr ⟨p, Station.closeAdvance_running hr⟩

theorem Path.control (hs : x.2.settings.Valid)
    (hc : Control x.2.view x.1) (h : Path A H x y) : Control y.2.view y.1 ∧ y.2.settings = x.2.settings := by
  induction h with
  | refl => exact ⟨hc, rfl⟩
  | tail _ hstep ih => exact ⟨ih.1.step (ih.2 ▸ hs) hstep, hstep.settings.trans ih.2⟩

/-- Behind every job the worker is ready for the next one. -/
theorem Control.handle {job : Job} (hs : s.settings.Valid) (hc : Control s.view .ready)
    (hj : s.takeWork.1 = some job) : Control (s.takeWork.2.handle job).view .ready ∧
      (s.takeWork.2.handle job).settings = s.settings :=
  Path.control (x := (.ready, s)) hs hc (Path.handled hj)

end Steps
end ScatterGather
