import ScatterGather.Proofs.Drains
import ScatterGather.Proofs.Rests
import ScatterGather.Proofs.Tallies
import ScatterGather.Proofs.Watches

/-! # After a worker was halted

A worker that was stopped sleeps: flags of the batch it abandoned, interrupts and refused requests pass
by, until a request is accepted. A worker that was finished sleeps for good.
-/
namespace ScatterGather

/-- Events that need no one to act: flags, interrupts that bring no work, and refused requests. -/
def Event.Unheeded : Event → Prop
  | complete .. | flag .. => True
  | interrupt _ report => report.batchDone = false ∧ report.advanceQueued = false
  | submit _ refusal => refusal ≠ none
  | _ => False

/-- A submission was refused because the channel is finished. -/
def Event.Barred : Event → Prop
  | submit _ refusal => refusal = some (.settings .finished)
  | _ => True

/-- Nothing happens that anyone has to act on, until a request is accepted. -/
def Lull (events : List Event) : Prop :=
  ∀ newer e older, events = newer ++ e :: older → e.Unheeded ∨ ∃ r, .submit r none ∈ e :: older

theorem Lull.append {events newer : List Event} (hn : Lull newer) (he : ∀ e ∈ events, e.Unheeded) :
    Lull (newer ++ events) := by
  intro latest e older heq
  rcases List.append_eq_append_iff.mp heq with ⟨between, -, hevents⟩ | ⟨between, hnewer, holder⟩
  · exact .inl (he e (by simp [hevents]))
  · cases between with
    | nil => exact .inl (he e (by rw [List.nil_append] at holder; simp [← holder]))
    | cons first between =>
      obtain ⟨rfl, rfl⟩ := List.cons.inj holder
      refine (hn latest e between hnewer).imp_right fun ⟨r, hr⟩ => ⟨r, ?_⟩
      exact List.mem_append_left events hr

theorem Lull.accepted (newer : List Event) (r : Request) : Lull (newer ++ [.submit r none]) := by
  intro latest e older heq
  refine .inr ⟨r, ?_⟩
  have hlast : (e :: older).getLast? = some (.submit r none) := by
    have := congrArg List.getLast? heq
    simpa using this.symm
  exact List.mem_of_getLast? hlast

theorem Channel.interrupt_of_idle {c : Channel} (h : c.idle = true) (status : UInt32) :
    c.interrupt status = ({ kernelDone := status &&& kernelDoneBit != 0 }, c) := by
  simp [interrupt, h]

theorem Channel.submit_of_finished {c : Channel} (h : c.finished = true) (r : Request) :
    c.submit r = (some (.settings .finished), c) := if_pos h

section Sleep
variable {σ : Type} {s t u : Station σ} {events newer : List Event}

/-- Nothing was done, and all that was seen went unheeded. -/
structure Station.Idled (s : Station σ) (events : List Event) (t : Station σ) : Prop where
  watches : s.machine.Watches events t.machine
  unheeded : ∀ e ∈ events, e.Unheeded
  platform : t.machine.platform = s.machine.platform
  listener : t.machine.listener = s.machine.listener

theorem Station.Idled.trans (h : s.Idled events t) (h' : t.Idled newer u) :
    s.Idled (newer ++ events) u :=
  ⟨h.watches.trans h'.watches, List.forall_mem_append.mpr ⟨h'.unheeded, h.unheeded⟩,
    h'.platform.trans h.platform, h'.listener.trans h.listener⟩

/-- Nothing is to be done, and nothing was done since the worker was halted. -/
structure Station.Asleep (s : Station σ) : Prop extends s.Bare where
  idle : s.machine.channel.idle = true
  work : s.machine.channel.work.Holds []
  phase : s.worker.phase = if s.machine.channel.finished then .finished else .idle

/-- The station went on sleeping; if it was finished, then it still is, and it let nothing in. -/
structure Station.Sleeps (s : Station σ) (events : List Event) (t : Station σ) : Prop where
  idled : s.Idled events t
  asleep : t.Asleep
  finished : s.machine.channel.finished = true →
    t.machine.channel.finished = true ∧ ∀ e ∈ events, e.Barred

theorem Station.Sleeps.trans (h : s.Sleeps events t) (h' : t.Sleeps newer u) :
    s.Sleeps (newer ++ events) u where
  idled := h.idled.trans h'.idled
  asleep := h'.asleep
  finished hf := by
    obtain ⟨ht, hevents⟩ := h.finished hf
    obtain ⟨hu, hnewer⟩ := h'.finished ht
    exact ⟨hu, List.forall_mem_append.mpr ⟨hnewer, hevents⟩⟩

namespace Station.Asleep

theorem view (h : s.Asleep) : s.view.Vacant false :=
  ⟨h.transfer, h.pipeline, h.ring, h.issued, h.work, h.advanceOpen, h.idle⟩

theorem of_vacant (h : s.view.Vacant false)
    (hp : s.worker.phase = if s.machine.channel.finished then .finished else .idle) : s.Asleep :=
  ⟨⟨h.transfer, h.pipeline, h.advanceOpen, h.ring, h.issued⟩, h.idle, h.work, hp⟩

theorem same (h : s.Asleep) (hw : t.worker = s.worker)
    (hc : ∃ payload tables, t.machine.channel = { s.machine.channel with payload, tables }) :
    t.Asleep := by
  obtain ⟨payload, tables, hc⟩ := hc
  constructor
  case toBare =>
    exact ⟨hw ▸ h.transfer, hw ▸ h.pipeline, hc ▸ h.advanceOpen, hw ▸ h.ring, hc ▸ h.issued⟩
  case idle => exact hc ▸ h.idle
  case work => exact hc ▸ h.work
  case phase => exact hw ▸ hc ▸ h.phase

/-- An incident passes by, unless it is a submission that is accepted. -/
theorem strike (h : s.Asleep) (i : Incident) :
    (s.machine.channel.finished = false ∧
      ∃ r, (s.strike i).machine.history = .submit r none :: s.machine.history) ∨
    s.Sleeps (s.machine.traces i) (s.strike i) := by
  have hsleeps (hc : ∃ tables, (s.strike i).machine.channel = { s.machine.channel with tables })
      (hu : ∀ e ∈ s.machine.traces i, e.Unheeded)
      (hb : s.machine.channel.finished = true → ∀ e ∈ s.machine.traces i, e.Barred) :
      s.Sleeps (s.machine.traces i) (s.strike i) := by
    obtain ⟨tables, hc⟩ := hc
    constructor
    case idled =>
      exact ⟨s.machine.incur_watches i, hu, s.machine.incur_platform i, s.machine.incur_listener i⟩
    case asleep => exact h.same rfl ⟨_, tables, hc⟩
    case finished => exact fun hf => ⟨(congrArg Channel.finished hc).trans hf, hb hf⟩
  cases i with
  | complete dir =>
    have hflag : ∀ e ∈ s.machine.traces (.complete dir), e.Unheeded ∧ e.Barred := by
      simp only [Machine.traces]
      split <;> simp [Event.Unheeded, Event.Barred]
    refine .inr (hsleeps ?_ (fun e he => (hflag e he).1) fun _ e he => (hflag e he).2)
    simp only [Station.strike, Machine.incur]
    split <;> exact ⟨_, rfl⟩
  | flag => exact .inr (hsleeps ⟨_, rfl⟩ (by simp [Machine.traces, Event.Unheeded])
      (by simp [Machine.traces, Event.Barred]))
  | interrupt status =>
    have hpasses := Channel.interrupt_of_idle h.idle status
    refine .inr (hsleeps ⟨_, congrArg Prod.snd hpasses⟩ ?_ (by simp [Machine.traces, Event.Barred]))
    simp [Machine.traces, hpasses, Event.Unheeded]
  | submit r =>
    rcases s.machine.channel.submit_cases r with ⟨cause, hr⟩ | ⟨-, hfull, -⟩ | ⟨-, -, hopen, hr⟩
    · refine .inr (hsleeps ⟨_, congrArg Prod.snd hr⟩ (by simp [Machine.traces, hr, Event.Unheeded]) ?_)
      intro hf
      simp [Machine.traces, Channel.submit_of_finished hf, Event.Barred]
    · rw [h.work.isFull] at hfull
      cases hfull
    · refine .inl ⟨hopen, r, ?_⟩
      simp only [Station.strike, Machine.incur, hr]
      rfl

variable [Platform σ]

theorem serve (h : s.Asleep) : s.serve = (0, s) := Station.serveUpTo_nil h.work _

theorem halt (h : s.Asleep) {a : Act} (ha : a.Halts) : s.Sleeps [] (s.act a) := by
  have hvacant := Control.halt_vacant (s := s) (.inl (.inl h.view)) ha
  have hunpinned (m : Machine σ) : (s.worker.pipeline.unpinAll m).2 = m := by
    rw [h.pipeline]
    rfl
  have hidled {c : Channel} (hm : (s.act a).machine = { s.machine with channel := c })
      (hc : c.tables = s.machine.channel.tables) : s.Idled [] (s.act a) := by
    refine ⟨⟨?_, by simp, ?_, ?_⟩, by simp, ?_, ?_⟩ <;> rw [hm]
    · rfl
    · exact hc
  cases a with
  | stop =>
    have hm : s.stop.machine = { s.machine with channel := s.machine.channel.dropWork.settle } := by
      simp only [Station.stop, Station.unpinAll, Station.mapChannel, hunpinned]
    have hfinished : s.stop.machine.channel.finished = s.machine.channel.finished := by
      rw [hm]
      rfl
    refine ⟨hidled hm rfl, .of_vacant hvacant ?_, fun hf => ⟨hfinished.trans hf, by simp⟩⟩
    have hphase : s.stop.worker.phase = if s.worker.phase = .finished then .finished else .idle := rfl
    rw [Station.act, hphase, hfinished, h.phase]
    cases s.machine.channel.finished <;> rfl
  | finish =>
    have hm : s.finish.machine = { s.machine with
        channel := ({ s.machine.channel with finished := true } : Channel).dropWork.settle } := by
      simp only [Station.finish, Station.stop, Station.unpinAll, Station.mapChannel, hunpinned]
    have hfinished : s.finish.machine.channel.finished = true := by
      rw [hm]
      rfl
    refine ⟨hidled hm rfl, .of_vacant hvacant ?_, fun _ => ⟨hfinished, by simp⟩⟩
    rw [Station.act, hfinished]
    rfl
  | _ => exact ha.elim

/-- Whatever is called, the station sleeps on, unless a request was accepted. -/
theorem act (h : s.Asleep) (a : Act) :
    (s.machine.channel.finished = false ∧
      ∃ r, (s.act a).machine.history = .submit r none :: s.machine.history) ∨
    ∃ events, s.Sleeps events (s.act a) := by
  have hsame : s.Sleeps [] s := ⟨⟨.refl _, by simp, rfl, rfl⟩, h, fun hf => ⟨hf, by simp⟩⟩
  cases a with
  | strike i => exact (h.strike i).imp_right fun hs => ⟨_, hs⟩
  | interrupt status =>
    have hpasses : s.act (.interrupt status) = s := by
      rw [Station.act, Station.mapChannel, Channel.interrupt_of_idle h.idle]
    exact .inr ⟨[], hpasses.symm ▸ hsame⟩
  | serve =>
    have hnone : s.act .serve = s := congrArg Prod.snd h.serve
    exact .inr ⟨[], hnone.symm ▸ hsame⟩
  | stop => exact .inr ⟨[], h.halt (a := .stop) trivial⟩
  | finish => exact .inr ⟨[], h.halt (a := .finish) trivial⟩
  | setPayload payload =>
    exact .inr ⟨[], ⟨⟨rfl, by simp, rfl, rfl⟩, by simp, rfl, rfl⟩, h.same rfl ⟨_, _, rfl⟩,
      fun hf => ⟨hf, by simp⟩⟩

/-- Until a request is accepted, the station sleeps. -/
theorem run (h : s.Asleep) (acts : List Act) : ∃ events,
    (s.run acts).machine.history = events ++ s.machine.history ∧ Lull events ∧
    (s.machine.channel.finished = false ∧ (∃ r, .submit r none ∈ events) ∨
      s.Sleeps events (s.run acts)) := by
  induction acts generalizing s with
  | nil => exact ⟨[], rfl, by simp [Lull], .inr ⟨⟨.refl _, by simp, rfl, rfl⟩, h, fun hf => ⟨hf, by simp⟩⟩⟩
  | cons a acts ih =>
    rcases h.act a with ⟨hopen, r, hr⟩ | ⟨events, hs⟩
    · obtain ⟨newer, hn⟩ := (Path.everyRun (s.act a) acts).grows
      refine ⟨newer ++ [.submit r none], ?_, .accepted newer r, .inl ⟨hopen, r, by simp⟩⟩
      rw [List.append_assoc, List.singleton_append, ← hr]
      exact hn.symm
    · obtain ⟨newer, hn, hlull, hrest⟩ := ih hs.asleep
      refine ⟨newer ++ events, ?_, hlull.append hs.idled.unheeded, ?_⟩
      · rw [List.append_assoc, ← hs.idled.watches.history]
        exact hn
      · rcases hrest with ⟨hopen, r, hr⟩ | hrest
        · refine .inl ⟨?_, r, List.mem_append_left _ hr⟩
          rw [← Bool.not_eq_true]
          exact fun hf => by cases hopen.symm.trans (hs.finished hf).1
        · exact .inr (hs.trans hrest)

end Station.Asleep

/-- All pages were given back, and nothing else was seen. -/
structure Station.Empties (s t : Station σ) : Prop where
  pipeline : t.worker.pipeline = {}
  history : t.machine.history = s.worker.pipeline.unlocks ++ s.machine.history
  held : heldRuns t.machine.history = []

/-- How a finished worker is found, whatever came after it was finished as `s`. -/
structure Station.Final [Platform σ] (s t : Station σ) : Prop where
  idled : ∃ events, s.Idled events t ∧ ∀ e ∈ events, e.Barred
  submit : ∀ r, t.machine.channel.submit r = (some (.settings .finished), t.machine.channel)
  create : ∀ tableBus, Worker.create t.machine.channel tableBus = .error .finished
  serve : t.serve = (0, t)
  phase : t.worker.phase = .finished
  idle : t.machine.channel.idle = true

/-- How a stopped worker is found, whatever came after it was stopped as `s`. -/
structure Station.Stopped (s t : Station σ) (events : List Event) : Prop where
  history : t.machine.history = events ++ s.machine.history
  lull : Lull events
  asleep : (∀ r, .submit r none ∉ events) → s.Idled events t ∧ t.Asleep

/-- What halting the worker does, and what can come after it. -/
structure Station.Halting [Platform σ] (s : Station σ) (later : List Act) : Prop where
  finish_empties : s.Empties s.finish
  final : s.finish.Final (s.finish.run later)
  stop_empties : s.Empties s.stop
  stop_phase : s.stop.worker.phase = if s.worker.phase = .finished then .finished else .idle
  stopped : ∃ events, s.stop.Stopped (s.stop.run later) events

section Halting
variable [Platform σ] {A : Incident → Prop} {H : Act → Worker → Prop} {x y : Juncture × Station σ}

theorem Inventory.halt {a : Act} (h : Inventory s .rest) (ha : a.Halts) : s.Empties (s.act a) := by
  have hempties {t : Station σ} (ht : t.worker.pipeline = {})
      (hh : t.machine.history = s.worker.pipeline.unlocks ++ s.machine.history) : s.Empties t := by
    have hclear : Inventory t .rest := h.clear ht hh rfl
    have hheld := hclear.held
    rw [ht] at hheld
    exact ⟨ht, hh, List.perm_nil.mp hheld⟩
  cases a with
  | stop => exact hempties rfl (s.worker.pipeline.unpinAll_sees s.machine).history
  | finish => exact hempties rfl (s.worker.pipeline.unpinAll_sees _).history
  | _ => exact ha.elim

theorem Path.inPhase (hs : x.2.settings.Valid) (hc : Control x.2.view x.1) (hr : Retired x)
    (h : x.2.InPhase) (hpath : Path A H x y) : Retired y ∧ y.2.InPhase := by
  refine Path.keep (P := fun z => Retired z ∧ z.2.InPhase) hs hc ?_ ⟨hr, h⟩ hpath
  rintro u v - hcontrol hstep ⟨hretired, hphase⟩
  exact ⟨hretired.step hstep hcontrol, hphase.step hstep hcontrol hretired⟩

/-- Whoever was halted sleeps. -/
theorem Control.halt_asleep {a : Act} (hc : Control s.view .rest) (hphase : s.InPhase) (ha : a.Halts) :
    (s.act a).Asleep := by
  refine .of_vacant (hc.halt_vacant ha) ?_
  have hafter := hphase.halt ha
  have hidle : (s.act a).worker.phase = .finished ∨ (s.act a).worker.phase = .idle := by
    cases a with
    | stop => exact ite_eq_or_eq _ _ _
    | finish => exact .inl rfl
    | _ => exact ha.elim
  rcases hidle with hp | hp
  · rw [hp, if_pos (hafter.finished.mp hp)]
  · rw [hp, if_neg fun hf => by cases hp.symm.trans (hafter.finished.mpr hf)]

theorem Station.Asleep.stopped (h : s.Asleep) (later : List Act) :
    ∃ events, s.Stopped (s.run later) events := by
  obtain ⟨events, hh, hlull, hrest⟩ := h.run later
  refine ⟨events, hh, hlull, fun hnone => ?_⟩
  rcases hrest with ⟨-, r, hr⟩ | hsleeps
  · exact absurd hr (hnone r)
  · exact ⟨hsleeps.idled, hsleeps.asleep⟩

theorem Station.Asleep.final (h : s.Asleep) (hs : s.settings.Valid)
    (hf : s.machine.channel.finished = true) (later : List Act) : s.Final (s.run later) := by
  obtain ⟨events, -, -, ⟨hopen, -⟩ | hsleeps⟩ := h.run later
  · cases hopen.symm.trans hf
  · obtain ⟨hfinished, hbarred⟩ := hsleeps.finished hf
    have hasleep := hsleeps.asleep
    have hsettings : (s.run later).settings = s.settings :=
      (Path.control (x := (.rest, s)) hs (.inl (.inl h.view)) (Path.everyRun s later)).2
    have hvalid : (s.run later).machine.channel.settings.fault? = none := by
      rw [show (s.run later).machine.channel.settings = s.settings from hsettings]
      exact hs
    constructor
    case idled => exact ⟨events, hsleeps.idled, hbarred⟩
    case submit => exact Channel.submit_of_finished hfinished
    case create =>
      intro tableBus
      simp only [Worker.create, hvalid, hfinished, if_true]
    case serve => exact hasleep.serve
    case phase => rw [hasleep.phase, if_pos hfinished]
    case idle => exact hasleep.idle

/-- In every run of a worker, wherever it stands: whoever finishes it gets all pages back, and no call and
no incident makes it act again; whoever stops it gets all pages back, and it sleeps until another request
is accepted. -/
theorem run_halts (settings : Settings) (hs : settings.Valid) (tableBus : Sides Nat)
    (registers : RegisterFile) (platform : σ) (listener : List (List Incident))
    (acts later : List Act) :
    ((Station.initial settings tableBus registers platform listener).run acts).Halting later := by
  let first := Station.initial settings tableBus registers platform listener
  let s := first.run acts
  have hcontrol : Control first.view .rest := Control.initial ..
  have hrun := Path.everyRun first acts
  obtain ⟨hc, hsettings⟩ := Path.control (x := (.rest, first)) hs hcontrol hrun
  have hphase : s.InPhase := (Path.inPhase (x := (.rest, first)) hs hcontrol nofun
    ⟨⟨nofun, nofun⟩, ⟨nofun, nofun⟩⟩ hrun).2
  have hinventory : Inventory s .rest :=
    (Path.inventory (x := (.rest, first)) hs hcontrol rfl (Inventory.initial ..) hrun).2
  have hfinished : s.finish.machine.channel.finished = true :=
    (hphase.halt (a := .finish) trivial).finished.mp rfl
  have hvalid : s.finish.settings.Valid := by
    have hsame : s.finish.settings = s.settings := Step.settings (A := fun _ => True)
      (H := fun _ _ => True) (x := (.rest, s)) (y := (.rest, s.finish)) (.finish trivial)
    rw [hsame, show s.settings = first.settings from hsettings]
    exact hs
  constructor
  case finish_empties => exact hinventory.halt (a := .finish) trivial
  case final => exact (hc.halt_asleep hphase (a := .finish) trivial).final hvalid hfinished later
  case stop_empties => exact hinventory.halt (a := .stop) trivial
  case stop_phase => rfl
  case stopped => exact (hc.halt_asleep hphase (a := .stop) trivial).stopped later

end Halting

/-- The worker is halted with a batch out and a window pinned ahead. The flag of the batch, its interrupt
and another submission come afterwards. -/
theorem run_halts_tally :
    ((Station.initial {} (.both 0) .reset ({} : Bench.PageTally) []).run
      [.strike (.submit { direction := .hostToDevice, host := 0x2004, device := 16, len := 0x200000 }),
        .serve]).Halting
      [.strike (.complete .hostToDevice), .interrupt 0,
        .strike (.submit { direction := .hostToDevice, host := 0x2004, device := 16, len := 0x1000 }),
        .serve] :=
  run_halts {} (by decide) _ _ _ _ _ _

end Sleep
end ScatterGather
