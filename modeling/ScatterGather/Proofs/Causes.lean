import ScatterGather.Bench.PageTally
import ScatterGather.Proofs.Demands
import ScatterGather.Proofs.Docket
import ScatterGather.Proofs.Strides

/-! # Why a transfer fails

A transfer is given up for one of three causes: the controller's last id was none when the transfer
began, the platform locked too few pages of a window that the worker could not do without, or the
request reaches beyond the address space. The history tells which, and from then on until the listener
is told nothing happens but that pages are given back.
-/
namespace ScatterGather

/-- What an incident leaves behind that is not an accepted request. -/
def Event.Bystanding (e : Event) : Prop := e.Incidental ∧ e.Passive

/-- Nothing but incidents since the request was accepted. -/
def Untouched (r : Request) (history : List Event) : Prop :=
  ∃ between before, history = between ++ .submit r none :: before ∧ ∀ e ∈ between, e.Bystanding

/-- The history, up to the call that failed, bears the cause out. -/
def Failure.Grounded (s : Settings) (history : List Event) : Failure → Prop
  | .batch (.unrecognizedLastId id) => ∃ r value older, r.len ≠ 0 ∧ Untouched r older ∧
      history = .read (Register.address r.direction .lastId) value :: older ∧
      value.toNat = id ∧ lastSlot < id ∧ id ≠ noId
  | .memory (.partialLock requested locked) => ∃ r range pages between before,
      (Account.ofHistory history).request = some r ∧
      range = r.windowRun s (Account.ofHistory history).bytes ∧
      history = .unlock pages false ::
        (between ++ .lock range r.direction.writesHost pages :: before) ∧
      (∀ e ∈ between, e.Bystanding) ∧
      requested = range.pages ∧ locked = pages.length ∧ locked < requested
  | .memory .invalidRange => ∃ r, (Account.ofHistory history).request = some r ∧
      addressLimit ≤ r.host + r.len
  | _ => False

theorem Ring.start?_error_iff {ring : Ring} {dir : Direction} {e : BatchFault} :
    ring.start? dir = .error e ↔ e = .unrecognizedLastId (ring.lastId.get dir) ∧
      lastSlot < ring.lastId.get dir ∧ ring.lastId.get dir ≠ noId := by
  unfold start?
  dsimp only
  split
  · next hkeeps =>
    refine ⟨nofun, fun ⟨_, hlarge, hid⟩ => ?_⟩
    omega
  · next hkeeps =>
    split
    · next hlt =>
      refine ⟨nofun, fun ⟨_, hlarge, _⟩ => ?_⟩
      omega
    · next hle =>
      have hlarge : lastSlot < ring.lastId.get dir ∧ ring.lastId.get dir ≠ noId := by omega
      rw [Except.error.injEq, eq_comm, and_iff_left hlarge]

section Bystanders
variable {σ : Type} {m : Machine σ} {r : Request}

/-- While a transfer is under way no request is accepted. -/
theorem Machine.traces_bystanding (hb : m.channel.idle = false) (i : Incident) :
    ∀ e ∈ m.traces i, e.Bystanding := by
  intro e he
  refine ⟨m.traces_incidental i e he, ?_⟩
  cases i with
  | complete dir =>
    simp only [traces] at he
    split at he
    · obtain rfl := List.mem_singleton.mp he
      trivial
    · cases he
  | flag | interrupt =>
    obtain rfl := List.mem_singleton.mp he
    trivial
  | submit r =>
    obtain rfl := List.mem_singleton.mp he
    rcases m.channel.submit_cases r with ⟨cause, hrefused⟩ | ⟨hidle, -⟩ | ⟨hidle, -⟩
    · rw [hrefused]
      trivial
    · cases hb.symm.trans hidle
    · cases hb.symm.trans hidle

theorem Untouched.incur (h : Untouched r m.history) (hb : m.channel.idle = false) (i : Incident) :
    Untouched r (m.incur i).history := by
  obtain ⟨between, before, hh, hbetween⟩ := h
  refine ⟨m.traces i ++ between, before, ?_, List.forall_mem_append.mpr ⟨m.traces_bystanding hb i, hbetween⟩⟩
  rw [(m.incur_watches i).history, hh, List.append_assoc]

/-- Only an accepted request ends the idleness of a channel. -/
theorem Machine.incur_idle {i : Incident} (hidle : m.channel.idle = true)
    (hb : (m.incur i).channel.idle = false) : ∃ r, (m.incur i).history = .submit r none :: m.history := by
  rcases m.incur_cases i with ⟨-, -, -, hsame⟩ | ⟨-, hr⟩
  · cases hb.symm.trans (hsame.trans hidle)
  · exact hr

end Bystanders

section Grounds
variable {σ : Type} {st : Settings} {s : Station σ}

/-- A request that waits to be taken up was accepted, and nothing was done about it. -/
def Station.Unattended (s : Station σ) : Prop :=
  s.worker.transfer = none → s.machine.channel.idle = false →
    ∀ r, s.view.account.request = some r → Untouched r s.machine.history

/-- What the history holds at a juncture in case the transfer fails there. -/
def Grounds (st : Settings) (z : Juncture × Station σ) : Prop :=
  match z.1 with
  | .due .start p => ∃ older, Untouched p.request older ∧ z.2.machine.history =
      .read (Register.address p.request.direction .lastId)
        (z.2.machine.registers.read (Register.address p.request.direction .lastId)) :: older
  | .asked _ p _ pages => ∃ between before, z.2.machine.history =
      between ++ .lock (p.request.windowRun st p.sent) p.request.direction.writesHost pages :: before ∧
        ∀ e ∈ between, e.Bystanding
  | .broken _ cause => cause.Grounded st z.2.machine.history
  | .rest | .ready | .told _ | .closing _ => z.2.Unattended
  | _ => True

theorem Station.unattended_of_idle (h : s.machine.channel.idle = true) : s.Unattended := by
  intro _ hb
  cases hb.symm.trans h

theorem Station.unattended_of_transfer {p : Progress} (h : s.worker.transfer = some p) : s.Unattended := by
  intro ht
  cases ht.symm.trans h

theorem Station.Unattended.strike (h : s.Unattended) (i : Incident) : (s.strike i).Unattended := by
  intro ht hb r hr
  cases hidle : s.machine.channel.idle with
  | false =>
    have hsame : (s.strike i).view.account = s.view.account := by
      rw [view, Station.strike, (s.machine.incur_watches i).history]
      exact Account.ofHistory_passive fun e he => (s.machine.traces_bystanding hidle i e he).2
    exact (h ht hidle r (hsame ▸ hr)).incur hidle i
  | true =>
    obtain ⟨r', hh⟩ := Machine.incur_idle hidle hb
    have hr' : (s.strike i).view.account.request = some r' := by
      rw [view, Station.strike, hh]
      rfl
    obtain rfl : r = r' := Option.some.inj (hr.symm.trans hr')
    exact ⟨[], s.machine.history, hh, by simp⟩

theorem Grounds.strike {j : Juncture} (hj : j.Exposed) (hc : Control s.view j) (h : Grounds st (j, s))
    (i : Incident) : Grounds st (j, s.strike i) := by
  cases j with
  | rest | told => exact Station.Unattended.strike h i
  | asked k p start pages =>
    obtain ⟨between, before, hh, hbetween⟩ := h
    refine ⟨s.machine.traces i ++ between, before, ?_, ?_⟩
    · rw [Station.strike, (s.machine.incur_watches i).history, hh, List.append_assoc]
    · exact List.forall_mem_append.mpr ⟨s.machine.traces_bystanding hc.1.idle i, hbetween⟩
  | handed | askedAhead => trivial
  | _ => exact hj.elim

/-- There is no place for a batch that is due exactly if it would be the first one and the controller's
register holds no id. -/
theorem View.Poised.refused_iff {k : Errand} {p : Progress} {e : BatchFault} (hc : s.view.Poised k p) :
    s.worker.ring.start? p.request.direction = .error e ↔ k = .start ∧
      e = .unrecognizedLastId (s.view.held p.request.direction) ∧
      lastSlot < s.view.held p.request.direction ∧ s.view.held p.request.direction ≠ noId := by
  have hheld : s.worker.ring.lastId.get p.request.direction = s.view.held p.request.direction :=
    hc.ring_held
  rw [Ring.start?_error_iff, hheld]
  constructor
  · rintro ⟨he, hlarge, hid⟩
    cases k with
    | start => exact ⟨rfl, he, hlarge, hid⟩
    | advance =>
      obtain ⟨-, last, hlast⟩ := hc.place
      rw [hlast.held] at hlarge
      exact absurd hlast.le (Nat.not_le_of_lt hlarge)
  · rintro ⟨-, hrefused⟩
    exact hrefused

variable [Platform σ] {A : Incident → Prop} {H : Act → Worker → Prop} {x y : Juncture × Station σ}

/-- The only steps that lead to a failure are those whose grounds are in the history. -/
theorem Grounds.step (hs : st.Valid) (hst : x.2.settings = st) (hstep : Step A H x y)
    (hc : Control x.2.view x.1) (hw : Windows (fun _ _ => True) st x.2.worker x.1) (h : Grounds st x) :
    Grounds st y := by
  subst hst
  cases hstep with
  | strike hj => exact Grounds.strike hj hc h _
  | @interrupt s status =>
    obtain ⟨work, advanceOpen, waker, he⟩ := s.machine.channel.interrupt_frame status
    intro ht hb
    rw [Station.mapChannel, he] at hb
    exact h ht hb
  | @closeAdvance s =>
    obtain ⟨work, advanceOpen, he⟩ := s.machine.channel.closeAdvance_frame
    intro ht hb
    rw [Station.mapChannel, he] at hb
    exact h ht hb
  | stop | finish | complete | fail => exact Station.unattended_of_idle rfl
  | @begin s r hj =>
    obtain ⟨-, ⟨r', hr, hq⟩ | ⟨p, hr, -⟩⟩ := hc.taken hj <;> cases hr
    exact ⟨s.machine.history, h hq.transfer hq.idle r (congrArg Account.request hq.account), rfl⟩
  | stale hj ht => exact absurd ht (hc.not_stale hj)
  | @refuse k p s e hr hrefused =>
    obtain ⟨rfl, rfl, hlarge, hid⟩ := (View.Poised.refused_iff hc).mp hrefused
    obtain ⟨older, huntouched, hh⟩ := h
    rw [Progress.remaining] at hr
    exact ⟨p.request, _, older, by omega, huntouched, hh, rfl, hlarge, hid⟩
  | @unpinnable k p s start hn hb =>
    -- the window lies inside the request, so it is the end of the address space that it reaches
    have hinside : p.sent < p.request.len := hw.inside
    have hfull : 0 < s.settings.fullWindow := hs.fullWindow_pos
    refine ⟨p.request, hc.1.request, ?_⟩
    rw [Machine.Pinnable, Request.windowLen] at hb
    omega
  | ask => exact ⟨[], _, rfl, by simp⟩
  | @short k p s start pages hfew =>
    obtain ⟨between, before, hh, hbetween⟩ := h
    have hsent : p.sent = (Account.ofHistory (s.decline pages).machine.history).bytes := hc.1.sent
    exact ⟨p.request, _, pages, between, before, hc.1.request, congrArg _ hsent, congrArg _ hh, hbetween,
      rfl, rfl, hfew⟩
  | @uncarved k p s start w e hfailed =>
    -- no fault of the carving is ever reported: what was supplied can be carved
    obtain ⟨entries, hcarved⟩ := Window.carve_succeeds hs hc.1 (Ring.start?_le hc.2) hw
    cases hfailed.symm.trans hcarved
  | skip | unpinnableAhead => exact Station.unattended_of_transfer (View.Running.toEngaged hc).transfer
  | shortAhead | keepNext => exact Station.unattended_of_transfer (View.Running.toEngaged hc).transfer
  | drained | serve | leave | setPayload | heard | closeStart => exact h
  | _ => trivial

theorem Path.grounds (hs : st.Valid) (hst : x.2.settings = st) (hc : Control x.2.view x.1)
    (hw : Windows (fun _ _ => True) st x.2.worker x.1) (h : Grounds st x) (hpath : Path A H x y) :
    Grounds st y := by
  induction hpath with
  | refl => exact h
  | tail hpath hstep ih =>
    obtain ⟨hcontrol, hsame⟩ := Path.control (hst.symm ▸ hs) hc hpath
    have hwindows := Path.windows hs (fun _ _ _ => trivial) hst hc hw hpath
    exact ih.step hs (hsame.trans hst) hstep hcontrol hwindows

/-- From the moment at which a transfer was found to fail until the listener is told, what was pinned is
given back, and that is all that happens. -/
structure Station.GivesUp (s : Station σ) (payload : UInt32) (cause : Failure) (older : List Event) :
    Prop where
  told : (s.tell .fault (.failed cause)).machine.history = .notify payload (.failed cause) :: older
  unlocked : older = s.worker.pipeline.unlocks ++ s.machine.history
  registers : (s.tell .fault (.failed cause)).machine.registers = s.machine.registers
  tables : (s.tell .fault (.failed cause)).machine.channel.tables = s.machine.channel.tables

/-- Of all steps only one tells of a failure. -/
theorem Step.givesUp {u v : Juncture × Station σ} {payload : UInt32} {cause : Failure}
    {older : List Event} (hstep : Step A H u v) (hc : Control u.2.view u.1)
    (hu : u.2.machine.history <:+ older)
    (hv : .notify payload (.failed cause) :: older <:+ v.2.machine.history) :
    ∃ k s, u = (.broken k cause, s) ∧ v = (.told k, s.tell .fault (.failed cause)) ∧
      s.GivesUp payload cause older := by
  obtain ⟨⟨k, hk⟩, hnow⟩ := hstep.notice hc hu hv
  cases hstep with
  | @strike j s i =>
    rcases s.machine.incur_event i with hh | ⟨e, he, hh⟩
    · have hshort := hu.length_le
      rw [show s.machine.history = .notify payload (.failed cause) :: older from hh ▸ hnow,
        List.length_cons] at hshort
      omega
    · obtain ⟨rfl, -⟩ := List.cons.inj (hh.symm.trans hnow)
      exact he.elim
  | @complete k p s =>
    rw [s.tell_history] at hnow
    simp at hnow
  | @fail k cause' s =>
    have hdrops := s.tell_drops .fault (.failed cause')
    have hhistory := (s.tell_history .fault (.failed cause')).symm.trans hnow
    simp only [List.cons.injEq, Event.notify.injEq, Outcome.failed.injEq] at hhistory
    obtain ⟨⟨-, rfl⟩, holder⟩ := hhistory
    exact ⟨k, s, rfl, rfl, hnow, holder.symm, hdrops.registers, hdrops.tables⟩
  | _ => cases hk

end Grounds

section Items
variable {σ : Type} [Platform σ] {st : Settings} {s s' : Station σ} {job : Job} {p : Progress}
  {start : BatchPlace} {w : Window}

/-- When the batch of a job is due, there is no place for it exactly if the job begins a transfer and
the controller's register holds no id. -/
theorem Station.Fit.place_iff (hs : st.Valid) (h : s.Fit st) (hj : s.takeWork.1 = some job)
    (hp : s.progressOf job = some p) (id : Nat) :
    (s.due job).worker.ring.start? p.request.direction = .error (.unrecognizedLastId id) ↔
      ∃ r, job = .start r ∧ p = { request := r } ∧ s.machine.registers.lastId r.direction = id ∧
        lastSlot < id ∧ id ≠ noId := by
  obtain ⟨p', hp', hpoised, -⟩ := h.due hs hj
  obtain rfl : p = p' := Option.some.inj (hp.symm.trans hp')
  rw [hpoised.refused_iff, BatchFault.unrecognizedLastId.injEq]
  cases job with
  | start r =>
    cases hp
    constructor
    · rintro ⟨-, rfl, hlarge, hid⟩
      exact ⟨r, rfl, rfl, rfl, hlarge, hid⟩
    · rintro ⟨r', hr, -, rfl, hlarge, hid⟩
      cases hr
      exact ⟨rfl, rfl, hlarge, hid⟩
  | advance =>
    constructor
    · rintro ⟨hk, -⟩
      cases hk
    · rintro ⟨r, hr, -⟩
      cases hr

theorem Station.Fit.refused_iff (hs : st.Valid) (hsmall : st.pageSize ≤ 2 ^ 19) (h : s.Fit st)
    (hj : s.takeWork.1 = some job) (id : Nat) :
    (∃ payload, s.DecidesOnce (s.takeWork.2.handle job)
      (.notify payload (.failed (.batch (.unrecognizedLastId id))))) ↔
    ∃ r, job = .start r ∧ r.len ≠ 0 ∧ s.machine.registers.lastId r.direction = id ∧
      lastSlot < id ∧ id ≠ noId := by
  obtain ⟨p, hp, -, -, hstrides⟩ := handle_strides hs hsmall h hj
  have hplace := h.place_iff hs hj hp id
  constructor
  · rintro ⟨payload, honce⟩
    cases hstrides with
    | completed _ _ honce' => cases honce.unique honce'
    | failed hr hlacks _ honce' =>
      cases honce.unique honce'
      cases hlacks with
      | place hrefused =>
        obtain ⟨r, rfl, rfl, hid⟩ := hplace.mp hrefused
        exact ⟨r, rfl, hr, hid⟩
    | issued _ _ _ _ _ _ honce' => cases honce.unique honce'
  · rintro ⟨r, rfl, hr, hid⟩
    cases hp
    have hrefused := hplace.mpr ⟨r, rfl, rfl, hid⟩
    cases hstrides with
    | completed hzero => exact absurd hzero hr
    | @failed payload cause _ hlacks _ honce =>
      cases hlacks with
      | place hplace' =>
        cases hrefused.symm.trans hplace'
        exact ⟨payload, honce⟩
      | window hstart => cases hrefused.symm.trans hstart
    | issued _ hstart => cases hrefused.symm.trans hstart

/-- With a place in the ring and a window nothing is lacking any more: every byte of the window is
found, it is carved, and whether the next window can be pinned ahead makes no difference. -/
theorem Station.Fit.supplied (hs : st.Valid) (h : s.Fit st) (hj : s.takeWork.1 = some job)
    (hp : s.progressOf job = some p) (hr : p.remaining ≠ 0)
    (hstart : (s.due job).worker.ring.start? p.request.direction = .ok start)
    (hf : (s.due job).windowFor p = (.ok w, s')) :
    (∀ offset < w.left, ∃ bus, w.busAt? offset = some bus) ∧
      ∃ entries, w.carve st p.request.direction (p.request.device + p.sent) start = .ok entries ∧
        (s.due job).nextBatch p = (none, s'.hand p start entries) ∧
        (s'.hand p start entries).worker.transfer = some (p.past entries) := by
  obtain ⟨p', hp', hpoised, hwindows⟩ := h.due hs hj
  obtain rfl : p = p' := Option.some.inj (hp.symm.trans hp')
  have hsettings := (s.due_settings job).trans h.settings
  rcases nextBatch_lacks_or_hands hs hsettings hpoised hwindows hr with
    ⟨cause, -, -, hlacks, -⟩ | ⟨start', w', v, entries, hnext, hstart', hf', -, hsupplied, hcarve⟩
  · cases hlacks with
    | place hrefused => cases hstart.symm.trans hrefused
    | window _ hnone =>
      rw [hf] at hnone
      cases hnone
  · cases hstart.symm.trans hstart'
    cases hf.symm.trans hf'
    exact ⟨Windows.busAt?_ok hs hsupplied, entries, hcarve, hnext, hand_transfer ..⟩

/-- Why the transfers of a run from `s` to `t` fail, and that of what is served then none fails for
another reason. -/
structure FailsForCause (s t : Station σ) : Prop where
  /-- Each notice of a failure has a cause that the history bears out. -/
  told : ∀ payload cause older, .notify payload (.failed cause) :: older <:+ t.machine.history →
    ∃ k u, Midway (fun _ => True) (fun _ _ => True) s t (.broken k cause, u) ∧
      Midway (fun _ => True) (fun _ _ => True) s t (.told k, u.tell .fault (.failed cause)) ∧
      u.GivesUp payload cause older ∧ cause.Grounded s.settings u.machine.history
  /-- A transfer is refused exactly if something is to be moved and the register holds no id. -/
  refused : ∀ n u job, t.Serves n u → u.takeWork.1 = some job → ∀ id,
    (∃ payload, u.DecidesOnce (u.takeWork.2.handle job)
      (.notify payload (.failed (.batch (.unrecognizedLastId id))))) ↔
    ∃ r, job = .start r ∧ r.len ≠ 0 ∧ u.machine.registers.lastId r.direction = id ∧
      lastSlot < id ∧ id ≠ noId
  /-- With a place in the ring and a window the next batch is handed over, whether or not the window
  after it could be pinned ahead. -/
  supplied : ∀ n u job p start w v, t.Serves n u → u.takeWork.1 = some job →
    u.progressOf job = some p → p.remaining ≠ 0 →
    (u.due job).worker.ring.start? p.request.direction = .ok start →
    (u.due job).windowFor p = (.ok w, v) →
    (∀ offset < w.left, ∃ bus, w.busAt? offset = some bus) ∧
      ∃ entries, w.carve s.settings p.request.direction (p.request.device + p.sent) start = .ok entries ∧
        (u.due job).nextBatch p = (none, v.hand p start entries) ∧
        (v.hand p start entries).worker.transfer = some (p.past entries)

/-- In every run of a worker, whatever the platform answers and whatever strikes, a transfer fails only
because the controller's last id was none when it began, because too few pages were locked of a window
that the worker could not do without, or because the request reaches beyond the address space. -/
theorem run_fails_for_cause (settings : Settings) (hs : settings.Valid)
    (hsmall : settings.pageSize ≤ 2 ^ 19) (tableBus : Sides Nat) (registers : RegisterFile)
    (platform : σ) (listener : List (List Incident)) (acts : List Act) :
    let s := Station.initial settings tableBus registers platform listener
    FailsForCause s (s.run acts) := by
  intro s
  have hfit : (s.run acts).Fit settings := Station.Fit.run hs ..
  have hcontrol : Control s.view .rest := Control.initial ..
  constructor
  case told =>
    intro payload cause older hsuffix
    obtain ⟨u, v, hu, hstep, hv, holder, hnow⟩ :=
      Path.crossing (Path.everyRun s acts) hsuffix List.nil_suffix
    have hgrounds : Grounds settings u :=
      Path.grounds (x := (.rest, s)) hs rfl hcontrol nofun (Station.unattended_of_idle rfl) hu
    obtain ⟨hc, -⟩ := Path.control (x := (.rest, s)) hs hcontrol hu
    obtain ⟨k, t, rfl, rfl, hgives⟩ := hstep.givesUp hc holder hnow
    exact ⟨k, t, ⟨hu, .head hstep hv⟩, ⟨hu.tail hstep, hv⟩, hgives, hgrounds⟩
  case refused =>
    intro n u job hu hj id
    exact (hfit.serves hs hu).refused_iff hs hsmall hj id
  case supplied =>
    intro n u job p start w v hu hj hp hr hstart hf
    exact (hfit.serves hs hu).supplied hs hj hp hr hstart hf

end Items

/-- One transfer finds no id in its register, and of the window of the other no page is locked. -/
theorem run_fails_for_cause_tally :
    let registers := RegisterFile.reset.write (Register.address .hostToDevice .lastId) 200
    let s := Station.initial {} (.both 0) registers ({ emptyCall := some 1 } : Bench.PageTally) []
    FailsForCause s (s.run [
      .strike (.submit { direction := .hostToDevice, host := 0x2004, device := 0, len := 0x1000 }),
      .serve,
      .strike (.submit { direction := .deviceToHost, host := 0x2004, device := 0, len := 0x1000 }),
      .serve]) :=
  run_fails_for_cause {} (by decide) (by decide) _ _ _ _ _

end ScatterGather
