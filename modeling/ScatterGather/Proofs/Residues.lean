import ScatterGather.Proofs.Laps
import ScatterGather.Proofs.Pacing
import ScatterGather.Proofs.Twins

/-! # A transfer leaves no residue

Two workers that rest, whatever they did before, are twins if their controllers hold the same last ids,
the payload is the same and their platforms answer alike. Whatever is done to both of them from then on,
nothing that is seen from outside tells them apart.
-/
namespace ScatterGather

/-- Twin machines, and workers that agree in all but the phase. With a transfer in hand they know the
last id of its ring. -/
structure Station.Twin {σ : Type} (o : Outset σ) (z : Horizon) (s t : Station σ) : Prop where
  machine : Machine.Twin o z s.machine t.machine
  ring : t.worker.ring = s.worker.ring
  pipeline : t.worker.pipeline = s.worker.pipeline
  transfer : t.worker.transfer = s.worker.transfer
  held : ∀ p, s.worker.transfer = some p →
    s.worker.ring.lastId.get p.request.direction = z.lastId p.request.direction

def Station.Twins {σ : Type} (o : Outset σ) (s t : Station σ) : Prop := ∃ z, Station.Twin o z s t

/-- Whatever is asked of the two stations next, they answer alike. -/
structure Station.AnswersLike {σ : Type} [Platform σ] (s t : Station σ) : Prop where
  submit : ∀ r, (t.machine.channel.submit r).1 = (s.machine.channel.submit r).1
  interrupt : ∀ status, (t.machine.channel.interrupt status).1 = (s.machine.channel.interrupt status).1
  serve : t.serve.1 = s.serve.1
  idle : t.machine.channel.idle = s.machine.channel.idle
  finished : t.machine.channel.finished = s.machine.channel.finished

namespace Station.Twin
variable {σ : Type} {o : Outset σ} {z : Horizon} {s t : Station σ} {p : Progress}

theorem mapMachine (h : Twin o z s t) {m n : Machine σ} (hm : Machine.Twin o z m n) :
    Twin o z { s with machine := m } { t with machine := n } := { h with machine := hm }

theorem mapChannel (h : Twin o z s t) {f g : Channel → Channel}
    (hf : Channel.Twin z (f s.machine.channel) (g t.machine.channel)) :
    Twin o z (s.mapChannel f) (t.mapChannel g) := h.mapMachine (h.machine.mapChannel hf)

theorem settings (h : Twin o z s t) : t.settings = s.settings :=
  h.machine.channel.settings.2.trans h.machine.channel.settings.1.symm

theorem takeWork (h : Twin o z s t) :
    t.takeWork.1 = s.takeWork.1 ∧ Twin o z s.takeWork.2 t.takeWork.2 := by
  obtain ⟨hjob, hchannel⟩ := h.machine.channel.takeWork
  exact ⟨hjob, h.mapMachine (h.machine.mapChannel hchannel)⟩

variable [Platform σ] (hR : Platform.Matches o.Alike)
include hR

theorem unpinAll (h : Twin o z s t) : Twin o z s.unpinAll t.unpinAll := by
  have halike : Machine.LockAlike (Machine.Twin o z) .deviceToHost := Machine.Twin.lockAlike hR _
  have hunpinned := halike.unpinAll h.machine s.worker.pipeline
  unfold Station.unpinAll
  rw [h.pipeline]
  exact { h with machine := hunpinned, pipeline := rfl }

omit hR [Platform σ] in
/-- Without a transfer in hand the workers agree in any case. -/
theorem drop (h : Twin o z s t) (phase phase' : Phase) :
    Twin o z
      { s with worker := { s.worker with ring := s.worker.ring.reset, transfer := none, phase } }
      { t with worker := { t.worker with ring := t.worker.ring.reset, transfer := none, phase := phase' } } :=
  { h with ring := congrArg Ring.reset h.ring, transfer := rfl, held := nofun }

theorem reset (h : Twin o z s t) (phase : Phase) : Twin o z (s.reset phase) (t.reset phase) :=
  have hdropped := (h.unpinAll hR).drop phase phase
  hdropped.mapChannel hdropped.machine.channel.settle

theorem stop (h : Twin o z s t) : Twin o z s.stop t.stop :=
  have hdropped := (h.unpinAll hR).drop (if s.worker.phase = .finished then .finished else .idle)
    (if t.worker.phase = .finished then .finished else .idle)
  hdropped.mapMachine (hdropped.machine.mapChannel hdropped.machine.channel.dropWork.settle)

theorem finish (h : Twin o z s t) : Twin o z s.finish t.finish := by
  have hmarked : Twin o z (s.mapChannel ({ · with finished := true }))
      (t.mapChannel ({ · with finished := true })) :=
    h.mapChannel { h.machine.channel with finished := rfl }
  exact { hmarked.stop hR with }

theorem complete (h : Twin o z s t) (p : Progress) : Twin o z (s.complete p) (t.complete p) :=
  have hreset := h.reset hR .idle
  hreset.mapMachine (hreset.machine.notify _)

theorem fail (h : Twin o z s t) (cause : Failure) : Twin o z (s.fail cause) (t.fail cause) :=
  have hreset := h.reset hR .fault
  hreset.mapMachine (hreset.machine.notify _)

omit hR [Platform σ] in
/-- Pages were locked or unlocked, and the pipelines became the same one. -/
theorem supplied (h : Twin o z s t) {s' t' : Station σ} (hafter : ∃ pipeline,
    s'.worker = { s.worker with pipeline } ∧ t'.worker = { t.worker with pipeline } ∧
      Machine.Twin o z s'.machine t'.machine) : Twin o z s' t' := by
  obtain ⟨pipeline, hs, ht, hmachine⟩ := hafter
  constructor
  case machine => exact hmachine
  all_goals rw [hs]
  case ring => exact ht ▸ h.ring
  case pipeline => rw [ht]
  case transfer => exact ht ▸ h.transfer
  case held => exact h.held

theorem pinAhead (h : Twin o z s t) (r : Request) (next : Nat) :
    Twin o z (s.pinAhead r next) (t.pinAhead r next) :=
  h.supplied ((Machine.Twin.lockAlike hR _).pinAhead h.machine h.pipeline r next rfl)

theorem windowFor (h : Twin o z s t) (p : Progress) :
    (t.windowFor p).1 = (s.windowFor p).1 ∧ Twin o z (s.windowFor p).2 (t.windowFor p).2 := by
  obtain ⟨hfound, hafter⟩ :=
    (Machine.Twin.lockAlike hR p.request.direction).windowFor h.machine h.pipeline p rfl
  exact ⟨hfound, h.supplied hafter⟩

theorem release (h : Twin o z s t) : Twin o z s.release t.release :=
  h.supplied ((Machine.Twin.lockAlike hR .deviceToHost).release h.machine h.pipeline)

section Batches
variable {start : BatchPlace} {w : Window} {entries : List Entry}
  (hheld : s.worker.ring.lastId.get p.request.direction = z.lastId p.request.direction)
include hheld

/-- The last id of a batch lies behind the last one, or the ring begins anew. -/
theorem handed (h : Twin o z s t)
    (hstart : s.worker.ring.start? p.request.direction = .ok start)
    (hcarve : w.carve s.settings p.request.direction (p.request.device + p.sent) start = .ok entries) :
    Twins o (s.handed p start entries) (t.handed p start entries) := by
  have hvalid : s.settings.Valid := by
    rw [show s.settings = z.settings from h.machine.channel.settings.1]
    exact z.valid
  obtain ⟨hne, hle⟩ := Window.carve_fits hvalid (Ring.start?_le hstart) hcarve
  have hnew : start.announce = true ∨ z.lastId p.request.direction < Ring.lastIdOf start entries := by
    refine (Ring.start?_place hstart).imp_right ?_
    rintro ⟨-, hid⟩
    have hlen := List.length_pos_iff.mpr hne
    rw [Ring.lastIdOf, ← hheld]
    omega
  obtain ⟨y, hlast, hpublished⟩ :=
    h.machine.publish hR s.worker.ring p.request.direction start entries hle hnew
  refine ⟨y, ?_, ?_, ?_, rfl, ?_⟩
  · unfold Station.handed
    rw [h.ring]
    exact hpublished
  · exact congrArg (·.track p.request.direction (Ring.lastIdOf start entries)) h.ring
  · exact congrArg (·.consume (Entry.total entries)) h.pipeline
  · intro q hq
    obtain rfl : p.past entries = q := Option.some.inj hq
    exact (Sides.get_set_self ..).trans hlast.symm

theorem hand (h : Twin o z s t)
    (hstart : s.worker.ring.start? p.request.direction = .ok start)
    (hcarve : w.carve s.settings p.request.direction (p.request.device + p.sent) start = .ok entries) :
    Twins o (s.hand p start entries) (t.hand p start entries) := by
  obtain ⟨y, hhanded⟩ := h.handed hR hheld hstart hcarve
  have hreleased := hhanded.release hR
  rw [Station.hand_eq, Station.hand_eq, Station.reach, Station.reach, hreleased.pipeline]
  exact ⟨y, hreleased.pinAhead hR _ _⟩

theorem nextBatch (h : Twin o z s t) :
    (t.nextBatch p).1 = (s.nextBatch p).1 ∧ Twins o (s.nextBatch p).2 (t.nextBatch p).2 := by
  obtain ⟨hfound, hsupplied⟩ := h.windowFor hR p
  rcases Station.nextBatch_pair h.ring hfound hsupplied.settings with
    ⟨e, hs, ht⟩ | ⟨e, hs, ht⟩ | ⟨start, w, entries, hstart, -, hcarve, hs, ht⟩ <;> rw [hs, ht]
  · exact ⟨rfl, z, h⟩
  · exact ⟨rfl, z, hsupplied⟩
  · exact ⟨rfl, hsupplied.hand hR hheld hstart hcarve⟩

end Batches

theorem advance (h : Twin o z s t) : Twins o s.advance t.advance := by
  unfold Station.advance
  rw [h.transfer]
  cases htransfer : s.worker.transfer with
  | none => exact ⟨z, h⟩
  | some p =>
    dsimp only
    split
    · exact ⟨z, h.complete hR p⟩
    · obtain ⟨hcause, hafter⟩ := h.nextBatch hR (h.held p htransfer)
      generalize s.nextBatch p = next at hcause hafter ⊢
      generalize t.nextBatch p = next' at hcause hafter ⊢
      obtain ⟨cause, s'⟩ := next
      obtain ⟨cause', t'⟩ := next'
      obtain rfl : cause' = cause := hcause
      cases cause' with
      | none => exact hafter
      | some e =>
        obtain ⟨y, hfailed⟩ := hafter
        exact ⟨y, hfailed.fail hR e⟩

theorem start (h : Twin o z s t) (r : Request) : Twins o (s.start r) (t.start r) := by
  obtain ⟨hvalue, hsame, hread⟩ := h.machine.readLastId r.direction
  have hbegun : Twin o z (s.begin r) (t.begin r) := by
    refine ⟨hread, ?_, h.pipeline, rfl, ?_⟩
    · simp only [Station.begin, Ring.resume]
      rw [h.ring, hsame]
    · intro p hp
      obtain rfl : { request := r } = p := Option.some.inj hp
      exact (Sides.get_set_self ..).trans hvalue
  exact hbegun.advance hR

theorem handle (h : Twin o z s t) (job : Job) : Twins o (s.handle job) (t.handle job) := by
  cases job with
  | start r => exact h.start hR r
  | advance =>
    obtain ⟨y, hadvanced⟩ := h.advance hR
    exact ⟨y, hadvanced.mapChannel hadvanced.machine.channel.closeAdvance⟩

theorem serveUpTo (h : Twin o z s t) (limit : Nat) :
    (t.serveUpTo limit).1 = (s.serveUpTo limit).1 ∧
      Twins o (s.serveUpTo limit).2 (t.serveUpTo limit).2 := by
  induction limit generalizing s t z with
  | zero => exact ⟨rfl, z, h⟩
  | succ limit ih =>
    obtain ⟨hjob, htaken⟩ := h.takeWork
    unfold Station.serveUpTo
    generalize s.takeWork = taken at hjob htaken ⊢
    generalize t.takeWork = taken' at hjob htaken ⊢
    obtain ⟨job, s'⟩ := taken
    obtain ⟨job', t'⟩ := taken'
    obtain rfl : job' = job := hjob
    cases job' with
    | none => exact ⟨rfl, z, htaken⟩
    | some job =>
      obtain ⟨y, hhandled⟩ := htaken.handle hR job
      obtain ⟨hcount, hserved⟩ := ih hhandled
      exact ⟨congrArg (· + 1) hcount, hserved⟩

omit hR [Platform σ] in
theorem workload (h : Twin o z s t) : t.workload = s.workload := by
  obtain ⟨jobs, hs, ht⟩ := h.machine.channel.work
  rw [Station.workload, Station.workload, hs.toList, ht.toList, h.transfer, h.machine.listener]

theorem serve (h : Twin o z s t) : t.serve.1 = s.serve.1 ∧ Twins o s.serve.2 t.serve.2 := by
  unfold Station.serve
  rw [h.workload]
  exact h.serveUpTo hR _

theorem act (h : Twin o z s t) (a : Act) : Twins o (s.act a) (t.act a) := by
  cases a with
  | strike i => exact ⟨z, h.mapMachine (h.machine.incur i)⟩
  | interrupt status =>
    exact ⟨z, h.mapMachine (h.machine.mapChannel (h.machine.channel.interrupt status).2)⟩
  | serve => exact (h.serve hR).2
  | stop => exact ⟨z, h.stop hR⟩
  | finish => exact ⟨z, h.finish hR⟩
  | setPayload payload =>
    have hset : Channel.Twin z { s.machine.channel with payload } { t.machine.channel with payload } :=
      { h.machine.channel with payload := rfl }
    exact ⟨z, h.mapMachine (h.machine.mapChannel hset)⟩

theorem answersLike (h : Twin o z s t) : s.AnswersLike t where
  submit r := (h.machine.channel.submit r).1
  interrupt status := (h.machine.channel.interrupt status).1
  serve := (h.serve hR).1
  idle := h.machine.channel.idle
  finished := h.machine.channel.finished

end Station.Twin

/-- A worker with nothing to do, and above the last ids no flag that could be mistaken for a new one. -/
structure Station.Spent {σ : Type} (settings : Settings) (tableBus : Sides Nat) (s : Station σ) : Prop where
  settings : s.settings = settings
  vacant : s.view.Vacant false
  calm : s.machine.Calm
  bus : s.worker.ring.tableBus = tableBus

section Runs
variable {σ : Type} [Platform σ] {settings : Settings} {tableBus : Sides Nat} {s t : Station σ}

theorem Station.Spent.run (hs : settings.Valid) (platform : σ) (hp : Platform.Within σ Incident.Honest)
    (hq : Platform.Quiet σ) (listener : List (List Incident))
    (hl : ∀ reaction ∈ listener, ∀ i ∈ reaction, i.Honest) (acts : List Act)
    (ha : ∀ a ∈ acts, a.Within Incident.Honest)
    (hidle : ((Station.initial settings tableBus .reset platform listener).run acts).machine.channel.idle
      = true) :
    ((Station.initial settings tableBus .reset platform listener).run acts).Spent settings tableBus := by
  let s := Station.initial settings tableBus .reset platform listener
  have hcontrol : Control s.view .rest := Control.initial ..
  have hpath := Path.run (s := s) hp hl ha (s.haltsOnly_true acts)
  have hpacing := Path.pacing (x := (.rest, s)) hq hs hcontrol (Pacing.initial ..) hpath
  have hlaps : Laps tableBus (s.run acts) := by
    refine Path.keep (x := (.rest, s)) (P := fun z => Laps tableBus z.2) hs hcontrol ?_
      (Laps.initial ..) hpath
    intro u v hsettings hc hstep h
    exact h.step (hsettings ▸ hs) hstep hc
  obtain ⟨hend, hsettings⟩ := Path.control (x := (.rest, s)) hs hcontrol hpath
  refine ⟨hsettings, ?_, hpacing.calm, hlaps.bus⟩
  rcases hend with (hv | ⟨r, hqueued⟩) | ⟨p, hr⟩
  · exact hv
  · cases hidle.symm.trans hqueued.idle
  · cases hidle.symm.trans hr.idle

omit [Platform σ] in
theorem Station.Spent.twins {R : σ → σ → Prop} (h : s.Spent settings tableBus)
    (h' : t.Spent settings tableBus) (hs : settings.Valid)
    (hfinished : t.machine.channel.finished = s.machine.channel.finished)
    (hlast : ∀ dir, t.machine.registers.lastId dir = s.machine.registers.lastId dir)
    (hpayload : t.machine.channel.payload = s.machine.channel.payload)
    (hlistener : t.machine.listener = s.machine.listener)
    (hplatform : R s.machine.platform t.machine.platform) :
    Station.Twins ⟨R, s.machine.history, t.machine.history⟩ s t := by
  let z : Horizon := {
    settings
    valid := hs
    lastId := s.machine.registers.lastId
    Shown := fun dir id => id ≤ lastSlot ∧
      (lastSlot < s.machine.registers.lastId dir ∨ s.machine.registers.lastId dir < id)
    slots := fun _ _ h => h.1
    behind := fun _ _ hid h => ⟨hid, h⟩ }
  have hissued : s.machine.channel.issued = .both noId := h.vacant.issued
  have hring : t.worker.ring = s.worker.ring := by
    have hlastId : t.worker.ring.lastId = s.worker.ring.lastId := h'.vacant.ring.trans h.vacant.ring.symm
    have hbus : t.worker.ring.tableBus = s.worker.ring.tableBus := h'.bus.trans h.bus.symm
    cases ht : t.worker.ring
    cases hs : s.worker.ring
    simp_all
  have hchannel : Channel.Twin z s.machine.channel t.machine.channel := by
    constructor
    case settings => exact ⟨h.settings, h'.settings⟩
    case work => exact ⟨[], h.vacant.work, h'.vacant.work⟩
    case advanceOpen => exact h'.vacant.advanceOpen.trans h.vacant.advanceOpen.symm
    case idle => exact h'.vacant.idle.trans h.vacant.idle.symm
    case finished => exact hfinished
    case direction =>
      intro hbusy
      cases hbusy.symm.trans h.vacant.idle
    case issued => exact h'.vacant.issued.trans h.vacant.issued.symm
    case payload => exact hpayload
    case watched =>
      intro dir hne
      rw [hissued, Sides.get_both] at hne
      exact absurd rfl hne
    case flags =>
      rintro dir id ⟨hid, hbehind⟩
      rw [h.calm dir id hid hbehind, h'.calm dir id hid (by rwa [hlast])]
  refine ⟨z, ⟨hchannel, fun dir => ⟨rfl, hlast dir⟩, hplatform, hlistener, [], rfl, rfl⟩, hring, ?_, ?_, ?_⟩
  · exact h'.vacant.pipeline.trans h.vacant.pipeline.symm
  · exact h'.vacant.transfer.trans h.vacant.transfer.symm
  · intro p hp
    cases hp.symm.trans h.vacant.transfer

theorem Station.Twins.run {o : Outset σ} (hR : Platform.Matches o.Alike) (h : Twins o s t)
    (acts : List Act) : Twins o (s.run acts) (t.run acts) := by
  induction acts generalizing s t with
  | nil => exact h
  | cons a acts ih =>
    obtain ⟨z, hz⟩ := h
    exact ih (hz.act hR a)

/-- Two workers on controllers that were reset may have carried out, failed or stopped any transfers. If
both are idle then, and the controllers hold the same last ids, the payload and what the listeners
still do are the same, and the platforms answer alike, then nothing tells the two apart from then on:
the same acts leave the same events behind, with the same reads, writes, locks, unlocks, descriptors
and notifications, and every submission, interrupt and service has the same answer. -/
theorem run_leaves_no_residue (settings : Settings) (hs : settings.Valid) (tableBus : Sides Nat)
    (hp : Platform.Within σ Incident.Honest) (hq : Platform.Quiet σ) {R : σ → σ → Prop}
    (hR : Platform.Matches R) (platform platform' : σ) (listener listener' : List (List Incident))
    (hl : ∀ reaction ∈ listener, ∀ i ∈ reaction, i.Honest)
    (hl' : ∀ reaction ∈ listener', ∀ i ∈ reaction, i.Honest) (acts acts' : List Act)
    (ha : ∀ a ∈ acts, a.Within Incident.Honest) (ha' : ∀ a ∈ acts', a.Within Incident.Honest) :
    let s := (Station.initial settings tableBus .reset platform listener).run acts
    let t := (Station.initial settings tableBus .reset platform' listener').run acts'
    s.machine.channel.idle = true → t.machine.channel.idle = true →
    t.machine.channel.finished = s.machine.channel.finished →
    (∀ dir, t.machine.registers.lastId dir = s.machine.registers.lastId dir) →
    t.machine.channel.payload = s.machine.channel.payload →
    t.machine.listener = s.machine.listener → R s.machine.platform t.machine.platform →
    ∀ later, (s.run later).AnswersLike (t.run later) ∧ ∃ events,
      (s.run later).machine.history = events ++ s.machine.history ∧
      (t.run later).machine.history = events ++ t.machine.history := by
  intro s t hidle hidle' hfinished hlast hpayload hlistener hplatform later
  have hspent : s.Spent settings tableBus := .run hs platform hp hq listener hl acts ha hidle
  have hspent' : t.Spent settings tableBus := .run hs platform' hp hq listener' hl' acts' ha' hidle'
  obtain ⟨z, hz⟩ := (hspent.twins hspent' hs hfinished hlast hpayload hlistener hplatform).run hR later
  exact ⟨hz.answersLike hR, hz.machine.history⟩

end Runs

/-- Tallies without limits answer alike, whatever they hold. -/
theorem Bench.PageTally.lavish_matches :
    Platform.Matches fun x y : Bench.PageTally => x.Lavish ∧ y.Lavish where
  lock x y range writable h := by
    refine ⟨?_, rfl, lavish_keeps.lock _ _ _ h.1, lavish_keeps.lock _ _ _ h.2⟩
    simp only [Platform.lock, PageTally.lock, h.1.grant, h.2.grant]
  unlock x y pages dirty h := ⟨lavish_keeps.unlock _ _ _ h.1, lavish_keeps.unlock _ _ _ h.2⟩
  written x y offset value h := ⟨rfl, h⟩

/-- A transfer that was stopped after its batch, and another one whose batch was flagged before it was
stopped, with an empty one behind it that was completed. -/
theorem run_leaves_no_residue_tally :
    let s := (Station.initial {} (.both 0) .reset ({} : Bench.PageTally) []).run [
      .strike (.submit { direction := .hostToDevice, host := 0x2004, device := 16, len := 8 }),
      .serve, .stop]
    let t := (Station.initial {} (.both 0) .reset ({} : Bench.PageTally) []).run [
      .strike (.submit { direction := .hostToDevice, host := 0x7000, device := 0, len := 0x10 }),
      .serve, .strike (.complete .hostToDevice), .stop,
      .strike (.submit { direction := .deviceToHost, host := 0, device := 0, len := 0 }), .serve]
    ∀ later, (s.run later).AnswersLike (t.run later) ∧ ∃ events,
      (s.run later).machine.history = events ++ s.machine.history ∧
      (t.run later).machine.history = events ++ t.machine.history := by
  intro s t
  have hlast (dir : Direction) : t.machine.registers.lastId dir = s.machine.registers.lastId dir := by
    cases dir <;> decide +kernel
  have hlavish : s.machine.platform.Lavish ∧ t.machine.platform.Lavish :=
    ⟨⟨by decide +kernel, by decide +kernel⟩, ⟨by decide +kernel, by decide +kernel⟩⟩
  exact run_leaves_no_residue {} (by decide) (.both 0) (Bench.PageTally.within _) Bench.PageTally.quiet
    Bench.PageTally.lavish_matches {} {} [] [] nofun nofun _ _ (by simp [Act.Within, Incident.Honest])
    (by simp [Act.Within, Incident.Honest]) (by decide +kernel) (by decide +kernel) (by decide +kernel)
    hlast (by decide +kernel) (by decide +kernel) hlavish
end ScatterGather
