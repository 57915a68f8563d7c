import ScatterGather.Proofs.Docket
import ScatterGather.Proofs.Drains
import ScatterGather.Proofs.Residues
import ScatterGather.Worker.Task

/-! # No work is missed

A task that waits has left its waker in the channel, and the queue is empty then. Whatever brings work
takes the waker out and wakes the task. So a task that is polled when it was woken does what a worker
does that is called at the same points.
-/
namespace ScatterGather

theorem WakerSlot.wake_eq (w : WakerSlot) :
    w.wake = { registered := none, woken := w.registered.toList ++ w.woken } := by
  rcases w with ⟨_ | task, woken⟩ <;> rfl

theorem WakerSlot.wake_of_none {w : WakerSlot} (h : w.registered = none) : w.wake = w := by
  rw [wake_eq, h]
  cases w
  simp_all

theorem BoundedQueue.push_isEmpty {α : Type} {n : Nat} {q : BoundedQueue α n} (h : q.isFull = false)
    (a : α) : (q.push a).isEmpty = false := by
  simp [push, isEmpty, h]

/-- The incident brings work into the queue: a request is accepted, or an advance is queued. -/
def Incident.Brings (c : Channel) : Incident → Prop
  | submit r => (c.submit r).1 = none
  | interrupt status => (c.interrupt status).1.advanceQueued = true
  | _ => False

namespace Channel

/-- Work was brought, and whoever waited for it was woken. -/
def Roused (c d : Channel) : Prop := d.waker = c.waker.wake ∧ d.work.isEmpty = false

/-- Neither was work brought nor was anyone woken. -/
def Undisturbed (c d : Channel) : Prop := d.waker = c.waker ∧ d.work = c.work

theorem submit_rouses (c : Channel) (r : Request) :
    (c.submit r).1 = none ∧ c.Roused (c.submit r).2 ∨
    (c.submit r).1 ≠ none ∧ c.Undisturbed (c.submit r).2 := by
  unfold submit
  split
  · exact .inr ⟨nofun, rfl, rfl⟩
  split
  · exact .inr ⟨nofun, rfl, rfl⟩
  split
  · exact .inr ⟨nofun, rfl, rfl⟩
  split
  · exact .inr ⟨nofun, rfl, rfl⟩
  dsimp only
  split
  · exact .inr ⟨nofun, rfl, rfl⟩
  · next hroom => exact .inl ⟨rfl, rfl, BoundedQueue.push_isEmpty (Bool.eq_false_iff.mpr hroom) _⟩

theorem interrupt_rouses (c : Channel) (status : UInt32) :
    (c.interrupt status).1.advanceQueued = true ∧ c.Roused (c.interrupt status).2 ∨
    (c.interrupt status).1.advanceQueued = false ∧ c.Undisturbed (c.interrupt status).2 := by
  unfold interrupt requestAdvance
  dsimp only
  split
  · split
    · exact .inr ⟨rfl, rfl, rfl⟩
    · next hroom =>
      simp only [Bool.or_eq_true, not_or, Bool.not_eq_true] at hroom
      exact .inl ⟨rfl, rfl, BoundedQueue.push_isEmpty hroom.2 _⟩
  · exact .inr ⟨rfl, rfl, rfl⟩

end Channel

section Services
variable {σ : Type} {s t : Station σ} {m : Machine σ}

/-- An incident either brings work and rouses the task, or disturbs no one. -/
theorem Station.strike_rouses (s : Station σ) (i : Incident) :
    i.Brings s.machine.channel ∧ s.machine.channel.Roused (s.strike i).machine.channel ∨
    ¬ i.Brings s.machine.channel ∧ s.machine.channel.Undisturbed (s.strike i).machine.channel := by
  cases i with
  | complete dir =>
    refine .inr ⟨id, ?_⟩
    simp only [strike, Machine.incur]
    split <;> exact ⟨rfl, rfl⟩
  | flag => exact .inr ⟨id, rfl, rfl⟩
  | interrupt status =>
    rcases s.machine.channel.interrupt_rouses status with hbrought | ⟨hqueued, hsame⟩
    · exact .inl hbrought
    · exact .inr ⟨Bool.eq_false_iff.mp hqueued, hsame⟩
  | submit r => exact s.machine.channel.submit_rouses r

/-- Where no waker is registered, none is touched. -/
theorem Machine.incur_waker (h : m.channel.waker.registered = none) (i : Incident) :
    (m.incur i).channel.waker = m.channel.waker := by
  let s : Station σ := { worker := { ring := { tableBus := .both 0 } }, machine := m }
  rcases s.strike_rouses i with ⟨-, hwaker, -⟩ | ⟨-, hwaker, -⟩
  · exact hwaker.trans (WakerSlot.wake_of_none h)
  · exact hwaker

theorem Machine.Sees.waker {m' : Machine σ} {events : List Event} (h : m.Sees events m') :
    m'.channel.waker = m.channel.waker := by
  obtain ⟨⟨n, hc⟩, -, -⟩ := h
  rw [hc]

variable [Platform σ] {A : Incident → Prop} {H : Act → Worker → Prop} {x y : Juncture × Station σ}

theorem Ring.stage_waker (h : m.channel.waker.registered = none) (ring : Ring) (dir : Direction)
    (start : BatchPlace) (entries : List Entry) :
    (ring.stage m dir start entries).2.channel.waker = m.channel.waker :=
  stage_induction (P := (·.channel.waker = m.channel.waker)) dir (fun _ _ _ _ hm => hm)
    (fun m' i hm => (Machine.incur_waker (m := m') (hm.symm ▸ h) i).trans hm) (fun _ _ hm => hm)
    (fun _ _ hm => hm) ring start entries rfl

/-- No step leaves a waker behind, and none wakes anyone where no waker is registered. -/
theorem Step.waker (hstep : Step A H x y) (h : x.2.machine.channel.waker.registered = none) :
    y.2.machine.channel.waker = x.2.machine.channel.waker := by
  cases hstep.deed with
  | tend htends =>
    obtain ⟨work, n, hchannel⟩ := htends.channel
    rw [hchannel]
  | strike => exact Machine.incur_waker h _
  | @interrupt s status =>
    rcases s.machine.channel.interrupt_rouses status with ⟨-, hwaker, -⟩ | ⟨-, hwaker, -⟩
    · exact hwaker.trans (WakerSlot.wake_of_none h)
    · exact hwaker
  | setPayload | begin => rfl
  | @halt s a ha =>
    cases a with
    | stop => exact (s.worker.pipeline.unpinAll_sees s.machine).waker
    | finish => exact (s.worker.pipeline.unpinAll_sees _).waker
    | _ => exact ha.elim
  | @complete k p s => exact (s.worker.pipeline.unpinAll_sees s.machine).waker
  | @fail k cause s => exact (s.worker.pipeline.unpinAll_sees s.machine).waker
  | issue => exact Ring.stage_waker h _ _ _ _
  | @close s =>
    obtain ⟨work, advanceOpen, hclose⟩ := s.machine.channel.closeAdvance_frame
    rw [Station.mapChannel, hclose]

theorem Path.waker (hpath : Path A H x y) (h : x.2.machine.channel.waker.registered = none) :
    y.2.machine.channel.waker = x.2.machine.channel.waker := by
  induction hpath with
  | refl => rfl
  | tail _ hstep ih => exact (hstep.waker (ih.symm ▸ h)).trans ih

theorem Step.finished_of_not_halts (hstep : Step A (fun a _ => ¬ a.Halts) x y) :
    y.2.machine.channel.finished = x.2.machine.channel.finished := by
  have hsame := hstep.finished
  cases hstep with
  | strike => exact congrArg Prod.fst (Machine.incur_orders _ _)
  | interrupt status => exact congrArg Prod.fst (Channel.interrupt_orders _ status)
  | stop hh => exact absurd trivial hh
  | finish hh => exact absurd trivial hh
  | serve | setPayload => rfl
  | _ => exact hsame (by simp)

theorem Path.finished_of_not_halts (hpath : Path A (fun a _ => ¬ a.Halts) x y) :
    y.2.machine.channel.finished = x.2.machine.channel.finished := by
  induction hpath with
  | refl => rfl
  | tail _ hstep ih => exact hstep.finished_of_not_halts.trans ih

/-- A service finishes nothing. -/
theorem Station.serve_finished (s : Station σ) :
    s.serve.2.machine.channel.finished = s.machine.channel.finished :=
  Path.finished_of_not_halts (x := (.rest, s)) (y := (.rest, s.serve.2))
    (Path.act (a := .serve) Platform.within_true (fun _ _ _ _ => trivial) trivial id)

theorem Station.serve_of_empty (hc : Control s.view .rest)
    (h : s.machine.channel.work.isEmpty = true) : s.serve = (0, s) :=
  serveUpTo_of_empty hc h _

/-- To wait for work is to serve, and then to look for work once more: a service finishes nothing. -/
theorem Station.awaitWork_eq {s : Station σ}
    (hrest : s.machine.channel.work.isEmpty = true → s.serve = (0, s))
    (hopen : s.machine.channel.work.isEmpty = false → s.machine.channel.finished = false)
    (task : Nat) :
    s.awaitWork task = (.waiting, s.serve.2.mapChannel fun c => (c.pollWork task).2) := by
  cases hwork : s.machine.channel.work.isEmpty with
  | true =>
    rw [hrest hwork]
    simp [awaitWork, Channel.pollWork, Channel.workWaiting, hwork, mapChannel]
  | false =>
    have hfinished : s.serve.2.machine.channel.finished = false := s.serve_finished.trans (hopen hwork)
    have hsame : (s.mapChannel fun _ => s.machine.channel) = s := rfl
    simp [awaitWork, Channel.pollWork, Channel.workWaiting, hwork, hfinished, hsame]

end Services

namespace WorkerTask
variable {σ : Type} [Platform σ] {t : WorkerTask σ} {settings : Settings}

theorem run_id (t : WorkerTask σ) (acts : List TaskAct) : (t.run acts).id = t.id := by
  induction acts generalizing t with
  | nil => rfl
  | cons a acts ih =>
    refine (ih _).trans ?_
    cases a <;> rfl

/-- The task has not ended, and whenever its waker is registered the queue is empty. -/
structure Sound (settings : Settings) (t : WorkerTask σ) : Prop where
  settings : t.station.settings = settings
  control : Control t.station.view .rest
  opened : t.station.machine.channel.finished = false
  undone : t.state ≠ .done
  waits : t.station.machine.channel.waker.registered ≠ none →
    t.station.machine.channel.work.isEmpty = true

/-- A poll is a service, and then the task looks for work once more before it waits. -/
theorem Sound.poll_eq (h : t.Sound settings) : t.act .poll = { t with
    state := .waiting
    station := t.station.serve.2.mapChannel fun c => (c.pollWork t.id).2 } := by
  have hawait : t.station.poll t.id t.state = t.station.awaitWork t.id := by
    have hundone := h.undone
    cases hstate : t.state with
    | fresh => simp [Station.poll, h.opened]
    | waiting => rfl
    | done => exact absurd hstate hundone
  have hserved := Station.awaitWork_eq (Station.serve_of_empty h.control) (fun _ => h.opened) t.id
  simp only [act, hawait, hserved]

/-- After a poll that emptied the queue the waker is registered. -/
theorem pollWork_of_empty {c : Channel} (h : c.work.isEmpty = true) (id : Nat) :
    (c.pollWork id).2 = { c with waker := c.waker.register id } := by
  simp [Channel.pollWork, Channel.workWaiting, h]

theorem pollWork_of_waiting {c : Channel} (h : c.work.isEmpty = false) (id : Nat) :
    (c.pollWork id).2 = c := by
  simp [Channel.pollWork, Channel.workWaiting, h]

/-- Looking for work changes nothing but the waker. -/
theorem pollWork_frame (c : Channel) (id : Nat) : ∃ waker, (c.pollWork id).2 = { c with waker } := by
  cases h : c.work.isEmpty with
  | true => exact ⟨_, pollWork_of_empty h id⟩
  | false => exact ⟨_, pollWork_of_waiting h id⟩

theorem Sound.poll_channel (h : t.Sound settings) : (t.act .poll).station.machine.channel =
    (t.station.serve.2.machine.channel.pollWork t.id).2 := by
  rw [h.poll_eq]
  rfl

/-- A poll that empties the queue leaves the waker behind. -/
theorem Sound.poll_registers (h : t.Sound settings)
    (hempty : (t.act .poll).station.machine.channel.work.isEmpty = true) :
    (t.act .poll).station.machine.channel.waker.registered = some t.id := by
  obtain ⟨waker, hframe⟩ := pollWork_frame t.station.serve.2.machine.channel t.id
  rw [h.poll_channel] at hempty ⊢
  rw [pollWork_of_empty]
  · rfl
  · rwa [hframe] at hempty

theorem Sound.poll_drains (hs : settings.Valid) (hsmall : settings.pageSize < 2 ^ 34)
    (h : t.Sound settings) : (t.act .poll).station.machine.channel.work.isEmpty = true := by
  obtain ⟨waker, hframe⟩ := pollWork_frame t.station.serve.2.machine.channel t.id
  rw [h.poll_channel, hframe]
  exact Station.serve_drains (h.settings ▸ hs) (h.settings ▸ hsmall) h.control

theorem Sound.strike (h : t.Sound settings) (i : Incident) : (t.act (.strike i)).Sound settings := by
  have hstep : Step (fun _ => True) (fun _ _ => True) (.rest, t.station) (.rest, t.station.strike i) :=
    .strike trivial trivial
  constructor
  case settings => exact hstep.settings.trans h.settings
  case control => exact Control.strike (j := .rest) trivial h.control i
  case opened => exact (congrArg Prod.fst (Machine.incur_orders _ i)).trans h.opened
  case undone => exact h.undone
  case waits =>
    intro hwaker
    rcases t.station.strike_rouses i with ⟨-, hroused, -⟩ | ⟨-, hsame, hwork⟩
    · rw [show (t.act (.strike i)).station.machine.channel.waker = _ from hroused, WakerSlot.wake_eq]
        at hwaker
      exact absurd rfl hwaker
    · rw [show (t.act (.strike i)).station.machine.channel.waker = _ from hsame] at hwaker
      exact hwork ▸ h.waits hwaker

theorem Sound.poll (hs : settings.Valid) (h : t.Sound settings) : (t.act .poll).Sound settings := by
  obtain ⟨waker, hframe⟩ := pollWork_frame t.station.serve.2.machine.channel t.id
  have hserve : Path (fun _ => True) (fun _ _ => True) (.rest, t.station) (.rest, t.station.serve.2) :=
    Path.everyRun t.station [.serve]
  obtain ⟨hcontrol, hsettings⟩ := Path.control (x := (.rest, t.station)) (h.settings ▸ hs) h.control hserve
  rw [h.poll_eq]
  simp only [Station.mapChannel, hframe]
  constructor
  case settings => exact hsettings.trans h.settings
  case control => exact hcontrol
  case opened => exact t.station.serve_finished.trans h.opened
  case undone =>
    intro hdone
    cases hdone
  case waits =>
    -- a waker that is not registered anew was registered before, and then there was nothing to serve
    intro hwaker
    cases hwork : t.station.serve.2.machine.channel.work.isEmpty with
    | true => rfl
    | false =>
      obtain rfl : waker = t.station.serve.2.machine.channel.waker := by
        rw [pollWork_of_waiting hwork] at hframe
        exact (congrArg Channel.waker hframe).symm
      cases hbefore : t.station.machine.channel.work.isEmpty with
      | true =>
        rw [Station.serve_of_empty h.control hbefore] at hwork
        cases hbefore.symm.trans hwork
      | false =>
        have hnone : t.station.machine.channel.waker.registered = none := by
          by_contra hregistered
          cases hbefore.symm.trans (h.waits hregistered)
        have hsame := Path.waker hserve hnone
        exact absurd (hsame ▸ hnone) hwaker

theorem Sound.run (hs : settings.Valid) (h : t.Sound settings) (acts : List TaskAct) :
    (t.run acts).Sound settings := by
  induction acts generalizing t with
  | nil => exact h
  | cons a acts ih =>
    cases a with
    | strike i => exact ih (h.strike i)
    | poll => exact ih (h.poll hs)

end WorkerTask

section Polling
variable {σ : Type} [Platform σ] {s : Station σ} {t : WorkerTask σ} {o : Outset σ} {settings : Settings}
  {w : WakerSlot}

theorem Platform.matches_eq : Platform.Matches (Eq : σ → σ → Prop) where
  lock := by
    rintro x _ range writable rfl
    exact ⟨rfl, rfl, rfl⟩
  unlock := by
    rintro x _ pages dirty rfl
    rfl
  written := by
    rintro x _ offset value rfl
    exact ⟨rfl, rfl⟩

omit [Platform σ] in
/-- A station at rest is its own twin. -/
theorem Station.Twins.refl (hs : s.settings.Valid) (hc : Control s.view .rest) :
    Station.Twins ⟨Eq, s.machine.history, s.machine.history⟩ s s := by
  let z : Horizon := {
    settings := s.settings
    valid := hs
    lastId := s.machine.registers.lastId
    Shown := fun _ id => id ≤ lastSlot
    slots := fun _ _ h => h
    behind := fun _ _ h _ => h }
  obtain ⟨jobs, hjobs⟩ := hc.holds
  have hwatched : ∀ dir, s.machine.channel.issued.get dir ≠ noId →
      s.machine.channel.issued.get dir ≤ lastSlot := by
    intro dir hne
    rcases hc with hb | ⟨p, hr⟩
    · rw [show s.machine.channel.issued = .both noId from hb.issued, Sides.get_both] at hne
      exact absurd rfl hne
    · obtain ⟨last, hpublished⟩ := hr.published
      rw [show s.machine.channel.issued = _ from hpublished.issued, Sides.get_set] at hne ⊢
      split at hne
      · next hdir => exact (if_pos hdir).symm ▸ hpublished.le
      · exact absurd (Sides.get_both ..) hne
  have hheld : ∀ p, s.worker.transfer = some p →
      s.worker.ring.lastId.get p.request.direction = z.lastId p.request.direction := by
    intro p hp
    obtain ⟨last, hpublished⟩ := (View.Running.of_transfer hc hp).published
    rw [show s.worker.ring.lastId = _ from hpublished.ring, Sides.get_set_self]
    exact hpublished.held.symm
  have hchannel : Channel.Twin z s.machine.channel s.machine.channel :=
    ⟨⟨rfl, rfl⟩, ⟨jobs, hjobs, hjobs⟩, rfl, rfl, rfl, fun _ => rfl, rfl, rfl, hwatched, fun _ _ _ => rfl⟩
  exact ⟨z, ⟨hchannel, fun _ => ⟨rfl, rfl⟩, rfl, rfl, [], rfl, rfl⟩, rfl, rfl, rfl, hheld⟩

/-- What a poll does is what a service does. -/
theorem WorkerTask.Sound.twins_poll (h : t.Sound settings) (ht : Station.Twins o s t.station)
    (hR : Platform.Matches o.Alike) : Station.Twins o s.serve.2 (t.act .poll).station := by
  obtain ⟨z, hz⟩ := ht
  obtain ⟨y, hy⟩ := (hz.serve hR).2
  obtain ⟨waker, hframe⟩ := WorkerTask.pollWork_frame t.station.serve.2.machine.channel t.id
  rw [h.poll_eq]
  simp only [Station.mapChannel, hframe]
  exact ⟨y, hy.mapMachine (hy.machine.mapChannel { hy.machine.channel with })⟩

theorem WorkerTask.Sound.twins_run (hs : settings.Valid) (hR : Platform.Matches o.Alike)
    (h : t.Sound settings) (ht : Station.Twins o s t.station) (acts : List TaskAct) :
    Station.Twins o (s.run (acts.map TaskAct.direct)) (t.run acts).station := by
  induction acts generalizing s t with
  | nil => exact ht
  | cons a acts ih =>
    cases a with
    | strike i =>
      obtain ⟨z, hz⟩ := ht
      exact ih (h.strike i) (hz.act hR (.strike i))
    | poll => exact ih (h.poll hs) (h.twins_poll ht hR)

/-- Since the waker was left as `w`, the task was not woken and has nothing to do, or it was woken once
and has work. -/
def WorkerTask.Since (w : WakerSlot) (t : WorkerTask σ) : Prop :=
  t.station.machine.channel.waker = w ∧ t.station.machine.channel.work.isEmpty = true ∨
  t.station.machine.channel.waker = w.wake ∧ t.station.machine.channel.work.isEmpty = false

theorem WorkerTask.Since.strike (h : t.Since w) (i : Incident) : (t.act (.strike i)).Since w := by
  rcases t.station.strike_rouses i with ⟨-, hwaker, hwork⟩ | ⟨-, hwaker, hwork⟩
  · refine .inr ⟨hwaker.trans ?_, hwork⟩
    rcases h with ⟨hw, -⟩ | ⟨hw, -⟩ <;> rw [hw]
    exact WakerSlot.wake_of_none (congrArg WakerSlot.registered w.wake_eq)
  · exact h.imp (fun ⟨hw, he⟩ => ⟨hwaker.trans hw, hwork ▸ he⟩)
      fun ⟨hw, he⟩ => ⟨hwaker.trans hw, hwork ▸ he⟩

theorem WorkerTask.Since.run (h : t.Since w) {acts : List TaskAct} (ha : .poll ∉ acts) :
    (t.run acts).Since w := by
  induction acts generalizing t with
  | nil => exact h
  | cons a acts ih =>
    rw [List.mem_cons, not_or] at ha
    cases a with
    | strike i => exact ih (h.strike i) ha.2
    | poll => exact absurd rfl ha.1

theorem WorkerTask.Since.serve (h : t.Since w) (ht : t.Sound settings) (hw : w.registered ≠ none)
    (hsame : t.station.machine.channel.waker.woken = w.woken) : t.station.serve = (0, t.station) := by
  rcases h with ⟨-, hempty⟩ | ⟨hwaker, -⟩
  · exact Station.serve_of_empty ht.control hempty
  · obtain ⟨id, hid⟩ := Option.ne_none_iff_exists'.mp hw
    rw [hwaker, WakerSlot.wake_eq, hid] at hsame
    exact absurd hsame (List.cons_ne_self _ _)

end Polling

section Runs
variable {σ : Type}

/-- What an incident outside a poll does to the queue and to the waker. -/
structure Station.Rousing (s : Station σ) (i : Incident) : Prop where
  /-- Who brings work into the empty queue wakes the task that is registered, once, and takes its waker
  out. -/
  woken : s.machine.channel.work.isEmpty = true →
    (s.strike i).machine.channel.work.isEmpty = false →
    (s.strike i).machine.channel.waker =
      { registered := none
        woken := s.machine.channel.waker.registered.toList ++ s.machine.channel.waker.woken }
  /-- Refused requests, interrupts that queue nothing, and flags wake no one. -/
  spared : ¬ i.Brings s.machine.channel →
    (s.strike i).machine.channel.waker = s.machine.channel.waker ∧
    (s.strike i).machine.channel.work = s.machine.channel.work

theorem Station.rousing (s : Station σ) (i : Incident) : s.Rousing i := by
  rcases s.strike_rouses i with ⟨hbrings, hwaker, -⟩ | ⟨-, hwaker, hwork⟩
  · exact ⟨fun _ _ => hwaker.trans (WakerSlot.wake_eq _), fun h => absurd hbrings h⟩
  · refine ⟨fun hempty hfilled => ?_, fun _ => ⟨hwaker, hwork⟩⟩
    rw [hwork, hempty] at hfilled
    cases hfilled

variable [Platform σ]

/-- What is known of a task that was fresh at first and has gone through some acts. -/
structure WorkerTask.MissesNothing (fresh : WorkerTask σ) (acts : List TaskAct) : Prop where
  undone : (fresh.run acts).state ≠ .done
  waits : (fresh.run acts).station.machine.channel.waker.registered ≠ none →
    (fresh.run acts).station.machine.channel.work.isEmpty = true
  rousing : ∀ i, (fresh.run acts).station.Rousing i
  history : (fresh.run acts).station.machine.history =
    (fresh.station.run (acts.map TaskAct.direct)).machine.history
  platform : (fresh.run acts).station.machine.platform =
    (fresh.station.run (acts.map TaskAct.direct)).machine.platform
  listener : (fresh.run acts).station.machine.listener =
    (fresh.station.run (acts.map TaskAct.direct)).machine.listener
  drained : fresh.station.settings.pageSize < 2 ^ 34 →
    ((fresh.run acts).act .poll).station.machine.channel.work.isEmpty = true
  /-- After the last poll, if it emptied the queue. -/
  since : ∀ kept rest, acts = kept ++ .poll :: rest → .poll ∉ rest →
    let left := ((fresh.run kept).act .poll).station.machine.channel
    left.work.isEmpty = true →
      left.waker.registered = some fresh.id ∧ (fresh.run acts).Since left.waker ∧
      ((fresh.run acts).station.machine.channel.waker.woken = left.waker.woken →
        (fresh.run acts).station.serve = (0, (fresh.run acts).station))

/-- In every run of a worker that is not finished, as a task that is polled whenever it may be: the waker
is registered only while the queue is empty, work that comes wakes the task exactly once, and the task
does what a worker does that is called where the task is polled. As long as it was not woken since it
was polled last, there is nothing for it to do. -/
theorem run_misses_nothing (settings : Settings) (hs : settings.Valid) (tableBus : Sides Nat)
    (registers : RegisterFile) (platform : σ) (listener : List (List Incident)) (before : List Act)
    (hopen : ((Station.initial settings tableBus registers platform listener).run
      before).machine.channel.finished = false) (id : Nat) (acts : List TaskAct) :
    ({ id, station := (Station.initial settings tableBus registers platform listener).run before } :
      WorkerTask σ).MissesNothing acts := by
  let first := Station.initial settings tableBus registers platform listener
  let fresh : WorkerTask σ := { id, station := first.run before }
  have hbefore := Path.everyRun first before
  obtain ⟨hcontrol, hsettings⟩ := Path.control (x := (.rest, first)) hs (Control.initial ..) hbefore
  have hwaker : fresh.station.machine.channel.waker = {} := Path.waker hbefore rfl
  have hfresh : fresh.Sound settings := by
    refine ⟨hsettings, hcontrol, hopen, nofun, fun hne => absurd ?_ hne⟩
    rw [hwaker]
  have hsound (acts : List TaskAct) : (fresh.run acts).Sound settings := hfresh.run hs acts
  have htwins := hfresh.twins_run hs Platform.matches_eq
    (.refl (hfresh.settings ▸ hs) hcontrol) acts
  obtain ⟨z, hz⟩ := htwins
  constructor
  case undone => exact (hsound acts).undone
  case waits => exact (hsound acts).waits
  case rousing => exact (fresh.run acts).station.rousing
  case history =>
    obtain ⟨events, hdirect, htask⟩ := hz.machine.history
    exact htask.trans hdirect.symm
  case platform => exact hz.machine.platform.symm
  case listener => exact hz.machine.listener
  case drained =>
    intro hsmall
    exact (hsound acts).poll_drains hs (hfresh.settings ▸ hsmall)
  case since =>
    rintro kept rest rfl hrest left hempty
    have hregistered : left.waker.registered = some id := by
      have hid : (fresh.run kept).id = id := WorkerTask.run_id ..
      exact hid ▸ (hsound kept).poll_registers hempty
    have hsince : (fresh.run (kept ++ .poll :: rest)).Since left.waker := by
      have hpolled : ((fresh.run kept).act .poll).Since left.waker := .inl ⟨rfl, hempty⟩
      rw [WorkerTask.run, List.foldl_append]
      exact hpolled.run hrest
    refine ⟨hregistered, hsince, hsince.serve (hsound _) ?_⟩
    rw [hregistered]
    exact Option.some_ne_none id

end Runs

/-- A request wakes the task that was polled before, and so does the interrupt for its batch. -/
theorem run_misses_nothing_tally :
    let first := Station.initial {} (.both 0) .reset ({} : Bench.PageTally) []
    ({ id := 7, station := first.run [.setPayload 8] } : WorkerTask Bench.PageTally).MissesNothing
      [.poll, .strike (.submit { direction := .hostToDevice, host := 0x2004, device := 16, len := 8 }),
        .poll, .strike (.complete .hostToDevice), .strike (.interrupt 0)] :=
  run_misses_nothing {} (by decide) _ _ _ _ _ (by decide +kernel) _ _
end ScatterGather
