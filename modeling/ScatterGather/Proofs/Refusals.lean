import ScatterGather.Bench.PageTally
import ScatterGather.Proofs.Pasts

/-! # Refused submissions

A submission is refused for the first of four causes that applies, and never because the queue is full:
in an idle channel there is room. A refusal leaves the channel as it was, and everything that comes later
is what would have come without it.
-/
namespace ScatterGather
open Relation

namespace Channel
variable {c : Channel}

/-- Why a submission is refused, if it is. -/
def refusal (c : Channel) (r : Request) : Option Failure :=
  if c.finished then some (.settings .finished)
  else if r.len % wordBytes ≠ 0 then some (.request .unalignedLength)
  else if r.host % wordBytes ≠ 0 then some (.request .unalignedAddress)
  else if !c.idle then some (.request .transferInProgress)
  else none

/-- An idle channel has room for a start. -/
def Roomy (c : Channel) : Prop := c.idle = true → c.work.isFull = false

theorem Roomy.submit (h : c.Roomy) (r : Request) : (c.submit r).1 = c.refusal r := by
  unfold Channel.submit refusal
  split
  · rfl
  split
  · rfl
  split
  · rfl
  split
  · rfl
  next hidle =>
  simp [h (by simpa using hidle)]

theorem submit_of_refusal {r : Request} {cause : Failure} (h : c.refusal r = some cause) :
    c.submit r = (some cause, c) := by
  unfold refusal at h
  unfold Channel.submit
  split at h
  · next hf => rw [if_pos hf, h]
  next hf =>
  rw [if_neg hf]
  split at h
  · next hlen => rw [if_pos hlen, h]
  next hlen =>
  rw [if_neg hlen]
  split at h
  · next hhost => rw [if_pos hhost, h]
  next hhost =>
  rw [if_neg hhost]
  split at h
  · next hidle => rw [if_pos hidle, h]
  · cases h

theorem refusal_ne_queueFull (c : Channel) (r : Request) :
    c.refusal r ≠ some (.request .queueFull) := by
  unfold refusal
  repeat' split
  all_goals nofun

end Channel

/-- Only in a channel that is not idle something is queued. -/
theorem Control.roomy {σ : Type} {s : Station σ} {j : Juncture} (h : Control s.view j) :
    s.machine.channel.Roomy := by
  intro hidle
  have hbusy {p : Progress} (he : s.view.Engaged p) : s.machine.channel.work.isFull = false := by
    cases he.idle.symm.trans hidle
  have hbetween {opened : Bool} (hb : s.view.Between opened) :
      s.machine.channel.work.isFull = false := by
    rcases hb with hv | ⟨r, hq⟩
    · exact hv.work.isFull
    · cases hq.idle.symm.trans hidle
  cases j with
  | rest | ready | closing =>
    rcases h with hb | ⟨p, hr⟩
    · exact hbetween hb
    · exact hbusy hr.toEngaged
  | due => exact hbusy (View.Poised.toEngaged h)
  | turned | asked | supplied => exact hbusy h.1.toEngaged
  | handed | released | askedAhead => exact hbusy (View.Running.toEngaged h)
  | broken =>
    obtain ⟨p, hp⟩ := h
    exact hbusy hp.toEngaged
  | told => exact hbetween h

/-- From then on every submission was refused, for the cause that applied at first. -/
structure Machine.Declines {σ : Type} (m m' : Machine σ) : Prop where
  busy : m.channel.idle = false
  idle : m'.channel.idle = m.channel.idle
  finished : m'.channel.finished = m.channel.finished
  history : ∃ events, m'.history = events ++ m.history ∧
    ∀ r refusal, .submit r refusal ∈ events → refusal = m.channel.refusal r

namespace Machine.Declines
variable {σ : Type} {m m' : Machine σ}

theorem recorded (h : m.Declines m') {n : Machine σ} {e : Event} (hn : n.history = e :: m'.history)
    (hc : n.channel.idle = m'.channel.idle ∧ n.channel.finished = m'.channel.finished)
    (he : ∀ r refusal, e = .submit r refusal → refusal = m.channel.refusal r) : m.Declines n := by
  obtain ⟨events, hh, hevents⟩ := h.history
  refine ⟨h.busy, hc.1.trans h.idle, hc.2.trans h.finished, e :: events, by rw [hn, hh]; rfl, ?_⟩
  intro r refusal hmem
  rcases List.mem_cons.mp hmem with heq | hmem
  · exact he r refusal heq.symm
  · exact hevents r refusal hmem

theorem incur (h : m.Declines m') (i : Incident) : m.Declines (m'.incur i) := by
  cases i with
  | complete dir =>
    simp only [Machine.incur]
    split
    · exact h.recorded rfl ⟨rfl, rfl⟩ (by rintro _ _ ⟨⟩)
    · exact h
  | flag dir id value => exact h.recorded rfl ⟨rfl, rfl⟩ (by rintro _ _ ⟨⟩)
  | interrupt status =>
    obtain ⟨work, advanceOpen, waker, hc⟩ := m'.channel.interrupt_frame status
    have hfinished : (m'.channel.interrupt status).2.finished = m'.channel.finished := by rw [hc]
    exact h.recorded rfl ⟨m'.channel.interrupt_idle status, hfinished⟩ (by rintro _ _ ⟨⟩)
  | submit r =>
    have hidle := h.idle.trans h.busy
    have hrefusal : m'.channel.refusal r = m.channel.refusal r := by
      rw [Channel.refusal, Channel.refusal, h.idle, h.finished]
    have hroomy : m'.channel.Roomy := fun hi => by cases hidle.symm.trans hi
    have hsame : (m'.channel.submit r).2 = m'.channel := by
      rcases m'.channel.submit_cases r with ⟨e, he⟩ | ⟨hi, -⟩ | ⟨hi, -⟩
      · rw [he]
      · cases hidle.symm.trans hi
      · cases hidle.symm.trans hi
    refine h.recorded (e := .submit r (m'.channel.submit r).1) rfl
      ⟨congrArg Channel.idle hsame, congrArg Channel.finished hsame⟩ ?_
    rintro _ _ ⟨rfl, rfl⟩
    rw [hroomy.submit, hrefusal]

end Machine.Declines

section Steps
variable {σ : Type} [Platform σ] {A : Incident → Prop} {H : Act → Worker → Prop}
  {x y : Juncture × Station σ} {older : List Event} {r : Request} {refusal : Option Failure}

theorem Station.issue_declines {s : Station σ} (hb : s.machine.channel.idle = false) (p : Progress)
    (start : BatchPlace) (entries : List Entry) :
    s.machine.Declines (s.issue p start entries).machine := by
  have hissued : s.machine.Declines (s.machine.record (.issue p.request.direction start entries)) :=
    Machine.Declines.recorded ⟨hb, rfl, rfl, [], rfl, nofun⟩ rfl ⟨rfl, rfl⟩ nofun
  have hstaged : s.machine.Declines (s.worker.ring.stage s.machine p.request.direction start entries).2 :=
    Ring.stage_induction (P := s.machine.Declines) p.request.direction
      (fun m r value _ hm => hm.recorded rfl ⟨rfl, rfl⟩ nofun) (fun m i hm => hm.incur i)
      (fun m f hm => { hm with }) (fun m last hm => { hm with }) s.worker.ring start entries hissued
  exact hstaged.recorded rfl ⟨rfl, rfl⟩ nofun

/-- Every submission that a history tells of was answered as its moment demands. -/
theorem Step.submitted (hc : Control x.2.view x.1) (h : Step A H x y)
    (hx : x.2.machine.history <:+ older) (hy : .submit r refusal :: older <:+ y.2.machine.history) :
    refusal = x.2.machine.channel.refusal r := by
  rcases h.struck_or_issues (e := .submit r refusal) trivial hx hy with
    ⟨i, -, rfl, hbefore, hnow⟩ | ⟨k, p, start, w, entries, hj, hissue⟩
  · have hevent : (x.2.machine.incur i).history = .submit r refusal :: older := hnow
    cases i with
    | submit r' =>
      simp only [Machine.incur, Machine.record, List.cons.injEq, Event.submit.injEq] at hevent
      obtain ⟨⟨rfl, rfl⟩, -⟩ := hevent
      exact hc.roomy.submit r'
    | complete dir =>
      simp only [Machine.incur] at hevent
      split at hevent
      · simp [Machine.record] at hevent
      · simp [hbefore] at hevent
    | flag | interrupt => simp [Machine.incur, Machine.record] at hevent
  · rw [hj] at hc
    obtain ⟨events, hh, hevents⟩ := (Station.issue_declines hc.1.idle p start entries).history
    rw [hissue, hh] at hy
    obtain ⟨newer, between, rfl, -⟩ := suffix_within hy hx
    exact hevents r refusal (by simp)

/-- What it means that a submission was refused at a moment `x`: nothing but the refusal itself is seen of
it, then and later. -/
structure Refused (x : Juncture × Station σ) (r : Request) (cause : Failure) : Prop where
  channel : (x.2.machine.channel.submit r).2 = x.2.machine.channel
  struck : x.2.strike (.submit r) =
    { x.2 with machine := x.2.machine.record (.submit r (some cause)) }
  /-- What is called later does the same, with the refusal among what was seen before. -/
  calls : ∀ later, ∃ t : Station σ, x.2.run later = t.after x.2.machine.history ∧
    (x.2.strike (.submit r)).run later = t.after (.submit r (some cause) :: x.2.machine.history)
  /-- Whatever can happen next from within a call can happen after the refusal. -/
  forth : ∀ A H y, Path A H x y → ∃ t : Station σ, y.2 = t.after x.2.machine.history ∧
    Path A H (x.1, x.2.strike (.submit r))
      (y.1, t.after (.submit r (some cause) :: x.2.machine.history))
  back : ∀ A H y, Path A H (x.1, x.2.strike (.submit r)) y →
    ∃ t : Station σ, y.2 = t.after (.submit r (some cause) :: x.2.machine.history) ∧
      Path A H x (y.1, t.after x.2.machine.history)

theorem Channel.refused {cause : Failure}
    (h : x.2.machine.channel.refusal r = some cause) : Refused x r cause := by
  obtain ⟨j, s⟩ := x
  have hsame : s.machine.channel.submit r = (some cause, s.machine.channel) := submit_of_refusal h
  have hstruck : s.strike (.submit r) = { s with machine := s.machine.record (.submit r (some cause)) } := by
    simp only [Station.strike, Machine.incur, hsame]
  -- the station as it would be had nothing been seen so far
  let now : Station σ := { s with machine := { s.machine with history := [] } }
  have hbefore : s = now.after s.machine.history := rfl
  have hafter : s.strike (.submit r) = now.after (.submit r (some cause) :: s.machine.history) := hstruck
  constructor
  case channel => exact congrArg Prod.snd hsame
  case struck => exact hstruck
  case calls =>
    intro later
    exact ⟨now.run later, now.run_after _ later, hafter ▸ now.run_after _ later⟩
  case forth =>
    intro A H y hpath
    obtain ⟨t, ht, hothers⟩ := Path.after (s := now) hpath
    exact ⟨t, ht, hafter ▸ hothers _⟩
  case back =>
    intro A H y hpath
    obtain ⟨t, ht, hothers⟩ := Path.after (s := now) (hafter ▸ hpath)
    exact ⟨t, ht, hothers _⟩

/-- At every moment of every run a submission is refused for the first cause that applies, and a refusal
makes no difference to anything. The history tells of no other causes, whenever someone submitted; and where
one of them applies, no channel is changed. -/
theorem run_refuses_unchanged (settings : Settings) (hs : settings.Valid) (tableBus : Sides Nat)
    (registers : RegisterFile) (platform : σ) (listener : List (List Incident)) (acts : List Act) :
    let first := Station.initial settings tableBus registers platform listener
    let last := first.run acts
    (∀ x, Midway (fun _ => True) (fun _ _ => True) first last x → ∀ r,
      (x.2.machine.channel.submit r).1 = x.2.machine.channel.refusal r ∧
      ∀ cause, x.2.machine.channel.refusal r = some cause → Refused x r cause) ∧
    (∀ r refusal older, .submit r refusal :: older <:+ last.machine.history →
      refusal ≠ some (.request .queueFull) ∧
      ∃ x, Midway (fun _ => True) (fun _ _ => True) first last x ∧
        x.2.machine.history <:+ older ∧ refusal = x.2.machine.channel.refusal r) ∧
    ∀ (c : Channel) r cause, c.refusal r = some cause → c.submit r = (some cause, c) := by
  intro first last
  have hcontrol : Control first.view .rest := Control.initial ..
  refine ⟨fun x hx r => ?_, fun r refusal older hsuffix => ?_, fun c r cause => Channel.submit_of_refusal⟩
  · have hroomy := (Path.control (x := (.rest, first)) hs hcontrol hx.1).1.roomy
    exact ⟨hroomy.submit r, fun cause h => Channel.refused h⟩
  · obtain ⟨u, v, hu, hstep, hv, holder, hnow⟩ :=
      Path.crossing (Path.everyRun first acts) hsuffix List.nil_suffix
    have hc := (Path.control (x := (.rest, first)) hs hcontrol hu).1
    have hanswer := hstep.submitted hc holder hnow
    exact ⟨hanswer ▸ Channel.refusal_ne_queueFull _ r, u, ⟨hu, .head hstep hv⟩, holder, hanswer⟩

end Steps

/-- With a batch from the device in flight a request to the device is refused, and the flags of the batch
are still those that the interrupt handler looks at. -/
theorem run_refuses_unchanged_tally :
    let calls : List Act := [
      .strike (.submit { direction := .deviceToHost, host := 0x2ffc, device := 0, len := 8 }), .serve]
    let s := (Station.initial {} (.both 0) .reset ({} : Bench.PageTally) []).run calls
    let r : Request := { direction := .hostToDevice, host := 0x4000, device := 0, len := 8 }
    (s.machine.channel.submit r).1 = some (.request .transferInProgress) ∧
      Refused (.rest, s) r (.request .transferInProgress) ∧
      (s.machine.channel.submit r).2.direction = .deviceToHost := by
  intro calls s r
  have h := run_refuses_unchanged {} (by decide) (.both 0) .reset ({} : Bench.PageTally) [] calls
  have hmoment : Midway (fun _ => True) (fun _ _ => True) _ s (.rest, s) :=
    ⟨Path.everyRun _ calls, .refl⟩
  obtain ⟨hanswer, hrefused⟩ := h.1 (.rest, s) hmoment r
  have hcause : s.machine.channel.refusal r = some (.request .transferInProgress) := by
    decide +kernel
  have hdirection : s.machine.channel.direction = .deviceToHost := by decide +kernel
  exact ⟨hanswer.trans hcause, hrefused _ hcause, (congrArg _ (hrefused _ hcause).channel).trans hdirection⟩

end ScatterGather
