import ScatterGather.Proofs.Effects
import ScatterGather.Proofs.Queue
import ScatterGather.Worker.Account

/-! # Whose turn it is

The channel, the worker and the controller's registers never disagree on whether a transfer is
queued, in hand or waiting for the device. `Control` says for each juncture what they agree on; no
incident changes it, and whenever the worker takes a job it knows where it stands.
-/
namespace ScatterGather

/-- The part of a station that the invariant speaks of. -/
structure View where
  worker : Worker
  posture : Posture
  held : Direction → Nat
  account : Account

def Station.view {σ : Type} (s : Station σ) : View where
  worker := s.worker
  posture := s.machine.channel.posture
  held := s.machine.registers.lastId
  account := .ofHistory s.machine.history

def Errand.opened : Errand → Bool
  | start => false
  | advance => true

namespace View

/-- Nothing is to be done. -/
structure Vacant (v : View) (opened : Bool) : Prop where
  transfer : v.worker.transfer = none
  pipeline : v.worker.pipeline = {}
  ring : v.worker.ring.lastId = .both noId
  issued : v.posture.issued = .both noId
  work : v.posture.work.Holds []
  advanceOpen : v.posture.advanceOpen = opened
  idle : v.posture.idle = true

/-- A request was accepted and waits to be taken up. -/
structure Queued (v : View) (opened : Bool) (r : Request) : Prop where
  transfer : v.worker.transfer = none
  pipeline : v.worker.pipeline = {}
  ring : v.worker.ring.lastId = .both noId
  issued : v.posture.issued = .both noId
  work : v.posture.work.Holds [.start r]
  advanceOpen : v.posture.advanceOpen = opened
  idle : v.posture.idle = false
  direction : v.posture.direction = r.direction
  aligned : r.Aligned
  account : v.account = { request := some r }

def Between (v : View) (opened : Bool) : Prop := v.Vacant opened ∨ ∃ r, v.Queued opened r

structure Engaged (v : View) (p : Progress) : Prop where
  transfer : v.worker.transfer = some p
  idle : v.posture.idle = false
  direction : v.posture.direction = p.request.direction
  aligned : p.request.Aligned
  request : v.account.request = some p.request
  sent : p.sent = v.account.bytes

/-- The worker, the interrupt handler and the controller know the same last id. -/
structure Published (v : View) (dir : Direction) (last : Nat) : Prop where
  le : last ≤ lastSlot
  ring : v.worker.ring.lastId = (Sides.both noId).set dir last
  issued : v.posture.issued = (Sides.both noId).set dir last
  held : v.held dir = last

/-- Before the first batch only the worker knows the id at which it goes on. -/
structure Fresh (v : View) (dir : Direction) : Prop where
  ring : v.worker.ring.lastId = (Sides.both noId).set dir (v.held dir)
  issued : v.posture.issued = .both noId
  batches : v.account.batches = []

/-- The batch that is due has not been issued yet. -/
structure Poised (v : View) (k : Errand) (p : Progress) : Prop extends v.Engaged p where
  work : v.posture.work.Holds []
  advanceOpen : v.posture.advanceOpen = k.opened
  place : match k with
    | .start => v.Fresh p.request.direction
    | .advance => v.account.batches ≠ [] ∧ ∃ last, v.Published p.request.direction last

structure Running (v : View) (k : Errand) (p : Progress) : Prop extends v.Engaged p where
  batches : v.account.batches ≠ []
  published : ∃ last, v.Published p.request.direction last
  pending : v.posture.work.Holds [] ∧ v.posture.advanceOpen = k.opened ∨
    k = .start ∧ v.posture.work.Holds [.advance] ∧ v.posture.advanceOpen = true

end View

/-- What is agreed on at a juncture. -/
def Control (v : View) : Juncture → Prop
  | .rest | .ready => v.Between false ∨ ∃ p, v.Running .start p
  | .due k p => v.Poised k p
  | .turned k p start | .asked k p start _ | .supplied k p start _ =>
    v.Poised k p ∧ v.worker.ring.start? p.request.direction = .ok start
  | .handed k p | .released k p | .askedAhead k p _ _ => v.Running k p
  | .broken k _ => ∃ p, v.Poised k p
  | .told k => v.Between k.opened
  | .closing k => v.Between k.opened ∨ ∃ p, v.Running k p

namespace View

def advanced (v : View) : View :=
  { v with posture := { v.posture with advanceOpen := true, work := v.posture.work.push .advance } }

def accepting (v : View) (r : Request) : View :=
  { v with
    posture := { v.posture with
      direction := r.direction, idle := false, work := v.posture.work.push (.start r) }
    account := { request := some r } }

end View

theorem View.Between.transfer {v : View} {opened : Bool} (h : v.Between opened) :
    v.worker.transfer = none := by
  rcases h with hv | ⟨r, hq⟩
  · exact hv.transfer
  · exact hq.transfer

theorem View.Between.issued {v : View} {opened : Bool} (h : v.Between opened) :
    v.posture.issued = .both noId := by
  rcases h with hv | ⟨r, hq⟩
  · exact hv.issued
  · exact hq.issued

theorem View.Running.of_transfer {v : View} {opened : Bool} {k : Errand} {p : Progress}
    (h : v.Between opened ∨ ∃ q, v.Running k q) (ht : v.worker.transfer = some p) :
    v.Running k p := by
  rcases h with hb | ⟨q, hr⟩
  · cases ht.symm.trans hb.transfer
  · obtain rfl : p = q := Option.some.inj (ht.symm.trans hr.transfer)
    exact hr

/-- The interrupt handler looks at the flag of the last id. -/
theorem View.Published.completed_eq {σ : Type} {s : Station σ} {dir : Direction} {last : Nat}
    (h : s.view.Published dir last) (hd : s.view.posture.direction = dir) :
    s.machine.channel.completed = ((s.machine.channel.table dir).flag? last).any (· != 0) := by
  have hdir : s.machine.channel.direction = dir := hd
  have hissued : s.machine.channel.issued.get dir = last := by
    rw [show s.machine.channel.issued = (Sides.both noId).set dir last from h.issued, Sides.get_set_self]
  have hne : last ≠ noId := Nat.ne_of_lt (Nat.lt_of_le_of_lt h.le (by decide))
  rw [Channel.completed, hdir, hissued, bne_iff_ne.mpr hne, Bool.true_and]

theorem Channel.not_completed_of_issued {c : Channel} (h : c.issued = .both noId) :
    c.completed = false := by
  simp [completed, h]

/-- With a transfer in hand, its next batch is due or its last one is out. -/
theorem Control.poised_or_running {v : View} {j : Juncture} {p : Progress} (h : Control v j)
    (ht : v.worker.transfer = some p) : ∃ k, v.Poised k p ∨ v.Running k p := by
  have hpoised {k : Errand} {q : Progress} (hq : v.Poised k q) : v.Poised k p := by
    obtain rfl : p = q := Option.some.inj (ht.symm.trans hq.transfer)
    exact hq
  cases j with
  | rest | ready | closing => exact ⟨_, .inr (View.Running.of_transfer h ht)⟩
  | due k => exact ⟨k, .inl (hpoised h)⟩
  | turned k | asked k | supplied k => exact ⟨k, .inl (hpoised h.1)⟩
  | handed k q | released k q | askedAhead k q =>
    obtain rfl : p = q := Option.some.inj (ht.symm.trans h.transfer)
    exact ⟨k, .inr h⟩
  | broken k =>
    obtain ⟨q, hq⟩ := h
    exact ⟨k, .inl (hpoised hq)⟩
  | told => cases ht.symm.trans (View.Between.transfer h)

theorem Control.engaged {v : View} {j : Juncture} {p : Progress} (h : Control v j)
    (ht : v.worker.transfer = some p) : v.Engaged p := by
  obtain ⟨k, hp | hr⟩ := h.poised_or_running ht
  · exact hp.toEngaged
  · exact hr.toEngaged

theorem Account.wordBytes_dvd_bytes (a : Account) : wordBytes ∣ a.bytes := by
  unfold bytes
  induction a.entries with
  | nil => exact Nat.dvd_zero _
  | cons e entries ih =>
    rw [Entry.total_cons]
    exact Nat.dvd_add (Nat.dvd_mul_left _ _) ih

theorem View.Poised.ring_held {v : View} {k : Errand} {p : Progress} (h : v.Poised k p) :
    v.worker.ring.lastId.get p.request.direction = v.held p.request.direction := by
  cases k with
  | start => rw [h.place.ring, Sides.get_set_self]
  | advance =>
    obtain ⟨-, last, hl⟩ := h.place
    rw [hl.ring, Sides.get_set_self, hl.held]

section Incidents
variable {σ : Type} {s : Station σ}

/-- An advance is queued only for a batch that was issued, and only one at a time. -/
theorem Station.interrupt_view (s : Station σ) (status : UInt32) :
    (s.mapChannel fun c => (c.interrupt status).2).view = s.view ∨
    s.view.posture.idle = false ∧ s.machine.channel.completed = true ∧
      s.view.posture.advanceOpen = false ∧
      (s.mapChannel fun c => (c.interrupt status).2).view = s.view.advanced := by
  rcases s.machine.channel.interrupt_cases status with h | ⟨hi, hc, ho, h⟩
  · left
    rw [mapChannel, h]
  · right
    refine ⟨hi, hc, ho, ?_⟩
    rw [mapChannel, h]
    rfl

theorem Station.strike_view (s : Station σ) (i : Incident) :
    (s.strike i).view = s.view ∨
    (s.view.posture.idle = false ∧ s.machine.channel.completed = true ∧
      s.view.posture.advanceOpen = false ∧ (s.strike i).view = s.view.advanced) ∨
    s.view.posture.idle = true ∧ (s.view.posture.work.isFull = true ∨
      ∃ r, r.Aligned ∧ (s.strike i).view = s.view.accepting r) := by
  cases i with
  | complete dir =>
    left
    simp only [strike, Machine.incur]
    split <;> rfl
  | flag dir id value => exact .inl rfl
  | interrupt status =>
    rcases s.interrupt_view status with h | h
    · exact .inl h
    · exact .inr (.inl h)
  | submit r =>
    simp only [strike, Machine.incur]
    rcases s.machine.channel.submit_cases r with ⟨e, h⟩ | ⟨hi, hf, -⟩ | ⟨hi, ha, -, h⟩
    · left
      rw [h]
      rfl
    · exact .inr (.inr ⟨hi, .inl hf⟩)
    · refine .inr (.inr ⟨hi, .inr ⟨r, ha, ?_⟩⟩)
      rw [h]
      rfl

theorem View.Vacant.accepting {v : View} {opened : Bool} (h : v.Vacant opened) {r : Request}
    (ha : r.Aligned) : (v.accepting r).Queued opened r :=
  ⟨h.transfer, h.pipeline, h.ring, h.issued, h.work.push (by decide) _, h.advanceOpen, rfl, rfl, ha, rfl⟩

theorem View.Between.strike {opened : Bool} (h : s.view.Between opened) (i : Incident) :
    (s.strike i).view.Between opened := by
  rcases s.strike_view i with he | ⟨-, hc, -⟩ | ⟨hi, hf⟩
  · rwa [he]
  · cases hc.symm.trans (Channel.not_completed_of_issued h.issued)
  · rcases h with hv | ⟨r, hq⟩
    · rcases hf with hf | ⟨r, ha, he⟩
      · rw [hv.work.isFull] at hf
        cases hf
      · exact .inr ⟨r, he ▸ hv.accepting ha⟩
    · rw [hq.idle] at hi
      cases hi

theorem Control.submit {r : Request} (h : Control s.view .rest)
    (ha : (s.machine.channel.submit r).1 = none) :
    s.view.Vacant false ∧ (s.strike (.submit r)).view.Queued false r := by
  rcases s.machine.channel.submit_cases r with ⟨e, he⟩ | ⟨-, -, he⟩ | ⟨hidle, haligned, -, he⟩
  · rw [he] at ha
    cases ha
  · rw [he] at ha
    cases ha
  · have hview : (s.strike (.submit r)).view = s.view.accepting r := by
      simp only [Station.strike, Machine.incur, he]
      rfl
    rcases h with (hv | ⟨r', hq⟩) | ⟨p, hr⟩
    · exact ⟨hv, hview ▸ hv.accepting haligned⟩
    · cases hidle.symm.trans hq.idle
    · cases hidle.symm.trans hr.idle

theorem View.Running.strike {k : Errand} {p : Progress} (h : s.view.Running k p) (i : Incident) :
    (s.strike i).view.Running k p := by
  rcases s.strike_view i with he | ⟨-, -, ho, he⟩ | ⟨hi, -⟩
  · rwa [he]
  · rw [he]
    refine ⟨⟨h.transfer, h.idle, h.direction, h.aligned, h.request, h.sent⟩, h.batches, ?_, ?_⟩
    · obtain ⟨last, hl⟩ := h.published
      exact ⟨last, hl.le, hl.ring, hl.issued, hl.held⟩
    · rcases h.pending with ⟨hw, hk⟩ | ⟨-, -, hopen⟩
      · cases k with
        | start => exact .inr ⟨rfl, hw.push (by decide) _, rfl⟩
        | advance =>
          rw [ho] at hk
          cases hk
      · rw [ho] at hopen
        cases hopen
  · rw [h.idle] at hi
    cases hi

theorem View.Poised.strike {k : Errand} {p : Progress} (h : s.view.Poised k p) (i : Incident) :
    (s.strike i).view.Poised k p := by
  rcases s.strike_view i with he | ⟨-, hc, ho, -⟩ | ⟨hi, -⟩
  · rwa [he]
  · cases k with
    | start =>
      cases hc.symm.trans (Channel.not_completed_of_issued h.place.issued)
    | advance =>
      have hopen := h.advanceOpen
      rw [ho] at hopen
      cases hopen
  · rw [h.idle] at hi
    cases hi

/-- No incident changes what is agreed on. -/
theorem Control.strike {j : Juncture} (hj : j.Exposed) (h : Control s.view j) (i : Incident) :
    Control (s.strike i).view j := by
  cases j with
  | rest =>
    rcases h with hb | ⟨p, hr⟩
    · exact .inl (hb.strike i)
    · exact .inr ⟨p, hr.strike i⟩
  | asked k p start pages => exact ⟨h.1.strike i, h.2⟩
  | handed k p => exact View.Running.strike h i
  | askedAhead k p next pages => exact View.Running.strike h i
  | told k => exact View.Between.strike h i
  | _ => exact hj.elim

end Incidents

/-- The views differ at most in the pipeline and the phase. -/
structure View.Alike (v v' : View) : Prop where
  transfer : v'.worker.transfer = v.worker.transfer
  ring : v'.worker.ring = v.worker.ring
  posture : v'.posture = v.posture
  held : v'.held = v.held
  account : v'.account = v.account

namespace View.Alike
variable {v v' : View} {k : Errand} {p : Progress}

theorem published {dir : Direction} {last : Nat} (h : v.Alike v') (hp : v.Published dir last) :
    v'.Published dir last :=
  ⟨hp.le, h.ring ▸ hp.ring, h.posture ▸ hp.issued, h.held ▸ hp.held⟩

theorem engaged (h : v.Alike v') (he : v.Engaged p) : v'.Engaged p :=
  ⟨h.transfer.trans he.transfer, h.posture ▸ he.idle, h.posture ▸ he.direction, he.aligned,
    h.account ▸ he.request, h.account ▸ he.sent⟩

theorem poised (h : v.Alike v') (hv : v.Poised k p) : v'.Poised k p where
  toEngaged := h.engaged hv.toEngaged
  work := h.posture ▸ hv.work
  advanceOpen := h.posture ▸ hv.advanceOpen
  place := by
    cases k with
    | start =>
      exact ⟨by rw [h.ring, h.held]; exact hv.place.ring, h.posture ▸ hv.place.issued,
        h.account ▸ hv.place.batches⟩
    | advance =>
      obtain ⟨hb, last, hl⟩ := hv.place
      exact ⟨h.account ▸ hb, last, h.published hl⟩

theorem running (h : v.Alike v') (hv : v.Running k p) : v'.Running k p where
  toEngaged := h.engaged hv.toEngaged
  batches := h.account ▸ hv.batches
  published := by
    obtain ⟨last, hl⟩ := hv.published
    exact ⟨last, h.published hl⟩
  pending := h.posture ▸ hv.pending

theorem trans {v'' : View} (h : v.Alike v') (h' : v'.Alike v'') : v.Alike v'' :=
  ⟨h'.transfer.trans h.transfer, h'.ring.trans h.ring, h'.posture.trans h.posture,
    h'.held.trans h.held, h'.account.trans h.account⟩

end View.Alike

section Jobs
variable {σ : Type} {s : Station σ} {p : Progress}

theorem Control.jobs (h : Control s.view .ready) : s.view.posture.work.Holds [] ∨
    (∃ r, s.view.posture.work.Holds [.start r] ∧ s.view.Queued false r) ∨
    ∃ p, s.view.posture.work.Holds [.advance] ∧ s.view.Running .start p ∧
      s.view.posture.advanceOpen = true := by
  rcases h with (hv | ⟨r, hq⟩) | ⟨p, hr⟩
  · exact .inl hv.work
  · exact .inr (.inl ⟨r, hq.work, hq⟩)
  · rcases hr.pending with ⟨hw, -⟩ | ⟨-, hw, ho⟩
    · exact .inl hw
    · exact .inr (.inr ⟨p, hw, hr, ho⟩)

theorem Control.holds (h : Control s.view .rest) : ∃ jobs, s.view.posture.work.Holds jobs := by
  rcases Control.jobs h with hw | ⟨r, hw, -⟩ | ⟨p, hw, -⟩ <;> exact ⟨_, hw⟩

theorem Station.takeWork_view (s : Station σ) : s.takeWork.2.view =
    { s.view with posture := { s.view.posture with work := s.view.posture.work.pop.2 } } := rfl

theorem Control.drained_view (h : Control s.view .ready) (hn : s.takeWork.1 = none) :
    s.takeWork.2.view = s.view := by
  rcases h.jobs with hw | ⟨r, hw, -⟩ | ⟨p, hw, -⟩
  · rw [Station.takeWork_view, hw.pop_nil]
  all_goals
    obtain ⟨rest, hpop, -⟩ := hw.pop_cons
    rw [show s.takeWork.1 = s.view.posture.work.pop.1 from rfl, hpop] at hn
    cases hn

theorem Control.drained (h : Control s.view .ready) (hn : s.takeWork.1 = none) :
    Control s.takeWork.2.view .rest := by
  rw [h.drained_view hn]
  exact h

theorem Control.taken {job : Job} (h : Control s.view .ready) (hj : s.takeWork.1 = some job) :
    s.takeWork.2.view.posture.work.Holds [] ∧
    ((∃ r, job = .start r ∧ s.view.Queued false r) ∨
      ∃ p, job = .advance ∧ s.view.Running .start p ∧ s.view.posture.advanceOpen = true) := by
  have hfirst : s.takeWork.1 = s.view.posture.work.pop.1 := rfl
  rw [Station.takeWork_view]
  rcases h.jobs with hw | ⟨r, hw, hq⟩ | ⟨p, hw, hr, ho⟩
  · rw [hfirst, hw.pop_nil] at hj
    cases hj
  · obtain ⟨rest, hpop, hrest⟩ := hw.pop_cons
    rw [hfirst, hpop] at hj
    cases hj
    exact ⟨by rwa [hpop], .inl ⟨r, rfl, hq⟩⟩
  · obtain ⟨rest, hpop, hrest⟩ := hw.pop_cons
    rw [hfirst, hpop] at hj
    cases hj
    exact ⟨by rwa [hpop], .inr ⟨p, rfl, hr, ho⟩⟩

theorem Control.begin {r : Request} (h : Control s.view .ready)
    (hj : s.takeWork.1 = some (.start r)) :
    (s.takeWork.2.begin r).view.Poised .start { request := r } := by
  obtain ⟨hw, ⟨r', hr, hq⟩ | ⟨p, hr, -⟩⟩ := h.taken hj <;> cases hr
  have hring : s.worker.ring.lastId = .both noId := hq.ring
  refine ⟨⟨rfl, hq.idle, hq.direction, hq.aligned, ?_, ?_⟩, hw, hq.advanceOpen, ?_, hq.issued, ?_⟩
  · exact congrArg Account.request hq.account
  · exact (congrArg Account.bytes hq.account).symm
  · exact congrArg (fun ids => ids.set r.direction (s.machine.registers.lastId r.direction)) hring
  · exact congrArg Account.batches hq.account

theorem Control.resume (h : Control s.view .ready) (hj : s.takeWork.1 = some .advance)
    (ht : s.worker.transfer = some p) : s.takeWork.2.view.Poised .advance p := by
  obtain ⟨hw, ⟨r', hr, -⟩ | ⟨p', -, hr, ho⟩⟩ := h.taken hj
  · cases hr
  · have htransfer := hr.transfer
    rw [show s.view.worker.transfer = some p from ht, Option.some.injEq] at htransfer
    subst htransfer
    obtain ⟨last, hl⟩ := hr.published
    exact ⟨⟨hr.transfer, hr.idle, hr.direction, hr.aligned, hr.request, hr.sent⟩, hw, ho,
      hr.batches, last, hl.le, hl.ring, hl.issued, hl.held⟩

theorem Control.not_stale (h : Control s.view .ready) (hj : s.takeWork.1 = some .advance) :
    s.worker.transfer ≠ none := by
  obtain ⟨-, ⟨r', hr, -⟩ | ⟨p, -, hr, -⟩⟩ := h.taken hj
  · cases hr
  · rw [show s.worker.transfer = some p from hr.transfer]
    simp

theorem Station.closeAdvance_between (h : s.view.Between true) :
    (s.mapChannel Channel.closeAdvance).view.Between false := by
  rcases s.machine.channel.closeAdvance_cases with hclose | ⟨hi, hc, -⟩
  · have hview : (s.mapChannel Channel.closeAdvance).view =
        { s.view with posture := { s.view.posture with advanceOpen := false } } := by
      rw [mapChannel, hclose]
      rfl
    rw [hview]
    rcases h with hv | ⟨r, hq⟩
    · exact .inl ⟨hv.transfer, hv.pipeline, hv.ring, hv.issued, hv.work, rfl, hv.idle⟩
    · exact .inr ⟨r, hq.transfer, hq.pipeline, hq.ring, hq.issued, hq.work, rfl, hq.idle,
        hq.direction, hq.aligned, hq.account⟩
  · cases hc.symm.trans (Channel.not_completed_of_issued h.issued)

theorem Station.closeAdvance_running (h : s.view.Running .advance p) :
    (s.mapChannel Channel.closeAdvance).view.Running .start p := by
  have hwork : s.view.posture.work.Holds [] := by
    rcases h.pending with ⟨hw, -⟩ | ⟨hk, -⟩
    · exact hw
    · cases hk
  obtain ⟨last, hl⟩ := h.published
  rcases s.machine.channel.closeAdvance_cases with hclose | ⟨-, -, hclose⟩
  · have hview : (s.mapChannel Channel.closeAdvance).view =
        { s.view with posture := { s.view.posture with advanceOpen := false } } := by
      rw [mapChannel, hclose]
      rfl
    rw [hview]
    exact ⟨⟨h.transfer, h.idle, h.direction, h.aligned, h.request, h.sent⟩, h.batches,
      ⟨last, hl.le, hl.ring, hl.issued, hl.held⟩, .inl ⟨hwork, rfl⟩⟩
  · have hview : (s.mapChannel Channel.closeAdvance).view = s.view.advanced := by
      rw [mapChannel, hclose]
      rfl
    rw [hview]
    exact ⟨⟨h.transfer, h.idle, h.direction, h.aligned, h.request, h.sent⟩, h.batches,
      ⟨last, hl.le, hl.ring, hl.issued, hl.held⟩, .inr ⟨rfl, hwork.push (by decide) _, rfl⟩⟩

theorem Control.initial (settings : Settings) (tableBus : Sides Nat) (registers : RegisterFile)
    (platform : σ) (listener : List (List Incident)) :
    Control (Station.initial settings tableBus registers platform listener).view .rest :=
  .inl (.inl ⟨rfl, rfl, rfl, rfl, BoundedQueue.holds_empty, rfl, rfl⟩)

end Jobs
end ScatterGather
