import ScatterGather.Proofs.Drains
import ScatterGather.Proofs.Images
import ScatterGather.Proofs.Pacing

/-! # No completion is lost or counted twice

An interrupt that arrives while an advance is open is not queued, so it must be made good for when that
advance is closed. Until the worker has acted on a flagged batch an advance stays open, and a service
does not return before it is closed. On the other hand a batch is acted on only once, after its flag.
-/
namespace ScatterGather

/-- The latest event that is not passive. -/
def lastActive : List Event → Option Event
  | [] => none
  | .issue dir start entries :: _ => some (.issue dir start entries)
  | .notify payload outcome :: _ => some (.notify payload outcome)
  | .submit request none :: _ => some (.submit request none)
  | _ :: older => lastActive older

/-- The latest batch belongs to the transfer in hand, and the device has flagged it. -/
def Flagged (history : List Event) : Prop :=
  ∃ dir start entries, lastActive history = some (.issue dir start entries) ∧
    flagOf dir (Ring.lastIdOf start entries) history ≠ 0

/-- Events by which the worker goes on with a transfer, or ends it. -/
def Event.Decides : Event → Prop
  | issue .. | notify .. => True
  | _ => False

/-- First of all the transfer went on or was ended. -/
def GoesOn (newer : List Event) : Prop :=
  ∃ newest e passive, newer = newest ++ e :: passive ∧ e.Decides ∧ ∀ x ∈ passive, x.Passive

/-- The interrupt handler is called. -/
def Act.Interrupts : Act → Prop
  | interrupt _ | strike (.interrupt _) => True
  | _ => False

/-- Of two decisions on a transfer with none in between, the first is a batch, and the device flagged
that batch in between. -/
def OncePerFlag : List Event → Prop := Throughout fun
  | [] => True
  | e :: older => e.Decides → ∀ passive first oldest, older = passive ++ first :: oldest →
    first.Decides → (∀ x ∈ passive, x.Passive) →
      ∃ dir start entries, first = .issue dir start entries ∧
        .complete dir (Ring.lastIdOf start entries) ∈ passive

section Histories
variable {e : Event} {l history older : List Event} {dir : Direction} {start : BatchPlace}
  {entries : List Entry}

theorem lastActive_append (he : ∀ e ∈ l, e.Passive) : lastActive (l ++ history) = lastActive history := by
  refine unchanged_append (fun e older hfirst => ?_) he history
  cases e with
  | submit request refusal =>
    cases refusal with
    | none => exact hfirst.elim
    | some => rfl
  | issue | notify => exact hfirst.elim
  | _ => rfl

theorem Event.Decides.lastActive (h : e.Decides) : lastActive (e :: history) = some e := by
  cases e with
  | issue | notify => rfl
  | _ => exact h.elim

theorem Flagged.append (h : Flagged history) (he : ∀ e ∈ l, e.Passive ∧ e.KeepsTables) :
    Flagged (l ++ history) := by
  obtain ⟨dir, start, entries, hlast, hflag⟩ := h
  refine ⟨dir, start, entries, ?_, ?_⟩
  · rw [lastActive_append fun e hmem => (he e hmem).1, hlast]
  · rwa [flagOf_append fun e hmem => (he e hmem).2]

theorem Flagged.complete (h : Flagged history) (d : Direction) (id : Nat) :
    Flagged (.complete d id :: history) := by
  obtain ⟨dir, start, entries, hlast, hflag⟩ := h
  refine ⟨dir, start, entries, hlast, ?_⟩
  rw [flagOf]
  split
  · decide
  · exact hflag

theorem GoesOn.append (h : GoesOn l) (newest : List Event) : GoesOn (newest ++ l) := by
  obtain ⟨later, e, passive, rfl, he⟩ := h
  exact ⟨newest ++ later, e, passive, by rw [List.append_assoc], he⟩

theorem OncePerFlag.append (h : OncePerFlag history) (he : ∀ e ∈ l, ¬ e.Decides) :
    OncePerFlag (l ++ history) :=
  Throughout.append (fun e hmem _ _ hd => absurd hd (he e hmem)) h

theorem Event.Incidental.not_decides (h : e.Incidental) : ¬ e.Decides := by
  cases e with
  | issue | notify => exact fun _ => h
  | _ => exact id

theorem Event.Passive.not_decides (h : e.Passive) : ¬ e.Decides := by
  cases e with
  | issue | notify => exact fun _ => h
  | _ => exact id

/-- A history has one latest batch. -/
theorem issue_unique {l' older' : List Event} {dir' : Direction} {start' : BatchPlace}
    {entries' : List Entry} (hl : ∀ e ∈ l, Account.Neutral e) (hl' : ∀ e ∈ l', Account.Neutral e)
    (h : l ++ .issue dir start entries :: older = l' ++ .issue dir' start' entries' :: older') :
    l = l' ∧ Event.issue dir start entries = .issue dir' start' entries' := by
  have hissue {d : Direction} {place : BatchPlace} {batch : List Entry} :
      ¬ Account.Neutral (.issue d place batch) := by
    intro hn
    have := congrArg (fun a : Account => a.batches) (hn {})
    simp [Account.after] at this
  induction l generalizing l' with
  | nil =>
    cases l' with
    | nil => exact ⟨rfl, (List.cons.inj h).1⟩
    | cons e l' =>
      obtain ⟨rfl, -⟩ := List.cons.inj h
      exact absurd (hl' _ List.mem_cons_self) hissue
  | cons e l ih =>
    cases l' with
    | nil =>
      obtain ⟨rfl, -⟩ := List.cons.inj h
      exact absurd (hl _ List.mem_cons_self) hissue
    | cons e' l' =>
      obtain ⟨rfl, hrest⟩ := List.cons.inj h
      obtain ⟨rfl, heq⟩ := ih (fun x hx => hl x (List.mem_cons_of_mem _ hx))
        (fun x hx => hl' x (List.mem_cons_of_mem _ hx)) hrest
      exact ⟨rfl, heq⟩

/-- What a decision has behind it: the acceptance of its transfer, or a batch that was acknowledged. -/
def Justified (history : List Event) : Prop :=
  (∃ r, lastActive history = some (.submit r none)) ∨
    (∃ dir start entries, lastActive history = some (.issue dir start entries)) ∧ Acknowledged history

theorem Justified.append (h : Justified history) (he : ∀ e ∈ l, e.Passive) : Justified (l ++ history) := by
  rw [Justified, lastActive_append he]
  rcases h with hbegun | ⟨hissued, hack⟩
  · exact .inl hbegun
  · exact .inr ⟨hissued, hack.append he⟩

/-- Since the latest batch was issued, the device has flagged it. -/
theorem Acknowledged.flagged (h : Acknowledged history) : ∃ newer dir start entries older,
    history = newer ++ .issue dir start entries :: older ∧
      .complete dir (Ring.lastIdOf start entries) ∈ newer ∧ ∀ e ∈ newer, Account.Neutral e := by
  obtain ⟨newer, between, staged, dir, start, entries, older, rfl, hn⟩ := h
  refine ⟨newer ++ .complete dir (Ring.lastIdOf start entries) :: (between ++
    .write (Register.address dir .lastId) (UInt32.ofNat (Ring.lastIdOf start entries)) :: staged),
    dir, start, entries, older, by simp, by simp, ?_⟩
  intro e he
  simp only [List.mem_append, List.mem_cons] at he hn
  rcases he with he | rfl | he | rfl | he
  · exact hn e (.inl (.inl he))
  · exact fun _ => rfl
  · exact hn e (.inl (.inr he))
  · exact fun _ => rfl
  · exact hn e (.inr he)

theorem OncePerFlag.decide (h : OncePerFlag history) (hg : Justified history) :
    OncePerFlag (e :: history) := by
  refine Throughout.cons h ?_
  rintro - passive first oldest rfl hfirst hpassive
  have hlast : lastActive (passive ++ first :: oldest) = some first := by
    rw [lastActive_append hpassive, hfirst.lastActive]
  rcases hg with ⟨r, hr⟩ | ⟨⟨dir, start, entries, hissue⟩, hack⟩
  · cases hlast.symm.trans hr
    exact hfirst.elim
  · obtain rfl := Option.some.inj (hlast.symm.trans hissue)
    obtain ⟨newer, dir', start', entries', older, heq, hflag, hneutral⟩ := hack.flagged
    obtain ⟨rfl, hsame⟩ := issue_unique (fun x hx => (hpassive x hx).neutral) hneutral heq
    cases hsame
    exact ⟨dir, start, entries, rfl, hflag⟩

end Histories

/-- The latest active event of the history is that of the transfer in hand. -/
structure Abreast {σ : Type} (s : Station σ) : Prop where
  begun : s.machine.channel.idle = false → s.view.account.batches = [] →
    ∃ r, lastActive s.machine.history = some (.submit r none)
  issued : ∀ p, s.worker.transfer = some p → s.view.account.batches ≠ [] → ∃ start entries,
    lastActive s.machine.history = some (.issue p.request.direction start entries) ∧
      s.worker.ring.lastId.get p.request.direction = Ring.lastIdOf start entries

section Stations
variable {σ : Type} {s t : Station σ} {l : List Event} {k : Errand} {p : Progress} {j : Juncture}
  {i : Incident}

namespace Abreast

theorem frame (h : Abreast s) (hi : t.machine.channel.idle = s.machine.channel.idle)
    (ht : t.worker.transfer = s.worker.transfer) (hr : t.worker.ring = s.worker.ring)
    (hh : t.machine.history = l ++ s.machine.history) (he : ∀ e ∈ l, e.Passive) : Abreast t := by
  have haccount : t.view.account = s.view.account := by
    simp only [Station.view, hh]
    exact Account.ofHistory_passive he
  constructor
  · intro hidle hbatches
    rw [hh, lastActive_append he]
    exact h.begun (hi ▸ hidle) (haccount ▸ hbatches)
  · intro q hq hbatches
    rw [hh, lastActive_append he, hr]
    exact h.issued q (ht ▸ hq) (haccount ▸ hbatches)

theorem of_vacant {opened : Bool} (h : s.view.Vacant opened) : Abreast s where
  begun hidle := by cases hidle.symm.trans h.idle
  issued q hq := by cases hq.symm.trans h.transfer

theorem strike (h : Abreast s) (i : Incident) : Abreast (s.strike i) := by
  cases i with
  | complete dir =>
    simp only [Station.strike, Machine.incur]
    split
    · exact h.frame (l := [_]) rfl rfl rfl rfl (by simp [Event.Passive])
    · exact h
  | flag => exact h.frame (l := [_]) rfl rfl rfl rfl (by simp [Event.Passive])
  | interrupt status =>
    obtain ⟨work, advanceOpen, waker, he⟩ := s.machine.channel.interrupt_frame status
    exact h.frame (l := [_]) (by rw [Station.strike, Machine.incur, he]; rfl) rfl rfl rfl
      (by simp [Event.Passive])
  | submit r =>
    simp only [Station.strike, Machine.incur]
    rcases s.machine.channel.submit_cases r with ⟨e, he⟩ | ⟨-, -, he⟩ | ⟨-, -, -, he⟩ <;> rw [he]
    · exact h.frame (l := [_]) rfl rfl rfl rfl (by simp [Event.Passive])
    · exact h.frame (l := [_]) rfl rfl rfl rfl (by simp [Event.Passive])
    · exact ⟨fun _ _ => ⟨r, rfl⟩, fun _ _ hbatches => absurd rfl hbatches⟩

theorem issue [Platform σ] {start : BatchPlace} {entries : List Entry} (hc : s.view.Poised k p)
    (hlast : Ring.lastIdOf start entries ≤ lastSlot) : Abreast (s.issue p start entries) := by
  have hbatches : (s.issue p start entries).view.account.batches ≠ [] := by
    rw [Station.issue_account hc.busy]
    simp
  refine ⟨fun _ h => absurd h hbatches, ?_⟩
  intro q hq _
  obtain rfl : p.past entries = q := Option.some.inj hq
  obtain ⟨events, hsilent, hh⟩ := Station.issue_history hc.busy p start entries
  refine ⟨start, entries, ?_, ?_⟩
  · rw [hh]
    exact lastActive_append fun e hmem => (hsilent e hmem).passive
  · have hring : (s.issue p start entries).worker.ring.lastId = _ := (hc.issue_published hlast).ring
    rw [hring]
    exact Sides.get_set_self _ _ _

variable [Platform σ] {A : Incident → Prop} {H : Act → Worker → Prop} {x y : Juncture × Station σ}

theorem step (hs : x.2.settings.Valid) (hstep : Step A H x y) (hc : Control x.2.view x.1)
    (h : Abreast x.2) : Abreast y.2 := by
  cases hstep.deed with
  | tend htends =>
    obtain ⟨work, n, hchannel⟩ := htends.channel
    obtain ⟨events, hh, he⟩ := htends.history
    exact h.frame (by rw [hchannel]) htends.transfer htends.ring hh fun e hmem => (he e hmem).passive
  | strike => exact h.strike _
  | @interrupt s status =>
    obtain ⟨work, advanceOpen, waker, he⟩ := s.machine.channel.interrupt_frame status
    exact h.frame (l := []) (by rw [Station.mapChannel, he]) rfl rfl rfl (by simp)
  | setPayload => exact h.frame (l := []) rfl rfl rfl rfl (by simp)
  | halt _ ha => exact .of_vacant (hc.halt_vacant ha)
  | begin hj =>
    have hpoised := hc.begin hj
    refine ⟨fun hidle hbatches => h.begun hidle hbatches, ?_⟩
    intro _ _ hbatches
    exact absurd hpoised.place.batches hbatches
  | complete => exact .of_vacant (View.Poised.tell hc _ _)
  | fail =>
    obtain ⟨p, hpoised⟩ := hc
    exact .of_vacant (hpoised.tell _ _)
  | issue hcarve => exact .issue hc.1 (Window.carve_fits hs (Ring.start?_le hc.2) hcarve).2
  | @close s =>
    obtain ⟨work, advanceOpen, he⟩ := s.machine.channel.closeAdvance_frame
    exact h.frame (l := []) (by rw [Station.mapChannel, he]) rfl rfl rfl (by simp)

end Abreast

theorem Abreast.justified (h : Abreast s) (hc : s.view.Poised k p)
    (hack : k = .advance → Acknowledged s.machine.history) : Justified s.machine.history := by
  cases k with
  | start => exact .inl (h.begun hc.idle hc.place.batches)
  | advance =>
    obtain ⟨start, entries, hlast, -⟩ := h.issued p hc.transfer hc.place.1
    exact .inr ⟨⟨_, start, entries, hlast⟩, hack rfl⟩

theorem Channel.interrupt_opens {c : Channel} (h : c.advanceOpen = true ∨
    c.idle = false ∧ c.completed = true ∧ c.work.isFull = false) (status : UInt32) :
    (c.interrupt status).2.advanceOpen = true := by
  rcases h with hopen | ⟨hi, hc, hw⟩
  · rcases c.interrupt_cases status with he | ⟨-, -, -, he⟩ <;> rw [he]
    · exact hopen
    · rfl
  · cases ho : c.advanceOpen <;> simp [interrupt, requestAdvance, Channel.wake, hi, hc, hw, ho]

theorem Channel.closeAdvance_opens {c : Channel} (hi : c.idle = false) (hc : c.completed = true)
    (hw : c.work.isFull = false) : c.closeAdvance.advanceOpen = true := by
  have hboth : (!c.idle && ({ c with advanceOpen := false } : Channel).completed) = true := by
    rw [hi]
    exact hc
  unfold closeAdvance
  dsimp only
  rw [if_pos hboth]
  simp [requestAdvance, hw]

/-- A flagged batch that is out is noticed by the interrupt handler. -/
theorem View.Running.completed (h : s.view.Running k p) (ha : Abreast s) (hm : s.machine.Imaged)
    (hf : Flagged s.machine.history) : s.machine.channel.completed = true := by
  obtain ⟨last, hl⟩ := h.published
  obtain ⟨start, entries, hlast, hring⟩ := ha.issued p h.transfer h.batches
  obtain ⟨dir, start', entries', hlast', hflag⟩ := hf
  cases hlast.symm.trans hlast'
  have hid : last = Ring.lastIdOf start entries := by
    rw [← hring, show s.worker.ring.lastId = _ from hl.ring, Sides.get_set_self]
  rw [hl.completed_eq h.direction, hm.flags _ _ (Nat.lt_of_le_of_lt hl.le (by decide)), hid]
  simpa using hflag

/-- With a flagged batch in hand an advance is open, or an interrupt will open one. -/
theorem Control.opening (hc : Control s.view j) (ht : s.worker.transfer = some p) (ha : Abreast s)
    (hm : s.machine.Imaged) (hf : Flagged s.machine.history) : s.machine.channel.advanceOpen = true ∨
      s.machine.channel.idle = false ∧ s.machine.channel.completed = true ∧
        s.machine.channel.work.isFull = false := by
  obtain ⟨k, hpoised | hrunning⟩ := hc.poised_or_running ht
  · cases k with
    | advance => exact .inl hpoised.advanceOpen
    | start =>
      obtain ⟨r, hr⟩ := ha.begun hpoised.idle hpoised.place.batches
      obtain ⟨dir, start, entries, hlast, -⟩ := hf
      cases hr.symm.trans hlast
  · rcases hrunning.pending with ⟨hw, ho⟩ | ⟨-, -, ho⟩
    · exact .inr ⟨hrunning.idle, hrunning.completed ha hm hf, hw.isFull⟩
    · exact .inl ho

section Runs
variable [Platform σ] {A : Incident → Prop} {H : Act → Worker → Prop} {x y u v : Juncture × Station σ}
  {older : List Event} {e : Event}

theorem OncePerFlag.step (hstep : Step A H x y) (hc : Control x.2.view x.1) (ha : Abreast x.2)
    (hp : Pacing x.2 x.1) (h : OncePerFlag x.2.machine.history) : OncePerFlag y.2.machine.history := by
  have hmoves {l : List Event} (hl : ∀ e ∈ l, e.MovesPages) {history : List Event}
      (h : OncePerFlag history) : OncePerFlag (l ++ history) :=
    h.append fun e hmem => (hl e hmem).passive.not_decides
  have htold {s : Station σ} {k : Errand} {p : Progress} (h : OncePerFlag s.machine.history)
      (ha : Abreast s) (hc : s.view.Poised k p) (hack : k = .advance → Acknowledged s.machine.history)
      (phase : Phase) (outcome : Outcome) : OncePerFlag (s.tell phase outcome).machine.history := by
    obtain ⟨events, hh, he⟩ := (s.tell_drops phase outcome).history
    rw [hh]
    exact (hmoves he h).decide ((ha.justified hc hack).append fun e hmem => (he e hmem).passive)
  cases hstep.deed with
  | tend htends =>
    obtain ⟨events, hh, he⟩ := htends.history
    exact hh ▸ hmoves he h
  | @strike j s i =>
    obtain ⟨events, hh, he⟩ := s.machine.incur_incidental i
    rw [show (s.strike i).machine.history = _ from hh]
    exact h.append fun e hmem => (he e hmem).not_decides
  | interrupt | setPayload | close => exact h
  | @halt s a hhalts =>
    obtain ⟨events, hh, he⟩ := (s.halt_drops hhalts).history
    exact hh ▸ hmoves he h
  | begin => exact h.append (l := [_]) (by simp [Event.Decides])
  | complete => exact htold h ha hc hp.batch _ _
  | fail =>
    obtain ⟨p, hpoised⟩ := hc
    exact htold h ha hpoised hp.batch _ _
  | @issue k p s start w entries =>
    obtain ⟨events, hsilent, hh⟩ := Station.issue_history hc.1.busy p start entries
    have hissued : OncePerFlag (.issue p.request.direction start entries :: s.machine.history) :=
      h.decide (ha.justified hc.1 hp.batch)
    rw [hh]
    exact (hissued.append fun e hmem => (hsilent e hmem).passive.not_decides).append (l := [_])
      (by simp [Event.Decides])

/-- What is known at every moment of a run in which only the device stores flags. -/
structure Watchful (z : Juncture × Station σ) : Prop where
  pacing : Pacing z.2 z.1
  imaged : z.2.machine.Imaged
  abreast : Abreast z.2
  once : OncePerFlag z.2.machine.history

theorem Watchful.step (hp : Platform.Within σ Incident.Honest) (hq : Platform.Quiet σ)
    (hs : x.2.settings.Valid) (hstep : Step Incident.Honest H x y) (hc : Control x.2.view x.1)
    (h : Watchful x) : Watchful y where
  pacing := h.pacing.step hq hs hstep hc
  imaged := h.imaged.step (hp.mono fun _ hi => hi.inFlags) (fun _ hi => hi.inFlags) hstep
  abreast := h.abreast.step hs hstep hc
  once := h.once.step hstep hc h.abreast h.pacing

/-- Since a flagged batch was interrupted for, the worker has gone on, or an advance is open for it. -/
def Heeded (before : List Event) (s : Station σ) : Prop :=
  ∃ newer, s.machine.history = newer ++ before ∧ (GoesOn newer ∨
    (∀ e ∈ newer, e.Passive) ∧ Flagged s.machine.history ∧ s.worker.transfer ≠ none ∧
      s.machine.channel.advanceOpen = true)

namespace Heeded
variable {before : List Event}

omit [Platform σ] in
/-- While nothing is decided the advance stays open. -/
theorem wait (hs : Heeded before s) (hh : t.machine.history = l ++ s.machine.history)
    (h : Flagged s.machine.history → s.worker.transfer ≠ none →
      s.machine.channel.advanceOpen = true → (∀ e ∈ l, e.Passive) ∧ Flagged t.machine.history ∧
        t.worker.transfer ≠ none ∧ t.machine.channel.advanceOpen = true) : Heeded before t := by
  obtain ⟨newer, hbefore, hgoes | ⟨hpassive, hflagged, htransfer, hopen⟩⟩ := hs
  · exact ⟨l ++ newer, by rw [hh, hbefore, List.append_assoc], .inl (hgoes.append l)⟩
  · obtain ⟨he, hstate⟩ := h hflagged htransfer hopen
    exact ⟨l ++ newer, by rw [hh, hbefore, List.append_assoc],
      .inr ⟨List.forall_mem_append.mpr ⟨he, hpassive⟩, hstate⟩⟩

omit [Platform σ] in
/-- A decision was taken. -/
theorem decide (newest : List Event) (hs : Heeded before s)
    (hh : t.machine.history = newest ++ e :: (l ++ s.machine.history)) (hd : e.Decides)
    (he : ∀ x ∈ l, x.Passive) : Heeded before t := by
  obtain ⟨newer, hbefore, hstate⟩ := hs
  refine ⟨newest ++ e :: (l ++ newer), by rw [hh, hbefore]; simp, .inl ?_⟩
  rcases hstate with hgoes | ⟨hpassive, -⟩
  · rw [List.append_cons, ← List.append_assoc]
    exact hgoes.append _
  · exact ⟨newest, e, l ++ newer, rfl, hd, List.forall_mem_append.mpr ⟨he, hpassive⟩⟩

omit [Platform σ] in
theorem strike (hc : Control s.view j) (hi : i.Honest) (h : Heeded before s) :
    Heeded before (s.strike i) := by
  cases i with
  | flag => exact hi.elim
  | complete dir =>
    simp only [Station.strike, Machine.incur]
    split
    · exact h.wait (l := [_]) rfl fun hf ht ho => ⟨by simp [Event.Passive], hf.complete _ _, ht, ho⟩
    · exact h
  | interrupt status =>
    refine h.wait (l := [_]) rfl fun hf ht ho => ⟨by simp [Event.Passive],
      hf.append (l := [_]) (by simp [Event.Passive, Event.KeepsTables]), ht, ?_⟩
    exact Channel.interrupt_opens (.inl ho) status
  | submit r =>
    have hrefused {e : Failure} {t : Station σ} (hw : t.worker = s.worker)
        (ho : t.machine.channel.advanceOpen = s.machine.channel.advanceOpen)
        (hh : t.machine.history = .submit r (some e) :: s.machine.history) : Heeded before t := by
      refine h.wait (l := [_]) hh fun hf ht hopen => ⟨by simp [Event.Passive], ?_, hw ▸ ht, ho.trans hopen⟩
      rw [hh]
      exact hf.append (l := [_]) (by simp [Event.Passive, Event.KeepsTables])
    simp only [Station.strike, Machine.incur]
    rcases s.machine.channel.submit_cases r with ⟨e, he⟩ | ⟨-, -, he⟩ | ⟨hidle, -, -, he⟩ <;> rw [he]
    · exact hrefused rfl rfl rfl
    · exact hrefused rfl rfl rfl
    · -- a request is accepted only after the transfer was ended
      refine h.wait (l := [_]) rfl fun _ ht _ => ?_
      obtain ⟨p, hp⟩ := Option.ne_none_iff_exists'.mp ht
      cases hidle.symm.trans (hc.engaged hp).idle

theorem step (hstep : Step Incident.Honest (fun a _ => ¬ a.Halts) x y) (hc : Control x.2.view x.1)
    (hw : Watchful x) (h : Heeded before x.2) : Heeded before y.2 := by
  have htold {s : Station σ} (h : Heeded before s) (phase : Phase) (outcome : Outcome) :
      Heeded before (s.tell phase outcome) := by
    obtain ⟨events, hh, he⟩ := (s.tell_drops phase outcome).history
    exact h.decide [] hh trivial fun e hmem => (he e hmem).passive
  cases hstep.deed with
  | tend htends =>
    obtain ⟨work, n, hchannel⟩ := htends.channel
    obtain ⟨events, hh, he⟩ := htends.history
    refine h.wait hh fun hf ht ho => ⟨fun e hmem => (he e hmem).passive, ?_, htends.transfer ▸ ht, ?_⟩
    · rw [hh]
      exact hf.append fun e hmem => ⟨(he e hmem).passive, (he e hmem).keepsTables⟩
    · rw [hchannel]
      exact ho
  | strike _ hi => exact h.strike hc hi
  | interrupt status =>
    exact h.wait (l := []) rfl fun hf ht ho =>
      ⟨by simp, hf, ht, Channel.interrupt_opens (.inl ho) status⟩
  | setPayload => exact h.wait (l := []) rfl fun hf ht ho => ⟨by simp, hf, ht, ho⟩
  | halt a ha hh => exact absurd ha hh
  | @begin s r hj =>
    have hnone : s.worker.transfer = none := by
      obtain ⟨-, ⟨r', -, hq⟩ | ⟨p, hr, -⟩⟩ := hc.taken hj
      · exact hq.transfer
      · cases hr
    exact h.wait (l := [_]) rfl fun _ ht _ => absurd hnone ht
  | complete => exact htold h _ _
  | fail => exact htold h _ _
  | issue =>
    obtain ⟨events, -, hh⟩ := Station.issue_history hc.1.busy _ _ _
    exact h.decide (l := []) (_ :: events) hh trivial (by simp)
  | @close s =>
    refine h.wait (l := []) rfl fun hf ht _ => ⟨by simp, hf, ht, ?_⟩
    obtain ⟨p, hp⟩ := Option.ne_none_iff_exists'.mp ht
    have hrunning : s.view.Running .advance p := View.Running.of_transfer hc hp
    have hwork : s.machine.channel.work.isFull = false := by
      rcases hrunning.pending with ⟨hw, -⟩ | ⟨hk, -⟩
      · exact hw.isFull
      · cases hk
    exact Channel.closeAdvance_opens hrunning.idle (hrunning.completed hw.abreast hw.imaged hf) hwork

omit [Platform σ] in
/-- Once the queue is empty no advance is open any more. -/
theorem goesOn (hc : Control s.view .rest) (hempty : s.machine.channel.work.isEmpty = true)
    (h : Heeded before s) : ∃ newer, s.machine.history = newer ++ before ∧ GoesOn newer := by
  obtain ⟨newer, hbefore, hgoes | ⟨-, -, htransfer, hopen⟩⟩ := h
  · exact ⟨newer, hbefore, hgoes⟩
  · obtain ⟨p, hp⟩ := Option.ne_none_iff_exists'.mp htransfer
    have hrunning : s.view.Running .start p := View.Running.of_transfer hc hp
    rcases hrunning.pending with ⟨-, hclosed⟩ | ⟨-, hw, -⟩
    · cases hopen.symm.trans hclosed
    · cases hempty.symm.trans hw.isEmpty

theorem interrupt {a : Act} (ha : a.Interrupts) (hc : Control s.view j) (hw : Watchful (j, s))
    (ht : s.worker.transfer ≠ none) (hf : Flagged s.machine.history) :
    Heeded (s.act a).machine.history (s.act a) := by
  obtain ⟨p, hp⟩ := Option.ne_none_iff_exists'.mp ht
  have hopening := hc.opening hp hw.abreast hw.imaged hf
  cases a with
  | interrupt status =>
    exact ⟨[], rfl, .inr ⟨by simp, hf, ht, Channel.interrupt_opens hopening status⟩⟩
  | strike i =>
    cases i with
    | interrupt status =>
      refine ⟨[], rfl, .inr ⟨by simp, ?_, ht, Channel.interrupt_opens hopening status⟩⟩
      exact hf.append (l := [_]) (by simp [Event.Passive, Event.KeepsTables])
    | _ => exact ha.elim
  | _ => exact ha.elim

end Heeded

/-- A transfer that is not in hand any more was ended with a notification. -/
def Concluded (s : Station σ) : Prop :=
  s.worker.transfer = none → ∀ dir start entries, lastActive s.machine.history ≠
    some (.issue dir start entries)

omit [Platform σ] in
theorem Concluded.frame (h : Concluded s) (ht : t.worker.transfer = s.worker.transfer)
    (hh : t.machine.history = l ++ s.machine.history) (he : ∀ e ∈ l, e.Passive) : Concluded t := by
  intro hnone
  rw [hh, lastActive_append he]
  exact h (ht ▸ hnone)

theorem Concluded.step (hstep : Step A (fun a _ => ¬ a.Halts) x y) (h : Concluded x.2) :
    Concluded y.2 := by
  have htold {s : Station σ} (phase : Phase) (outcome : Outcome) : Concluded (s.tell phase outcome) := by
    obtain ⟨events, hh, -⟩ := (s.tell_drops phase outcome).history
    rintro - dir start entries hlast
    rw [hh] at hlast
    cases hlast
  cases hstep.deed with
  | tend htends =>
    obtain ⟨events, hh, he⟩ := htends.history
    exact h.frame htends.transfer hh fun e hmem => (he e hmem).passive
  | @strike j s i =>
    obtain ⟨events, hh, hsilent | ⟨-, r, rfl⟩⟩ := s.machine.incur_history i
    · exact h.frame rfl hh fun e hmem => (hsilent e hmem).passive
    · rintro - dir start entries hlast
      rw [show (s.strike i).machine.history = _ from hh] at hlast
      cases hlast
  | interrupt | setPayload | close => exact h.frame (l := []) rfl rfl (by simp)
  | halt a ha hh => exact absurd ha hh
  | begin => rintro ⟨⟩
  | complete => exact htold _ _
  | fail => exact htold _ _
  | issue => rintro ⟨⟩

omit [Platform σ] in
/-- Work that waits at rest is not left over from a transfer that was stopped. -/
theorem Concluded.of_work (hc : Control s.view .rest) (ha : Abreast s)
    (hw : ¬ s.machine.channel.work.Holds []) : Concluded s := by
  rcases hc with (hv | ⟨r, hq⟩) | ⟨p, hr⟩
  · exact absurd hv.work hw
  · rintro - dir start entries hlast
    obtain ⟨r', hr'⟩ := ha.begun hq.idle (congrArg Account.batches hq.account)
    cases hr'.symm.trans hlast
  · intro hnone
    cases hnone.symm.trans hr.transfer

theorem Path.watchful (hp : Platform.Within σ Incident.Honest) (hq : Platform.Quiet σ)
    (hs : x.2.settings.Valid) (hc : Control x.2.view x.1) (h : Watchful x)
    (hpath : Path Incident.Honest H x y) : Watchful y := by
  refine Path.keep hs hc ?_ h hpath
  intro u v hsettings hcontrol hstep hw
  exact hw.step hp hq (hsettings ▸ hs) hstep hcontrol

theorem Path.heeded (hp : Platform.Within σ Incident.Honest) (hq : Platform.Quiet σ)
    (hs : x.2.settings.Valid) (hc : Control x.2.view x.1) (hw : Watchful x) (h : Heeded older x.2)
    (hpath : Path Incident.Honest (fun a _ => ¬ a.Halts) x y) : Heeded older y.2 := by
  refine (Path.keep (P := fun z => Watchful z ∧ Heeded older z.2) hs hc ?_ ⟨hw, h⟩ hpath).2
  rintro u v hsettings hcontrol hstep ⟨hw, h⟩
  exact ⟨hw.step hp hq (hsettings ▸ hs) hstep hcontrol, h.step hstep hcontrol hw⟩

/-- An interrupt inside a call that halts nothing is heeded from then on. -/
theorem Path.heeds_interrupt {status : UInt32} {report : InterruptReport}
    (hp : Platform.Within σ Incident.Honest) (hq : Platform.Quiet σ) (hs : x.2.settings.Valid)
    (hc : Control x.2.view x.1) (hw : Watchful x) (hd : Concluded x.2)
    (hpath : Path Incident.Honest (fun a _ => ¬ a.Halts) x y)
    (hy : .interrupt status report :: older <:+ y.2.machine.history)
    (hx : x.2.machine.history <:+ older) (hf : Flagged older) :
    Heeded (.interrupt status report :: older) y.2 := by
  obtain ⟨u, v, hu, hstep, hv, holder, hnow⟩ := hpath.crossing hy hx
  obtain ⟨hcontrol, hsettings⟩ := Path.control hs hc hu
  have hu' : Watchful u ∧ Concluded u.2 := by
    refine Path.keep (P := fun z => Watchful z ∧ Concluded z.2) hs hc ?_ ⟨hw, hd⟩ hu
    rintro u v hsettings hcontrol hstep ⟨hw, hd⟩
    exact ⟨hw.step hp hq (hsettings ▸ hs) hstep hcontrol, hd.step hstep⟩
  have hincident : Event.Incidental (.interrupt status report) := trivial
  obtain ⟨i, -, rfl, rfl, hh⟩ := hstep.struck hq hincident holder hnow
  have hi : (Act.strike i).Interrupts := by
    cases i with
    | interrupt => trivial
    | complete dir =>
      simp only [Station.strike, Machine.incur] at hh
      split at hh
      · cases hh
      · exact absurd hh (List.cons_ne_self _ _).symm
    | flag | submit => cases hh
  have htransfer : u.2.worker.transfer ≠ none := by
    intro hnone
    obtain ⟨dir, start, entries, hlast, -⟩ := hf
    exact hu'.2 hnone dir start entries hlast
  have hstruck := Heeded.interrupt hi hcontrol hu'.1 htransfer hf
  rw [show (u.2.act (.strike i)).machine.history = _ from hh] at hstruck
  have hcontrol' := Path.control hs hc (hu.tail hstep)
  exact Path.heeded hp hq (hcontrol'.2 ▸ hs) hcontrol'.1
    (hu'.1.step hp hq (hsettings ▸ hs) hstep hcontrol) hstruck hv

/-- What is known of a station whenever no call is running. -/
structure Alert (s : Station σ) : Prop where
  valid : s.settings.Valid
  control : Control s.view .rest
  watchful : Watchful (.rest, s)
  honest : s.Heeds Incident.Honest

namespace Alert

omit [Platform σ] in
theorem initial {settings : Settings} (hs : settings.Valid) (tableBus : Sides Nat)
    (registers : RegisterFile) (platform : σ) {listener : List (List Incident)}
    (hl : ∀ reaction ∈ listener, ∀ i ∈ reaction, i.Honest) :
    Alert (Station.initial settings tableBus registers platform listener) := by
  have hvacant : (Station.initial settings tableBus registers platform listener).view.Vacant false :=
    ⟨rfl, rfl, rfl, rfl, BoundedQueue.holds_empty, rfl, rfl⟩
  exact ⟨hs, .inl (.inl hvacant),
    ⟨Pacing.initial .., Machine.Imaged.initial .., .of_vacant hvacant, .nil trivial⟩, hl⟩

variable {acts : List Act} (hp : Platform.Within σ Incident.Honest) (hq : Platform.Quiet σ)
  (h : Alert s)
include hp hq h

theorem path (hpath : Path Incident.Honest H (.rest, s) (.rest, t)) : Alert t := by
  obtain ⟨hcontrol, hsettings⟩ := Path.control (x := (.rest, s)) h.valid h.control hpath
  exact ⟨hsettings ▸ h.valid, hcontrol,
    Path.watchful (x := (.rest, s)) hp hq h.valid h.control h.watchful hpath, hpath.heeds h.honest⟩

theorem act {a : Act} (ha : a.Within Incident.Honest) : Alert (s.act a) :=
  h.path hp hq (Path.act (H := fun _ _ => True) hp h.honest ha trivial)

theorem run (ha : ∀ a ∈ acts, a.Within Incident.Honest) : Alert (s.run acts) :=
  h.path hp hq (Path.run hp h.honest ha (s.haltsOnly_true acts))

variable {a : Act} {newer : List Event} {status : UInt32} {report : InterruptReport}

/-- After an interrupt inside a service the transfer goes on, or is ended. -/
theorem serve_goesOn (hempty : s.serve.2.machine.channel.work.isEmpty = true)
    (hh : s.serve.2.machine.history = newer ++ .interrupt status report :: older)
    (hx : s.machine.history <:+ older) (hf : Flagged older) : GoesOn newer := by
  have hy : .interrupt status report :: older <:+ s.serve.2.machine.history := ⟨newer, hh.symm⟩
  have hwork : ¬ s.machine.channel.work.Holds [] := by
    intro hw
    have hidle : s.serve.2 = s := congrArg Prod.snd (Station.serveUpTo_nil hw _)
    have hlong := ((hidle ▸ hy).trans hx).length_le
    rw [List.length_cons] at hlong
    omega
  have hserve : Path Incident.Honest (fun a _ => ¬ a.Halts) (.rest, s) (.rest, s.serve.2) :=
    Path.act (a := .serve) hp h.honest trivial id
  have hheeded := Path.heeds_interrupt (x := (.rest, s)) hp hq h.valid h.control h.watchful
    (.of_work h.control h.watchful.abreast hwork) hserve hy hx hf
  obtain ⟨newer', hh', hgoes⟩ := hheeded.goesOn (h.path hp hq hserve).control hempty
  rwa [List.append_cancel_right (hh.symm.trans hh')]

/-- After an interrupt between two calls the transfer goes on, or is ended, in the calls that follow. -/
theorem run_goesOn (hi : a.Interrupts) (ha : a.Within Incident.Honest)
    (hacts : ∀ b ∈ acts, b.Within Incident.Honest) (hh : ∀ b ∈ acts, ¬ b.Halts)
    (ht : s.worker.transfer ≠ none) (hf : Flagged s.machine.history)
    (hempty : ((s.act a).run acts).machine.channel.work.isEmpty = true) :
    ∃ newer, ((s.act a).run acts).machine.history = newer ++ (s.act a).machine.history ∧
      GoesOn newer := by
  have hact := h.act hp hq ha
  have hrest : (s.act a).HaltsOnly (fun _ => False) acts :=
    Station.haltsOnly_of_forall (fun b hb hhalts _ => hh b hb hhalts) _
  have hrun := Path.run hp hact.honest hacts hrest
  have hheeded := Path.heeded (x := (.rest, s.act a)) hp hq hact.valid hact.control hact.watchful
    (.interrupt hi h.control h.watchful ht hf) hrun
  exact hheeded.goesOn (hact.run hp hq hacts).control hempty

end Alert

/-- Whatever interrupt came for a flagged batch, inside the service that follows the acts or before it,
the transfer went on after that interrupt, or was ended. -/
structure Attended (first : Station σ) (acts : List Act) : Prop where
  inside : ∀ newer older status report,
    (first.run acts).serve.2.machine.history = newer ++ .interrupt status report :: older →
    (first.run acts).machine.history <:+ older → Flagged older → GoesOn newer
  between : ∀ before a after, acts = before ++ a :: after → a.Interrupts →
    (first.run before).worker.transfer ≠ none → Flagged (first.run before).machine.history →
    (∃ kept b rest, after = kept ++ b :: rest ∧ b.Halts ∧
      (((first.run (before ++ [a])).run kept).act b).worker.transfer = none) ∨
    ∃ newer, (first.run acts).serve.2.machine.history =
      newer ++ (first.run (before ++ [a])).machine.history ∧ GoesOn newer

/-- In every run of a worker whose platform is honest and is quiet but for last ids: a flag is acted on
only once, and every service that returns with an empty queue, as each does if the length of a page in
words fits into a descriptor, has attended to all interrupts for flagged batches. -/
theorem run_attended (settings : Settings) (hs : settings.Valid) (tableBus : Sides Nat)
    (registers : RegisterFile) (platform : σ) (hp : Platform.Within σ Incident.Honest)
    (hq : Platform.Quiet σ) (listener : List (List Incident))
    (hl : ∀ reaction ∈ listener, ∀ i ∈ reaction, i.Honest) (acts : List Act)
    (ha : ∀ a ∈ acts, a.Within Incident.Honest) :
    let first := Station.initial settings tableBus registers platform listener
    let last := (first.run acts).serve.2
    OncePerFlag last.machine.history ∧
    (settings.pageSize < 2 ^ 34 → last.machine.channel.work.isEmpty = true) ∧
    (last.machine.channel.work.isEmpty = true → Attended first acts) := by
  intro first last
  have hfirst : Alert first := .initial hs tableBus registers platform hl
  have hlast : Alert last := (hfirst.run hp hq ha).act hp hq (a := .serve) trivial
  refine ⟨hlast.watchful.once, fun hsmall => ?_, fun hempty => ⟨?inside, ?between⟩⟩
  · have hsettings : (first.run acts).settings = settings :=
      (Path.control (x := (.rest, first)) hs hfirst.control (Path.everyRun first acts)).2
    have hnow := hfirst.run hp hq ha
    exact Station.serve_drains hnow.valid (hsettings ▸ hsmall) hnow.control
  case inside =>
    intro newer older status report hh hx hf
    exact (hfirst.run hp hq ha).serve_goesOn hp hq hempty hh hx hf
  case between =>
    rintro before a after rfl hinterrupts htransfer hf
    obtain ⟨hbefore, hafter⟩ := List.forall_mem_append.mp ha
    obtain ⟨hinterrupt, hafter⟩ := List.forall_mem_cons.mp hafter
    by_cases hhalts : ∃ b ∈ after, b.Halts
    · obtain ⟨b, hb, hhalt⟩ := hhalts
      obtain ⟨kept, rest, rfl⟩ := List.append_of_mem hb
      exact .inl ⟨kept, b, rest, rfl, hhalt, (Station.halt_drops _ hhalt).transfer⟩
    · have hinterrupted : first.run (before ++ [a]) = (first.run before).act a := first.run_append _ _
      have hserved : last = ((first.run before).act a).run (after ++ [.serve]) := by
        rw [Station.run_append]
        exact congrArg (fun s : Station σ => s.serve.2) (first.run_append before (a :: after))
      simp only [not_exists, not_and] at hhalts
      have hquiet : ∀ b ∈ after ++ [.serve], ¬ b.Halts :=
        List.forall_mem_append.mpr ⟨hhalts, by simp [Act.Halts]⟩
      have hcalls : ∀ b ∈ after ++ [.serve], b.Within Incident.Honest :=
        List.forall_mem_append.mpr ⟨hafter, by simp [Act.Within]⟩
      obtain ⟨newer, hh, hgoes⟩ := (hfirst.run hp hq hbefore).run_goesOn hp hq hinterrupts hinterrupt
        hcalls hquiet htransfer hf (hserved ▸ hempty)
      exact .inr ⟨newer, by rw [hinterrupted, ← hh, ← hserved], hgoes⟩

end Runs
end Stations

/-- The device flags the first of two batches without an interrupt, so that the service returns. One
interrupt later the next service goes on. -/
theorem run_attended_flag :
    let calls : List Act := [
      .strike (.submit { direction := .hostToDevice, host := 0x2ffc, device := 0, len := 8 }), .serve]
    let first := Station.initial {} (.both 0x5000) .reset ({ echo := .flag } : Bench.ScriptedHost) []
    let last := (first.run (calls ++ [.interrupt 0])).serve.2
    OncePerFlag last.machine.history ∧ last.machine.channel.work.isEmpty = true ∧
    Attended first (calls ++ [.interrupt 0]) ∧
    ∃ newer, last.machine.history = newer ++ (first.run (calls ++ [.interrupt 0])).machine.history ∧
      GoesOn newer := by
  have h := run_attended {} (by decide) (.both 0x5000) .reset ({ echo := .flag } : Bench.ScriptedHost)
    Bench.ScriptedHost.honest Bench.ScriptedHost.quiet [] (by simp) ([
      .strike (.submit { direction := .hostToDevice, host := 0x2ffc, device := 0, len := 8 }), .serve] ++
      [.interrupt 0]) (by simp [Act.Within, Incident.Honest])
  have hattended := h.2.2 (h.2.1 (by decide))
  have hflagged : Flagged ((Station.initial {} (.both 0x5000) .reset
      ({ echo := .flag } : Bench.ScriptedHost) []).run [
        .strike (.submit { direction := .hostToDevice, host := 0x2ffc, device := 0, len := 8 }),
        .serve]).machine.history :=
    ⟨.hostToDevice, { id := 0, announce := true }, [.moving .hostToDevice 0x2ffc 0 4 0],
      by decide +kernel, by decide +kernel⟩
  refine ⟨h.1, h.2.1 (by decide), hattended, ?_⟩
  apply (hattended.between _ (.interrupt 0) [] rfl trivial (by decide +kernel) hflagged).resolve_left
  rintro ⟨kept, b, rest, hnil, -⟩
  simp at hnil
end ScatterGather
