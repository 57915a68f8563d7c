import ScatterGather.Proofs.Control

/-! # What a step does, and when

Of the steps of a worker most are seen by no one but the platform, which locks pages and takes pages
back. A `Deed` says what a step does besides. Histories only grow, so for every event of a history
there is a moment of the run at which it happened.
-/
namespace ScatterGather
open Relation

def Event.MovesPages : Event → Prop
  | lock .. | unlock .. => True
  | _ => False

theorem Event.MovesPages.passive {e : Event} (h : e.MovesPages) : e.Passive := by
  cases e with
  | lock | unlock => trivial
  | _ => exact h.elim

/-- Events that an incident leaves behind. -/
def Event.Incidental : Event → Prop
  | complete .. | flag .. | interrupt .. | submit .. => True
  | _ => False

theorem Event.MovesPages.not_incidental {e : Event} (h : e.MovesPages) : ¬ e.Incidental := by
  cases e with
  | lock | unlock => exact id
  | _ => exact h.elim

theorem Machine.incur_event {σ : Type} (m : Machine σ) (i : Incident) :
    (m.incur i).history = m.history ∨ ∃ e : Event, e.Incidental ∧ (m.incur i).history = e :: m.history := by
  cases i with
  | complete dir =>
    simp only [incur]
    split
    · refine .inr ⟨_, ?_, rfl⟩
      trivial
    · exact .inl rfl
  | _ =>
    refine .inr ⟨_, ?_, rfl⟩
    trivial

theorem Machine.incur_incidental {σ : Type} (m : Machine σ) (i : Incident) :
    ∃ events, (m.incur i).history = events ++ m.history ∧ ∀ e ∈ events, e.Incidental := by
  rcases m.incur_event i with hh | ⟨e, he, hh⟩
  · exact ⟨[], hh, by simp⟩
  · exact ⟨[e], hh, by simpa using he⟩

theorem Machine.incurAll_incidental {σ : Type} (m : Machine σ) (incidents : List Incident) :
    ∃ events, (m.incurAll incidents).history = events ++ m.history ∧ ∀ e ∈ events, e.Incidental := by
  induction incidents generalizing m with
  | nil => exact ⟨[], rfl, by simp⟩
  | cons i rest ih =>
    obtain ⟨events, hh, he⟩ := m.incur_incidental i
    obtain ⟨newer, hh', he'⟩ := ih (m.incur i)
    exact ⟨newer ++ events, by rw [incurAll_cons, hh', hh, List.append_assoc],
      List.forall_mem_append.mpr ⟨he', he⟩⟩

theorem moves_unlocks (regions : List Region) :
    ∀ e ∈ regions.flatMap Region.unlocks, e.MovesPages :=
  Region.forall_unlocks (fun _ _ => trivial) regions

/-- An event that is newer than a part of a history is one of those added to that part. -/
theorem suffix_within {events history older : List Event} {e : Event}
    (h : e :: older <:+ events ++ history) (hx : history <:+ older) :
    ∃ newer between, events = newer ++ e :: between ∧ older = between ++ history := by
  obtain ⟨between, rfl⟩ := hx
  obtain ⟨newer, hn⟩ := h
  rw [← List.cons_append, ← List.append_assoc] at hn
  exact ⟨newer, between, (List.append_cancel_right hn).symm, rfl⟩

section Relations
variable {σ : Type} {s t : Station σ} {events newest : List Event}

/-- At most, pages were moved and a job left the queue. -/
structure Station.Tends (s t : Station σ) : Prop where
  transfer : t.worker.transfer = s.worker.transfer
  ring : t.worker.ring = s.worker.ring
  registers : t.machine.registers = s.machine.registers
  channel : ∃ work n, t.machine.channel = { s.machine.channel with work, pagesLocked := n }
  history : ∃ events, t.machine.history = events ++ s.machine.history ∧ ∀ e ∈ events, e.MovesPages

/-- The transfer was dropped, and everything that was pinned was given back before the newest
events. -/
structure Station.Drops (s : Station σ) (newest : List Event) (t : Station σ) : Prop where
  transfer : t.worker.transfer = none
  bus : t.worker.ring.tableBus = s.worker.ring.tableBus
  registers : t.machine.registers = s.machine.registers
  tables : t.machine.channel.tables = s.machine.channel.tables
  payload : t.machine.channel.payload = s.machine.channel.payload
  history : ∃ events, t.machine.history = newest ++ (events ++ s.machine.history) ∧
    ∀ e ∈ events, e.MovesPages

theorem Machine.Sees.tends (h : s.machine.Sees events t.machine) (he : ∀ e ∈ events, e.MovesPages)
    (ht : t.worker.transfer = s.worker.transfer) (hr : t.worker.ring = s.worker.ring) : s.Tends t where
  transfer := ht
  ring := hr
  registers := h.registers
  channel := by
    obtain ⟨n, hn⟩ := h.channel
    exact ⟨_, n, hn⟩
  history := ⟨events, h.history, he⟩

theorem Station.Tends.tables (h : s.Tends t) :
    t.machine.channel.tables = s.machine.channel.tables := by
  obtain ⟨work, n, hc⟩ := h.channel
  rw [hc]

theorem Station.Drops.added {P : Event → Prop} (h : s.Drops newest t) (hn : ∀ e ∈ newest, P e)
    (hm : ∀ e : Event, e.MovesPages → P e) :
    ∃ l, t.machine.history = l ++ s.machine.history ∧ ∀ e ∈ l, P e := by
  obtain ⟨events, hh, he⟩ := h.history
  exact ⟨newest ++ events, by rw [hh, List.append_assoc],
    List.forall_mem_append.mpr ⟨hn, fun e hmem => hm e (he e hmem)⟩⟩

theorem Station.Drops.grows (h : s.Drops newest t) : s.machine.history <:+ t.machine.history := by
  obtain ⟨l, hh, -⟩ := h.added (fun _ _ => trivial) (fun _ _ => trivial)
  exact ⟨l, hh.symm⟩

variable [Platform σ]

theorem Station.stop_drops (s : Station σ) : s.Drops [] s.stop where
  transfer := rfl
  bus := rfl
  registers := (s.worker.pipeline.unpinAll_sees s.machine).registers
  tables := (s.worker.pipeline.unpinAll_sees s.machine).tables
  payload := (s.worker.pipeline.unpinAll_sees s.machine).payload
  history := ⟨_, (s.worker.pipeline.unpinAll_sees s.machine).history, moves_unlocks _⟩

theorem Station.finish_drops (s : Station σ) : s.Drops [] s.finish := by
  have hstop := (s.mapChannel ({ · with finished := true })).stop_drops
  exact ⟨hstop.transfer, hstop.bus, hstop.registers, hstop.tables, hstop.payload, hstop.history⟩

theorem Station.halt_drops (s : Station σ) {a : Act} (ha : a.Halts) : s.Drops [] (s.act a) := by
  cases a with
  | stop => exact s.stop_drops
  | finish => exact s.finish_drops
  | _ => exact ha.elim

/-- What was pinned is given back before the listener is told. -/
theorem Station.tell_history (s : Station σ) (phase : Phase) (outcome : Outcome) :
    (s.tell phase outcome).machine.history = .notify s.machine.channel.payloadForTransfer outcome ::
      (s.worker.pipeline.unlocks ++ s.machine.history) := by
  have hsees := s.worker.pipeline.unpinAll_sees s.machine
  have hpayload : (s.reset phase).machine.channel.payload = s.machine.channel.payload := hsees.payload
  calc
    (s.tell phase outcome).machine.history =
        .notify ((s.reset phase).machine.channel.payload ||| transferDoneBit) outcome ::
          (s.reset phase).machine.history := rfl
    _ = .notify s.machine.channel.payloadForTransfer outcome ::
          (s.worker.pipeline.unlocks ++ s.machine.history) := by
      rw [hpayload, show (s.reset phase).machine.history = _ from hsees.history]
      rfl

theorem Station.tell_drops (s : Station σ) (phase : Phase) (outcome : Outcome) :
    s.Drops [.notify s.machine.channel.payloadForTransfer outcome] (s.tell phase outcome) := by
  have hsees := s.worker.pipeline.unpinAll_sees s.machine
  exact ⟨rfl, rfl, hsees.registers, hsees.tables, hsees.payload, s.worker.pipeline.unlocks,
    s.tell_history phase outcome, moves_unlocks _⟩

end Relations

/-- What a step does. -/
inductive Deed {σ : Type} [Platform σ] (A : Incident → Prop) (H : Act → Worker → Prop) :
    Juncture × Station σ → Juncture × Station σ → Prop
  | tend {j j' s t} : s.Tends t → Deed A H (j, s) (j', t)
  | strike {j s i} : j.Exposed → A i → Deed A H (j, s) (j, s.strike i)
  | interrupt {s} (status) : Deed A H (.rest, s) (.rest, s.mapChannel fun c => (c.interrupt status).2)
  | setPayload {s payload} : H (.setPayload payload) s.worker →
      Deed A H (.rest, s) (.rest, s.mapChannel ({ · with payload }))
  | halt {s} (a : Act) : a.Halts → H a s.worker → Deed A H (.rest, s) (.rest, s.act a)
  | begin {s r} : s.takeWork.1 = some (.start r) →
      Deed A H (.ready, s) (.due .start { request := r }, s.takeWork.2.begin r)
  | complete {k p s} : p.remaining = 0 →
      Deed A H (.due k p, s) (.told k, s.tell .idle (.completed p.request.len))
  | fail {k cause s} : Deed A H (.broken k cause, s) (.told k, s.tell .fault (.failed cause))
  | issue {k p s start w entries} :
      w.carve s.settings p.request.direction (p.request.device + p.sent) start = .ok entries →
      Deed A H (.supplied k p start w, s) (.handed k (p.past entries), s.issue p start entries)
  | close {s} : Deed A H (.closing .advance, s) (.ready, s.mapChannel Channel.closeAdvance)

section Steps
variable {σ : Type} [Platform σ] {A : Incident → Prop} {H : Act → Worker → Prop}
  {x y : Juncture × Station σ} {s t : Station σ} {older newer : List Event} {e : Event}

omit [Platform σ] in
theorem Station.takeWork_tends (s : Station σ) : s.Tends s.takeWork.2 :=
  ⟨rfl, rfl, rfl, ⟨_, _, rfl⟩, [], rfl, by simp⟩

theorem Step.deed (h : Step A H x y) : Deed A H x y := by
  cases h with
  | strike hj hi => exact .strike hj hi
  | interrupt status => exact .interrupt status
  | setPayload hh => exact .setPayload hh
  | stop hh => exact .halt .stop trivial hh
  | finish hh => exact .halt .finish trivial hh
  | begin hj => exact .begin hj
  | complete hr => exact .complete hr
  | fail => exact .fail
  | issue hcarve => exact .issue hcarve
  | closeAdvance => exact .close
  | drained | resume | stale => exact .tend (Station.takeWork_tends _)
  | @turn k p s =>
    exact .tend ((s.worker.pipeline.unpinDone_sees s.machine).tends (moves_unlocks _) rfl rfl)
  | @release k p s =>
    exact .tend ((s.worker.pipeline.unpinDone_sees s.machine).tends (moves_unlocks _) rfl rfl)
  | ask | askAhead =>
    exact .tend ((Machine.asked_sees _ _ _).tends (by simp [Event.MovesPages]) rfl rfl)
  | short | shortAhead =>
    exact .tend ((Machine.unlock_sees _ _ _).tends (by simp [Event.MovesPages]) rfl rfl)
  | pinned | keepNext => exact .tend ((Machine.countLocked_sees _ _).tends (by simp) rfl rfl)
  | _ => exact .tend ⟨rfl, rfl, rfl, ⟨_, _, rfl⟩, [], rfl, by simp⟩

section Growth

omit [Platform σ] in
theorem Machine.incur_grows (m : Machine σ) (i : Incident) : m.history <:+ (m.incur i).history := by
  obtain ⟨events, hh, -⟩ := m.incur_incidental i
  exact ⟨events, hh.symm⟩

theorem Ring.stage_grows (ring : Ring) (m : Machine σ) (dir : Direction) (start : BatchPlace)
    (entries : List Entry) :
    .issue dir start entries :: m.history <:+ (ring.stage m dir start entries).2.history :=
  stage_induction (P := (Event.issue dir start entries :: m.history <:+ ·.history)) dir
    (fun _ _ _ _ hm => hm.trans (List.suffix_cons _ _)) (fun m i hm => hm.trans (m.incur_grows i))
    (fun _ _ hm => hm) (fun _ _ hm => hm) ring start entries (List.suffix_refl _)

theorem Deed.grows (h : Deed A H x y) : x.2.machine.history <:+ y.2.machine.history := by
  cases h with
  | tend h =>
    obtain ⟨events, hh, -⟩ := h.history
    exact ⟨events, hh.symm⟩
  | @strike j s i => exact s.machine.incur_grows i
  | interrupt | setPayload | close => exact List.suffix_refl _
  | @halt s a ha => exact (s.halt_drops ha).grows
  | begin => exact List.suffix_cons _ _
  | @complete k p s => exact (s.tell_drops _ _).grows
  | @fail k cause s => exact (s.tell_drops _ _).grows
  | issue =>
    exact ((List.suffix_cons _ _).trans (Ring.stage_grows _ _ _ _ _)).trans (List.suffix_cons _ _)

theorem Path.grows (h : Path A H x y) : x.2.machine.history <:+ y.2.machine.history := by
  induction h with
  | refl => exact List.suffix_refl _
  | tail _ hstep ih => exact ih.trans hstep.deed.grows

/-- The path goes through the step at which an event happened. -/
theorem Path.crossing (h : Path A H x y) (hy : e :: older <:+ y.2.machine.history)
    (hx : x.2.machine.history <:+ older) :
    ∃ u v, Path A H x u ∧ Step A H u v ∧ Path A H v y ∧
      u.2.machine.history <:+ older ∧ e :: older <:+ v.2.machine.history := by
  induction h with
  | refl =>
    have hlong := (hy.trans hx).length_le
    rw [List.length_cons] at hlong
    omega
  | @tail u y hpath hstep ih =>
    rcases List.suffix_or_suffix_of_suffix hy hstep.deed.grows with hbefore | hafter
    · obtain ⟨v, w, hv, hstep', hw, hrest⟩ := ih hbefore
      exact ⟨v, w, hv, hstep', hw.tail hstep, hrest⟩
    · rcases List.suffix_cons_iff.mp hafter with heq | hafter
      · obtain ⟨v, w, hv, hstep', hw, hrest⟩ := ih (heq ▸ List.suffix_refl _)
        exact ⟨v, w, hv, hstep', hw.tail hstep, hrest⟩
      · exact ⟨u, y, hpath, hstep, .refl, hafter, hy⟩

/-- While a batch is issued nothing strikes. -/
theorem Station.issue_quiet (hq : Platform.Quiet σ) (s : Station σ) (p : Progress) (start : BatchPlace)
    (entries : List Entry) : ∃ events, (s.issue p start entries).machine.history =
      events ++ .issue p.request.direction start entries :: s.machine.history ∧
        ∀ e ∈ events, ¬ e.Incidental := by
  unfold issue Ring.stage
  cases start.announce with
  | false => exact ⟨[_], rfl, by simp [Event.Incidental]⟩
  | true =>
    simp only [if_true, Ring.announce, Machine.programTable, Machine.programFifo, Machine.programSize,
      Machine.writeHalves, Machine.writeRegister_quiet hq, ne_eq, reduceCtorEq, not_false_eq_true]
    exact ⟨[_, _, _, _, _, _], rfl, by simp [Event.Incidental]⟩

/-- An event that an incident left behind tells when it struck, unless it struck while a batch was issued. -/
theorem Step.struck_or_issues (h : Step A H x y) (he : e.Incidental)
    (hx : x.2.machine.history <:+ older) (hy : e :: older <:+ y.2.machine.history) :
    (∃ i, A i ∧ y = (x.1, x.2.strike i) ∧ x.2.machine.history = older ∧
      y.2.machine.history = e :: older) ∨
    ∃ k p start w entries, x.1 = .supplied k p start w ∧ y.2 = x.2.issue p start entries := by
  have hnew {l : List Event} (hh : y.2.machine.history = l ++ x.2.machine.history) :
      ∃ later between, l = later ++ e :: between ∧ older = between ++ x.2.machine.history :=
    suffix_within (hh ▸ hy) hx
  have hquiet (l : List Event) (hh : y.2.machine.history = l ++ x.2.machine.history)
      (hn : ∀ e ∈ l, ¬ e.Incidental) : False := by
    obtain ⟨later, between, rfl, -⟩ := hnew hh
    exact hn e (by simp) he
  have hdrops {t : Station σ} {newest : List Event} (hd : x.2.Drops newest t) (ht : y.2 = t)
      (hn : ∀ e ∈ newest, ¬ e.Incidental) : False := by
    obtain ⟨l, hh, hl⟩ := hd.added hn fun _ => Event.MovesPages.not_incidental
    exact hquiet l (ht ▸ hh) hl
  cases h.deed with
  | tend htends =>
    obtain ⟨events, hh, hmoves⟩ := htends.history
    exact (hquiet _ hh fun e hmem => (hmoves e hmem).not_incidental).elim
  | @strike j s i _ hi =>
    rcases s.machine.incur_event i with hh | ⟨e', -, hh⟩
    · exact (hquiet [] hh (by simp)).elim
    · obtain ⟨later, between, heq, hbetween⟩ := hnew (l := [e']) hh
      obtain ⟨rfl, hsame⟩ := (List.append_eq_singleton_iff.mp heq.symm).resolve_right (by simp)
      obtain ⟨rfl, rfl⟩ := List.cons.inj hsame
      exact .inl ⟨i, hi, rfl, hbetween.symm, hbetween ▸ hh⟩
  | interrupt | setPayload | close => exact (hquiet [] rfl (by simp)).elim
  | @halt s a ha => exact (hdrops (s.halt_drops ha) rfl (by simp)).elim
  | begin => exact (hquiet [_] rfl (by simp [Event.Incidental])).elim
  | @complete k p s => exact (hdrops (s.tell_drops _ _) rfl (by simp [Event.Incidental])).elim
  | @fail k cause s => exact (hdrops (s.tell_drops _ _) rfl (by simp [Event.Incidental])).elim
  | @issue k p s start w entries => exact .inr ⟨k, p, start, w, entries, rfl, rfl⟩

theorem Step.struck (hq : Platform.Quiet σ) (h : Step A H x y) (he : e.Incidental)
    (hx : x.2.machine.history <:+ older) (hy : e :: older <:+ y.2.machine.history) :
    ∃ i, A i ∧ y = (x.1, x.2.strike i) ∧ x.2.machine.history = older ∧
      y.2.machine.history = e :: older := by
  refine (h.struck_or_issues he hx hy).resolve_right ?_
  rintro ⟨k, p, start, w, entries, -, hissue⟩
  obtain ⟨events, hh, hn⟩ := x.2.issue_quiet hq p start entries
  rw [hissue, hh, List.append_cons] at hy
  obtain ⟨newer, between, hevents, -⟩ := suffix_within hy hx
  have hmem : e ∈ events ++ [.issue p.request.direction start entries] := by simp [hevents]
  rcases List.mem_append.mp hmem with hmem | hmem
  · exact hn e hmem he
  · obtain rfl := List.mem_singleton.mp hmem
    exact he

end Growth

/-- A moment of a run from `s` to `t`. -/
def Midway (A : Incident → Prop) (H : Act → Worker → Prop) (s t : Station σ)
    (x : Juncture × Station σ) : Prop :=
  Path A H (.rest, s) x ∧ Path A H x (.rest, t)

/-- What every step keeps, with what is agreed on at each juncture at hand, holds along a path. -/
theorem Path.keep {P : Juncture × Station σ → Prop} (hs : x.2.settings.Valid)
    (hc : Control x.2.view x.1)
    (hstep : ∀ u v, u.2.settings = x.2.settings → Control u.2.view u.1 → Step A H u v → P u → P v)
    (hx : P x) (h : Path A H x y) : P y := by
  induction h with
  | refl => exact hx
  | tail hpath hlast ih =>
    obtain ⟨hcontrol, hsettings⟩ := Path.control hs hc hpath
    exact hstep _ _ hsettings hcontrol hlast ih

end Steps
end ScatterGather
