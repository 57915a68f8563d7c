import ScatterGather.Proofs.Besides
import ScatterGather.Proofs.Drains
import ScatterGather.Proofs.Zones

/-! # The flags of the other direction make no difference

Two runs that differ in stores of flags of one direction, each of them made while no transfer of this
direction is in hand, cannot be told apart by anything but these stores. They part only where a
transfer of this direction goes on with its ring and does not announce it, so that no one zeroes
the flags.
-/
namespace ScatterGather

theorem incidentLoad_besides {dir : Direction} {incidents others : List Incident}
    (h : Incident.SameBesides dir incidents others) : incidentLoad others = incidentLoad incidents := by
  have hfilter (l : List Incident) : incidentLoad (l.filter (! ·.flagging dir)) = incidentLoad l := by
    induction l with
    | nil => rfl
    | cons i rest ih =>
      by_cases hi : i.flagging dir = true
      · have hload : i.workload = 0 := by
          cases i with
          | submit => cases hi
          | _ => rfl
        rw [List.filter_cons_of_neg (by simp [hi]), ih]
        simp [incidentLoad, hload]
      · rw [List.filter_cons_of_pos (by simp [hi])]
        exact congrArg (i.workload + ·) ih
  rw [← hfilter others, ← hfilter incidents, h]

theorem Incident.SameBesides.flatten {dir : Direction} {listener other : List (List Incident)}
    (h : List.Forall₂ (SameBesides dir) listener other) :
    SameBesides dir listener.flatten other.flatten := by
  induction h with
  | nil => rfl
  | cons hfirst _ ih =>
    rw [SameBesides, List.flatten_cons, List.flatten_cons, List.filter_append, List.filter_append,
      hfirst, ih]

namespace Station
variable {σ : Type}

/-- The workers are the same, and the machines differ at most in the flags of this direction. -/
structure Beside (dir : Direction) (R : σ → σ → Prop) (agree : Prop) (s t : Station σ) : Prop where
  worker : t.worker = s.worker
  machine : Machine.Beside dir R agree s.machine t.machine

/-- Here both runs went on with the ring of this direction, with the first batch of a request, and did not
announce it. Until then they cannot be told apart. -/
structure PartedAt (dir : Direction) (s t : Station σ) (r : Request) (start : BatchPlace)
    (entries : List Entry) (older other : List Event) : Prop where
  direction : r.direction = dir
  continued : start.announce = false
  account : Account.ofHistory older = { request := some r }
  besides : Event.SameBesides dir older other
  first : .issue dir start entries :: older <:+ s.machine.history
  second : .issue dir start entries :: other <:+ t.machine.history

def Parted (dir : Direction) (s t : Station σ) : Prop :=
  ∃ r start entries older other, PartedAt dir s t r start entries older other

def Together (dir : Direction) (R : σ → σ → Prop) (s t : Station σ) : Prop :=
  (∃ agree, Beside dir R agree s t) ∨ Parted dir s t

/-- No transfer of this direction is in hand. -/
def Without (dir : Direction) (s : Station σ) : Prop :=
  ∀ p, s.worker.transfer = some p → p.request.direction ≠ dir

/-- Two runs of the same acts, but for flags of this direction that are stored in one of them alone
while it has no transfer of this direction in hand. -/
inductive Differ [Platform σ] (dir : Direction) :
    Station σ → Station σ → List Act → List Act → Prop
  | done {s t : Station σ} : Differ dir s t [] []
  | both {s t : Station σ} {acts others : List Act} (a : Act) :
      Differ dir (s.act a) (t.act a) acts others → Differ dir s t (a :: acts) (a :: others)
  | first {s t : Station σ} {i : Incident} {acts others : List Act} :
      i.flagging dir = true → s.Without dir → Differ dir (s.strike i) t acts others →
      Differ dir s t (.strike i :: acts) others
  | second {s t : Station σ} {i : Incident} {acts others : List Act} :
      i.flagging dir = true → t.Without dir → Differ dir s (t.strike i) acts others →
      Differ dir s t acts (.strike i :: others)

/-- But for stores of flags of this direction the same has happened, and the same is answered. -/
structure Indistinct (dir : Direction) (s t : Station σ) : Prop where
  history : Event.SameBesides dir s.machine.history t.machine.history
  worker : t.worker = s.worker
  registers : t.machine.registers = s.machine.registers
  channel : t.machine.channel = s.machine.channel.withTables t.machine.channel.tables
  other : t.machine.channel.table dir.other = s.machine.channel.table dir.other
  slots : (s.machine.channel.table dir).SameSlots (t.machine.channel.table dir)
  interrupt : ∀ status,
    (t.machine.channel.interrupt status).1 = (s.machine.channel.interrupt status).1
  submit : ∀ r, (t.machine.channel.submit r).1 = (s.machine.channel.submit r).1

variable {dir : Direction} {R : σ → σ → Prop} {agree : Prop} {s t s' t' : Station σ} {p : Progress}
  {k : Errand} {start : BatchPlace} {entries : List Entry}

theorem Parted.grow (h : Parted dir s t) (hs : s.machine.history <:+ s'.machine.history)
    (ht : t.machine.history <:+ t'.machine.history) : Parted dir s' t' := by
  obtain ⟨r, start, entries, older, other, hat⟩ := h
  exact ⟨r, start, entries, older, other, { hat with
    first := hat.first.trans hs, second := hat.second.trans ht }⟩

/-- They part over a request of this direction. -/
theorem Parted.accepted (h : Parted dir s t) :
    ∃ r ∈ accepted s.machine.history, r.direction = dir := by
  obtain ⟨r, start, entries, older, other, hat⟩ := h
  exact ⟨r, accepted_of_suffix ((List.suffix_cons _ _).trans hat.first) r
    (Account.accepted (congrArg Account.request hat.account)), hat.direction⟩

namespace Beside

theorem settings (h : Beside dir R agree s t) : t.settings = s.settings :=
  (congrArg Channel.settings h.machine.channel.frame).trans rfl

theorem settled (h : Beside dir R agree s t) :
    Beside dir R (s.machine.channel.issued.get dir ≠ noId) s t := ⟨h.worker, h.machine.settled⟩

theorem mapWorker (h : Beside dir R agree s t) (f : Worker → Worker) :
    Beside dir R agree { s with worker := f s.worker } { t with worker := f t.worker } :=
  ⟨congrArg f h.worker, h.machine⟩

theorem mapChannel (h : Beside dir R agree s t) {f : Channel → Channel} {agree' : Prop}
    (hf : Channel.Beside dir agree' (f s.machine.channel) (f t.machine.channel)) :
    Beside dir R agree' (s.mapChannel f) (t.mapChannel f) := ⟨h.worker, { h.machine with channel := hf }⟩

theorem takeWork (h : Beside dir R agree s t) :
    t.takeWork.1 = s.takeWork.1 ∧ Beside dir R agree s.takeWork.2 t.takeWork.2 := by
  have htake : t.machine.channel.takeWork = (s.machine.channel.takeWork.1,
      s.machine.channel.takeWork.2.withTables t.machine.channel.tables) :=
    (congrArg Channel.takeWork h.machine.channel.frame).trans rfl
  have hchannel : Channel.Beside dir agree s.machine.channel.takeWork.2 t.machine.channel.takeWork.2 :=
    h.machine.channel.follow rfl rfl (congrArg Prod.snd htake)
  refine ⟨?_, h.worker, h.machine.mapChannel hchannel⟩
  rw [Station.takeWork, htake]
  rfl

theorem closeAdvance (h : Beside dir R agree s t) :
    Beside dir R agree (s.mapChannel Channel.closeAdvance) (t.mapChannel Channel.closeAdvance) :=
  h.mapChannel h.machine.channel.closeAdvance

theorem begin (h : Beside dir R agree s t) (r : Request) :
    Beside dir R agree (s.begin r) (t.begin r) := by
  obtain ⟨hvalue, hread⟩ := h.machine.readLastId r.direction
  unfold Station.begin Ring.resume
  dsimp only
  rw [hvalue, h.worker]
  exact ⟨rfl, hread⟩

variable [Platform σ]

theorem workload (h : Beside dir R agree s t) : t.workload = s.workload := by
  have hload : t.machine.channel.load = s.machine.channel.load :=
    (congrArg Channel.load h.machine.channel.frame).trans rfl
  have hlistener : t.machine.listenerLoad = s.machine.listenerLoad :=
    incidentLoad_besides (Incident.SameBesides.flatten h.machine.listener)
  rw [workload_eq, workload_eq, hload, hlistener, h.worker]

variable (hR : Platform.MatchesBesides dir R)
include hR

section Endings

theorem unpinAll (h : Beside dir R agree s t) : Beside dir R agree s.unpinAll t.unpinAll := by
  have hpin : Machine.LockAlike (Machine.Beside dir R agree) dir :=
    Machine.Beside.lockAlike hR fun _ => rfl
  unfold Station.unpinAll
  rw [h.worker]
  exact ⟨rfl, hpin.unpinAll h.machine s.worker.pipeline⟩

theorem reset (h : Beside dir R agree s t) (phase : Phase) :
    Beside dir R False (s.reset phase) (t.reset phase) := by
  have hunpinned := (h.mapWorker fun w => { w with ring := w.ring.reset }).unpinAll hR
  have hended := hunpinned.mapWorker fun w => { w with transfer := none, phase }
  exact hended.mapChannel hended.machine.channel.settle

theorem notified (h : Beside dir R agree s t) (phase : Phase) (outcome : Outcome) :
    Beside dir R False { s.reset phase with machine := (s.reset phase).machine.notify outcome }
      { t.reset phase with machine := (t.reset phase).machine.notify outcome } := by
  have hreset := h.reset hR phase
  exact ⟨hreset.worker, hreset.machine.notify id outcome⟩

theorem stop (h : Beside dir R agree s t) : Beside dir R False s.stop t.stop := by
  have hended := (h.unpinAll hR).mapWorker fun w => { w with
    ring := w.ring.reset
    transfer := none
    phase := if w.phase = .finished then .finished else .idle }
  have hdropped := hended.mapChannel (f := Channel.dropWork) <|
    hended.machine.channel.follow rfl rfl
      ((congrArg Channel.dropWork hended.machine.channel.frame).trans rfl)
  exact hdropped.mapChannel hdropped.machine.channel.settle

theorem finish (h : Beside dir R agree s t) : Beside dir R False s.finish t.finish := by
  have hfinished := h.mapChannel (f := ({ · with finished := true })) <|
    h.machine.channel.follow rfl rfl
      ((congrArg (fun c : Channel => { c with finished := true }) h.machine.channel.frame).trans rfl)
  exact (hfinished.stop hR).mapWorker fun w => { w with phase := .finished }

end Endings

section Batches
variable (hd : agree → p.request.direction = dir)
include hd

theorem windowFor (h : Beside dir R agree s t) : (t.windowFor p).1 = (s.windowFor p).1 ∧
    Beside dir R agree (s.windowFor p).2 (t.windowFor p).2 := by
  obtain ⟨hfound, pipeline, hs, ht, hmachine⟩ :=
    (Machine.Beside.lockAlike hR hd).windowFor h.machine (congrArg Worker.pipeline h.worker) p rfl
  exact ⟨hfound, by rw [hs, ht, h.worker], hmachine⟩

theorem release (h : Beside dir R agree s t) : Beside dir R agree s.release t.release := by
  obtain ⟨pipeline, hs, ht, hmachine⟩ :=
    (Machine.Beside.lockAlike hR hd).release h.machine (congrArg Worker.pipeline h.worker)
  exact ⟨by rw [hs, ht, h.worker], hmachine⟩

theorem pinAhead (h : Beside dir R agree s t) (next : Nat) :
    Beside dir R agree (s.pinAhead p.request next) (t.pinAhead p.request next) := by
  obtain ⟨pipeline, hs, ht, hmachine⟩ := (Machine.Beside.lockAlike hR hd).pinAhead h.machine
    (congrArg Worker.pipeline h.worker) p.request next rfl
  exact ⟨by rw [hs, ht, h.worker], hmachine⟩

/-- Behind a batch the flags of its ring agree, if it announced the ring or they did before. -/
theorem hand (h : Beside dir R agree s t)
    (hgo : p.request.direction = dir → start.announce = true ∨ agree) :
    Beside dir R (agree ∨ p.request.direction = dir) (s.hand p start entries)
      (t.hand p start entries) := by
  have hd' : agree ∨ p.request.direction = dir → p.request.direction = dir := fun h => h.elim hd id
  have hhanded : Beside dir R (agree ∨ p.request.direction = dir) (s.handed p start entries)
      (t.handed p start entries) := by
    refine ⟨?_, ?_⟩
    · simp only [handed, issue, Ring.stage, h.worker]
    · simp only [handed, h.worker]
      exact h.machine.publish hR hd _ start entries hgo
  have hreleased := hhanded.release hR (p := p) hd'
  have hreach : (t.handed p start entries).release.reach (p.past entries) =
      (s.handed p start entries).release.reach (p.past entries) := by rw [reach, hreleased.worker, reach]
  rw [hand_eq, hand_eq, hreach]
  exact hreleased.pinAhead hR hd' _

end Batches
end Beside

section Runs
variable [Platform σ]

theorem hand_grows (s : Station σ) (p : Progress) (start : BatchPlace) (entries : List Entry) :
    .issue p.request.direction start entries :: s.machine.history <:+
      (s.hand p start entries).machine.history := by
  have hissued : .issue p.request.direction start entries :: s.machine.history <:+
      (s.issue p start entries).machine.history :=
    (Ring.stage_grows ..).trans (List.suffix_cons _ _)
  have hrest : Path (fun _ => True) (fun _ _ => True)
      (.handed .start (p.past entries), s.issue p start entries)
      (.closing .start, s.hand p start entries) := by
    rw [hand_eq, handed_eq]
    exact ((Path.strikeAll (j := .handed ..) trivial fun _ _ => trivial).tail .release).trans
      (Path.pinAhead (p := p.past entries) Platform.within_true)
  exact hissued.trans hrest.grows

variable (hR : Platform.MatchesBesides dir R)
include hR

/-- Both issue the same batch or none for the same cause. They part if this batch is the first one of its
transfer and does not announce the ring. -/
theorem Beside.nextBatch (h : Beside dir R agree s t) (hs : s.settings.Valid) (hc : s.view.Poised k p)
    (hr : p.remaining ≠ 0) (hd : agree → p.request.direction = dir)
    (hfirst : p.request.direction = dir → agree ∨ k = .start) :
    (∃ cause s' t', s.nextBatch p = (some cause, s') ∧ t.nextBatch p = (some cause, t') ∧
      Beside dir R agree s' t') ∨
    ∃ s' t', s.nextBatch p = (none, s') ∧ t.nextBatch p = (none, t') ∧ Together dir R s' t' := by
  obtain ⟨hfound, hafter⟩ := h.windowFor hR hd
  rcases nextBatch_pair (congrArg Worker.ring h.worker) hfound hafter.settings with
    ⟨e, hs', ht'⟩ | ⟨e, hs', ht'⟩ | ⟨start, w, entries, hstart, hw, -, hs', ht'⟩
  · exact .inl ⟨e, _, _, hs', ht', h⟩
  · exact .inl ⟨e, _, _, hs', ht', hafter⟩
  · refine .inr ⟨_, _, hs', ht', ?_⟩
    by_cases hgo : p.request.direction = dir → start.announce = true ∨ agree
    · exact .inl ⟨_, hafter.hand hR hd hgo⟩
    · simp only [Classical.not_imp, not_or, Bool.not_eq_true] at hgo
      -- no one zeroes the flags in which the two differ, and from now on they are looked at
      obtain ⟨hdir, hquiet, hneither⟩ := hgo
      obtain rfl := (hfirst hdir).resolve_left hneither
      have hpath := Path.windowFor (A := fun _ => True) (H := fun _ _ => True) (k := .start)
        Platform.within_true hr hstart
      rw [hw] at hpath
      have hpoised := ((Path.control (x := (.due .start p, s)) hs hc hpath).1).1
      have haccount : Account.ofHistory (s.windowFor p).2.machine.history =
          { request := some p.request } :=
        congrArg₂ Account.mk hpoised.request hpoised.place.batches
      exact .inr ⟨p.request, start, entries, _, _, hdir, hquiet, haccount, hafter.machine.history,
        hdir ▸ hand_grows _ p start entries, hdir ▸ hand_grows _ p start entries⟩

theorem Beside.advance (h : Beside dir R agree s t) (hs : s.settings.Valid) (hc : s.view.Poised k p) :
    Together dir R s.advance t.advance := by
  have hsettled := h.settled
  have htransfer : s.worker.transfer = some p := hc.transfer
  -- an id of a ring is issued only while a transfer of its direction is in hand
  have hd : s.machine.channel.issued.get dir ≠ noId → p.request.direction = dir := by
    intro hissued
    refine Classical.byContradiction fun hne => hissued ?_
    rw [Direction.eq_other_of_ne (Ne.symm hne)]
    exact (Control.other_unissued (j := .due k p) hc htransfer).2
  have hfirst : p.request.direction = dir → s.machine.channel.issued.get dir ≠ noId ∨ k = .start := by
    rintro rfl
    cases k with
    | start => exact .inr rfl
    | advance =>
      obtain ⟨-, last, hl⟩ := hc.place
      have hissued : s.machine.channel.issued.get p.request.direction = last := by
        rw [show s.machine.channel.issued = _ from hl.issued, Sides.get_set_self]
      exact .inl (hissued ▸ Nat.ne_of_lt (Nat.lt_of_le_of_lt hl.le (by decide)))
  unfold Station.advance
  simp only [h.worker, htransfer]
  split
  · exact .inl ⟨_, h.notified hR _ _⟩
  · next hr =>
    rcases hsettled.nextBatch hR hs hc hr hd hfirst with
      ⟨cause, s', t', hfs, hft, hafter⟩ | ⟨s', t', hfs, hft, htogether⟩ <;> rw [hfs, hft]
    · exact .inl ⟨_, hafter.notified hR _ _⟩
    · exact htogether

theorem Beside.handle {job : Job} (h : Beside dir R agree s t) (hs : s.settings.Valid)
    (hc : Control s.view .ready) (hj : s.takeWork.1 = some job) :
    Together dir R (s.takeWork.2.handle job) (t.takeWork.2.handle job) := by
  have htaken := h.takeWork.2
  cases job with
  | start r => exact (htaken.begin r).advance hR hs (hc.begin hj)
  | advance =>
    obtain ⟨p, ht⟩ := Option.ne_none_iff_exists'.mp (hc.not_stale hj)
    rcases htaken.advance hR hs (hc.resume hj ht) with ⟨agree', hafter⟩ | hparted
    · exact .inl ⟨agree', hafter.closeAdvance⟩
    · exact .inr (hparted.grow (List.suffix_refl _) (List.suffix_refl _))

theorem Together.serveUpTo (h : Together dir R s t) (hs : s.settings.Valid)
    (hc : Control s.view .ready) (limit : Nat) :
    Together dir R (s.serveUpTo limit).2 (t.serveUpTo limit).2 := by
  have hgrows (s : Station σ) (limit : Nat) : s.machine.history <:+ (s.serveUpTo limit).2.machine.history :=
    (Path.serveUpTo (H := fun _ _ => True) Platform.within_true limit fun _ _ _ _ => trivial).grows
  induction limit generalizing s t with
  | zero => exact h
  | succ limit ih =>
    rcases h with ⟨agree, h⟩ | hparted
    · obtain ⟨hjob, htaken⟩ := h.takeWork
      unfold Station.serveUpTo
      rcases hs' : s.takeWork with ⟨found, s'⟩
      rcases ht' : t.takeWork with ⟨found', t'⟩
      rw [hs', ht'] at hjob htaken
      obtain rfl : found' = found := hjob
      cases found' with
      | none => exact .inl ⟨_, htaken⟩
      | some job =>
        have hfirst : s.takeWork.1 = some job := by rw [hs']
        have htogether := h.handle hR hs hc hfirst
        obtain ⟨hcontrol, hsettings⟩ := hc.handle hs hfirst
        rw [hs'] at hcontrol hsettings htogether
        rw [ht'] at htogether
        exact ih htogether (hsettings ▸ hs) hcontrol
    · exact .inr (hparted.grow (hgrows s _) (hgrows t _))

/-- What is done to both keeps them together. -/
theorem Together.act (h : Together dir R s t) (hs : s.settings.Valid) (hc : Control s.view .rest)
    (a : Act) : Together dir R (s.act a) (t.act a) := by
  rcases h with ⟨agree, h⟩ | hparted
  · cases a with
    | strike i => exact .inl ⟨_, h.worker, h.machine.incur i⟩
    | interrupt status =>
      have hchannel := (h.machine.channel.interrupt status).2
      exact .inl ⟨_, h.mapChannel (f := fun c => (c.interrupt status).2) hchannel⟩
    | serve =>
      have hserved := Together.serveUpTo hR (.inl ⟨_, h⟩) hs hc s.workload
      rw [Station.act, Station.act, serve, serve, h.workload]
      exact hserved
    | stop => exact .inl ⟨_, h.stop hR⟩
    | finish => exact .inl ⟨_, h.finish hR⟩
    | setPayload payload =>
      exact .inl ⟨_, h.mapChannel (f := ({ · with payload })) (h.machine.channel.follow rfl rfl
        ((congrArg (fun c : Channel => { c with payload }) h.machine.channel.frame).trans rfl))⟩
  · exact .inr (hparted.grow (Path.everyRun s [a]).grows (Path.everyRun t [a]).grows)

end Runs

theorem Without.unissued (hw : s.Without dir) (hc : Control s.view .rest) :
    s.machine.channel.issued.get dir = noId := by
  cases ht : s.worker.transfer with
  | some p =>
    rw [Direction.eq_other_of_ne (hw p ht).symm]
    exact (hc.other_unissued ht).2
  | none =>
    rcases hc with hb | ⟨p, hr⟩
    · rw [show s.machine.channel.issued = _ from hb.issued, Sides.get_both]
    · cases ht.symm.trans hr.transfer

theorem Beside.indistinct (h : Beside dir R agree s t) : Indistinct dir s t where
  history := h.machine.history
  worker := h.worker
  registers := h.machine.registers
  channel := h.machine.channel.frame
  other := h.machine.channel.tables.other
  slots := h.machine.channel.tables.slots
  interrupt status := (h.machine.channel.interrupt status).1
  submit r := (h.machine.channel.submit r).1

theorem Together.strike_left (h : Together dir R s t) (hw : s.Without dir) (hc : Control s.view .rest)
    {i : Incident} (hi : i.flagging dir = true) : Together dir R (s.strike i) t := by
  rcases h with ⟨agree, h⟩ | hparted
  · exact .inl ⟨_, h.worker, h.settled.machine.incur_left (by simp [hw.unissued hc]) hi⟩
  · exact .inr (hparted.grow (Machine.incur_grows _ _) (List.suffix_refl _))

theorem Together.strike_right (h : Together dir R s t) (hw : t.Without dir) (hc : Control s.view .rest)
    {i : Incident} (hi : i.flagging dir = true) : Together dir R s (t.strike i) := by
  rcases h with ⟨agree, h⟩ | hparted
  · have hs : s.Without dir := fun p hp => hw p (h.worker ▸ hp)
    exact .inl ⟨_, h.worker, h.settled.machine.incur_right (by simp [hs.unissued hc]) hi⟩
  · exact .inr (hparted.grow (List.suffix_refl _) (Machine.incur_grows _ _))

theorem Differ.together [Platform σ] {acts others : List Act} (hdiffer : Differ dir s t acts others)
    (hR : Platform.MatchesBesides dir R) (h : Together dir R s t) (hs : s.settings.Valid)
    (hc : Control s.view .rest) : Together dir R (s.run acts) (t.run others) := by
  induction hdiffer with
  | done => exact h
  | @both s t acts others a _ ih =>
    have hnext := Path.control (x := (.rest, s)) hs hc (Path.everyRun s [a])
    exact ih (h.act hR hs hc a) (hnext.2 ▸ hs) hnext.1
  | @first s t i acts others hi hw _ ih =>
    have hsettings : (s.strike i).settings = s.settings := Machine.incur_settings _ _
    exact ih (h.strike_left hw hc hi) (hsettings ▸ hs) (Control.strike (j := .rest) trivial hc i)
  | second hi hw _ ih => exact ih (h.strike_right hw hc hi) hs hc

end Station

section Runs
variable {σ : Type} [Platform σ]

/-- The directions do not interfere. In every run each transfer keeps to its side, and what is stored
to the flags of one direction while no transfer of this direction is in hand makes no difference, until a
transfer of this direction goes on with its ring without announcing it. What two runs do until then is a
pair of such runs as well, so this holds at each of their acts. -/
theorem run_keeps_apart (settings : Settings) (hs : settings.Valid) (tableBus : Sides Nat)
    (registers : RegisterFile) (platform : σ) (listener : List (List Incident)) (acts : List Act) :
    let s := Station.initial settings tableBus registers platform listener
    s.KeepsSides (s.run acts) ∧
    ∀ (dir : Direction) (R : σ → σ → Prop), Platform.MatchesBesides dir R →
      ∀ other reactions others, R platform other →
        List.Forall₂ (Incident.SameBesides dir) listener reactions →
        let t := Station.initial settings tableBus registers other reactions
        Station.Differ dir s t acts others →
          Station.Indistinct dir (s.run acts) (t.run others) ∨
          Station.Parted dir (s.run acts) (t.run others) := by
  intro s
  refine ⟨Station.initial_keepsSides hs tableBus registers platform listener acts, ?_⟩
  intro dir R hR other reactions others hplatform hlistener t hdiffer
  have htables : (s.machine.channel.tables).Beside dir True t.machine.channel.tables :=
    ⟨rfl, fun _ _ => rfl, fun _ => rfl⟩
  have hmachine : Machine.Beside dir R True s.machine t.machine :=
    ⟨⟨rfl, htables, fun h => absurd trivial h⟩, rfl, hplatform, hlistener, rfl⟩
  rcases hdiffer.together hR (.inl ⟨True, rfl, hmachine⟩) hs (Control.initial ..) with
    ⟨agree, h⟩ | hparted
  · exact .inl h.indistinct
  · exact .inr hparted

end Runs

namespace Bench

/-- A page tally beside a stranger, who may store flags of the other direction while pages are locked for
a transfer to the device, and when a register of its side was written. -/
structure Meddled where
  tally : PageTally := {}
  meddles : Bool := false

def Meddled.flags (h : Meddled) (here : Bool) : List Incident :=
  if h.meddles && here then [.flag .deviceToHost 3 1, .complete .deviceToHost] else []

instance : Platform Meddled where
  lock h range writable :=
    let answer := Platform.lock h.tally range writable
    ⟨answer.pages, h.flags (!writable), { h with tally := answer.platform }⟩
  unlock h pages dirty := { h with tally := Platform.unlock h.tally pages dirty }
  written h offset _ := (h.flags (offset == Register.address .hostToDevice .tableSize), h)

theorem Meddled.flags_besides (h h' : Meddled) (here : Bool) :
    Incident.SameBesides .deviceToHost (h.flags here) (h'.flags here) := by
  unfold flags
  cases h.meddles <;> cases h'.meddles <;> cases here <;> decide

theorem Meddled.besides :
    Platform.MatchesBesides .deviceToHost fun x y : Meddled => y.tally = x.tally where
  lock x y range writable h := by
    simp only [Platform.lock, h]
    refine ⟨trivial, x.flags_besides y _, ?_, trivial⟩
    rintro rfl
    simp [flags, Direction.writesHost]
  unlock x y pages dirty h := by simp only [Platform.unlock, h]
  written x y offset value h := by
    refine ⟨x.flags_besides y _, ?_, h⟩
    rintro ⟨reg, rfl⟩
    have hne : Register.address .deviceToHost reg ≠ Register.address .hostToDevice .tableSize :=
      fun heq => absurd (Register.address_inj.mp heq).1 (by decide)
    simp [Platform.written, flags, hne]

end Bench

/-- A transfer to the device beside the stranger, who stores a flag between two calls as well. -/
theorem run_keeps_apart_meddled :
    let r : Request := { direction := .hostToDevice, host := 0x1000, device := 0, len := 8 }
    let s := Station.initial {} (.both 0) .reset ({} : Bench.Meddled) []
    let t := Station.initial {} (.both 0) .reset ({ meddles := true } : Bench.Meddled) []
    let acts : List Act := [.strike (.submit r), .serve, .stop]
    let others : List Act := [.strike (.submit r), .serve, .strike (.flag .deviceToHost 5 1), .stop]
    s.KeepsSides (s.run acts) ∧ Station.Indistinct .deviceToHost (s.run acts) (t.run others) ∧
      (t.run others).machine.history.length = (s.run acts).machine.history.length + 3 := by
  intro r s t acts others
  obtain ⟨hsides, happart⟩ :=
    run_keeps_apart {} (by decide) (.both 0) .reset ({} : Bench.Meddled) [] acts
  have hwithout : ((t.act (.strike (.submit r))).act .serve).Without .deviceToHost := by
    have ht : ((t.act (.strike (.submit r))).act .serve).worker.transfer = some ⟨r, 8⟩ := by
      decide +kernel
    intro p hp
    obtain rfl : ⟨r, 8⟩ = p := Option.some.inj (ht.symm.trans hp)
    decide
  have hdiffer : Station.Differ .deviceToHost s t acts others :=
    .both _ (.both _ (.second rfl hwithout (.both _ .done)))
  refine ⟨hsides, ?_, by decide +kernel⟩
  refine (happart _ _ Bench.Meddled.besides { meddles := true } [] others rfl .nil hdiffer).resolve_right ?_
  intro hparted
  have haccepted : accepted (s.run acts).machine.history = [r] := by decide +kernel
  obtain ⟨q, hq, hdirection⟩ := hparted.accepted
  rw [haccepted, List.mem_singleton] at hq
  obtain rfl := hq
  cases hdirection

end ScatterGather
