import ScatterGather.Bench.Meters
import ScatterGather.Proofs.Control

/-! # What a service comes to

Where nothing happens but what the worker does, a job that is handled ends the transfer or hands one
batch over, and a service handles the job that is queued.
-/
namespace ScatterGather
open Bench

theorem Bench.Recorder.ofHistory_passive {l history : List Event} (he : ∀ e ∈ l, e.Passive) :
    ofHistory (l ++ history) = ofHistory history := by
  refine unchanged_append (fun e older hfirst => ofHistory_cons ?_ older) he history
  rintro payload outcome rfl
  exact hfirst

section Still
variable {σ : Type} {m m' : Machine σ} {s t : Station σ} {p : Progress}

def Machine.Passes (m m' : Machine σ) : Prop := ∃ events, (∀ e ∈ events, e.Passive) ∧ m.Sees events m'

namespace Machine.Passes

theorem refl (m : Machine σ) : m.Passes m := ⟨[], by simp, .refl m⟩

theorem trans {m'' : Machine σ} (h : m.Passes m') (h' : m'.Passes m'') : m.Passes m'' := by
  obtain ⟨events, he, hs⟩ := h
  obtain ⟨newer, he', hs'⟩ := h'
  exact ⟨newer ++ events, List.forall_mem_append.mpr ⟨he', he⟩, hs.trans hs'⟩

theorem registers (h : m.Passes m') : m'.registers = m.registers := by
  obtain ⟨_, _, hs⟩ := h
  exact hs.registers

theorem tables (h : m.Passes m') : m'.channel.tables = m.channel.tables := by
  obtain ⟨_, _, hs⟩ := h
  exact hs.tables

theorem settings (h : m.Passes m') : m'.channel.settings = m.channel.settings := by
  obtain ⟨_, _, hs⟩ := h
  exact hs.settings

theorem posture (h : m.Passes m') : m'.channel.posture = m.channel.posture := by
  obtain ⟨_, _, hs⟩ := h
  exact hs.posture

theorem account (h : m.Passes m') : Account.ofHistory m'.history = .ofHistory m.history := by
  obtain ⟨events, he, hs⟩ := h
  rw [hs.history, Account.ofHistory_passive he]

theorem notices (h : m.Passes m') : Recorder.ofHistory m'.history = .ofHistory m.history := by
  obtain ⟨events, he, hs⟩ := h
  rw [hs.history, Recorder.ofHistory_passive he]

end Machine.Passes

abbrev Platform.Still (σ : Type) [Platform σ] : Prop := Platform.Within σ fun _ => False

variable [Platform σ]

theorem Platform.Still.quiet (h : Platform.Still σ) : Platform.Quiet σ := fun x offset value _ =>
  List.eq_nil_iff_forall_not_mem.mpr fun i hi => h.written x offset value i hi

theorem Platform.Still.lock_eq (h : Platform.Still σ) (m : Machine σ) (range : PageRun)
    (writable : Bool) : m.lock range writable =
      ((Platform.lock m.platform range writable).pages, m.asked range writable) := by
  have hnil : (Platform.lock m.platform range writable).incidents = [] :=
    List.eq_nil_iff_forall_not_mem.mpr fun i hi => h.lock m.platform range writable i hi
  rw [Machine.lock_eq, hnil]
  rfl

theorem Platform.Still.writeAt_eq (h : Platform.Still σ) (m : Machine σ) (offset : Nat)
    (value : UInt32) : m.writeAt offset value = m.wrote offset value := by
  have hnil : (Platform.written m.platform offset value).1 = [] :=
    List.eq_nil_iff_forall_not_mem.mpr fun i hi => h.written m.platform offset value i hi
  rw [Machine.writeAt_eq, hnil]
  rfl

theorem Machine.passes_pinning (hstill : Platform.Still σ) :
    Machine.KeptByPinning (@Machine.Passes σ) where
  refl := .refl
  trans := .trans
  unpin m r := ⟨r.unlocks, by simpa using passive_unlocks [r], m.unpin_sees r⟩
  pin m pageSize start len dir := by
    unfold pin
    split
    · simp only [hstill.lock_eq]
      have hasked : m.Passes (m.asked (.covering start len pageSize) dir.writesHost) :=
        ⟨_, by simp [Event.Passive], m.asked_sees _ _⟩
      split
      · exact hasked.trans ⟨_, by simp [Event.Passive], Machine.unlock_sees _ _ _⟩
      · exact hasked.trans ⟨_, by simp, Machine.countLocked_sees _ _⟩
    · exact .refl m

theorem Pipeline.unpinAll_passes (q : Pipeline) (m : Machine σ) : m.Passes (q.unpinAll m).2 :=
  ⟨_, passive_unlocks _, q.unpinAll_sees m⟩

theorem Platform.Still.handed_eq (h : Platform.Still σ) (s : Station σ) (p : Progress)
    (start : BatchPlace) (entries : List Entry) : s.handed p start entries = s.issue p start entries := by
  have hwrite : (s.worker.ring.publish s.machine p.request.direction start entries).2 =
      (s.issue p start entries).machine := h.writeAt_eq _ _ _
  rw [Station.handed, hwrite]

theorem Station.hand_passes (hstill : Platform.Still σ) (s : Station σ) (p : Progress)
    (start : BatchPlace) (entries : List Entry) :
    (s.issue p start entries).machine.Passes (s.hand p start entries).machine ∧
      (s.hand p start entries).worker.transfer = some (p.past entries) := by
  refine ⟨?_, s.hand_transfer p start entries⟩
  rw [hand_eq, hstill.handed_eq]
  have hpinning := Machine.passes_pinning hstill
  exact (hpinning.release _).trans (hpinning.pinAhead _ _ _)

theorem RegisterFile.writeCount_write (r : RegisterFile) (offset o : Nat) (value : UInt32) :
    (r.write offset value).writeCount o = r.writeCount o + if offset = o then 1 else 0 := by
  simp [writeCount, write, List.countP_cons]

def Machine.announced (m : Machine σ) (dir : Direction) : Nat :=
  m.registers.writeCount (Register.address dir .tableSize)

theorem Machine.wrote_announced (m : Machine σ) (d dir : Direction) (r : Register) (value : UInt32) :
    (m.wrote (r.address d) value).announced dir =
      m.announced dir + if d = dir ∧ r = .tableSize then 1 else 0 := by
  simp only [announced, wrote, record, RegisterFile.writeCount_write, Register.address_inj]

theorem Ring.announce_announced (hq : Platform.Quiet σ) (ring : Ring) (m : Machine σ)
    (dir d : Direction) :
    (ring.announce m dir).announced d = m.announced d + if dir = d then 1 else 0 := by
  simp [Ring.announce, Machine.programTable, Machine.programFifo, Machine.programSize,
    Machine.writeHalves, Machine.writeRegister_quiet hq, Machine.wrote_announced]

/-- A table is announced with the batch that begins at its first id. -/
theorem Station.issue_announced (hq : Platform.Quiet σ) (s : Station σ) (p : Progress)
    (start : BatchPlace) (entries : List Entry) (d : Direction) :
    (s.issue p start entries).machine.announced d = s.machine.announced d +
      if p.request.direction = d ∧ start.announce = true then 1 else 0 := by
  simp only [issue, Machine.wrote_announced, reduceCtorEq, and_false, if_false, Nat.add_zero]
  unfold Ring.stage
  cases start.announce with
  | false => simp [Machine.announced, Machine.mapTable, Machine.record]
  | true =>
    have h := Ring.announce_announced hq s.worker.ring (((s.machine.record
      (.issue p.request.direction start entries)).mapTable p.request.direction
        Table.zeroFlags).mapTable p.request.direction (·.writeAll entries)) p.request.direction d
    simp only [if_true, and_true]
    exact h

end Still

namespace Station
variable {σ : Type}

/-- From `s` to `t` the transfer ended. -/
structure Ended (s t : Station σ) (outcome : Outcome) : Prop where
  registers : t.machine.registers = s.machine.registers
  transfer : t.worker.transfer = none
  idle : t.machine.channel.idle = true
  notices : ∃ payload, (Recorder.ofHistory t.machine.history).notices =
    (Recorder.ofHistory s.machine.history).notices ++ [(payload, outcome)]

/-- From `s` to `t` a batch of the transfer was handed over, and nothing else. -/
structure Handed (s t : Station σ) (p : Progress) (start : BatchPlace) (entries : List Entry) :
    Prop where
  place : ∃ ring : Ring, ring.start? p.request.direction = .ok start ∧
    ring.lastId.get p.request.direction = s.machine.registers.lastId p.request.direction
  carved : ∃ w : Window,
    w.carve s.settings p.request.direction (p.request.device + p.sent) start = .ok entries
  transfer : t.worker.transfer = some (p.past entries)
  announced : ∀ d, t.machine.announced d =
    s.machine.announced d + if p.request.direction = d ∧ start.announce = true then 1 else 0
  last : t.machine.registers.lastId p.request.direction = Ring.lastIdOf start entries
  others : ∀ d, d ≠ p.request.direction → t.machine.registers.lastId d = s.machine.registers.lastId d
  table : t.machine.channel.table p.request.direction =
    (s.machine.channel.table p.request.direction).staged start entries
  account : t.view.account = { s.view.account with batches := s.view.account.batches ++ [entries] }
  notices : Recorder.ofHistory t.machine.history = .ofHistory s.machine.history

/-- The queue is the same, and an advance is open or not as before. -/
def Keeps (s t : Station σ) : Prop :=
  t.machine.channel.work = s.machine.channel.work ∧
    t.machine.channel.advanceOpen = s.machine.channel.advanceOpen

theorem Keeps.of_posture {s t : Station σ} {issued : Sides Nat} {idle : Bool}
    (h : t.view.posture = { s.view.posture with issued, idle }) : s.Keeps t :=
  ⟨congrArg Posture.work h, congrArg Posture.advanceOpen h⟩

theorem Keeps.trans {s t u : Station σ} (h : s.Keeps t) (h' : t.Keeps u) : s.Keeps u :=
  ⟨h'.1.trans h.1, h'.2.trans h.2⟩

theorem Keeps.of_passes {s t : Station σ} (h : s.machine.Passes t.machine) : s.Keeps t :=
  ⟨congrArg Posture.work h.posture, congrArg Posture.advanceOpen h.posture⟩

end Station

section Jobs
variable {σ : Type} [Platform σ] {s s' : Station σ} {k : Errand} {p : Progress}

theorem Station.tell_keeps (hpass : s.machine.Passes s'.machine) (phase : Phase) (outcome : Outcome) :
    s.Keeps (s'.tell phase outcome) :=
  (Keeps.of_passes hpass).trans (.of_posture (s'.tell_posture phase outcome))

theorem Station.tell_ended (hpass : s.machine.Passes s'.machine) (phase : Phase) (outcome : Outcome) :
    s.Ended (s'.tell phase outcome) outcome where
  registers := (s'.worker.pipeline.unpinAll_passes s'.machine).registers.trans hpass.registers
  transfer := rfl
  idle := rfl
  notices := by
    have hnotices := (s'.worker.pipeline.unpinAll_passes s'.machine).notices.trans hpass.notices
    refine ⟨(s'.reset phase).machine.channel.payloadForTransfer, ?_⟩
    rw [← hnotices]
    exact Recorder.ofHistory_notify ..

omit [Platform σ] in
theorem Machine.notify_of_heeds {m : Machine σ} (hl : ∀ i ∈ m.listener.headD [], False)
    (outcome : Outcome) : m.notify outcome = m.told outcome := by
  rw [notify_eq, List.eq_nil_iff_forall_not_mem.mpr hl]
  rfl

theorem Station.complete_eq (hl : s.Heeds fun _ => False) (p : Progress) :
    s.complete p = s.tell .idle (.completed p.request.len) := by
  have hreset : (s.reset .idle).Heeds fun _ => False := by simpa [Heeds] using hl
  rw [complete, Machine.notify_of_heeds hreset.head]
  rfl

theorem Station.fail_eq (hl : s.Heeds fun _ => False) (cause : Failure) :
    s.fail cause = s.tell .fault (.failed cause) := by
  have hreset : (s.reset .fault).Heeds fun _ => False := by simpa [Heeds] using hl
  rw [fail, Machine.notify_of_heeds hreset.head]
  rfl

variable (hstill : Platform.Still σ)
include hstill

theorem Station.hand_handed (hs : s.settings.Valid) (hc : s.view.Poised k p)
    (hpass : s.machine.Passes s'.machine) {start : BatchPlace} {w : Window} {entries : List Entry}
    (hstart : s.worker.ring.start? p.request.direction = .ok start)
    (hcarve : w.carve s'.settings p.request.direction (p.request.device + p.sent) start = .ok entries) :
    s.Handed (s'.hand p start entries) p start entries ∧ s.Keeps (s'.hand p start entries) := by
  have hsettings : s'.settings = s.settings := hpass.settings
  rw [hsettings] at hcarve
  have hlast := (Window.carve_fits hs (Ring.start?_le hstart) hcarve).2
  obtain ⟨hhand, htransfer⟩ := s'.hand_passes hstill p start entries
  have hbusy : s'.machine.channel.posture.Busy := hpass.posture ▸ hc.busy
  obtain ⟨events, hsilent, hhistory⟩ := s'.issue_history hbusy p start entries
  have hdrop : Recorder.ofHistory (s'.issue p start entries).machine.history =
      .ofHistory s'.machine.history := by
    have hpassive : ∀ e ∈ events, e.Passive := fun e he => (hsilent e he).passive
    rw [hhistory, Recorder.ofHistory_cons (by simp), Recorder.ofHistory_passive hpassive,
      Recorder.ofHistory_cons (by simp)]
  have hkeeps : s.Keeps (s'.hand p start entries) :=
    ((Keeps.of_passes hpass).trans (.of_posture (s'.issue_posture hbusy p start entries))).trans
      (.of_passes hhand)
  refine ⟨?_, hkeeps⟩
  constructor
  case place => exact ⟨_, hstart, hc.ring_held⟩
  case carved => exact ⟨w, hcarve⟩
  case transfer => exact htransfer
  case announced =>
    intro d
    have hissue := s'.issue_announced hstill.quiet p start entries d
    simp only [Machine.announced, hhand.registers, hpass.registers] at hissue ⊢
    exact hissue
  case last =>
    rw [hhand.registers]
    exact Station.issue_held p hlast
  case others =>
    intro d hd
    rw [hhand.registers, ← hpass.registers]
    exact s'.issue_held_of_ne hbusy p start entries hd
  case table =>
    have htable := s'.issue_table hstill.quiet p start entries
    rw [Channel.table, hhand.tables, Channel.table, ← hpass.tables]
    exact htable
  case account =>
    rw [view, hhand.account]
    exact (s'.issue_account hbusy p start entries).trans
      (congrArg (fun a : Account => { a with batches := a.batches ++ [entries] }) hpass.account)
  case notices => rw [hhand.notices, hdrop, hpass.notices]

theorem Station.nextBatch_cases (hs : s.settings.Valid) (hl : s.Heeds fun _ => False)
    (hc : s.view.Poised k p) (hr : p.remaining ≠ 0) :
    (∃ cause s', s.nextBatch p = (some cause, s') ∧ s.machine.Passes s'.machine ∧
      s'.Heeds fun _ => False) ∨
    ∃ t start entries, s.nextBatch p = (none, t) ∧ s.Handed t p start entries ∧ s.Keeps t := by
  unfold nextBatch
  cases hstart : s.worker.ring.start? p.request.direction with
  | error e => exact .inl ⟨_, s, rfl, .refl _, hl⟩
  | ok start =>
    have hpass := (Machine.passes_pinning hstill).windowFor s p
    have hheeds : (s.windowFor p).2.Heeds fun _ => False :=
      (Path.windowFor (H := fun _ _ => False) (k := k) hstill hr hstart).heeds hl
    rcases hf : s.windowFor p with ⟨found, s'⟩
    rw [hf] at hpass hheeds
    cases found with
    | error e => exact .inl ⟨_, s', rfl, hpass, hheeds⟩
    | ok w =>
      simp only
      cases hcarve : w.carve s'.settings p.request.direction (p.request.device + p.sent) start with
      | error e => exact .inl ⟨e, s', rfl, hpass, hheeds⟩
      | ok entries => exact .inr ⟨_, start, entries, rfl, hand_handed hstill hs hc hpass hstart hcarve⟩

/-- What becomes of a transfer that is due. -/
theorem Station.advance_cases (hs : s.settings.Valid) (hl : s.Heeds fun _ => False)
    (hc : s.view.Poised k p) :
    s.Keeps s.advance ∧ (p.remaining = 0 ∧ s.Ended s.advance (.completed p.request.len) ∨
      p.remaining ≠ 0 ∧
        ((∃ cause, (s.nextBatch p).1 = some cause ∧ s.Ended s.advance (.failed cause)) ∨
          ∃ start entries, s.Handed s.advance p start entries)) := by
  have htransfer : s.worker.transfer = some p := hc.transfer
  unfold advance
  simp only [htransfer]
  by_cases hr : p.remaining = 0
  · rw [if_pos hr, complete_eq hl]
    exact ⟨tell_keeps (.refl _) _ _, .inl ⟨hr, tell_ended (.refl _) _ _⟩⟩
  · rw [if_neg hr]
    rcases nextBatch_cases hstill hs hl hc hr with ⟨cause, s', heq, hpass, hheeds⟩ |
      ⟨t, start, entries, heq, hhanded, hkeeps⟩
    · have hended : s.Ended (s'.fail cause) (.failed cause) := by
        rw [fail_eq hheeds]
        exact tell_ended hpass _ _
      have hkeeps : s.Keeps (s'.fail cause) := by
        rw [fail_eq hheeds]
        exact tell_keeps hpass _ _
      rw [heq]
      exact ⟨hkeeps, .inr ⟨hr, .inl ⟨cause, rfl, hended⟩⟩⟩
    · rw [heq]
      exact ⟨hkeeps, .inr ⟨hr, .inr ⟨start, entries, hhanded⟩⟩⟩

end Jobs
end ScatterGather
