import ScatterGather.Bench.Drive
import ScatterGather.Proofs.Batches

/-! # Where worker and device stand

Between two calls either the device has taken every descriptor that it was offered, or it has been
offered the one batch that the worker handed over last, and its flag is not set.
-/
namespace ScatterGather
open Bench

namespace Channel

theorem interrupt_queues {c : Channel} (hbusy : c.idle = false) (hdone : c.completed = true)
    (hopen : c.advanceOpen = false) (hroom : c.work.isFull = false) (status : UInt32) :
    (c.interrupt status).2 =
      { c with advanceOpen := true, work := c.work.push .advance }.wake := by
  have hrequest : c.requestAdvance =
      (true, { c with advanceOpen := true, work := c.work.push .advance }) := by
    simp [requestAdvance, hopen, hroom]
  simp [interrupt, hbusy, hdone, hrequest]

theorem interrupt_of_not_completed {c : Channel} (h : c.completed = false) (status : UInt32) :
    (c.interrupt status).2 = c := by
  simp [interrupt, h]

end Channel

section Acts
variable {σ : Type} [Platform σ] {st : Settings} {s : Station σ}

theorem Station.Sound.act (hs : st.Valid) (hsmall : st.pageSize ≤ 2 ^ 19)
    (hstill : Platform.Still σ) (hq : Platform.Answers σ (InOrder id)) (h : s.Sound st .rest) {a : Act}
    (ha : a.Within Incident.Honest) (hhalts : ¬ a.Halts) : (s.act a).Sound st .rest := by
  have hwithin : Platform.Within σ Incident.Honest :=
    ⟨fun x range writable i hi => (hstill.lock x range writable i hi).elim,
      fun x offset value i hi => (hstill.written x offset value i hi).elim⟩
  have hheeds : s.Heeds Incident.Honest := fun reaction hr i hi => (h.heeds reaction hr i hi).elim
  have hpath : Path Incident.Honest (fun a _ => ¬ a.Halts) (.rest, s) (.rest, s.act a) :=
    Path.act hwithin hheeds ha hhalts
  exact Path.sound hs hsmall hq hstill.quiet h hpath

end Acts

namespace Bench.Setup
variable {σ : Type}

/-- The device has taken every descriptor that it was offered. -/
def Level (b : Setup σ MemoryDevice) : Prop :=
  ∀ dir, (b.device.reader.positions.get dir).Level b.station.machine.registers dir

/-- The batch that was handed over last is with the device, and nothing else. -/
structure Pending (b : Setup σ MemoryDevice) (p : Progress) (start : BatchPlace)
    (entries : List Entry) : Prop where
  transfer : b.station.worker.transfer = some p
  resting : b.station.Resting
  batches : ∃ older, b.station.view.account.batches = older ++ [entries]
  written : (b.station.machine.channel.table p.request.direction).Written start.id entries
  flag : (b.station.machine.channel.table p.request.direction).flag?
    (Ring.lastIdOf start entries) = some 0
  offered : (b.device.reader.positions.get p.request.direction).Offered b.station.machine.registers
    p.request.direction start entries
  others : ∀ dir, dir ≠ p.request.direction →
    (b.device.reader.positions.get dir).Level b.station.machine.registers dir

def Tracked (b : Setup σ MemoryDevice) : Prop :=
  b.Level ∨ ∃ p start entries, b.Pending p start entries

variable {b c : Setup σ MemoryDevice} {st : Settings} {p : Progress} {start : BatchPlace}
  {entries : List Entry}

theorem Level.same (h : b.Level) (hreader : c.device.reader = b.device.reader)
    (hregisters : c.station.machine.registers = b.station.machine.registers) : c.Level := by
  intro dir
  rw [hreader, hregisters]
  exact h dir

theorem Level.pending (h : b.Level) (hs : st.Valid) (hsmall : st.pageSize ≤ 2 ^ 19)
    (hsound : b.station.Sound st .rest) {t : Station σ}
    (hhanded : b.station.Handed t p start entries) (hresting : t.Resting) :
    ({ b with station := t } : Setup σ MemoryDevice).Pending (p.past entries) start entries := by
  obtain ⟨ring, hstart, hring⟩ := hhanded.place
  obtain ⟨w, hcarve⟩ := hhanded.carved
  have hvalid : b.station.settings.Valid := hsound.settings ▸ hs
  obtain ⟨hne, hle⟩ := Window.carve_fits hvalid (Ring.start?_le hstart) hcarve
  refine ⟨hhanded.transfer, hresting, ⟨_, congrArg Account.batches hhanded.account⟩, ?_, ?_, ?_, ?_⟩
  · exact (hhanded.written hvalid (hsound.settings ▸ hsmall)).1
  · exact hhanded.flag hvalid hsound.pacing.calm
  · have hcount := hhanded.announced p.request.direction
    simp only [true_and] at hcount
    exact (h p.request.direction).offered hring hstart hcount hhanded.last hle hne
  · intro dir hdir
    have hcount := hhanded.announced dir
    rw [if_neg fun hc => hdir hc.1.symm, Nat.add_zero] at hcount
    have hlevel := h dir
    refine ⟨hlevel.announces.trans hcount.symm, ?_⟩
    rw [hhanded.others dir hdir]
    exact hlevel.consumed

theorem Pending.not_completed (h : b.Pending p start entries) (hsound : b.station.Sound st .rest) :
    b.station.machine.channel.completed = false := by
  have hr := View.Running.of_transfer hsound.control h.transfer
  rw [hr.completed_eq, h.offered.last, h.flag]
  rfl

theorem Pending.interrupt (h : b.Pending p start entries) (hsound : b.station.Sound st .rest) :
    b.interrupt = b := by
  have hchannel := Channel.interrupt_of_not_completed (h.not_completed hsound) 0
  rw [Setup.interrupt, Station.mapChannel, hchannel]

theorem Pending.not_due (h : b.Pending p start entries) {k : Errand} {q : Progress} :
    ¬ b.station.Due k q := by
  intro hdue
  have hnil := h.resting.1.toList
  cases hdue with
  | start hq =>
    have hjob : b.station.machine.channel.work.toList = _ := hq.work.toList
    cases hjob.symm.trans hnil
  | advance _ hw =>
    have hjob : b.station.machine.channel.work.toList = _ := hw.toList
    cases hjob.symm.trans hnil

section Batch

theorem batch?_level {dir : Direction}
    (h : (b.device.reader.positions.get dir).Level b.station.machine.registers dir) :
    b.batch? dir = some ([], b) := by
  simp only [batch?, DeviceModel.run?, RingReader.take?_level h]
  rfl

theorem Pending.batch?_eq (h : b.Pending p start entries) : b.batch? p.request.direction =
    (MemoryDevice.executeAll? (b.station.machine.channel.table p.request.direction)
      p.request.direction (List.range' start.id entries.length) { b.device with
        reader := b.device.reader.caughtUp b.station.machine.registers p.request.direction }).map
      fun r => (r.1, ⟨b.station.strike (.complete p.request.direction), r.2⟩) := by
  simp only [batch?, DeviceModel.run?, RingReader.take?_offered h.offered, Option.map_map]
  rfl

theorem Pending.level (h : b.Pending p start entries)
    (hreader : c.device.reader =
      b.device.reader.caughtUp b.station.machine.registers p.request.direction)
    (hstation : c.station = b.station.strike (.complete p.request.direction)) : c.Level := by
  have hregisters : c.station.machine.registers = b.station.machine.registers := by
    rw [hstation]
    exact Machine.incur_registers _ _
  intro dir
  rw [hreader, hregisters]
  exact RingReader.caughtUp_level h.offered h.others dir

theorem Tracked.batch (h : b.Tracked) {dir : Direction} (hbatch : b.batch? dir = some (entries, c)) :
    c = b ∨ c.Level ∧ c.station = b.station.strike (.complete dir) := by
  have hlevel (hl : (b.device.reader.positions.get dir).Level b.station.machine.registers dir) :
      c = b := by
    rw [batch?_level hl] at hbatch
    cases hbatch
    rfl
  rcases h with hl | ⟨p, start, taken, hp⟩
  · exact .inl (hlevel (hl dir))
  · by_cases hdir : dir = p.request.direction
    · subst hdir
      rw [hp.batch?_eq, Option.map_eq_some_iff] at hbatch
      obtain ⟨⟨entries', device⟩, hall, hc⟩ := hbatch
      cases hc
      exact .inr ⟨hp.level (MemoryDevice.executeAll?_reader hall) rfl, rfl⟩
    · exact .inl (hlevel (hp.others dir hdir))

end Batch

def submit (b : Setup σ MemoryDevice) (r : Request) : Setup σ MemoryDevice :=
  { b with station := b.station.strike (.submit r) }

theorem Tracked.level (h : b.Tracked) (hidle : b.station.machine.channel.idle = true)
    (hsound : b.station.Sound st .rest) : b.Level := by
  rcases h with hl | ⟨p, start, entries, hp⟩
  · exact hl
  · have hbusy := (Control.engaged hsound.control hp.transfer).idle
    cases hidle.symm.trans hbusy

theorem Pending.submit (h : b.Pending p start entries) (hsound : b.station.Sound st .rest)
    (r : Request) : (b.submit r).Pending p start entries := by
  have hbusy : b.station.machine.channel.idle = false :=
    (Control.engaged hsound.control h.transfer).idle
  obtain ⟨e, he⟩ : ∃ e, b.station.machine.channel.submit r = (some e, b.station.machine.channel) := by
    rcases b.station.machine.channel.submit_cases r with he | ⟨hidle, -⟩ | ⟨hidle, -⟩
    · exact he
    · cases hidle.symm.trans hbusy
    · cases hidle.symm.trans hbusy
  have hstation : b.station.strike (.submit r) =
      { b.station with machine := b.station.machine.record (.submit r (some e)) } := by
    simp only [Station.strike, Machine.incur, he]
  rw [Setup.submit, hstation]
  exact ⟨h.transfer, h.resting, h.batches, h.written, h.flag, h.offered, h.others⟩

variable [Platform σ]

/-- What can come before a transfer on a controller that was reset: transfers that ran to their ends
or are under way, with any memory at any time. -/
inductive Reached (st : Settings) (tableBus : Sides Nat) : Setup σ MemoryDevice → Prop
  | fresh (platform memory host) : Reached st tableBus
      ⟨Station.initial st tableBus .reset platform [], { memory, host }⟩
  | submit {x} (r) : Reached st tableBus x → Reached st tableBus (x.submit r)
  | serve {x} : Reached st tableBus x → Reached st tableBus x.serve.2
  | batch {x y dir entries} : Reached st tableBus x → x.batch? dir = some (entries, y) →
      Reached st tableBus y
  | interrupt {x} : Reached st tableBus x → Reached st tableBus x.interrupt
  | refill {x} (memory host) : Reached st tableBus x →
      Reached st tableBus { x with device := { x.device with memory, host } }

variable {tableBus : Sides Nat} (hs : st.Valid) (hsmall : st.pageSize ≤ 2 ^ 19)
  (hstill : Platform.Still σ) (hq : Platform.Answers σ (InOrder id))
include hs hsmall hstill hq

theorem Tracked.serve (h : b.Tracked) (hsound : b.station.Sound st .rest) : b.serve.2.Tracked := by
  rcases hsound.serve hs hsmall hstill hq with ⟨-, hsame⟩ | ⟨k, p, hdue, hresting, hfares⟩
  · have hserve : b.serve.2 = b := by rw [Setup.serve, hsame]
    rwa [hserve]
  · have hlevel : b.Level := by
      rcases h with hl | ⟨q, start, entries, hp⟩
      · exact hl
      · exact absurd hdue hp.not_due
    rcases hfares with ⟨-, hended⟩ | ⟨-, ⟨-, cause, hended⟩ | ⟨start, entries, hhanded⟩⟩
    · exact .inl (hlevel.same rfl hended.registers)
    · exact .inl (hlevel.same rfl hended.registers)
    · exact .inr ⟨_, start, entries, hlevel.pending hs hsmall hsound hhanded hresting⟩

/-- Whatever came before, worker and device have kept in step. -/
theorem Reached.tracked (h : Reached st tableBus b) : b.station.Sound st .rest ∧ b.Tracked := by
  have hact {b : Setup σ MemoryDevice} (hsound : b.station.Sound st .rest) {a : Act}
      (ha : a.Within Incident.Honest) (hhalts : ¬ a.Halts) :=
    hsound.act hs hsmall hstill hq ha hhalts
  induction h with
  | fresh platform memory host =>
    refine ⟨.initial st tableBus platform, .inl ?_⟩
    intro dir
    cases dir <;> exact ⟨rfl, .inr ⟨rfl, rfl⟩⟩
  | @submit b r h ih =>
    obtain ⟨hsound, htracked⟩ := ih
    refine ⟨hact hsound (a := .strike (.submit r)) trivial id, ?_⟩
    rcases htracked with hl | ⟨p, start, entries, hp⟩
    · exact .inl (hl.same rfl (Machine.incur_registers _ _))
    · exact .inr ⟨p, start, entries, hp.submit hsound r⟩
  | serve h ih =>
    obtain ⟨hsound, htracked⟩ := ih
    exact ⟨hact hsound (a := .serve) trivial id, htracked.serve hs hsmall hstill hq hsound⟩
  | @batch b c dir entries h hbatch ih =>
    obtain ⟨hsound, htracked⟩ := ih
    rcases htracked.batch hbatch with rfl | ⟨hl, hstation⟩
    · exact ⟨hsound, htracked⟩
    · refine ⟨?_, .inl hl⟩
      rw [hstation]
      exact hact hsound (a := .strike (.complete dir)) trivial id
  | @interrupt b h ih =>
    obtain ⟨hsound, htracked⟩ := ih
    refine ⟨hact hsound (a := .interrupt 0) trivial id, ?_⟩
    rcases htracked with hl | ⟨p, start, entries, hp⟩
    · exact .inl (hl.same rfl rfl)
    · -- the flag of the batch is not set yet, so the interrupt is for nothing
      rw [hp.interrupt hsound]
      exact .inr ⟨p, start, entries, hp⟩
  | refill memory host h ih =>
    obtain ⟨hsound, htracked⟩ := ih
    refine ⟨hsound, ?_⟩
    rcases htracked with hl | ⟨p, start, entries, hp⟩
    · exact .inl (hl.same rfl rfl)
    · exact .inr ⟨p, start, entries, hp.transfer, hp.resting, hp.batches, hp.written, hp.flag,
        hp.offered, hp.others⟩

end Bench.Setup
end ScatterGather
