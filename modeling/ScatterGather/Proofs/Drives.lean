import ScatterGather.Proofs.Hosts
import ScatterGather.Proofs.Setups

/-! # A transfer is driven to its end

Round after round the device moves the bytes that were described last, and the worker describes the
next ones, until all bytes of the request are where they belong.
-/
namespace ScatterGather
open Bench

theorem Bench.Recorder.ofHistory_incur {σ : Type} (m : Machine σ) (i : Incident) :
    ofHistory (m.incur i).history = ofHistory m.history := by
  obtain ⟨events, hh, hsilent | ⟨-, r, rfl⟩⟩ := m.incur_history i
  · rw [hh, ofHistory_passive fun e he => (hsilent e he).passive]
  · rw [hh, List.singleton_append, ofHistory_cons (by simp)]

namespace Station
variable {σ : Type} {st : Settings} {s : Station σ} {k k' : Errand} {p p' : Progress}

theorem Due.work (h : s.Due k p) : ¬ s.machine.channel.work.Holds [] := by
  intro hnil
  cases h with
  | start hq => cases hq.work.toList.symm.trans hnil.toList
  | advance _ hw => cases hw.toList.symm.trans hnil.toList

theorem Due.unique (h : s.Due k p) (h' : s.Due k' p') : p = p' := by
  cases h with
  | start hq =>
    cases h' with
    | start hq' =>
      have hsame := hq.account.symm.trans hq'.account
      simp only [Account.mk.injEq, Option.some.injEq, and_true] at hsame
      rw [hsame]
    | advance hp => cases hq.transfer.symm.trans hp
  | advance hp =>
    cases h' with
    | start hq => cases hq.transfer.symm.trans hp
    | advance hp' => exact Option.some.inj (hp.symm.trans hp')

theorem Due.getD (h : s.Due k p) : s.worker.transfer.getD { request := p.request } = p := by
  cases h with
  | start hq =>
    rw [show s.worker.transfer = none from hq.transfer]
    rfl
  | advance hp =>
    rw [hp]
    rfl

theorem Sound.due_sent_le (h : s.Sound st .rest) (hdue : s.Due k p) : p.sent ≤ p.request.len := by
  cases hdue with
  | start => exact Nat.zero_le _
  | advance hp => exact h.sent_le hp

end Station

namespace Bench.Setup
variable {σ : Type} {st : Settings} {b c x : Setup σ MemoryDevice} {r : Request} {p : Progress}
  {start : BatchPlace} {entries : List Entry} {n : Nat}

/-- Since `b` the first `n` bytes of the request were moved, and no one was notified. -/
structure Moving (st : Settings) (b : Setup σ MemoryDevice) (r : Request) (n : Nat)
    (c : Setup σ MemoryDevice) : Prop where
  sound : c.station.Sound st .rest
  copied : MemoryDevice.Copied r.direction r.host r.device n b.device c.device
  reaches : c.device.Reaches r
  notices : Recorder.ofHistory c.station.machine.history = .ofHistory b.station.machine.history

/-- All bytes that were described were moved, and the next ones are due. -/
structure Ready (st : Settings) (b : Setup σ MemoryDevice) (p : Progress)
    (c : Setup σ MemoryDevice) : Prop extends Moving st b p.request p.sent c where
  level : c.Level
  due : ∃ k, c.station.Due k p

/-- The bytes that were described last are still to be moved. -/
structure Aloft (st : Settings) (b : Setup σ MemoryDevice) (p : Progress) (start : BatchPlace)
    (entries : List Entry) (c : Setup σ MemoryDevice) : Prop where
  moving : ∃ n, n + Entry.total entries = p.sent ∧ Moving st b p.request n c
  pending : c.Pending p start entries

/-- From `b` to `c` the request was carried out, and that is all that was heard. -/
structure Delivered (b : Setup σ MemoryDevice) (r : Request) (c : Setup σ MemoryDevice) : Prop where
  idle : c.station.machine.channel.idle = true
  notices : ∃ payload, (Recorder.ofHistory c.station.machine.history).notices =
    (Recorder.ofHistory b.station.machine.history).notices ++ [(payload, .completed r.len)]
  copied : MemoryDevice.Copied r.direction r.host r.device r.len b.device c.device

theorem Pending.answered (h : c.Pending p start entries) (hsound : c.station.Sound st .rest) :
    ((c.station.strike (.complete p.request.direction)).mapChannel
      fun channel => (channel.interrupt 0).2).Due .advance p := by
  have hheld := h.offered.last
  have hle : c.station.machine.registers.lastId p.request.direction ≤ lastSlot := hheld ▸ h.offered.le
  let s := c.station.strike (.complete p.request.direction)
  have hs : s.machine = (c.station.machine.mapTable p.request.direction
      (·.putFlag (c.station.machine.registers.lastId p.request.direction) 1)).record
        (.complete p.request.direction (c.station.machine.registers.lastId p.request.direction)) := by
    simp only [s, Station.strike, Machine.incur, if_pos hle]
  have htransfer : s.worker.transfer = some p := h.transfer
  have hcontrol : Control s.view .rest := Control.strike (j := .rest) trivial hsound.control _
  have hrunning : s.view.Running .start p := View.Running.of_transfer hcontrol htransfer
  have hdone : s.machine.channel.completed = true := by
    have hflag : Table.HasFlag (c.station.machine.registers.lastId p.request.direction) :=
      Nat.lt_of_le_of_lt hle (by decide)
    rw [hrunning.completed_eq, hs]
    simp only [Machine.record, Machine.mapTable, Channel.setTable, Channel.table, Sides.get_set_self]
    rw [Table.flag?_putFlag_self _ hflag]
    rfl
  have hwork : s.machine.channel.work.Holds [] := by
    rw [hs]
    exact h.resting.1
  have hopen : s.machine.channel.advanceOpen = false := by
    rw [hs]
    exact h.resting.2
  have hqueued := Channel.interrupt_queues hrunning.idle hdone hopen hwork.isFull 0
  refine .advance htransfer ?_
  change (s.machine.channel.interrupt 0).2.work.Holds [.advance]
  rw [hqueued]
  exact hwork.push (by decide) _

variable [Platform σ]

/-- The setups at which the worker is served while a transfer is driven from `b` on. -/
inductive Visits : Setup σ MemoryDevice → Setup σ MemoryDevice → Prop
  | here (a) : Visits a a
  | round {x y z entries} : x.serve.2.station.machine.channel.idle = false →
      x.serve.2.batch? x.serve.2.station.machine.channel.direction = some (entries, y) →
      Visits y.interrupt z → Visits x z

/-- Whenever the worker demands a window while the request is carried out, it is given one. -/
def Supplied (b : Setup σ MemoryDevice) (r : Request) : Prop :=
  ∀ c, Visits b c → c.station.Supplied (c.station.worker.transfer.getD { request := r })

variable (hs : st.Valid) (hsmall : st.pageSize ≤ 2 ^ 19)
  (hstill : Platform.Still σ) (hq : Platform.Answers σ (InOrder id))
include hs hsmall hstill hq

/-- Wherever worker and device have got to, an accepted request finds them ready. -/
theorem Reached.ready {tableBus : Sides Nat} (h : b.Reached st tableBus)
    (haccepted : (b.station.machine.channel.submit r).1 = none) (hreaches : b.device.Reaches r) :
    Ready st b { request := r } (b.submit r) := by
  obtain ⟨hsound, htracked⟩ := h.tracked hs hsmall hstill hq
  obtain ⟨hvacant, hqueued⟩ := Control.submit hsound.control haccepted
  have hlevel : (b.submit r).Level :=
    (htracked.level hvacant.idle hsound).same rfl (Machine.incur_registers _ _)
  have hsubmitted := hsound.act hs hsmall hstill hq (a := .strike (.submit r)) trivial id
  exact ⟨⟨hsubmitted, .refl .., hreaches, Recorder.ofHistory_incur _ _⟩, hlevel, .start, .start hqueued⟩

theorem Ready.serve (h : Ready st b p c) (hlimit : p.request.host + p.request.len < addressLimit)
    (hsupplied : c.Supplied p.request) :
    p.remaining = 0 ∧ b.Delivered p.request c.serve.2 ∨
      ∃ start entries, wordBytes ≤ Entry.total entries ∧
        Aloft st b (p.past entries) start entries c.serve.2 := by
  obtain ⟨k, hdue⟩ := h.due
  have hfeasible : c.station.Feasible p := by
    refine ⟨hlimit, ?_, hdue.getD ▸ hsupplied c (.here c)⟩
    rcases (h.level p.request.direction).consumed with ⟨-, hle⟩ | ⟨-, hnone⟩
    · exact .inr hle
    · exact .inl hnone
  rcases h.sound.serve hs hsmall hstill hq with ⟨hnil, -⟩ | ⟨k', p', hdue', hresting, hfares⟩
  · exact absurd hnil hdue.work
  · obtain rfl := hdue.unique hdue'
    have hle := h.sound.due_sent_le hdue
    rcases hfares with ⟨hr, hended⟩ | ⟨-, ⟨hnot, -⟩ | ⟨start, entries, hhanded⟩⟩
    · have hsent : p.sent = p.request.len := by
        rw [Progress.remaining] at hr
        omega
      obtain ⟨payload, hnotices⟩ := hended.notices
      rw [h.notices] at hnotices
      exact .inl ⟨hr, hended.idle, ⟨payload, hnotices⟩, hsent ▸ h.copied⟩
    · exact absurd hfeasible hnot
    · have hvalid : c.station.settings.Valid := h.sound.settings ▸ hs
      have hbytes := (hhanded.written hvalid (h.sound.settings ▸ hsmall)).2
      have hpending := h.level.pending hs hsmall h.sound hhanded hresting
      have hsound := h.sound.act hs hsmall hstill hq (a := .serve) trivial id
      refine .inr ⟨start, entries, hbytes, ⟨p.sent, rfl, hsound, h.copied, h.reaches, ?_⟩, hpending⟩
      exact hhanded.notices.trans h.notices

/-- Without a byte left there is no word for another batch. -/
theorem Ready.ends (h : Ready st b p c) (hlimit : p.request.host + p.request.len < addressLimit)
    (hsupplied : c.Supplied p.request) (hr : p.remaining = 0) : b.Delivered p.request c.serve.2 := by
  rcases h.serve hs hsmall hstill hq hlimit hsupplied with ⟨-, hdone⟩ | ⟨start, entries, hbytes, haloft⟩
  · exact hdone
  · obtain ⟨n, -, hmoving⟩ := haloft.moving
    have hle : (p.past entries).sent ≤ p.request.len := hmoving.sound.sent_le haloft.pending.transfer
    simp only [Progress.remaining, Progress.past, wordBytes] at hr hle hbytes
    omega

/-- The device moves the bytes that were described last, and the interrupt makes the next ones due. -/
theorem Aloft.round (h : Aloft st b p start entries c) (hfits : p.request.Fits) :
    ∃ d, c.batch? c.station.machine.channel.direction = some (entries, d) ∧ Ready st b p d.interrupt := by
  obtain ⟨n, hn, hmoving⟩ := h.moving
  have hpending := h.pending
  have hsound := hmoving.sound
  obtain ⟨older, hbatches⟩ := hpending.batches
  obtain ⟨n', hn', hmoves⟩ := hsound.last_moves hs hpending.transfer hfits hbatches
  obtain rfl : n = n' := by omega
  have hle := hsound.sent_le hpending.transfer
  let taken : MemoryDevice := { c.device with
    reader := c.device.reader.caughtUp c.station.machine.registers p.request.direction }
  have hreaches : taken.Reaches p.request :=
    ⟨hmoving.reaches.apart, hmoving.reaches.spans, hmoving.reaches.inside⟩
  obtain ⟨device, hall, hcopied, hreaches'⟩ := MemoryDevice.executeAll?_ok hreaches
    hpending.written.numbered hpending.written.slots hmoves (by omega)
  have hdir : c.station.machine.channel.direction = p.request.direction :=
    (Control.engaged hsound.control hpending.transfer).direction
  refine ⟨⟨c.station.strike (.complete p.request.direction), device⟩, ?_, ⟨?_, ?_, hreaches', ?_⟩, ?_, ?_⟩
  · rw [hdir, hpending.batch?_eq, hall]
    rfl
  · have hstruck := hsound.act hs hsmall hstill hq (a := .strike (.complete p.request.direction))
      trivial id
    exact hstruck.act hs hsmall hstill hq (a := .interrupt 0) trivial id
  · rw [← hn]
    exact hmoving.copied.trans hcopied
  · exact (Recorder.ofHistory_incur c.station.machine _).trans hmoving.notices
  · have hlevel : Level (⟨c.station.strike (.complete p.request.direction), device⟩ :
        Setup σ MemoryDevice) := hpending.level (MemoryDevice.executeAll?_reader hall) rfl
    exact hlevel.same rfl rfl
  · exact ⟨.advance, hpending.answered hsound⟩

theorem Ready.rounds (h : Ready st b p c) (hlimit : p.request.host + p.request.len < addressLimit)
    (hfits : p.request.Fits) (hsupplied : c.Supplied p.request) {rounds : Nat}
    (hrounds : p.remaining ≤ rounds * wordBytes) :
    ∃ log x, rounds? rounds c.serve.2 = some (log, x) ∧ b.Delivered p.request x := by
  induction rounds generalizing c p with
  | zero =>
    have hr : p.remaining = 0 := by omega
    exact ⟨{}, _, rfl, h.ends hs hsmall hstill hq hlimit hsupplied hr⟩
  | succ rounds ih =>
    rcases h.serve hs hsmall hstill hq hlimit hsupplied with ⟨-, hdone⟩ | ⟨start, entries, hbytes, haloft⟩
    · refine ⟨{}, c.serve.2, ?_, hdone⟩
      rw [rounds?, if_pos hdone.idle]
    · have hbusy : c.serve.2.station.machine.channel.idle = false := by
        obtain ⟨n, -, hmoving⟩ := haloft.moving
        exact (Control.engaged hmoving.sound.control haloft.pending.transfer).idle
      obtain ⟨d, hbatch, hready⟩ := haloft.round hs hsmall hstill hq hfits
      -- each round describes a word at least
      have hleft : (p.past entries).remaining ≤ rounds * wordBytes := by
        rw [Nat.succ_mul] at hrounds
        simp only [Progress.remaining, Progress.past] at hrounds ⊢
        omega
      obtain ⟨log, x, hx, hdone⟩ := ih hready hlimit hfits
        (fun y hy => hsupplied y (.round hbusy hbatch hy)) hleft
      refine ⟨{ batches := entries :: log.batches, handled := d.interrupt.serve.1 :: log.handled }, x,
        ?_, hdone⟩
      rw [rounds?, if_neg (by simp [hbusy]), hbatch]
      cases entries with
      | nil => exact absurd rfl haloft.pending.offered.nonempty
      | cons e entries => simp only [hx, Option.map_some]

theorem Ready.batches (h : Ready st b p c) (hlimit : p.request.host + p.request.len < addressLimit)
    (hfits : p.request.Fits) (hsupplied : c.Supplied p.request) (hv : Visits c x)
    (hbusy : x.serve.2.station.machine.channel.idle = false) :
    ∃ entries d, x.serve.2.batch? x.serve.2.station.machine.channel.direction = some (entries, d) ∧
      entries ≠ [] := by
  induction hv generalizing p with
  | here c =>
    rcases h.serve hs hsmall hstill hq hlimit hsupplied with ⟨-, hdone⟩ | ⟨start, entries, -, haloft⟩
    · cases hbusy.symm.trans hdone.idle
    · obtain ⟨d, hbatch, -⟩ := haloft.round hs hsmall hstill hq hfits
      exact ⟨entries, d, hbatch, haloft.pending.offered.nonempty⟩
  | @round c x d taken hfirst htaken hv ih =>
    rcases h.serve hs hsmall hstill hq hlimit hsupplied with ⟨-, hdone⟩ | ⟨start, entries, -, haloft⟩
    · cases hfirst.symm.trans hdone.idle
    · obtain ⟨d', hbatch, hready⟩ := haloft.round hs hsmall hstill hq hfits
      rw [hbatch] at htaken
      cases htaken
      exact ih hready hlimit hfits (fun y hy => hsupplied y (.round hfirst hbatch hy)) hbusy

end Bench.Setup
end ScatterGather
