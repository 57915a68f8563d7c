import ScatterGather.Proofs.Docket
import ScatterGather.Proofs.Inventory

/-! # Where a worker rests

Between two calls a worker is in one of three states: nothing is to be done, an accepted request
waits to be taken up, or the device works on a batch of the transfer in hand. Idle flag, queue,
pending advance, phase, pipeline and last ids always agree on which of them it is.
-/
namespace ScatterGather

namespace Station
variable {σ : Type}

/-- Nothing of an earlier transfer is left. -/
structure Bare (s : Station σ) : Prop where
  transfer : s.worker.transfer = none
  pipeline : s.worker.pipeline = {}
  advanceOpen : s.machine.channel.advanceOpen = false
  ring : s.worker.ring.lastId = .both noId
  issued : s.machine.channel.issued = .both noId

/-- Nothing is to be done. -/
structure Clean (s : Station σ) : Prop extends s.Bare where
  idle : s.machine.channel.idle = true
  work : s.machine.channel.work.Holds []
  phase : s.worker.phase = .idle ∨ s.worker.phase = .fault ∨ s.worker.phase = .finished
  finished : s.machine.channel.finished = true ↔ s.worker.phase = .finished

/-- The accepted request waits to be taken up. -/
structure Submitted (s : Station σ) (r : Request) : Prop extends s.Bare where
  idle : s.machine.channel.idle = false
  finished : s.machine.channel.finished = false
  work : s.machine.channel.work.Holds [.start r]
  accepted : Account.ofHistory s.machine.history = { request := some r }
  direction : s.machine.channel.direction = r.direction
  phase : s.worker.phase = .idle ∨ s.worker.phase = .fault

/-- The transfer has got as far as `p`, and its latest batch was handed to the device. -/
structure Draining (s : Station σ) (p : Progress) : Prop where
  idle : s.machine.channel.idle = false
  finished : s.machine.channel.finished = false
  phase : s.worker.phase = .draining
  transfer : s.worker.transfer = some p
  accepted : (Account.ofHistory s.machine.history).request = some p.request
  direction : s.machine.channel.direction = p.request.direction
  sent_pos : 0 < p.sent
  sent_le : p.sent ≤ p.request.len
  pending : s.machine.channel.work.Holds [] ∧ s.machine.channel.advanceOpen = false ∨
    s.machine.channel.work.Holds [.advance] ∧ s.machine.channel.advanceOpen = true
  done : s.worker.pipeline.done = none
  /-- The active window stands at the first byte that was not described, inside the request, and a
  region that was pinned ahead begins where its region ends. -/
  windows : ∃ w, s.worker.pipeline.active = some w ∧ w.cursor ≤ w.region.len ∧
    w.position = p.request.host + p.sent ∧ p.sent + w.left ≤ p.request.len ∧
    ∀ g, s.worker.pipeline.next = some g → g.start = w.region.start + w.region.len
  /-- Worker, interrupt handler and controller know the same last id, and none for the other ring. -/
  lastId : ∃ last ≤ lastSlot, s.worker.ring.lastId = (Sides.both noId).set p.request.direction last ∧
    s.machine.channel.issued = (Sides.both noId).set p.request.direction last ∧
    s.machine.registers.lastId p.request.direction = last

/-- The worker is in exactly one of the three states. -/
def Rests (s : Station σ) : Prop :=
  s.Clean ∧ (∀ r, ¬ s.Submitted r) ∧ (∀ p, ¬ s.Draining p) ∨
    ¬ s.Clean ∧ (∃ r, s.Submitted r) ∧ (∀ p, ¬ s.Draining p) ∨
    ¬ s.Clean ∧ (∀ r, ¬ s.Submitted r) ∧ ∃ p, s.Draining p

theorem Clean.rests {s : Station σ} (h : s.Clean) : s.Rests := by
  refine .inl ⟨h, fun r hr => ?_, fun p hp => ?_⟩
  · cases h.idle.symm.trans hr.idle
  · cases h.idle.symm.trans hp.idle

theorem Submitted.rests {s : Station σ} {r : Request} (h : s.Submitted r) : s.Rests := by
  refine .inr (.inl ⟨fun hc => ?_, ⟨r, h⟩, fun p hp => ?_⟩)
  · cases h.idle.symm.trans hc.idle
  · cases h.transfer.symm.trans hp.transfer

theorem Draining.rests {s : Station σ} {p : Progress} (h : s.Draining p) : s.Rests := by
  refine .inr (.inr ⟨fun hc => ?_, fun r hr => ?_, ⟨p, h⟩⟩)
  · cases h.idle.symm.trans hc.idle
  · cases h.transfer.symm.trans hr.transfer

end Station

/-- The phase tells whether a transfer is in hand and whether the channel is finished. -/
structure Station.InPhase {σ : Type} (s : Station σ) : Prop where
  draining : s.worker.phase = .draining ↔ s.worker.transfer.isSome
  finished : s.worker.phase = .finished ↔ s.machine.channel.finished = true

theorem Station.InPhase.same {σ : Type} {s t : Station σ} (h : s.InPhase)
    (hp : t.worker.phase = s.worker.phase)
    (ht : t.worker.transfer.isSome = s.worker.transfer.isSome)
    (hf : t.machine.channel.finished = s.machine.channel.finished) : t.InPhase := by
  refine ⟨?_, ?_⟩
  · rw [hp, ht]
    exact h.draining
  · rw [hp, hf]
    exact h.finished

theorem Retired.open {σ : Type} {z : Juncture × Station σ} (h : Retired z)
    (hi : z.2.machine.channel.idle = false) : z.2.machine.channel.finished = false := by
  cases hf : z.2.machine.channel.finished with
  | false => rfl
  | true => cases hi.symm.trans (h hf).2

/-- From its first batch on a transfer has got somewhere. -/
def Advanced (w : Worker) : Juncture → Prop
  | .rest | .ready | .closing _ => ∀ p, w.transfer = some p → 0 < p.sent
  | .due .advance p => 0 < p.sent
  | .handed _ p | .released _ p | .askedAhead _ p _ _ => 0 < p.sent
  | _ => True

section Steps
variable {σ : Type} [Platform σ] {A : Incident → Prop} {H : Act → Worker → Prop}
  {x y : Juncture × Station σ} {s : Station σ} {k : Errand} {p : Progress}

theorem Station.InPhase.halt (h : s.InPhase) {a : Act} (ha : a.Halts) : (s.act a).InPhase := by
  cases a with
  | stop =>
    have hfinished : s.stop.machine.channel.finished = s.machine.channel.finished :=
      congrArg Prod.fst (s.worker.pipeline.unpinAll_sees s.machine).orders
    have hphase : s.stop.worker.phase = if s.worker.phase = .finished then .finished else .idle := rfl
    constructor
    · rw [act, hphase]
      split <;> exact ⟨nofun, nofun⟩
    · rw [act, hfinished, ← h.finished, hphase]
      split <;> simp_all
  | finish =>
    have hfinished : s.finish.machine.channel.finished = true :=
      congrArg Prod.fst (s.worker.pipeline.unpinAll_sees
        (s.mapChannel ({ · with finished := true })).machine).orders
    refine ⟨⟨nofun, nofun⟩, ?_⟩
    rw [act, hfinished]
    exact ⟨fun _ => rfl, fun _ => rfl⟩
  | _ => exact ha.elim

theorem Station.InPhase.tell {phase : Phase} {outcome : Outcome}
    (hf : (s.tell phase outcome).machine.channel.finished = false)
    (hphase : phase = .idle ∨ phase = .fault) : (s.tell phase outcome).InPhase := by
  refine ⟨?_, ?_⟩
  · rcases hphase with rfl | rfl <;> exact ⟨nofun, nofun⟩
  · rw [hf]
    rcases hphase with rfl | rfl <;> exact ⟨nofun, nofun⟩

theorem Station.InPhase.step (hstep : Step A H x y) (hc : Control x.2.view x.1)
    (hretired : Retired x) (h : x.2.InPhase) : y.2.InPhase := by
  have hsame := hstep.finished
  cases hstep with
  | @strike j s i => exact h.same rfl rfl (congrArg Prod.fst (s.machine.incur_orders i))
  | @interrupt s status =>
    exact h.same rfl rfl (congrArg Prod.fst (s.machine.channel.interrupt_orders status))
  | setPayload => exact ⟨h.draining, h.finished⟩
  | stop => exact h.halt (a := .stop) trivial
  | finish => exact h.halt (a := .finish) trivial
  | @begin s r hj =>
    obtain ⟨-, ⟨r', -, hq⟩ | ⟨p, hr, -⟩⟩ := hc.taken hj
    · refine ⟨⟨fun _ => rfl, fun _ => rfl⟩, ?_⟩
      rw [hsame (by simp), hretired.open hq.idle]
      exact ⟨nofun, nofun⟩
    · cases hr
  | complete =>
    have hopen := hretired.open (View.Poised.toEngaged hc).idle
    exact .tell ((hsame (by simp)).trans hopen) (.inl rfl)
  | fail =>
    obtain ⟨p, hpoised⟩ := hc
    exact .tell ((hsame (by simp)).trans (hretired.open hpoised.idle)) (.inr rfl)
  | issue =>
    exact h.same rfl (congrArg Option.isSome hc.1.transfer).symm (hsame (by simp))
  | serve => exact h
  | _ => exact h.same rfl rfl (hsame (by simp))

theorem Advanced.step {st : Settings} (hs : st.Valid) (hsmall : st.pageSize < 2 ^ 34)
    (hst : x.2.settings = st) (hstep : Step A H x y) (hc : Control x.2.view x.1)
    (h : Advanced x.2.worker x.1) : Advanced y.2.worker y.1 := by
  subst hst
  -- behind a batch only the transfer in hand can be meant
  have hcurrent {k : Errand} {p : Progress} (hr : x.2.view.Running k p) (hp : 0 < p.sent) :
      ∀ q, x.2.worker.transfer = some q → 0 < q.sent := by
    intro q hq
    obtain rfl : q = p := Option.some.inj (hq.symm.trans hr.transfer)
    exact hp
  cases hstep with
  | stop | finish => exact nofun
  | begin => trivial
  | resume hj ht => exact h _ ht
  | stale hj ht => exact absurd ht (hc.not_stale hj)
  | issue hcarve =>
    have hbytes := Window.carve_advances hs hsmall (Ring.start?_le hc.2) hcarve
    exact Nat.lt_of_lt_of_le (by decide) (Nat.le_trans hbytes (Nat.le_add_left _ _))
  | skip | unpinnableAhead | shortAhead | keepNext => exact hcurrent hc h
  | heard =>
    intro p hp
    cases hp.symm.trans (View.Between.transfer hc)
  | _ => first | exact h | trivial

omit [Platform σ] in
/-- What a running transfer shows of itself between two calls. -/
theorem View.Running.draining (hr : s.view.Running .start p) (hopen : s.machine.channel.finished = false)
    (hphase : s.InPhase) (hroom : s.worker.pipeline.HasRoom .rest)
    (hwindows : Windows (fun _ _ => True) s.settings s.worker .rest)
    (hadvanced : Advanced s.worker .rest) : s.Draining p := by
  have htransfer : s.worker.transfer = some p := hr.transfer
  obtain ⟨w, b, hw, hcovers, hcursor, hsent, hnext⟩ := hwindows p htransfer
  have hstart := hcovers.start
  have hlen := hcovers.len
  have hinside := hcovers.inside
  rw [Request.windowLen] at hlen
  obtain ⟨last, hpublished⟩ := hr.published
  constructor
  case idle => exact hr.idle
  case finished => exact hopen
  case phase => exact hphase.draining.mpr (by rw [htransfer]; rfl)
  case transfer => exact htransfer
  case accepted => exact hr.request
  case direction => exact hr.direction
  case sent_pos => exact hadvanced p htransfer
  case sent_le => omega
  case pending => exact hr.pending.imp_right And.right
  case done => exact hroom
  case windows =>
    refine ⟨w, hw, hcursor, ?_, ?_, ?_⟩
    · rw [Window.position, hstart, hsent, Nat.add_assoc]
    · rw [Window.left]
      omega
    · intro g hg
      rw [(hnext g hg).start, hstart, Nat.add_assoc]
  case lastId => exact ⟨last, hpublished.le, hpublished.ring, hpublished.issued, hpublished.held⟩

omit [Platform σ] in
theorem Station.rests_of (hc : Control s.view .rest) (hretired : Retired (.rest, s))
    (hphase : s.InPhase) (hroom : s.worker.pipeline.HasRoom .rest)
    (hwindows : Windows (fun _ _ => True) s.settings s.worker .rest)
    (hadvanced : Advanced s.worker .rest) : s.Rests := by
  have hbare (ht : s.worker.transfer = none) : s.worker.phase ≠ .draining := by
    intro h
    have := hphase.draining.mp h
    rw [ht] at this
    cases this
  rcases hc with (hv | ⟨r, hq⟩) | ⟨p, hr⟩
  · have hnot := hbare hv.transfer
    refine Clean.rests ⟨⟨hv.transfer, hv.pipeline, hv.advanceOpen, hv.ring, hv.issued⟩, hv.idle,
      hv.work, ?_, hphase.finished.symm⟩
    revert hnot
    cases s.worker.phase <;> simp
  · have hnot := hbare hq.transfer
    have hopen : s.machine.channel.finished = false := hretired.open hq.idle
    have hnot' : s.worker.phase ≠ .finished := fun h => by cases hopen.symm.trans (hphase.finished.mp h)
    refine Submitted.rests (r := r) ⟨⟨hq.transfer, hq.pipeline, hq.advanceOpen, hq.ring, hq.issued⟩,
      hq.idle, hopen, hq.work, hq.account, hq.direction, ?_⟩
    revert hnot hnot'
    cases s.worker.phase <;> simp
  · exact (hr.draining (hretired.open hr.idle) hphase hroom hwindows hadvanced).rests

/-- In every run of a worker, whatever the registers hold at first, whoever stores flags, whatever
strikes inside its calls, and however many pages the platform locks each time, the worker is in
exactly one of the three states after each act. -/
theorem run_rests (settings : Settings) (hs : settings.Valid) (hsmall : settings.pageSize ≤ 2 ^ 19)
    (tableBus : Sides Nat) (registers : RegisterFile) (platform : σ)
    (listener : List (List Incident)) (acts : List Act) :
    ((Station.initial settings tableBus registers platform listener).run acts).Rests := by
  let s := Station.initial settings tableBus registers platform listener
  have hcontrol : Control s.view .rest := Control.initial ..
  have hrun := Path.everyRun s acts
  obtain ⟨hc, hsettings⟩ := Path.control (x := (.rest, s)) hs hcontrol hrun
  obtain ⟨hretired, hphase, hadvanced⟩ : Retired (.rest, s.run acts) ∧ (s.run acts).InPhase ∧
      Advanced (s.run acts).worker .rest := by
    refine Path.keep (x := (.rest, s)) (P := fun z => Retired z ∧ z.2.InPhase ∧ Advanced z.2.worker z.1)
      hs hcontrol ?_ ⟨nofun, ⟨⟨nofun, nofun⟩, ⟨nofun, nofun⟩⟩, nofun⟩ hrun
    rintro u v hst hcu hstep ⟨hretired, hphase, hadvanced⟩
    exact ⟨hretired.step hstep hcu, hphase.step hstep hcu hretired,
      hadvanced.step hs (Nat.lt_of_le_of_lt hsmall (by decide)) hst hstep hcu⟩
  have hwindows := Path.windows (Q := fun _ _ => True) (x := (.rest, s)) hs
    (fun _ _ _ => trivial) rfl hcontrol nofun hrun
  have hroom := (Path.inventory (x := (.rest, s)) hs hcontrol rfl (Inventory.initial ..) hrun).1
  exact Station.rests_of hc hretired hphase hroom (hsettings ▸ hwindows) hadvanced

end Steps

/-- After the first batch the worker drains, and an advance waits for it. -/
theorem run_rests_tally :
    let settings : Settings := { pageSize := 16, windowPages := 1, chunkLog := 3 }
    let registers := RegisterFile.reset.write (Register.address .hostToDevice .lastId) 3
    let acts : List Act := [
      .strike (.submit { direction := .hostToDevice, host := 0x2008, device := 16, len := 24 }),
      .serve, .strike (.complete .hostToDevice), .interrupt 0]
    let s := (Station.initial settings (.both 0) registers ({} : Bench.PageTally) []).run acts
    s.Rests ∧ ∃ p, s.Draining p ∧ s.machine.channel.work.Holds [.advance] := by
  intro settings registers acts s
  have hrests : s.Rests := run_rests settings (by decide) (by decide) (.both 0) registers
    ({} : Bench.PageTally) [] acts
  have hopen : s.machine.channel.advanceOpen = true := by decide +kernel
  refine ⟨hrests, ?_⟩
  rcases hrests with ⟨hclean, -⟩ | ⟨-, ⟨r, hsubmitted⟩, -⟩ | ⟨-, -, p, hdraining⟩
  · cases hopen.symm.trans hclean.advanceOpen
  · cases hopen.symm.trans hsubmitted.advanceOpen
  · refine ⟨p, hdraining, ?_⟩
    rcases hdraining.pending with ⟨-, hclosed⟩ | ⟨hwork, -⟩
    · cases hopen.symm.trans hclosed
    · exact hwork
end ScatterGather
