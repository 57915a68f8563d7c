import ScatterGather.Proofs.Coverage
import ScatterGather.Proofs.Demands
import ScatterGather.Proofs.Drains
import ScatterGather.Proofs.Pacing

/-! # One service after the other

On a platform that brings along no incidents a service finds one job at most. It leaves an empty
queue behind, and the transfer has ended or one more batch was handed over.
-/
namespace ScatterGather
open Bench

namespace Station
variable {σ : Type}

/-- All that is known of a station at a juncture, if its pages lie on the bus as in host memory. -/
structure Sound (st : Settings) (j : Juncture) (s : Station σ) : Prop where
  settings : s.settings = st
  control : Control s.view j
  windows : Windows (InOrder id) st s.worker j
  coverage : Coverage st id s
  pacing : Pacing s j
  heeds : s.Heeds fun _ => False

theorem Sound.initial (st : Settings) (tableBus : Sides Nat) (platform : σ) :
    (Station.initial st tableBus .reset platform []).Sound st .rest where
  settings := rfl
  control := Control.initial ..
  windows := nofun
  coverage := ⟨nofun, .nil ⟨nofun, nofun⟩⟩
  pacing := Pacing.initial ..
  heeds _ h := by cases h

def Resting (s : Station σ) : Prop :=
  s.machine.channel.work.Holds [] ∧ s.machine.channel.advanceOpen = false

inductive Due (s : Station σ) : Errand → Progress → Prop
  | start {r} : s.view.Queued false r → Due s .start { request := r }
  | advance {p} : s.worker.transfer = some p → s.view.posture.work.Holds [.advance] → Due s .advance p

/-- What the two have in common that the fate of a transfer is told by. -/
structure Echoes (s t : Station σ) : Prop where
  settings : t.settings = s.settings
  registers : t.machine.registers = s.machine.registers
  tables : t.machine.channel.tables = s.machine.channel.tables
  account : t.view.account = s.view.account
  notices : Recorder.ofHistory t.machine.history = .ofHistory s.machine.history

theorem Ended.echo {s s' t : Station σ} {outcome : Outcome} (h : s'.Ended t outcome)
    (he : s.Echoes s') : s.Ended t outcome where
  registers := h.registers.trans he.registers
  transfer := h.transfer
  idle := h.idle
  notices := he.notices ▸ h.notices

theorem Handed.echo {s s' t : Station σ} {p : Progress} {start : BatchPlace} {entries : List Entry}
    (h : s'.Handed t p start entries) (he : s.Echoes s') : s.Handed t p start entries where
  place := he.registers ▸ h.place
  carved := he.settings ▸ h.carved
  transfer := h.transfer
  announced d := by
    have hd := h.announced d
    rwa [show s'.machine.announced d = s.machine.announced d by
      rw [Machine.announced, he.registers, Machine.announced]] at hd
  last := h.last
  others d hd := he.registers ▸ h.others d hd
  table := by
    rw [h.table, Channel.table, he.tables, Channel.table]
  account := he.account ▸ h.account
  notices := h.notices.trans he.notices

def shut (s : Station σ) : Station σ := s.mapChannel ({ · with advanceOpen := false })

theorem Ended.shut {s t : Station σ} {outcome : Outcome} (h : s.Ended t outcome) :
    s.Ended t.shut outcome :=
  ⟨h.registers, h.transfer, h.idle, h.notices⟩

theorem Handed.shut {s t : Station σ} {p : Progress} {start : BatchPlace} {entries : List Entry}
    (h : s.Handed t p start entries) : s.Handed t.shut p start entries :=
  ⟨h.place, h.carved, h.transfer, h.announced, h.last, h.others, h.table, h.account, h.notices⟩

theorem Handed.flag {s t : Station σ} {p : Progress} {start : BatchPlace} {entries : List Entry}
    (h : s.Handed t p start entries) (hs : s.settings.Valid) (hcalm : s.machine.Calm) :
    (t.machine.channel.table p.request.direction).flag? (Ring.lastIdOf start entries) = some 0 := by
  obtain ⟨ring, hstart, hring⟩ := h.place
  obtain ⟨w, hcarve⟩ := h.carved
  obtain ⟨hne, hlast⟩ := Window.carve_fits hs (Ring.start?_le hstart) hcarve
  rw [h.table]
  exact hcalm.staged hstart hring hne hlast (Nat.le_refl _)

end Station

theorem Channel.closeAdvance_of_not {c : Channel} (h : c.idle = true ∨ c.completed = false) :
    c.closeAdvance = { c with advanceOpen := false } := by
  have hnot : (!c.idle && ({ c with advanceOpen := false } : Channel).completed) = false := by
    rcases h with h | h
    · simp [h]
    · have hsame : ({ c with advanceOpen := false } : Channel).completed = c.completed := rfl
      simp [hsame, h]
  unfold closeAdvance
  dsimp only
  rw [if_neg (by simpa using hnot)]

section Completion
variable {σ : Type} {s t : Station σ} {k : Errand} {p : Progress}

theorem View.Running.completed_eq (h : s.view.Running k p) : s.machine.channel.completed =
    ((s.machine.channel.table p.request.direction).flag?
      (s.machine.registers.lastId p.request.direction)).any (· != 0) := by
  obtain ⟨last, hl⟩ := h.published
  rw [hl.completed_eq h.direction, show s.machine.registers.lastId p.request.direction = last from hl.held]

theorem Station.Handed.not_completed {start : BatchPlace} {entries : List Entry}
    (h : s.Handed t p start entries) (hs : s.settings.Valid) (hcalm : s.machine.Calm)
    (hc : Control t.view (.closing k)) : t.machine.channel.completed = false := by
  have hr := View.Running.of_transfer hc h.transfer
  have hflag : (t.machine.channel.table p.request.direction).flag?
      (t.machine.registers.lastId p.request.direction) = some 0 := h.last ▸ h.flag hs hcalm
  rw [hr.completed_eq]
  exact congrArg (Option.any (· != 0)) hflag

end Completion

section Services
variable {σ : Type} [Platform σ] {H : Act → Worker → Prop} {st : Settings} {s s' t : Station σ}
  {x y : Juncture × Station σ} {k : Errand} {p : Progress}

theorem Path.sound (hs : st.Valid) (hsmall : st.pageSize ≤ 2 ^ 19)
    (hq : Platform.Answers σ (InOrder id)) (hquiet : Platform.Quiet σ)
    (h : x.2.Sound st x.1) (hpath : Path Incident.Honest H x y) : y.2.Sound st y.1 := by
  obtain ⟨hcontrol, hsettings⟩ := Path.control (h.settings ▸ hs) h.control hpath
  exact ⟨hsettings.trans h.settings, hcontrol,
    Path.windows hs hq h.settings h.control h.windows hpath,
    Path.coverage hs hsmall (fun _ h => h) hq h.settings h.control h.windows h.coverage hpath,
    Path.pacing hquiet (h.settings ▸ hs) h.control h.pacing hpath, Path.heeds hpath h.heeds⟩

structure Station.Feasible (s : Station σ) (p : Progress) : Prop where
  limit : p.request.host + p.request.len < addressLimit
  held : s.view.held p.request.direction = noId ∨ s.view.held p.request.direction ≤ lastSlot
  supplied : s.Supplied p

/-- What becomes of a job. It fails only if the next batch cannot be had. -/
def Station.Fares (s t : Station σ) (p : Progress) : Prop :=
  p.remaining = 0 ∧ s.Ended t (.completed p.request.len) ∨
  p.remaining ≠ 0 ∧ (¬ s.Feasible p ∧ (∃ cause, s.Ended t (.failed cause)) ∨
    ∃ start entries, s.Handed t p start entries)

def Errand.close : Errand → Station σ → Station σ
  | start, s => s
  | advance, s => s.mapChannel Channel.closeAdvance

theorem Station.serve_one {job : Job} (hj : s.machine.channel.work.Holds [job])
    (h : (s.takeWork.2.handle job).Resting) : s.serve.2 = s.takeWork.2.handle job := by
  obtain ⟨rest, hpop, -⟩ := hj.pop_cons
  have hfirst : s.takeWork.1 = some job := congrArg Prod.fst hpop
  have hjob := job.workload_pos
  obtain ⟨n, hn⟩ : ∃ n, s.workload = n + 1 := by
    apply Nat.exists_eq_succ_of_ne_zero
    rw [workload, hj.toList, List.map_singleton, List.foldl_cons, List.foldl_nil, Nat.zero_add]
    omega
  rw [serve, hn]
  rcases htake : s.takeWork with ⟨found, s'⟩
  rw [htake] at hfirst h
  obtain rfl : found = some job := hfirst
  simp only [serveUpTo, htake]
  rw [serveUpTo_nil h.1]

theorem Pipeline.unpinDone_platform (q : Pipeline) {m m' : Machine σ} (h : m'.platform = m.platform) :
    (q.unpinDone m').2.platform = (q.unpinDone m).2.platform := by
  unfold unpinDone
  split
  · unfold Machine.unpin
    split
    · exact congrArg (fun x => Platform.unlock x _ _) h
    · exact h
  · exact h

theorem Station.Feasible.of_same (h : s.Feasible p) (hsettings : t.settings = s.settings)
    (hregisters : t.machine.registers = s.machine.registers)
    (hpipeline : t.worker.pipeline = s.worker.pipeline)
    (hplatform : t.machine.platform = s.machine.platform) : t.Feasible p where
  limit := h.limit
  held := by
    rw [view, hregisters]
    exact h.held
  supplied hr hneeds := by
    have hturned : t.turn.machine.platform = s.turn.machine.platform := by
      rw [turn, turn, hpipeline]
      exact Pipeline.unpinDone_platform _ hplatform
    have hpages := h.supplied hr (hpipeline ▸ hneeds)
    rw [answer, s.turn_settings] at hpages
    rw [answer, t.turn_settings, hturned, hsettings]
    exact hpages

theorem Station.Fares.echo (h : s'.Fares t p) (he : s.Echoes s') (hf : s.Feasible p → s'.Feasible p) :
    s.Fares t p := by
  rcases h with ⟨hr, hended⟩ | ⟨hr, ⟨hnot, cause, hended⟩ | ⟨start, entries, hhanded⟩⟩
  · exact .inl ⟨hr, hended.echo he⟩
  · exact .inr ⟨hr, .inl ⟨fun h => hnot (hf h), cause, hended.echo he⟩⟩
  · exact .inr ⟨hr, .inr ⟨start, entries, hhanded.echo he⟩⟩

variable (hs : st.Valid) (hsmall : st.pageSize ≤ 2 ^ 19) (hstill : Platform.Still σ)
  (hq : Platform.Answers σ (InOrder id))
include hs hstill hq

theorem Station.Sound.handled (h : s.Sound st (.due k p)) :
    k.close s.advance = s.advance.shut ∧ (k.close s.advance).Resting ∧ s.Fares (k.close s.advance) p := by
  have hc : s.view.Poised k p := h.control
  have hvalid : s.settings.Valid := h.settings ▸ hs
  obtain ⟨⟨hwork, hopen⟩, hcases⟩ := advance_cases hstill hvalid h.heeds hc
  have hheld : s.advance.machine.channel.work.Holds [] := hwork ▸ hc.work
  have hclose : k.close s.advance = s.advance.shut := by
    cases k with
    | start =>
      have hclosed : s.advance.machine.channel.advanceOpen = false := hopen.trans hc.advanceOpen
      exact congrArg (fun open? : Bool => s.advance.mapChannel ({ · with advanceOpen := open? })) hclosed
    | advance =>
      -- nothing is queued again: the channel is idle, or the flag of the new batch is zero
      have hsettled : s.advance.machine.channel.idle = true ∨
          s.advance.machine.channel.completed = false := by
        rcases hcases with ⟨-, hended⟩ | ⟨-, ⟨_, _, hended⟩ | ⟨start, entries, hhanded⟩⟩
        · exact .inl hended.idle
        · exact .inl hended.idle
        · have hpath : Path (fun _ => False) (fun _ _ => False) (.due .advance p, s)
              (.closing .advance, s.advance) := Path.advance hstill h.heeds hc.transfer
          have hclosing := (Path.control (x := (.due .advance p, s)) hvalid hc hpath).1
          exact .inr (hhanded.not_completed hvalid h.pacing.calm hclosing)
      exact congrArg (fun c => { s.advance with machine := { s.advance.machine with channel := c } })
        (Channel.closeAdvance_of_not hsettled)
  refine ⟨hclose, ?_, ?_⟩
  · rw [hclose]
    exact ⟨hheld, rfl⟩
  · rw [hclose]
    rcases hcases with ⟨hr, hended⟩ | ⟨hr, ⟨cause, hcause, hended⟩ | ⟨start, entries, hhanded⟩⟩
    · exact .inl ⟨hr, hended.shut⟩
    · refine .inr ⟨hr, .inl ⟨?_, cause, hended.shut⟩⟩
      intro hf
      have hnone := nextBatch_ok hstill hq hs h.settings hc h.windows hr hf.limit hf.held
        hf.supplied
      rw [hnone] at hcause
      cases hcause
    · exact .inr ⟨hr, .inr ⟨start, entries, hhanded.shut⟩⟩

include hsmall

/-- A service without a job changes nothing, and with a job it leaves nothing to be done. -/
theorem Station.Sound.serve (h : s.Sound st .rest) :
    s.machine.channel.work.Holds [] ∧ s.serve.2 = s ∨
    ∃ k p, s.Due k p ∧ s.serve.2.Resting ∧ s.Fares s.serve.2 p := by
  have hquiet := hstill.quiet
  have hcontrol : Control s.view .ready := h.control
  rcases hcontrol.jobs with hw | ⟨r, hw, hqueued⟩ | ⟨p, hw, hrunning, -⟩
  · exact .inl ⟨hw, congrArg Prod.snd (serveUpTo_nil hw _)⟩
  · obtain ⟨rest, hpop, -⟩ := hw.pop_cons
    have hj : s.takeWork.1 = some (.start r) := congrArg Prod.fst hpop
    have hpath : Path Incident.Honest (fun _ _ => False) (.rest, s)
        (.due .start { request := r }, s.takeWork.2.begin r) := .head .serve (.single (.begin hj))
    have hdue := Path.sound hs hsmall hq hquiet h hpath
    obtain ⟨-, hresting, hfares⟩ := Sound.handled hs hstill hq hdue
    have hserve : s.serve.2 = (s.takeWork.2.begin r).advance := serve_one hw hresting
    have hechoes : s.Echoes (s.takeWork.2.begin r) :=
      ⟨rfl, rfl, rfl, rfl, Recorder.ofHistory_cons (by simp) _⟩
    rw [hserve]
    exact .inr ⟨_, _, .start hqueued, hresting,
      hfares.echo hechoes fun hf => hf.of_same rfl rfl rfl rfl⟩
  · obtain ⟨rest, hpop, -⟩ := hw.pop_cons
    have hj : s.takeWork.1 = some .advance := congrArg Prod.fst hpop
    have hpath : Path Incident.Honest (fun _ _ => False) (.rest, s) (.due .advance p, s.takeWork.2) :=
      .head .serve (.single (.resume hj hrunning.transfer))
    have hdue := Path.sound hs hsmall hq hquiet h hpath
    obtain ⟨-, hresting, hfares⟩ := Sound.handled hs hstill hq hdue
    have hserve : s.serve.2 = s.takeWork.2.advance.mapChannel Channel.closeAdvance :=
      serve_one hw hresting
    rw [hserve]
    exact .inr ⟨_, _, .advance hrunning.transfer hw, hresting,
      hfares.echo ⟨rfl, rfl, rfl, rfl, rfl⟩ fun hf => hf.of_same rfl rfl rfl rfl⟩

end Services
end ScatterGather
