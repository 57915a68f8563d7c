import ScatterGather.Proofs.Drives

/-! # A locker without limits

What the platform's own operations keep true of its state is true after every service. So a page
tally that refuses no page never does, and it supplies every demand.
-/
namespace ScatterGather
open Bench

/-- What the platform's operations keep true of its state. -/
structure Platform.Keeps {σ : Type} [Platform σ] (P : σ → Prop) : Prop where
  lock : ∀ x range writable, P x → P (Platform.lock x range writable).platform
  unlock : ∀ x pages dirty, P x → P (Platform.unlock x pages dirty)
  written : ∀ x offset value, P x → P (Platform.written x offset value).2

section Keeps
variable {σ : Type} {P : σ → Prop} {A : Incident → Prop} {H : Act → Worker → Prop}

variable [Platform σ] (hP : Platform.Keeps P) {m : Machine σ} (h : P m.platform)
include hP h

theorem Machine.unpin_keeps (r : Region) : P (m.unpin r).2.platform := by
  unfold unpin
  split
  · exact hP.unlock _ _ _ h
  · exact h

theorem Machine.unpinEach_keeps (regions : List Region) : P (m.unpinEach regions).platform := by
  induction regions generalizing m with
  | nil => exact h
  | cons r regions ih => exact ih (unpin_keeps hP h r)

theorem Pipeline.unpinDone_keeps (q : Pipeline) : P (q.unpinDone m).2.platform :=
  q.unpinDone_eq m ▸ Machine.unpinEach_keeps hP h _

theorem Pipeline.unpinAll_keeps (q : Pipeline) : P (q.unpinAll m).2.platform :=
  q.unpinAll_eq m ▸ Machine.unpinEach_keeps hP h _

theorem Ring.stage_keeps (ring : Ring) (dir : Direction) (start : BatchPlace)
    (entries : List Entry) : P (ring.stage m dir start entries).2.platform :=
  stage_induction (P := fun m => P m.platform) dir (fun _ _ _ _ hm => hP.written _ _ _ hm)
    (fun m i hm => (m.incur_platform i).symm ▸ hm) (fun _ _ hm => hm) (fun _ _ hm => hm)
    ring start entries h

omit h

theorem Step.keeps {x y : Juncture × Station σ} (hstep : Step A H x y)
    (h : P x.2.machine.platform) : P y.2.machine.platform := by
  cases hstep with
  | @strike j s i => exact (s.machine.incur_platform i).symm ▸ h
  | @stop s => exact s.worker.pipeline.unpinAll_keeps hP h
  | @finish s =>
    exact s.worker.pipeline.unpinAll_keeps hP (m := (s.mapChannel ({ · with finished := true })).machine) h
  | @complete k p s => exact s.worker.pipeline.unpinAll_keeps hP h
  | @fail k cause s => exact s.worker.pipeline.unpinAll_keeps hP h
  | @turn k p s => exact s.worker.pipeline.unpinDone_keeps hP h
  | @release k p s => exact s.worker.pipeline.unpinDone_keeps hP h
  | ask => exact hP.lock _ _ _ h
  | askAhead => exact hP.lock _ _ _ h
  | short => exact hP.unlock _ _ _ h
  | shortAhead => exact hP.unlock _ _ _ h
  | @issue k p s start w entries =>
    exact hP.written _ _ _ (s.worker.ring.stage_keeps hP h p.request.direction start entries)
  | _ => exact h

theorem Path.keeps {x y : Juncture × Station σ} (hpath : Path A H x y)
    (h : P x.2.machine.platform) : P y.2.machine.platform := by
  induction hpath with
  | refl => exact h
  | tail _ hstep ih => exact hstep.keeps hP ih

end Keeps

namespace Bench.PageTally

structure Lavish (h : PageTally) : Prop where
  limit : h.limit = none
  emptyCall : h.emptyCall = none

theorem Lavish.grant {h : PageTally} (hl : h.Lavish) (pages : Nat) : h.grant pages = pages := by
  simp [PageTally.grant, hl.limit, hl.emptyCall]

theorem lavish_keeps : Platform.Keeps Lavish where
  lock _ _ _ h := ⟨h.limit, h.emptyCall⟩
  unlock x pages dirty h := by
    simp only [Platform.unlock, unlock?]
    cases giveBack? x.held pages with
    | none => exact h
    | some held => exact ⟨h.limit, h.emptyCall⟩
  written _ _ _ h := h

theorem Lavish.supplied {s : Station PageTally} (h : s.machine.platform.Lavish) (p : Progress) :
    s.Supplied p := by
  intro _ _
  have hturned : s.turn.machine.platform.Lavish := s.worker.pipeline.unpinDone_keeps lavish_keeps h
  simp [Station.answer, Platform.lock, PageTally.lock, PageRun.addresses, hturned.grant]

end Bench.PageTally

namespace Bench.Setup
variable {b c : Setup PageTally MemoryDevice} {dir : Direction} {entries : List Entry}

theorem serve_lavish (h : b.station.machine.platform.Lavish) :
    b.serve.2.station.machine.platform.Lavish := by
  have hpath : Path (fun _ => True) (fun _ _ => True) (.rest, b.station) (.rest, b.station.act .serve) :=
    Path.act (PageTally.within _) (fun _ _ _ _ => trivial) trivial trivial
  exact Path.keeps PageTally.lavish_keeps hpath h

theorem batch?_platform (h : b.batch? dir = some (entries, c)) :
    c.station.machine.platform = b.station.machine.platform := by
  simp only [batch?, Option.map_eq_some_iff] at h
  obtain ⟨⟨taken, device, m⟩, hrun, hc⟩ := h
  cases hc
  simp only [DeviceModel.run?] at hrun
  split at hrun
  · cases hrun
    rfl
  · simp only [Option.map_eq_some_iff] at hrun
    obtain ⟨⟨taken', device'⟩, -, hm⟩ := hrun
    cases hm
    exact Machine.incur_platform _ _

/-- A locker without limits supplies every demand of a drive. -/
theorem Supplied.of_lavish (h : b.station.machine.platform.Lavish) (r : Request) : b.Supplied r := by
  intro c hv
  have hc : c.station.machine.platform.Lavish := by
    induction hv with
    | here => exact h
    | @round x y z entries _ hbatch _ ih =>
      apply ih
      have hplatform := batch?_platform hbatch
      have hserved := serve_lavish h
      rw [← hplatform] at hserved
      exact hserved
  exact hc.supplied _

end Bench.Setup
end ScatterGather
