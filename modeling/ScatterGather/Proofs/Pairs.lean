import ScatterGather.Proofs.Effects

/-! # Two machines side by side

Two machines that answer alike whenever pages are locked, and stay related then and whenever pages are
unlocked, are related however a pipeline is worked, and both pipelines hold the same regions.
-/
namespace ScatterGather
variable {σ : Type} [Platform σ]

/-- Machines of the relation lock alike for transfers of this direction, and unlock alike. -/
structure Machine.LockAlike (Q : Machine σ → Machine σ → Prop) (dir : Direction) : Prop where
  settings : ∀ {m n}, Q m n → n.channel.settings = m.channel.settings
  recount : ∀ {m n}, Q m n → ∀ f : UInt64 → UInt64,
    Q { m with channel := { m.channel with pagesLocked := f m.channel.pagesLocked } }
      { n with channel := { n.channel with pagesLocked := f n.channel.pagesLocked } }
  lock : ∀ {m n}, Q m n → ∀ range, (n.lock range dir.writesHost).1 = (m.lock range dir.writesHost).1 ∧
    Q (m.lock range dir.writesHost).2 (n.lock range dir.writesHost).2
  unlock : ∀ {m n}, Q m n → ∀ pages dirty, Q (m.unlock pages dirty) (n.unlock pages dirty)

namespace Machine.LockAlike
variable {Q : Machine σ → Machine σ → Prop} {dir : Direction} {m n : Machine σ} {s t : Station σ}
  (h : LockAlike Q dir)
include h

section Machines
variable (hm : Q m n)
include hm

theorem pin (pageSize start len : Nat) :
    (n.pin pageSize start len dir).1 = (m.pin pageSize start len dir).1 ∧
      Q (m.pin pageSize start len dir).2 (n.pin pageSize start len dir).2 := by
  obtain ⟨hpages, hlocked⟩ := h.lock hm (.covering start len pageSize)
  unfold Machine.pin
  dsimp only
  rw [hpages]
  split
  · split
    · exact ⟨rfl, h.unlock hlocked _ _⟩
    · exact ⟨rfl, h.recount hlocked (· + UInt64.ofNat (PageRun.covering start len pageSize).pages)⟩
  · exact ⟨rfl, hm⟩

theorem unpin (r : Region) : Q (m.unpin r).2 (n.unpin r).2 := by
  unfold Machine.unpin
  split
  · exact h.recount (h.unlock hm r.pages r.direction.writesHost) (· - UInt64.ofNat r.pages.length)
  · exact hm

theorem unpinEach (regions : List Region) : Q (m.unpinEach regions) (n.unpinEach regions) := by
  induction regions generalizing m n with
  | nil => exact hm
  | cons r rest ih => exact ih (h.unpin hm r)

theorem unpinDone (q : Pipeline) :
    (q.unpinDone n).1 = (q.unpinDone m).1 ∧ Q (q.unpinDone m).2 (q.unpinDone n).2 := by
  rw [q.unpinDone_pipeline, q.unpinDone_pipeline, q.unpinDone_eq, q.unpinDone_eq]
  exact ⟨rfl, h.unpinEach hm _⟩

theorem unpinAll (q : Pipeline) : Q (q.unpinAll m).2 (q.unpinAll n).2 := by
  rw [q.unpinAll_eq, q.unpinAll_eq]
  exact h.unpinEach hm _

theorem rotate (q : Pipeline) (pageSize start len : Nat) :
    let fresh (m : Machine σ) := m.pin pageSize start len dir
    (q.rotate n fresh).1 = (q.rotate m fresh).1 ∧ (q.rotate n fresh).2.1 = (q.rotate m fresh).2.1 ∧
      Q (q.rotate m fresh).2.2 (q.rotate n fresh).2.2 := by
  have hdone := (h.unpinDone hm q).2
  unfold Pipeline.rotate
  dsimp only
  cases q.next with
  | some r => exact ⟨rfl, rfl, hdone⟩
  | none =>
    obtain ⟨hfound, hafter⟩ := h.pin hdone pageSize start len
    generalize (q.unpinDone m).2.pin pageSize start len dir = found at hfound hafter ⊢
    generalize (q.unpinDone n).2.pin pageSize start len dir = found' at hfound hafter ⊢
    obtain ⟨answer, m'⟩ := found
    obtain ⟨answer', n'⟩ := found'
    obtain rfl : answer' = answer := hfound
    cases answer' with
    | ok r => exact ⟨rfl, rfl, hafter⟩
    | error e => exact ⟨rfl, rfl, hafter⟩

theorem supply (q : Pipeline) (pageSize start len : Nat) :
    let fresh (m : Machine σ) := m.pin pageSize start len dir
    (q.supply n fresh).1 = (q.supply m fresh).1 ∧ (q.supply n fresh).2.1 = (q.supply m fresh).2.1 ∧
      Q (q.supply m fresh).2.2 (q.supply n fresh).2.2 := by
  have hrotated := h.rotate hm q pageSize start len
  unfold Pipeline.supply
  cases q.active with
  | none => exact hrotated
  | some w =>
    dsimp only
    split
    · exact hrotated
    · exact ⟨rfl, rfl, hm⟩

end Machines

section Stations
variable (hm : Q s.machine t.machine) (hq : t.worker.pipeline = s.worker.pipeline)
include hm hq

/-- Both pipelines become the same one, and nothing else of the workers changes. -/
theorem windowFor (p : Progress) (hd : p.request.direction = dir) :
    (t.windowFor p).1 = (s.windowFor p).1 ∧ ∃ pipeline,
      (s.windowFor p).2.worker = { s.worker with pipeline } ∧
      (t.windowFor p).2.worker = { t.worker with pipeline } ∧
      Q (s.windowFor p).2.machine (t.windowFor p).2.machine := by
  subst hd
  have hsettings : t.settings = s.settings := h.settings hm
  obtain ⟨hfound, hpipeline, hafter⟩ := h.supply hm s.worker.pipeline s.settings.pageSize
    (p.request.host + p.sent) (min p.remaining s.settings.fullWindow)
  unfold Station.windowFor
  dsimp only
  rw [hsettings, hq]
  exact ⟨hfound, _, rfl, congrArg (fun pipeline => { t.worker with pipeline }) hpipeline, hafter⟩

theorem pinAhead (r : Request) (next : Nat) (hd : r.direction = dir) : ∃ pipeline,
    (s.pinAhead r next).worker = { s.worker with pipeline } ∧
    (t.pinAhead r next).worker = { t.worker with pipeline } ∧
    Q (s.pinAhead r next).machine (t.pinAhead r next).machine := by
  subst hd
  have hsettings : t.settings = s.settings := h.settings hm
  have hkept : t.worker = { t.worker with pipeline := s.worker.pipeline } := by rw [← hq]
  unfold Station.pinAhead
  rw [hq, hsettings]
  split
  · exact ⟨_, rfl, hkept, hm⟩
  · obtain ⟨hanswer, hafter⟩ := h.pin hm s.settings.pageSize (r.host + next)
      (min (r.len - next) s.settings.fullWindow)
    dsimp only
    generalize s.machine.pin .. = found at hanswer hafter ⊢
    generalize t.machine.pin .. = found' at hanswer hafter ⊢
    obtain ⟨answer, m⟩ := found
    obtain ⟨answer', n⟩ := found'
    obtain rfl : answer' = answer := hanswer
    cases answer' with
    | ok region => exact ⟨_, rfl, rfl, hafter⟩
    | error e => exact ⟨_, rfl, hkept, hafter⟩

theorem release : ∃ pipeline, s.release.worker = { s.worker with pipeline } ∧
    t.release.worker = { t.worker with pipeline } ∧ Q s.release.machine t.release.machine := by
  obtain ⟨hpipeline, hafter⟩ := h.unpinDone hm s.worker.pipeline
  unfold Station.release
  rw [hq]
  exact ⟨_, rfl, congrArg (fun pipeline => { t.worker with pipeline }) hpipeline, hafter⟩

end Stations
end Machine.LockAlike

/-- Stations with the same rings that find the same window issue the same batch from it, or none for the
same cause. -/
theorem Station.nextBatch_pair {s t : Station σ} {p : Progress} (hring : t.worker.ring = s.worker.ring)
    (hfound : (t.windowFor p).1 = (s.windowFor p).1)
    (hsettings : (t.windowFor p).2.settings = (s.windowFor p).2.settings) :
    (∃ e, s.nextBatch p = (some e, s) ∧ t.nextBatch p = (some e, t)) ∨
    (∃ e, s.nextBatch p = (some e, (s.windowFor p).2) ∧ t.nextBatch p = (some e, (t.windowFor p).2)) ∨
    ∃ start w entries, s.worker.ring.start? p.request.direction = .ok start ∧
      (s.windowFor p).1 = .ok w ∧ w.carve (s.windowFor p).2.settings p.request.direction
        (p.request.device + p.sent) start = .ok entries ∧
      s.nextBatch p = (none, (s.windowFor p).2.hand p start entries) ∧
      t.nextBatch p = (none, (t.windowFor p).2.hand p start entries) := by
  unfold Station.nextBatch
  rw [hring]
  cases s.worker.ring.start? p.request.direction with
  | error e => exact .inl ⟨_, rfl, rfl⟩
  | ok start =>
    generalize s.windowFor p = found at hfound hsettings ⊢
    generalize t.windowFor p = found' at hfound hsettings ⊢
    obtain ⟨answer, s'⟩ := found
    obtain ⟨answer', t'⟩ := found'
    obtain rfl : answer' = answer := hfound
    cases answer' with
    | error e => exact .inr (.inl ⟨_, rfl, rfl⟩)
    | ok w =>
      dsimp only at hsettings ⊢
      rw [hsettings]
      cases hcarve : w.carve s'.settings p.request.direction (p.request.device + p.sent) start with
      | error e => exact .inr (.inl ⟨_, rfl, rfl⟩)
      | ok entries => exact .inr (.inr ⟨start, w, entries, rfl, rfl, hcarve, rfl, rfl⟩)

end ScatterGather
