import ScatterGather.Proofs.Drains
import ScatterGather.Proofs.Windows

/-! # The jobs of a service

A service handles jobs one after the other, as it finds them in the queue, until it finds none. `Serves`
tells how far it got after so many jobs, whatever limit it was given. Each job is about a transfer, and
with the job in hand the worker knows at which byte it goes on.
-/
namespace ScatterGather

def Job.errand : Job → Errand
  | start _ => .start
  | advance => .advance

namespace Station
variable {σ : Type}

/-- The transfer that a job is about, as far as it has got. -/
def progressOf (s : Station σ) : Job → Option Progress
  | .start r => some { request := r }
  | .advance => s.worker.transfer

/-- The job was taken, and the next batch of its transfer is due. -/
def due (s : Station σ) : Job → Station σ
  | .start r => s.takeWork.2.begin r
  | .advance => s.takeWork.2

theorem due_pipeline (s : Station σ) (job : Job) : (s.due job).worker.pipeline = s.worker.pipeline := by
  cases job <;> rfl

theorem due_settings (s : Station σ) (job : Job) : (s.due job).settings = s.settings := by
  cases job <;> rfl

variable [Platform σ]

/-- After `n` jobs, each of them found in the queue, the first station has become the last one. -/
inductive Serves : Station σ → Nat → Station σ → Prop
  | none (s) : Serves s 0 s
  | next {s n t} (job) : s.takeWork.1 = some job → Serves (s.takeWork.2.handle job) n t →
      Serves s (n + 1) t

end Station

section Items
variable {σ : Type} [Platform σ] {s t : Station σ} {n : Nat} {job : Job} {st : Settings}

/-- A service that is allowed to goes on from where some jobs have led. -/
theorem Station.Serves.serveUpTo (h : s.Serves n t) (limit : Nat) :
    s.serveUpTo (n + limit) = ((t.serveUpTo limit).1 + n, (t.serveUpTo limit).2) := by
  induction h with
  | none s => rw [Nat.zero_add, Nat.add_zero]
  | @next s n t job hj _ ih =>
    have htake : s.takeWork = (some job, s.takeWork.2) := Prod.ext hj rfl
    rw [Nat.add_right_comm, Station.serveUpTo, htake]
    simp only [ih, Nat.add_assoc]

theorem Station.Serves.path (h : s.Serves n t) :
    Path (fun _ => True) (fun _ _ => True) (.ready, s) (.ready, t) := by
  induction h with
  | none s => exact .refl
  | next job hj _ ih =>
    exact (Path.handled hj).trans ih

theorem Station.Serves.workload (hs : s.settings.Valid) (hsmall : s.settings.pageSize < 2 ^ 34)
    (hc : Control s.view .ready) (h : s.Serves n t) : t.workload + n ≤ s.workload := by
  induction h with
  | none s => exact Nat.le_refl _
  | @next s n t job hj _ ih =>
    have hlower := Station.handle_workload hs hsmall hc hj
    obtain ⟨hcontrol, hsettings⟩ := hc.handle hs hj
    have hrest := ih (hsettings ▸ hs) (hsettings ▸ hsmall) hcontrol
    omega

omit [Platform σ] in
theorem Station.takeWork_of_none (hc : Control s.view .ready) (hn : s.takeWork.1 = none) :
    s.takeWork = (none, s) := by
  have hw : s.machine.channel.work.Holds [] := by
    have hqueue := hc.queue
    rwa [hn] at hqueue
  exact takeWork_nil hw

theorem Station.serveUpTo_serves (hs : s.settings.Valid) (hc : Control s.view .ready) (limit : Nat) :
    s.Serves (s.serveUpTo limit).1 (s.serveUpTo limit).2 := by
  induction limit generalizing s with
  | zero => exact .none s
  | succ limit ih =>
    unfold Station.serveUpTo
    cases hj : s.takeWork.1 with
    | none =>
      rw [takeWork_of_none hc hj]
      exact .none s
    | some job =>
      have htake : s.takeWork = (some job, s.takeWork.2) := Prod.ext hj rfl
      obtain ⟨hcontrol, hsettings⟩ := hc.handle hs hj
      rw [htake]
      exact .next job hj (ih (hsettings ▸ hs) hcontrol)

omit [Platform σ] in
/-- An advance finds its transfer, and whichever job it is, the next batch is due. -/
theorem Control.due (hc : Control s.view .ready) (hj : s.takeWork.1 = some job) :
    ∃ p, s.progressOf job = some p ∧ (s.due job).view.Poised job.errand p := by
  cases job with
  | start r => exact ⟨_, rfl, hc.begin hj⟩
  | advance =>
    obtain ⟨p, hp⟩ := Option.ne_none_iff_exists'.mp (hc.not_stale hj)
    exact ⟨p, hp, hc.resume hj hp⟩

theorem Path.due {p : Progress} (hj : s.takeWork.1 = some job) (hp : s.progressOf job = some p) :
    Path (fun _ => True) (fun _ _ => True) (.ready, s) (.due job.errand p, s.due job) := by
  cases job with
  | start r =>
    cases hp
    exact .single (.begin hj)
  | advance => exact .single (.resume hj hp)

theorem Station.handle_eq (s : Station σ) (job : Job) : s.takeWork.2.handle job = match job with
    | .start _ => (s.due job).advance
    | .advance => (s.due job).advance.mapChannel Channel.closeAdvance := by
  cases job <;> rfl

/-- What is known of a worker that looks for the next job. -/
structure Station.Fit (st : Settings) (s : Station σ) : Prop where
  settings : s.settings = st
  control : Control s.view .ready
  windows : Windows (fun _ _ => True) st s.worker .ready

namespace Station.Fit

theorem run (hs : st.Valid) (tableBus : Sides Nat) (registers : RegisterFile) (platform : σ)
    (listener : List (List Incident)) (acts : List Act) :
    ((Station.initial st tableBus registers platform listener).run acts).Fit st := by
  let first := Station.initial st tableBus registers platform listener
  have hrun := Path.everyRun first acts
  have hcontrol : Control first.view .rest := Control.initial ..
  obtain ⟨hc, hsettings⟩ := Path.control (x := (.rest, first)) hs hcontrol hrun
  exact ⟨hsettings, hc, Path.windows (Q := fun _ _ => True) (x := (.rest, first)) hs
    (fun _ _ _ => trivial) rfl hcontrol nofun hrun⟩

theorem serves (hs : st.Valid) (h : s.Fit st) (hserves : s.Serves n t) : t.Fit st := by
  have hvalid := h.settings.symm ▸ hs
  obtain ⟨hc, hsettings⟩ := Path.control hvalid h.control hserves.path
  exact ⟨hsettings.trans h.settings, hc, Path.windows hs (fun _ _ _ => trivial) h.settings
    h.control h.windows hserves.path⟩

/-- The worker has taken a job, and knows where its transfer goes on. -/
theorem due (hs : st.Valid) (h : s.Fit st) (hj : s.takeWork.1 = some job) : ∃ p, s.progressOf job = some p ∧
      (s.due job).view.Poised job.errand p ∧
      Windows (fun _ _ => True) st (s.due job).worker (.due job.errand p) := by
  obtain ⟨p, hp, hpoised⟩ := h.control.due hj
  exact ⟨p, hp, hpoised, Path.windows hs (fun _ _ _ => trivial) h.settings h.control h.windows
    (Path.due hj hp)⟩

end Station.Fit
end Items
end ScatterGather
