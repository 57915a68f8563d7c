import ScatterGather.Proofs.Halts
import ScatterGather.Proofs.Wakes

/-! # Polls of a finished channel

A task looks whether the channel is finished before it waits, and again after it has served. While it
waits it knows of the queue alone, and on a finished channel the queue stays empty.
-/
namespace ScatterGather

namespace Channel
variable {c d : Channel} {job : Job}

/-- The queue holds a list of jobs. On a finished channel nothing is queued, and none can be. -/
structure Tidy (c : Channel) : Prop where
  holds : ∃ jobs, c.work.Holds jobs
  finished : c.finished = true → c.idle = true ∧ c.work.Holds []

namespace Tidy

theorem initial (settings : Settings) : (ofSettings settings).Tidy :=
  ⟨⟨[], BoundedQueue.holds_empty⟩, nofun⟩

theorem same (h : c.Tidy) (hw : d.work = c.work) (hi : d.idle = c.idle)
    (hf : d.finished = c.finished) : d.Tidy := by
  constructor
  · rw [hw]
    exact h.holds
  · rw [hw, hi, hf]
    exact h.finished

/-- A full queue takes no job, and so there is no need to know whether it is full. -/
theorem push (h : c.Tidy) (hw : d.work = c.work.push job) (hopen : d.finished = false) : d.Tidy := by
  refine ⟨?_, fun hf => by cases hopen.symm.trans hf⟩
  obtain ⟨jobs, hjobs⟩ := h.holds
  rw [hw]
  by_cases hfull : jobs.length = workDepth
  · refine ⟨jobs, ?_⟩
    simpa [BoundedQueue.push, hjobs.isFull, hfull] using hjobs
  · exact ⟨_, hjobs.push (Nat.lt_of_le_of_ne hjobs.fits hfull) job⟩

theorem opened (h : c.Tidy) (hi : c.idle = false) : c.finished = false := by
  cases hf : c.finished with
  | false => rfl
  | true => cases hi.symm.trans (h.finished hf).1

theorem empty (h : c.Tidy) (hf : c.finished = true) : c.work.isEmpty = true := (h.finished hf).2.isEmpty

theorem submit (h : c.Tidy) (r : Request) : (c.submit r).2.Tidy := by
  rcases c.submit_cases r with ⟨e, he⟩ | ⟨-, -, he⟩ | ⟨-, -, hopen, he⟩ <;> rw [he]
  · exact h
  · exact h.same rfl rfl rfl
  · exact h.push rfl hopen

theorem interrupt (h : c.Tidy) (status : UInt32) : (c.interrupt status).2.Tidy := by
  rcases c.interrupt_cases status with he | ⟨hi, -, -, he⟩ <;> rw [he]
  · exact h
  · exact h.push rfl (h.opened hi)

theorem closeAdvance (h : c.Tidy) : c.closeAdvance.Tidy := by
  rcases c.closeAdvance_cases with he | ⟨hi, -, he⟩ <;> rw [he]
  · exact h.same rfl rfl rfl
  · exact h.push rfl (h.opened hi)

theorem takeWork (h : c.Tidy) : c.takeWork.2.Tidy := by
  constructor
  · obtain ⟨jobs, hjobs⟩ := h.holds
    cases jobs with
    | nil => exact ⟨[], by rwa [Channel.takeWork, hjobs.pop_nil]⟩
    | cons job jobs =>
      obtain ⟨rest, hpop, hrest⟩ := hjobs.pop_cons
      exact ⟨jobs, by rwa [Channel.takeWork, hpop]⟩
  · intro hf
    obtain ⟨hi, hw⟩ := h.finished hf
    exact ⟨hi, by rwa [Channel.takeWork, hw.pop_nil]⟩

theorem pollWork (h : c.Tidy) (task : Nat) : (c.pollWork task).2.Tidy := by
  obtain ⟨waker, he⟩ := WorkerTask.pollWork_frame c task
  rw [he]
  exact h.same rfl rfl rfl

/-- Whoever settles the channel makes it idle, and that is all that a finished channel asks for. -/
theorem settle (h : c.Tidy) : c.settle.Tidy := ⟨h.holds, fun hf => ⟨rfl, (h.finished hf).2⟩⟩

variable {σ : Type} {m m' : Machine σ} {events : List Event}

theorem sees (h : m.channel.Tidy) (hm : m.Sees events m') : m'.channel.Tidy := by
  obtain ⟨⟨n, he⟩, -, -⟩ := hm
  rw [he]
  exact h.same rfl rfl rfl

theorem incur (h : m.channel.Tidy) (i : Incident) : (m.incur i).channel.Tidy := by
  cases i with
  | complete dir =>
    simp only [Machine.incur]
    split
    · exact h.same rfl rfl rfl
    · exact h
  | flag => exact h.same rfl rfl rfl
  | interrupt status => exact h.interrupt status
  | submit r => exact h.submit r

end Tidy
end Channel

/-- Nothing that strikes wakes anyone. -/
theorem Machine.incur_waker_of_finished {σ : Type} {m : Machine σ} (h : m.channel.Tidy)
    (hf : m.channel.finished = true) (i : Incident) :
    (m.incur i).channel.waker = m.channel.waker := by
  cases i with
  | complete dir =>
    simp only [Machine.incur]
    split <;> rfl
  | flag => rfl
  | interrupt status =>
    have hpasses := Channel.interrupt_of_idle (h.finished hf).1 status
    exact congrArg (fun handled => handled.2.waker) hpasses
  | submit r => exact congrArg (fun answer => answer.2.waker) (Channel.submit_of_finished hf r)

section Stations
variable {σ : Type} {s : Station σ} {waker : Nat} {state : TaskState}

theorem View.Vacant.tidy {opened : Bool} (h : s.view.Vacant opened) : s.machine.channel.Tidy :=
  ⟨⟨[], h.work⟩, fun _ => ⟨h.idle, h.work⟩⟩

variable [Platform σ] {A : Incident → Prop} {H : Act → Worker → Prop} {x y : Juncture × Station σ}

namespace Channel.Tidy

theorem stop (h : s.machine.channel.Tidy) : s.stop.machine.channel.Tidy := by
  obtain ⟨jobs, hjobs⟩ := h.holds
  exact (Station.stop_vacant hjobs).tidy

theorem finish (h : s.machine.channel.Tidy) : s.finish.machine.channel.Tidy := by
  obtain ⟨jobs, hjobs⟩ := h.holds
  exact (Station.finish_vacant hjobs).tidy

/-- Whoever else works on the channel, each step of a worker keeps it tidy. -/
theorem step (hstep : Step A H x y) (h : x.2.machine.channel.Tidy) : y.2.machine.channel.Tidy := by
  cases hstep with
  | strike => exact h.incur _
  | interrupt status => exact h.interrupt status
  | stop => exact h.stop
  | finish => exact h.finish
  | drained | begin | resume | stale => exact h.takeWork
  | @turn k p s => exact h.sees (s.worker.pipeline.unpinDone_sees s.machine)
  | @release k p s => exact h.sees (s.worker.pipeline.unpinDone_sees s.machine)
  | issue =>
    exact Ring.stage_induction (P := (·.channel.Tidy)) _ (fun _ _ _ _ hm => hm)
      (fun _ i hm => hm.incur i) (fun _ _ hm => hm.same rfl rfl rfl)
      (fun _ _ hm => hm.same rfl rfl rfl) _ _ _ (h.same rfl rfl rfl)
  | @complete k p s => exact (h.sees (s.worker.pipeline.unpinAll_sees s.machine)).settle
  | @fail k cause s => exact (h.sees (s.worker.pipeline.unpinAll_sees s.machine)).settle
  | closeAdvance => exact h.closeAdvance
  | _ => exact h.same rfl rfl rfl

theorem path (hpath : Path A H x y) (h : x.2.machine.channel.Tidy) : y.2.machine.channel.Tidy := by
  induction hpath with
  | refl => exact h
  | tail _ hstep ih => exact ih.step hstep

theorem serve (h : s.machine.channel.Tidy) : s.serve.2.machine.channel.Tidy :=
  path (x := (.rest, s)) (Path.everyRun s [.serve]) h

end Channel.Tidy

namespace Station

theorem finish_finished (s : Station σ) : s.finish.machine.channel.finished = true :=
  congrArg Prod.fst (s.worker.pipeline.unpinAll_sees
    (s.mapChannel ({ · with finished := true })).machine).orders

/-- Finishing leaves the waker where it is. -/
theorem finish_waker (s : Station σ) : s.finish.machine.channel.waker = s.machine.channel.waker :=
  (s.worker.pipeline.unpinAll_sees (s.mapChannel ({ · with finished := true })).machine).waker

theorem serve_of_finished (h : s.machine.channel.Tidy) (hf : s.machine.channel.finished = true) :
    s.serve = (0, s) := serveUpTo_nil (h.finished hf).2 _

theorem awaitWork_of_tidy (h : s.machine.channel.Tidy) (waker : Nat) : s.awaitWork waker =
    (.waiting, s.serve.2.mapChannel fun c => (c.pollWork waker).2) := by
  refine awaitWork_eq (fun hempty => ?_) (fun hwork => ?_) waker
  · obtain ⟨jobs, hjobs⟩ := h.holds
    obtain rfl : jobs = [] := by simpa [hempty] using hjobs.isEmpty.symm
    exact serveUpTo_nil hjobs _
  · rw [← Bool.not_eq_true]
    exact fun hf => by cases hwork.symm.trans (h.empty hf)

/-- A poll ends a task that was never polled before if the channel is finished, and no other. -/
theorem poll_eq (h : s.machine.channel.Tidy) (waker : Nat) (state : TaskState) : s.poll waker state =
    if state = .done ∨ state = .fresh ∧ s.machine.channel.finished = true then (.done, s)
    else (.waiting, s.serve.2.mapChannel fun c => (c.pollWork waker).2) := by
  cases state with
  | fresh => cases hf : s.machine.channel.finished <;> simp [poll, hf, awaitWork_of_tidy h]
  | waiting => exact awaitWork_of_tidy h waker
  | done => rfl

theorem poll_tidy (h : s.machine.channel.Tidy) (waker : Nat) (state : TaskState) :
    (s.poll waker state).2.machine.channel.Tidy := by
  rw [poll_eq h]
  split
  · exact h
  · exact h.serve.pollWork waker

theorem poll_finished (h : s.machine.channel.Tidy) (waker : Nat) (state : TaskState) :
    (s.poll waker state).2.machine.channel.finished = s.machine.channel.finished := by
  rw [poll_eq h]
  split
  · rfl
  · obtain ⟨slot, hlook⟩ := WorkerTask.pollWork_frame s.serve.2.machine.channel waker
    rw [mapChannel, hlook]
    exact s.serve_finished

theorem poll_of_finished (h : s.machine.channel.Tidy) (hf : s.machine.channel.finished = true)
    (waker : Nat) (state : TaskState) : s.poll waker state =
      if state = .waiting then
        (.waiting, s.mapChannel fun c => { c with waker := c.waker.register waker })
      else (.done, s) := by
  cases state with
  | fresh => simp [poll, hf]
  | waiting =>
    rw [if_pos rfl, show s.poll waker .waiting = _ from awaitWork_of_tidy h waker, serve_of_finished h hf,
      mapChannel, WorkerTask.pollWork_of_empty (h.empty hf)]
    rfl
  | done => rfl

end Station
end Stations

end ScatterGather
