import ScatterGather.Bench.PageTally
import ScatterGather.Proofs.Tidiness
import ScatterGather.Worker.Crew

/-! # Tasks that a finished channel leaves behind

A task that waits when its channel is finished is never woken, and no poll ends it. Only another worker
can finish the channel then, since the one that waits is not called while its task has it.
-/
namespace ScatterGather

namespace Member
variable {σ : Type} {P : Machine σ → Prop} {machine : Machine σ} {waker : Nat}

theorem call_task (g : Station σ → Station σ) (m : Member) (machine : Machine σ) :
    (m.call g machine).1.task = m.task := by
  unfold call
  split <;> rfl

theorem call_machine {m : Member} {g : Station σ → Station σ} (h : P machine)
    (hg : P (g (m.station machine)).machine) : P (m.call g machine).2 := by
  unfold call
  split
  · exact hg
  · exact h

theorem poll_machine [Platform σ] {m : Member} (h : P machine)
    (hp : ∀ state, P ((m.station machine).poll waker state).2.machine) : P (m.poll waker machine).2 := by
  unfold poll
  split
  · exact h
  · exact hp _

end Member

namespace Crew
variable {σ : Type} {c : Crew σ} {i j : Nat} {m : Member} {state : TaskState} {waker : Nat}
  {f : Member → Machine σ → Member × Machine σ}

theorem meet_of_some (hm : c.members[i]? = some m) : c.meet i f =
    { members := c.members.set i (f m c.machine).1, machine := (f m c.machine).2 } := by
  simp only [meet, hm]

theorem meet_of_none (hm : c.members[i]? = none) : c.meet i f = c := by
  simp only [meet, hm]

theorem meet_machine {P : Machine σ → Prop} (h : P c.machine) (hf : ∀ m, P (f m c.machine).2) :
    P (c.meet i f).machine := by
  unfold meet
  split
  · exact h
  · exact hf _

theorem task?_meet (c : Crew σ) (i j : Nat) (f : Member → Machine σ → Member × Machine σ) :
    (c.meet i f).task? j =
      if i = j then c.members[i]?.bind fun m => (f m c.machine).1.task else c.task? j := by
  cases hm : c.members[i]? with
  | none =>
    rw [meet_of_none hm, task?]
    split
    · next hij => rw [← hij, hm]; rfl
    · rfl
  | some m =>
    have hi := (List.getElem?_eq_some_iff.mp hm).1
    rw [meet_of_some hm, task?, List.getElem?_set]
    split
    · simp
    · rfl

theorem exists_of_task? (h : c.task? i = some state) :
    ∃ m, c.members[i]? = some m ∧ m.task = some state := Option.bind_eq_some_iff.mp h

/-- No call concerns the tasks. -/
theorem task?_call (c : Crew σ) (g : Station σ → Station σ) (i j : Nat) :
    (c.meet j (Member.call g)).task? i = c.task? i := by
  rw [task?_meet]
  split
  · next hij =>
    rw [hij, task?]
    exact congrArg _ (funext fun m => Member.call_task g m c.machine)
  · rfl

theorem create_cases (c : Crew σ) (tableBus : Sides Nat) :
    (c.create tableBus).toOption.getD c = c ∨ c.channel.finished = false ∧ ∃ worker,
      (c.create tableBus).toOption.getD c = { c with members := c.members ++ [{ worker }] } := by
  unfold create Worker.create
  cases c.channel.settings.fault? with
  | some e => exact .inl rfl
  | none =>
    cases hf : c.channel.finished with
    | true => exact .inl rfl
    | false => exact .inr ⟨rfl, _, rfl⟩

theorem task?_create (c : Crew σ) (tableBus : Sides Nat) (i : Nat) :
    ((c.create tableBus).toOption.getD c).task? i = c.task? i := by
  rcases c.create_cases tableBus with he | ⟨-, worker, he⟩ <;> rw [he]
  simp only [task?, List.getElem?_append]
  split
  · rfl
  · next hi =>
    rw [List.getElem?_eq_none (Nat.le_of_not_lt hi)]
    cases i - c.members.length <;> rfl

variable [Platform σ]

theorem task?_poll (c : Crew σ) (i waker : Nat) : (c.act (.poll i waker)).task? i =
    c.members[i]?.bind fun m => m.task.map fun state => ((m.station c.machine).poll waker state).1 := by
  rw [act, task?_meet, if_pos rfl]
  refine congrArg _ (funext fun m => ?_)
  cases ht : m.task <;> simp [Member.poll, ht]

/-- What holds of the machine after whatever an act can do to it, holds after the act. -/
theorem act_induction {P : Machine σ → Prop} {a : CrewAct} (rest : P c.machine)
    (strike : ∀ incident, P (c.machine.incur incident))
    (setPayload : ∀ payload, P (c.mapChannel ({ · with payload })).machine)
    (look : ∀ waker, P (c.mapChannel fun channel => (channel.pollWork waker).2).machine)
    (serve : ∀ m : Member, P (m.station c.machine).serve.2.machine)
    (stop : ∀ m : Member, P (m.station c.machine).stop.machine)
    (finish : ∀ i m, a = .finish i → c.members[i]? = some m → m.task = none →
      P (m.station c.machine).finish.machine)
    (poll : ∀ (m : Member) waker state, P ((m.station c.machine).poll waker state).2.machine) :
    P (c.act a).machine := by
  cases a with
  | strike incident => exact strike incident
  | setPayload payload => exact setPayload payload
  | look waker => exact look waker
  | create tableBus =>
    rcases c.create_cases tableBus with he | ⟨-, worker, he⟩ <;> rw [act, he] <;> exact rest
  | serve i => exact meet_machine rest fun m => Member.call_machine rest (serve m)
  | stop i => exact meet_machine rest fun m => Member.call_machine rest (stop m)
  | finish i =>
    cases hm : c.members[i]? with
    | none => rwa [act, meet_of_none hm]
    | some m =>
      rw [act, meet_of_some hm, Member.call]
      cases ht : m.task with
      | none => exact finish i m rfl hm ht
      | some state => exact rest
  | poll i waker => exact meet_machine rest fun m => Member.poll_machine rest (poll m waker)
  | spawn i => exact meet_machine rest fun _ => rest
  | drop i => exact meet_machine rest fun _ => rest

theorem tidy_act (h : c.channel.Tidy) (a : CrewAct) : (c.act a).channel.Tidy := by
  apply act_induction (P := (·.channel.Tidy))
  case rest => exact h
  case strike => exact h.incur
  case setPayload => exact fun _ => h.same rfl rfl rfl
  case look => exact h.pollWork
  case serve => exact fun m => Channel.Tidy.serve (s := m.station c.machine) h
  case stop => exact fun m => Channel.Tidy.stop (s := m.station c.machine) h
  case finish => exact fun _ m _ _ _ => Channel.Tidy.finish (s := m.station c.machine) h
  case poll => exact fun m => (m.station c.machine).poll_tidy h

theorem act_finish (hm : c.members[i]? = some m) (ht : m.task = none) :
    (c.act (.finish i)).channel.finished = true ∧
      (c.act (.finish i)).channel.waker = c.channel.waker := by
  rw [act, meet_of_some hm, Member.call, ht]
  exact ⟨(m.station c.machine).finish_finished, (m.station c.machine).finish_waker⟩

/-- The channel is finished by a call of a worker that no task has, and by nothing else. -/
theorem finished_act (h : c.channel.Tidy) (a : CrewAct) :
    (c.act a).channel.finished = c.channel.finished ∨
    (c.act a).channel.finished = true ∧
      ∃ i m, a = .finish i ∧ c.members[i]? = some m ∧ m.task = none := by
  apply act_induction (P := fun machine => machine.channel.finished = c.channel.finished ∨
    machine.channel.finished = true ∧
      ∃ i m, a = .finish i ∧ c.members[i]? = some m ∧ m.task = none)
  case rest => exact .inl rfl
  case strike => exact fun incident => .inl (congrArg Prod.fst (c.machine.incur_orders incident))
  case setPayload => exact fun _ => .inl rfl
  case look =>
    intro waker
    obtain ⟨slot, hlook⟩ := WorkerTask.pollWork_frame c.machine.channel waker
    exact .inl (by rw [mapChannel, hlook]; rfl)
  case serve => exact fun m => .inl (m.station c.machine).serve_finished
  case stop =>
    exact fun m => .inl (congrArg Prod.fst (m.worker.pipeline.unpinAll_sees c.machine).orders)
  case finish =>
    exact fun i m ha hm ht => .inr ⟨(m.station c.machine).finish_finished, i, m, ha, hm, ht⟩
  case poll => exact fun m waker state => .inl ((m.station c.machine).poll_finished h waker state)

/-- A task that waits goes on waiting, until it is dropped. -/
theorem waiting_act (h : c.channel.Tidy) (hw : c.task? i = some .waiting) {a : CrewAct}
    (ha : a ≠ .drop i) : (c.act a).task? i = some .waiting := by
  obtain ⟨m, hm, ht⟩ := exists_of_task? hw
  cases a with
  | strike | setPayload | look => exact hw
  | create tableBus => exact (c.task?_create tableBus i).trans hw
  | serve j | stop j | finish j => exact (c.task?_call _ i j).trans hw
  | spawn j =>
    rw [act, task?_meet]
    split
    · next hij => simp [hij, hm, Member.spawn, ht]
    · exact hw
  | poll j waker =>
    by_cases hij : j = i
    · subst hij
      simp [task?_poll, hm, ht, Station.poll_eq (s := m.station c.machine) h]
    · rw [act, task?_meet, if_neg hij]
      exact hw
  | drop j =>
    rw [act, task?_meet, if_neg fun hij => ha (by rw [hij])]
    exact hw

/-- A task comes to wait by a poll, and only while the channel is not finished. -/
theorem waiting_of_act (h : c.channel.Tidy) {a : CrewAct} (hw : (c.act a).task? i = some .waiting) :
    c.task? i = some .waiting ∨ c.channel.finished = false ∧ ∃ waker, a = .poll i waker := by
  cases a with
  | strike | setPayload | look => exact .inl hw
  | create tableBus => exact .inl ((c.task?_create tableBus i).symm.trans hw)
  | serve j | stop j | finish j => exact .inl ((c.task?_call _ i j).symm.trans hw)
  | spawn j =>
    rw [act, task?_meet] at hw
    split at hw
    · next hij =>
      obtain ⟨m, hm, ht⟩ := Option.bind_eq_some_iff.mp hw
      refine .inl (Option.bind_eq_some_iff.mpr ⟨m, hij ▸ hm, ?_⟩)
      cases hs : m.task with
      | none => simp [Member.spawn, hs] at ht
      | some state => simpa [Member.spawn, hs] using ht
    · exact .inl hw
  | poll j waker =>
    by_cases hij : j = i
    · subst hij
      rw [task?_poll] at hw
      obtain ⟨m, hm, hpolled⟩ := Option.bind_eq_some_iff.mp hw
      obtain ⟨state, ht, hwaits⟩ := Option.map_eq_some_iff.mp hpolled
      rw [Station.poll_eq (s := m.station c.machine) h] at hwaits
      split at hwaits
      · cases hwaits
      · next hgoes =>
        cases state with
        | fresh =>
          have hopen : (m.station c.machine).machine.channel.finished = false := by simpa using hgoes
          exact .inr ⟨hopen, waker, rfl⟩
        | waiting => exact .inl (Option.bind_eq_some_iff.mpr ⟨m, hm, ht⟩)
        | done => exact absurd (.inl rfl) hgoes
    · rw [act, task?_meet, if_neg hij] at hw
      exact .inl hw
  | drop j =>
    rw [act, task?_meet] at hw
    split at hw
    · obtain ⟨m, -, ht⟩ := Option.bind_eq_some_iff.mp hw
      cases ht
    · exact .inl hw

theorem length_act (c : Crew σ) (a : CrewAct) : c.members.length ≤ (c.act a).members.length := by
  have hmeet {i : Nat} {f : Member → Machine σ → Member × Machine σ} :
      c.members.length ≤ (c.meet i f).members.length := by
    unfold meet
    split <;> simp
  cases a with
  | strike | setPayload | look => exact Nat.le_refl _
  | create tableBus =>
    rcases c.create_cases tableBus with he | ⟨-, worker, he⟩ <;> simp [act, he]
  | _ => exact hmeet

/-- On a finished channel nothing that happens wakes anyone. -/
theorem woken_act (h : c.channel.Tidy) (hf : c.channel.finished = true) (a : CrewAct) :
    (c.act a).channel.waker.woken = c.channel.waker.woken := by
  apply act_induction (P := (·.channel.waker.woken = c.channel.waker.woken))
  case rest => rfl
  case strike =>
    exact fun incident => congrArg (·.woken) (Machine.incur_waker_of_finished h hf incident)
  case setPayload => exact fun _ => rfl
  case look =>
    exact fun waker => congrArg (·.waker.woken) (WorkerTask.pollWork_of_empty (h.empty hf) waker)
  case serve =>
    intro m
    rw [Station.serve_of_finished (s := m.station c.machine) h hf]
    rfl
  case stop => exact fun m => congrArg (·.woken) (m.worker.pipeline.unpinAll_sees c.machine).waker
  case finish =>
    exact fun _ m _ _ _ => congrArg (·.woken) (m.station c.machine).finish_waker
  case poll =>
    intro m waker state
    rw [Station.poll_of_finished (s := m.station c.machine) h hf]
    split <;> rfl

/-- What each of the acts keeps, all of them keep. -/
theorem run_induction {P : Crew σ → Prop} {acts : List CrewAct}
    (hact : ∀ d, ∀ a ∈ acts, P d → P (d.act a)) (h : P c) : P (c.run acts) := by
  induction acts generalizing c with
  | nil => exact h
  | cons a acts ih =>
    exact ih (fun d b hb => hact d b (List.mem_cons_of_mem _ hb)) (hact c a List.mem_cons_self h)

/-- A lone worker is not finished while its task waits. -/
def Alone (c : Crew σ) : Prop :=
  c.members.length ≤ 1 → c.channel.finished = true → ∀ i, c.task? i ≠ some .waiting

theorem Alone.act (h : c.Alone) (ht : c.channel.Tidy) (a : CrewAct) : (c.act a).Alone := by
  intro hlen hf i hw
  have hlone : c.members.length ≤ 1 := Nat.le_trans (c.length_act a) hlen
  rcases waiting_of_act ht hw with hbefore | ⟨hopen, waker, rfl⟩
  · rcases finished_act ht a with hsame | ⟨-, j, m, rfl, hm, hfree⟩
    · exact h hlone (hsame ▸ hf) i hbefore
    · -- the worker that is finished and the one whose task waits are the same one
      obtain ⟨m', hm', hwaits⟩ := exists_of_task? hbefore
      have hi := (List.getElem?_eq_some_iff.mp hm').1
      have hj := (List.getElem?_eq_some_iff.mp hm).1
      obtain rfl : i = j := by omega
      rw [hm, Option.some.injEq] at hm'
      rw [← hm', hfree] at hwaits
      cases hwaits
  · rcases finished_act ht (.poll i waker) with hsame | ⟨-, _, _, hfinish, -⟩
    · cases hopen.symm.trans (hsame ▸ hf)
    · cases hfinish

/-- How the tasks of a crew end, and what becomes of those that wait when the channel is finished. -/
structure Strands (c : Crew σ) : Prop where
  /-- A poll ends a task that was never polled before if the channel is finished, and no other. -/
  ends : ∀ i waker state, c.task? i = some state → ((c.act (.poll i waker)).task? i = some .done ↔
    state = .done ∨ state = .fresh ∧ c.channel.finished = true)
  fresh : c.channel.finished = true → ∀ i waker, c.task? i = some .fresh →
    c.act (.poll i waker) = { c with members := c.members.modify i ({ · with task := some .done }) }
  /-- Polled again, a task that waits only leaves its waker behind. -/
  waiting : c.channel.finished = true → ∀ i waker, c.task? i = some .waiting →
    c.act (.poll i waker) = c.mapChannel fun channel =>
      { channel with waker := channel.waker.register waker }
  stranded : ∀ i later, c.task? i = some .waiting → .drop i ∉ later →
    (c.run later).task? i = some .waiting
  /-- Finishing wakes nobody, and the waker that is registered stays where it is. -/
  finish : ∀ i m, c.members[i]? = some m → m.task = none →
    (c.act (.finish i)).channel.finished = true ∧
    (c.act (.finish i)).channel.waker = c.channel.waker
  unwoken : c.channel.finished = true → ∀ later, (c.run later).channel.finished = true ∧
    (c.run later).channel.waker.woken = c.channel.waker.woken
  alone : c.Alone

theorem strands (h : c.channel.Tidy) (halone : c.Alone) : c.Strands := by
  constructor
  case ends =>
    intro i waker state hs
    obtain ⟨m, hm, ht⟩ := exists_of_task? hs
    rw [task?_poll, hm, Option.bind_some, ht, Option.map_some,
      Station.poll_eq (s := m.station c.machine) h, Option.some.injEq]
    split
    · next hends => exact ⟨fun _ => hends, fun _ => rfl⟩
    · next hgoes => exact ⟨nofun, fun hends => absurd hends hgoes⟩
  case fresh =>
    intro hf i waker hs
    obtain ⟨m, hm, ht⟩ := exists_of_task? hs
    rw [act, meet_of_some hm, Member.poll, ht, List.modify_eq_set_getElem?, hm]
    simp only [Station.poll_of_finished (s := m.station c.machine) h hf]
    rfl
  case waiting =>
    intro hf i waker hs
    obtain ⟨m, hm, ht⟩ := exists_of_task? hs
    obtain ⟨hi, rfl⟩ := List.getElem?_eq_some_iff.mp hm
    have hmembers : c.members.set i { worker := c.members[i].worker, task := some .waiting } =
        c.members := by rw [← ht, List.set_getElem_self]
    rw [act, meet_of_some hm, Member.poll, ht]
    simp only [Station.poll_of_finished (s := c.members[i].station c.machine) h hf, if_true]
    exact congrArg (Crew.mk · _) hmembers
  case stranded =>
    intro i later hw hkept
    refine (run_induction (P := fun d => d.channel.Tidy ∧ d.task? i = some .waiting) ?_ ⟨h, hw⟩).2
    rintro d a ha ⟨htidy, hwaits⟩
    exact ⟨tidy_act htidy a, waiting_act htidy hwaits fun hdrop => hkept (hdrop ▸ ha)⟩
  case finish =>
    exact fun i m => act_finish
  case unwoken =>
    intro hf later
    refine (run_induction (P := fun d => d.channel.Tidy ∧ d.channel.finished = true ∧
      d.channel.waker.woken = c.channel.waker.woken) ?_ ⟨h, hf, rfl⟩).2
    rintro d a - ⟨htidy, hfinished, hwoken⟩
    refine ⟨tidy_act htidy a, ?_, (woken_act htidy hfinished a).trans hwoken⟩
    rcases finished_act htidy a with hsame | ⟨hnow, -⟩
    · exact hsame.trans hfinished
    · exact hnow
  case alone => exact halone

/-- So it is in every run of any number of workers on one channel, however they are called and polled,
and whatever strikes. -/
theorem crew_strands (settings : Settings) (registers : RegisterFile) (platform : σ)
    (listener : List (List Incident)) (acts : List CrewAct) :
    ((Crew.initial settings registers platform listener).run acts).Strands := by
  let first := Crew.initial settings registers platform listener
  obtain ⟨htidy, halone⟩ : (first.run acts).channel.Tidy ∧ (first.run acts).Alone := by
    refine run_induction (P := fun d => d.channel.Tidy ∧ d.Alone) ?_
      ⟨Channel.Tidy.initial settings, fun _ hf => by cases hf⟩
    rintro d a - ⟨ht, hd⟩
    exact ⟨tidy_act ht a, hd.act ht a⟩
  exact strands htidy halone

/-- Two workers, of which the first runs as a task and waits, and is polled again after the second was
finished and a request was refused. -/
theorem crew_strands_tally :
    let c := (Crew.initial {} .reset ({} : Bench.PageTally) []).run
      [.create (.both 0), .create (.both 0), .spawn 0, .poll 0 7, .finish 1]
    let later : List CrewAct := [.strike (.submit ⟨.hostToDevice, 4096, 0, 4⟩), .strike (.interrupt 0),
      .look 3, .finish 1, .poll 0 9]
    (c.run later).task? 0 = some .waiting ∧
      (c.run later).channel.waker.woken = c.channel.waker.woken := by
  intro c later
  have hstrands : c.Strands := crew_strands {} .reset ({} : Bench.PageTally) [] _
  exact ⟨hstrands.stranded 0 later (by decide +kernel) (by decide),
    (hstrands.unwoken (by decide +kernel) later).2⟩

/-- A task that never ends: it waits, another worker is finished, and the waker that it left behind is
not called. Polled all the same, it waits again. -/
theorem waiting_task_stranded :
    let c := (Crew.initial {} .reset ({} : Bench.PageTally) []).run
      [.create (.both 0), .create (.both 0), .spawn 0, .poll 0 7]
    let d := c.act (.finish 1)
    c.task? 0 = some .waiting ∧ c.channel.waker.registered = some 7 ∧ d.channel.finished = true ∧
      d.channel.waker.woken = [] ∧ (d.act (.poll 0 7)).task? 0 = some .waiting := by
  decide +kernel

end Crew
end ScatterGather
