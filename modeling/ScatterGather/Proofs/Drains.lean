import ScatterGather.Proofs.Control

/-! # A service drains the queue

Every job that is handled describes a word at least, or ends the transfer, and no more requests are
brought in than the listener has yet to submit. So the workload is a bound on the jobs, and the service
that is given it returns with an empty queue.
-/
namespace ScatterGather

def Channel.load (c : Channel) : Nat := (c.work.toList.map Job.workload).sum

def Progress.load (p : Progress) : Nat := p.remaining / wordBytes + 1

def incidentLoad (incidents : List Incident) : Nat := (incidents.map Incident.workload).sum

theorem Job.workload_pos (job : Job) : 0 < job.workload := by
  cases job with
  | start r => exact Nat.succ_pos _
  | advance => decide

section Loads
variable {σ : Type} {c : Channel} {s : Station σ} {k : Errand} {p : Progress} {opened : Bool}

theorem Channel.load_of_holds {jobs : List Job} (h : c.work.Holds jobs) :
    c.load = (jobs.map Job.workload).sum := by
  rw [load, h.toList]

/-- What the listener has yet to submit. -/
def Machine.listenerLoad (m : Machine σ) : Nat := incidentLoad m.listener.flatten

theorem Machine.listenerLoad_eq (m : Machine σ) :
    m.listenerLoad = incidentLoad (m.listener.headD []) + incidentLoad m.listener.tail.flatten := by
  unfold listenerLoad incidentLoad
  cases m.listener with
  | nil => rfl
  | cons reaction rest =>
    rw [List.flatten_cons, List.map_append, List.sum_append]
    rfl

theorem Station.workload_eq [Platform σ] (s : Station σ) : s.workload =
    s.machine.channel.load + (s.worker.transfer.map Progress.load).getD 0 + s.machine.listenerLoad := by
  simp only [workload, Channel.load, Machine.listenerLoad, incidentLoad, List.sum_eq_foldl_nat]
  rfl

/-- An incident adds to the load what it submits. -/
theorem View.Between.strike_load (h : s.view.Between opened) (i : Incident) :
    (s.strike i).machine.channel.load ≤ s.machine.channel.load + i.workload := by
  cases i with
  | complete dir =>
    simp only [Station.strike, Machine.incur]
    split <;> exact Nat.le_add_right _ _
  | flag => exact Nat.le_add_right _ _
  | interrupt status =>
    simp only [Station.strike, Machine.incur]
    rcases s.machine.channel.interrupt_cases status with he | ⟨-, hc, -⟩
    · rw [he]
      exact Nat.le_add_right _ _
    · cases hc.symm.trans (Channel.not_completed_of_issued h.issued)
  | submit r =>
    simp only [Station.strike, Machine.incur]
    rcases s.machine.channel.submit_cases r with ⟨e, he⟩ | ⟨-, -, he⟩ | ⟨hidle, -, -, he⟩
    · rw [he]
      exact Nat.le_add_right _ _
    · rw [he]
      exact Nat.le_add_right _ _
    · rcases h with hv | ⟨r', hq⟩
      · have hwork : (s.machine.channel.work.push (.start r)).Holds [.start r] :=
          hv.work.push (by decide) _
        have hload : (s.machine.channel.submit r).2.load = r.workload := by
          rw [he]
          exact congrArg (fun l => (List.map Job.workload l).sum) hwork.toList
        exact Nat.le_trans (Nat.le_of_eq hload) (Nat.le_add_left _ _)
      · cases hidle.symm.trans hq.idle

theorem View.Between.strikeAll_load (h : s.view.Between opened) (incidents : List Incident) :
    (s.strikeAll incidents).machine.channel.load ≤ s.machine.channel.load + incidentLoad incidents := by
  induction incidents generalizing s with
  | nil => exact Nat.le_add_right _ _
  | cons i rest ih =>
    calc
      (s.strikeAll (i :: rest)).machine.channel.load ≤
          (s.strike i).machine.channel.load + incidentLoad rest := ih (h.strike i)
      _ ≤ s.machine.channel.load + i.workload + incidentLoad rest :=
        Nat.add_le_add_right (h.strike_load i) _
      _ = s.machine.channel.load + incidentLoad (i :: rest) := by
        rw [incidentLoad, incidentLoad, List.map_cons, List.sum_cons, Nat.add_assoc]

theorem View.Running.load (h : s.view.Running k p) : s.machine.channel.load ≤ 1 := by
  rcases h.pending with ⟨hw, -⟩ | ⟨-, hw, -⟩ <;> rw [Channel.load_of_holds hw] <;> decide

/-- A batch of a word or more lowers the load of its transfer. -/
theorem View.Engaged.past_load {entries : List Entry} (h : s.view.Engaged p) (hr : p.remaining ≠ 0)
    (ht : wordBytes ≤ Entry.total entries) : (p.past entries).load < p.load := by
  have hsent : wordBytes ∣ p.sent := h.sent ▸ Account.wordBytes_dvd_bytes _
  have hleft : wordBytes ∣ p.remaining := Nat.dvd_sub (Nat.dvd_of_mod_eq_zero h.aligned.1) hsent
  have hpast : (p.past entries).remaining = p.remaining - Entry.total entries := Nat.sub_add_eq _ _ _
  obtain ⟨words, hwords⟩ := hleft
  simp only [Progress.load, hpast, wordBytes] at *
  omega

end Loads

section Services
variable {σ : Type} [Platform σ] {A : Incident → Prop} {H : Act → Worker → Prop}
  {x y : Juncture × Station σ} {s : Station σ} {k : Errand} {p : Progress}

omit [Platform σ] in
theorem Station.takeWork_nil (h : s.machine.channel.work.Holds []) : s.takeWork = (none, s) := by
  simp only [takeWork, Channel.takeWork, h.pop_nil]
  rfl

theorem Station.serveUpTo_nil (h : s.machine.channel.work.Holds []) (limit : Nat) :
    s.serveUpTo limit = (0, s) := by
  cases limit with
  | zero => rfl
  | succ limit => simp only [serveUpTo, takeWork_nil h]

/-- Where the queue is empty a service does nothing. -/
theorem Station.serveUpTo_of_empty (hc : Control s.view .rest)
    (h : s.machine.channel.work.isEmpty = true) (limit : Nat) : s.serveUpTo limit = (0, s) := by
  obtain ⟨jobs, hjobs⟩ := hc.holds
  have hnil : jobs = [] := by
    have hempty := hjobs.isEmpty
    rw [show s.view.posture.work.isEmpty = true from h] at hempty
    exact List.isEmpty_iff.mp hempty.symm
  exact serveUpTo_nil (hnil ▸ hjobs) limit

theorem Path.listenerLoad (h : Path A H x y) : y.2.machine.listenerLoad ≤ x.2.machine.listenerLoad := by
  induction h with
  | refl => exact Nat.le_refl _
  | @tail u v _ hstep ih =>
    refine Nat.le_trans ?_ ih
    rcases hstep.listener with hl | hl
    · exact Nat.le_of_eq (congrArg (fun l : List (List Incident) => incidentLoad l.flatten) hl)
    · rw [u.2.machine.listenerLoad_eq, Machine.listenerLoad, hl]
      exact Nat.le_add_left _ _

/-- What the station has to bear after a transfer that was due: the requests of the listener, or what
the transfer has left. -/
def Station.Eased (s : Station σ) (p : Progress) (t : Station σ) : Prop :=
  (t.worker.transfer = none ∧
    t.machine.channel.load + t.machine.listenerLoad ≤ s.machine.listenerLoad) ∨
  ∃ q, t.worker.transfer = some q ∧ q.load < p.load ∧ t.machine.listenerLoad ≤ s.machine.listenerLoad

/-- The listener brings in at most the requests of one reaction. -/
theorem Station.notified_load (hc : s.view.Poised k p) (phase : Phase) (outcome : Outcome) :
    s.Eased p { s.reset phase with machine := (s.reset phase).machine.notify outcome } := by
  have hlistener : (s.reset phase).machine.listener = s.machine.listener := s.reset_listener phase
  have hbetween : (s.tell phase outcome).view.Between k.opened := .inl (hc.tell phase outcome)
  have hload := hbetween.strikeAll_load (s.machine.listener.headD [])
  rw [Channel.load_of_holds (hc.tell phase outcome).work, List.map_nil, List.sum_nil, Nat.zero_add] at hload
  have hstruck : (s.tell phase outcome).strikeAll (s.machine.listener.headD []) =
      { s.reset phase with machine := (s.reset phase).machine.notify outcome } := by
    rw [strikeAll_eq, Machine.notify_eq, hlistener]
    rfl
  rw [← hstruck]
  left
  have htail : ((s.tell phase outcome).strikeAll (s.machine.listener.headD [])).machine.listenerLoad =
      incidentLoad s.machine.listener.tail.flatten := by
    rw [strikeAll_eq, Machine.listenerLoad, Machine.incurAll_listener, ← hlistener]
    rfl
  constructor
  · rw [strikeAll_eq]
    rfl
  · rw [htail, s.machine.listenerLoad_eq]
    exact Nat.add_le_add_right hload _

/-- A transfer that is due is ended, or goes on with less. -/
theorem Station.advance_eased (hs : s.settings.Valid) (hsmall : s.settings.pageSize < 2 ^ 34)
    (hc : s.view.Poised k p) : s.Eased p s.advance := by
  have htransfer : s.worker.transfer = some p := hc.transfer
  unfold advance
  simp only [htransfer]
  split
  · exact notified_load hc _ _
  · next hr =>
    rcases Path.nextBatch (H := fun _ _ => True) (k := k) (s := s) Platform.within_true hr with
      ⟨cause, s', heq, hpath⟩ | ⟨s', start, w, entries, heq, hpath, hcarve⟩ <;> rw [heq]
    · obtain ⟨⟨q, hq⟩, -⟩ := Path.control (x := (.due k p, s)) hs hc hpath
      have hlistener := hpath.listenerLoad
      rcases notified_load hq .fault (.failed cause) with ⟨hnone, hload⟩ | ⟨q', hq', -⟩
      · exact .inl ⟨hnone, Nat.le_trans hload hlistener⟩
      · cases hq'
    · obtain ⟨hcontrol, hsettings⟩ := Path.control (x := (.due k p, s)) hs hc hpath
      have hadvances := Window.carve_advances (hsettings ▸ hs) (hsettings ▸ hsmall)
        (Ring.start?_le hcontrol.2) hcarve
      have hhand : Path (fun _ => True) (fun _ _ => True) (.due k p, s)
          (.closing k, s'.hand p start entries) := hpath.trans (Path.hand Platform.within_true hcarve)
      exact .inr ⟨_, s'.hand_transfer p start entries, hcontrol.1.past_load hr hadvances,
        hhand.listenerLoad⟩

/-- What is left to be done once a job is closed. -/
theorem Station.Eased.workload {t : Station σ} (h : s.Eased p t) (hc : Control t.view .ready) :
    t.workload ≤ p.load + s.machine.listenerLoad := by
  rw [workload_eq]
  rcases h with ⟨hnone, hload⟩ | ⟨q, hq, hlower, hlistener⟩
  · rw [hnone, Option.map_none, Option.getD_none]
    omega
  · have hrunning := View.Running.of_transfer hc hq
    have hload := hrunning.load
    rw [hq, Option.map_some, Option.getD_some]
    omega

omit [Platform σ] in
theorem Station.Eased.close {t : Station σ} (h : s.Eased p t) (hc : Control t.view (.closing .advance)) :
    s.Eased p (t.mapChannel Channel.closeAdvance) := by
  rcases h with ⟨hnone, hload⟩ | hgoes
  · rcases hc with hbetween | ⟨q, hr⟩
    · refine .inl ⟨hnone, ?_⟩
      rcases t.machine.channel.closeAdvance_cases with he | ⟨-, hcompleted, -⟩
      · simp only [mapChannel, he]
        exact hload
      · cases hcompleted.symm.trans (Channel.not_completed_of_issued hbetween.issued)
    · cases hnone.symm.trans hr.transfer
  · exact .inr hgoes

omit [Platform σ] in
/-- The queue holds the job that is taken from it, and no other one. -/
theorem Control.queue (h : Control s.view .ready) :
    s.machine.channel.work.Holds s.takeWork.1.toList := by
  have hfirst : s.takeWork.1 = s.view.posture.work.pop.1 := rfl
  rcases h.jobs with hw | ⟨r, hw, -⟩ | ⟨p, hw, -⟩
  · rwa [hfirst, hw.pop_nil]
  all_goals
    obtain ⟨rest, hpop, -⟩ := hw.pop_cons
    rwa [hfirst, hpop]

/-- Every job that is handled lowers the workload. -/
theorem Station.handle_workload {job : Job} (hs : s.settings.Valid)
    (hsmall : s.settings.pageSize < 2 ^ 34) (hc : Control s.view .ready)
    (hj : s.takeWork.1 = some job) : (s.takeWork.2.handle job).workload < s.workload := by
  have hready := (hc.handle hs hj).1
  have hload : s.machine.channel.load = job.workload := by
    rw [Channel.load_of_holds hc.queue, hj]
    exact List.sum_singleton
  have hlistener : s.takeWork.2.machine.listenerLoad = s.machine.listenerLoad := rfl
  rw [s.workload_eq, hload]
  cases job with
  | start r =>
    have heased := advance_eased (s := s.takeWork.2.begin r) hs hsmall (hc.begin hj)
    have hless := heased.workload hready
    have hbegun : Progress.load { request := r } + 1 = (Job.start r).workload := rfl
    have hsame : (s.takeWork.2.begin r).machine.listenerLoad = s.machine.listenerLoad := rfl
    exact Nat.lt_of_le_of_lt hless (by omega)
  | advance =>
    obtain ⟨p, ht⟩ := Option.ne_none_iff_exists'.mp (hc.not_stale hj)
    have hpoised := hc.resume hj ht
    have heased := advance_eased (s := s.takeWork.2) hs hsmall hpoised
    have hclosing := (Path.control (x := (.due .advance p, s.takeWork.2)) hs hpoised
      (Path.advance (H := fun _ _ => True) Platform.within_true (fun _ _ _ _ => trivial) ht)).1
    have hless := (heased.close hclosing).workload hready
    have hone : Job.advance.workload = 1 := rfl
    rw [ht, Option.map_some, Option.getD_some]
    exact Nat.lt_of_le_of_lt hless (by omega)

/-- With a limit of its workload, a service ends with nothing left to do. -/
theorem Station.serveUpTo_drains (hs : s.settings.Valid) (hsmall : s.settings.pageSize < 2 ^ 34)
    (hc : Control s.view .ready) {limit : Nat} (hlimit : s.workload ≤ limit) :
    (s.serveUpTo limit).2.machine.channel.work.isEmpty = true := by
  induction limit generalizing s with
  | zero =>
    have hw := hc.queue
    have hload := Channel.load_of_holds hw
    rw [workload_eq] at hlimit
    cases hj : s.takeWork.1 with
    | none =>
      rw [hj] at hw
      exact hw.isEmpty
    | some job =>
      have hpos := job.workload_pos
      rw [hj, Option.toList_some, List.map_singleton, List.sum_singleton] at hload
      omega
  | succ limit ih =>
    unfold serveUpTo
    cases hj : s.takeWork.1 with
    | none =>
      have hw := hc.queue
      rw [hj] at hw
      rw [takeWork_nil hw]
      exact hw.isEmpty
    | some job =>
      have htake : s.takeWork = (some job, s.takeWork.2) := Prod.ext hj rfl
      have hlower := handle_workload hs hsmall hc hj
      obtain ⟨hcontrol, hsettings⟩ := hc.handle hs hj
      rw [htake]
      exact ih (hsettings ▸ hs) (hsettings ▸ hsmall) hcontrol (by omega)

/-- A service returns with an empty queue, if the length of a page in words fits into a descriptor. -/
theorem Station.serve_drains (hs : s.settings.Valid) (hsmall : s.settings.pageSize < 2 ^ 34)
    (hc : Control s.view .rest) : s.serve.2.machine.channel.work.isEmpty = true :=
  serveUpTo_drains hs hsmall hc (Nat.le_refl _)

end Services
end ScatterGather
