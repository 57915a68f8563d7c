import ScatterGather.Proofs.Moments

/-! # What was seen before makes no difference

Machines add to their history and never look into it. Whatever is done after some past would be done
after any other past as well.
-/
namespace ScatterGather
open Relation

/-- The machine with something seen before all that it has seen. -/
def Machine.after {σ : Type} (m : Machine σ) (past : List Event) : Machine σ :=
  { m with history := m.history ++ past }

def Station.after {σ : Type} (s : Station σ) (past : List Event) : Station σ :=
  { s with machine := s.machine.after past }

namespace Machine
variable {σ : Type} (m : Machine σ) (past : List Event)

theorem incur_after (i : Incident) : (m.after past).incur i = (m.incur i).after past := by
  cases i with
  | complete dir =>
    by_cases hid : m.registers.lastId dir ≤ lastSlot
    · simp only [incur, after, hid, if_true]
      rfl
    · simp only [incur, after, hid, if_false]
  | _ => rfl

theorem incurAll_after (incidents : List Incident) :
    (m.after past).incurAll incidents = (m.incurAll incidents).after past := by
  induction incidents generalizing m with
  | nil => rfl
  | cons i rest ih => rw [incurAll_cons, incur_after, ih, incurAll_cons]

theorem told_after (outcome : Outcome) : (m.after past).told outcome = (m.told outcome).after past := rfl

theorem notify_after (outcome : Outcome) :
    (m.after past).notify outcome = (m.notify outcome).after past := by
  rw [notify_eq, notify_eq, told_after, incurAll_after]
  rfl

variable [Platform σ]

theorem lock_after (range : PageRun) (writable : Bool) : (m.after past).lock range writable =
    ((m.lock range writable).1, (m.lock range writable).2.after past) := by
  rw [lock_eq, lock_eq]
  exact congrArg (Prod.mk _) (incurAll_after (m.asked range writable) past _)

theorem pin_after (pageSize start len : Nat) (dir : Direction) : (m.after past).pin pageSize start len dir =
    ((m.pin pageSize start len dir).1, (m.pin pageSize start len dir).2.after past) := by
  unfold pin
  dsimp only
  rw [lock_after]
  split
  · split <;> rfl
  · rfl

theorem unpin_after (r : Region) : ((m.after past).unpin r).2 = (m.unpin r).2.after past := by
  unfold unpin
  split <;> rfl

theorem writeAt_after (offset : Nat) (value : UInt32) :
    (m.after past).writeAt offset value = (m.writeAt offset value).after past :=
  incurAll_after (m.wrote offset value) past _

theorem writeHalves_after (dir : Direction) (low high : Register) (value : Nat) :
    (m.after past).writeHalves dir low high value = (m.writeHalves dir low high value).after past := by
  simp only [writeHalves, writeRegister, writeAt_after]

end Machine

section Worker
variable {σ : Type} [Platform σ] (m : Machine σ) (past : List Event)

theorem Ring.announce_after (ring : Ring) (dir : Direction) :
    ring.announce (m.after past) dir = (ring.announce m dir).after past := by
  simp only [announce, Machine.programTable, Machine.programFifo, Machine.programSize,
    Machine.writeRegister, Machine.writeHalves_after, Machine.writeAt_after]

theorem Ring.stage_after (ring : Ring) (dir : Direction) (start : BatchPlace) (entries : List Entry) :
    ring.stage (m.after past) dir start entries = ((ring.stage m dir start entries).1,
      (ring.stage m dir start entries).2.after past) := by
  unfold stage
  cases start.announce with
  | false => rfl
  | true =>
    have hannounced := ring.announce_after (((m.record (.issue dir start entries)).mapTable dir
      Table.zeroFlags).mapTable dir (·.writeAll entries)) past dir
    simp only [if_true]
    exact congrArg (fun m : Machine σ => (ring.track dir (lastIdOf start entries),
      { m with channel := m.channel.setIssued dir (lastIdOf start entries) })) hannounced

theorem Pipeline.unpinDone_after (q : Pipeline) : q.unpinDone (m.after past) =
    ((q.unpinDone m).1, (q.unpinDone m).2.after past) := by
  unfold unpinDone
  cases q.done with
  | none => rfl
  | some r => exact congrArg (Prod.mk _) (m.unpin_after past r)

theorem Pipeline.unpinAll_after (q : Pipeline) : q.unpinAll (m.after past) =
    ((q.unpinAll m).1, (q.unpinAll m).2.after past) := by
  unfold unpinAll
  rw [unpinDone_after]
  cases q.active <;> cases q.next <;> simp only [Machine.unpin_after]

theorem Pipeline.supply_after (q : Pipeline) {fresh : Machine σ → Except MemoryFault Region × Machine σ}
    (hfresh : ∀ m : Machine σ, fresh (m.after past) = ((fresh m).1, (fresh m).2.after past)) :
    q.supply (m.after past) fresh =
      ((q.supply m fresh).1, (q.supply m fresh).2.1, (q.supply m fresh).2.2.after past) := by
  have hrotate : q.rotate (m.after past) fresh =
      ((q.rotate m fresh).1, (q.rotate m fresh).2.1, (q.rotate m fresh).2.2.after past) := by
    unfold rotate
    rw [unpinDone_after]
    cases q.next with
    | some r => rfl
    | none =>
      dsimp only
      rw [hfresh]
      rcases fresh (q.unpinDone m).2 with ⟨found | found, m'⟩ <;> rfl
  unfold supply
  cases q.active with
  | none => exact hrotate
  | some w =>
    dsimp only
    split
    · exact hrotate
    · rfl

end Worker

namespace Station
variable {σ : Type} (s : Station σ) (past : List Event)

theorem strike_after (i : Incident) : (s.after past).strike i = (s.strike i).after past :=
  congrArg (fun m => { s with machine := m }) (s.machine.incur_after past i)

variable [Platform σ]

theorem release_after : (s.after past).release = s.release.after past := by
  simp only [release, after, Pipeline.unpinDone_after]

theorem turn_after : (s.after past).turn = s.turn.after past := by
  simp only [turn, after, Pipeline.unpinDone_after]

theorem unpinAll_after : (s.after past).unpinAll = s.unpinAll.after past := by
  simp only [unpinAll, after, Pipeline.unpinAll_after]

theorem reset_after (phase : Phase) : (s.after past).reset phase = (s.reset phase).after past := by
  unfold reset
  dsimp only
  exact congrArg (fun t : Station σ => ({ t with
    worker := { t.worker with transfer := none, phase } } : Station σ).mapChannel Channel.settle)
    (unpinAll_after { s with worker := { s.worker with ring := s.worker.ring.reset } } past)

theorem tell_after (phase : Phase) (outcome : Outcome) :
    (s.after past).tell phase outcome = (s.tell phase outcome).after past := by
  simp only [tell, reset_after]
  rfl

theorem stop_after : (s.after past).stop = s.stop.after past := by
  unfold stop
  rw [unpinAll_after]
  rfl

theorem finish_after : (s.after past).finish = s.finish.after past := by
  unfold finish
  rw [show (s.after past).mapChannel ({ · with finished := true }) =
    (s.mapChannel ({ · with finished := true })).after past from rfl, stop_after]
  rfl

theorem issue_after (p : Progress) (start : BatchPlace) (entries : List Entry) :
    (s.after past).issue p start entries = (s.issue p start entries).after past := by
  simp only [issue, after, Ring.stage_after]
  rfl

theorem pinAhead_after (r : Request) (next : Nat) :
    (s.after past).pinAhead r next = (s.pinAhead r next).after past := by
  have hpin := s.machine.pin_after past s.settings.pageSize (r.host + next)
    (min (r.len - next) s.settings.fullWindow) r.direction
  unfold pinAhead
  dsimp only
  rw [show (s.after past).machine = s.machine.after past from rfl,
    show (s.after past).settings = s.settings from rfl,
    show (s.after past).worker = s.worker from rfl, hpin]
  split
  · rfl
  · rcases s.machine.pin _ _ _ _ with ⟨found | found, m⟩ <;> rfl

theorem windowFor_after (p : Progress) :
    (s.after past).windowFor p = ((s.windowFor p).1, (s.windowFor p).2.after past) := by
  unfold windowFor
  dsimp only
  rw [show (s.after past).machine = s.machine.after past from rfl,
    show (s.after past).settings = s.settings from rfl,
    show (s.after past).worker = s.worker from rfl,
    Pipeline.supply_after s.machine past s.worker.pipeline fun m => m.pin_after past _ _ _ _]
  rfl

theorem hand_after (p : Progress) (start : BatchPlace) (entries : List Entry) :
    (s.after past).hand p start entries = (s.hand p start entries).after past := by
  have hpublished : s.worker.ring.publish (s.machine.after past) p.request.direction start entries =
      ((s.worker.ring.publish s.machine p.request.direction start entries).1,
        (s.worker.ring.publish s.machine p.request.direction start entries).2.after past) := by
    unfold Ring.publish
    rw [Ring.stage_after]
    exact congrArg (Prod.mk _) (Machine.writeAt_after
      (s.worker.ring.stage s.machine p.request.direction start entries).2 past _ _)
  unfold hand
  dsimp only
  rw [show (s.after past).machine = s.machine.after past from rfl,
    show (s.after past).worker = s.worker from rfl, hpublished]
  dsimp only
  rw [Pipeline.unpinDone_after]
  rcases s.worker.ring.publish s.machine p.request.direction start entries with ⟨ring, m⟩
  rcases (s.worker.pipeline.consume (Entry.total entries)).unpinDone m with ⟨pipeline, m'⟩
  exact pinAhead_after (σ := σ) { worker := _, machine := m' } past _ _

theorem nextBatch_after (p : Progress) :
    (s.after past).nextBatch p = ((s.nextBatch p).1, (s.nextBatch p).2.after past) := by
  unfold nextBatch
  rw [show (s.after past).worker = s.worker from rfl, windowFor_after]
  cases s.worker.ring.start? p.request.direction with
  | error e => rfl
  | ok start =>
    rcases s.windowFor p with ⟨e | w, t⟩
    · rfl
    · dsimp only
      rw [show (t.after past).settings = t.settings from rfl]
      cases w.carve t.settings p.request.direction (p.request.device + p.sent) start with
      | error e => rfl
      | ok entries => exact congrArg (Prod.mk _) (t.hand_after past p start entries)

theorem complete_after (p : Progress) : (s.after past).complete p = (s.complete p).after past := by
  unfold complete
  rw [reset_after]
  exact congrArg (fun m => ({ s.reset .idle with machine := m } : Station σ))
    ((s.reset .idle).machine.notify_after past _)

theorem fail_after (cause : Failure) : (s.after past).fail cause = (s.fail cause).after past := by
  unfold fail
  rw [reset_after]
  exact congrArg (fun m => ({ s.reset .fault with machine := m } : Station σ))
    ((s.reset .fault).machine.notify_after past _)

theorem advance_after : (s.after past).advance = s.advance.after past := by
  unfold advance
  rw [show (s.after past).worker = s.worker from rfl]
  cases s.worker.transfer with
  | none => rfl
  | some p =>
    dsimp only
    rw [complete_after, nextBatch_after]
    split
    · rfl
    · rcases s.nextBatch p with ⟨_ | cause, t⟩
      · rfl
      · exact t.fail_after past cause

theorem handle_after (job : Job) : (s.after past).handle job = (s.handle job).after past := by
  cases job with
  | start r => exact advance_after (s.begin r) past
  | advance =>
    unfold handle
    dsimp only
    rw [advance_after]
    rfl

theorem serveUpTo_after (limit : Nat) : (s.after past).serveUpTo limit =
    ((s.serveUpTo limit).1, (s.serveUpTo limit).2.after past) := by
  induction limit generalizing s with
  | zero => rfl
  | succ limit ih =>
    unfold serveUpTo
    rw [show (s.after past).takeWork = (s.takeWork.1, s.takeWork.2.after past) from rfl]
    rcases s.takeWork with ⟨_ | job, t⟩
    · rfl
    · dsimp only
      rw [handle_after, ih]

theorem act_after (a : Act) : (s.after past).act a = (s.act a).after past := by
  cases a with
  | strike i => exact s.strike_after past i
  | serve => exact congrArg Prod.snd (s.serveUpTo_after past s.workload)
  | stop => exact s.stop_after past
  | finish => exact s.finish_after past
  | interrupt | setPayload => rfl

/-- Whatever is called later, it does what it would do after any other past. -/
theorem run_after (acts : List Act) : (s.after past).run acts = (s.run acts).after past := by
  induction acts generalizing s with
  | nil => rfl
  | cons a acts ih =>
    rw [run, List.foldl_cons, act_after]
    exact ih (s.act a)

end Station

section Steps
variable {σ : Type} [Platform σ] {A : Incident → Prop} {H : Act → Worker → Prop} {j : Juncture}
  {s : Station σ} {past : List Event} {y : Juncture × Station σ}

/-- A step that is taken after some past can be taken after any other past. -/
theorem Step.after (h : Step A H (j, s.after past) y) :
    ∃ t : Station σ, y.2 = t.after past ∧ ∀ other, Step A H (j, s.after other) (y.1, t.after other) := by
  cases h with
  | @strike _ _ i hj hi =>
    exact ⟨s.strike i, s.strike_after past i, fun other => s.strike_after other i ▸ .strike hj hi⟩
  | interrupt status =>
    exact ⟨s.mapChannel fun c => (c.interrupt status).2, rfl, fun _ => .interrupt status⟩
  | @setPayload _ payload hh =>
    exact ⟨s.mapChannel ({ · with payload }), rfl, fun _ => .setPayload hh⟩
  | stop hh => exact ⟨s.stop, s.stop_after past, fun other => s.stop_after other ▸ .stop hh⟩
  | finish hh => exact ⟨s.finish, s.finish_after past, fun other => s.finish_after other ▸ .finish hh⟩
  | serve => exact ⟨s, rfl, fun _ => .serve⟩
  | leave => exact ⟨s, rfl, fun _ => .leave⟩
  | drained hj => exact ⟨s.takeWork.2, rfl, fun _ => .drained hj⟩
  | @begin _ r hj => exact ⟨s.takeWork.2.begin r, rfl, fun _ => .begin hj⟩
  | resume hj ht => exact ⟨s.takeWork.2, rfl, fun _ => .resume hj ht⟩
  | stale hj ht => exact ⟨s.takeWork.2, rfl, fun _ => .stale hj ht⟩
  | complete hr =>
    exact ⟨s.tell _ _, s.tell_after past _ _, fun other => s.tell_after other _ _ ▸ .complete hr⟩
  | refuse hr hp => exact ⟨s, rfl, fun _ => .refuse hr hp⟩
  | keep hr hp hw hl => exact ⟨s, rfl, fun _ => .keep hr hp hw hl⟩
  | turn hr hp hd => exact ⟨s.turn, s.turn_after past, fun other => s.turn_after other ▸ .turn hr hp hd⟩
  | @promote k p _ start r hn => exact ⟨s.promote r, rfl, fun _ => .promote hn⟩
  | unpinnable hn hb => exact ⟨s, rfl, fun _ => .unpinnable hn hb⟩
  | @ask k p _ start hn hb => exact ⟨s.ask p.request p.sent, rfl, fun _ => .ask hn hb⟩
  | @short k p _ start pages hl => exact ⟨s.decline pages, rfl, fun _ => .short hl⟩
  | pinned hl => exact ⟨(s.count _).activate _, rfl, fun _ => .pinned hl⟩
  | uncarved hc => exact ⟨s, rfl, fun _ => .uncarved hc⟩
  | issue hc =>
    exact ⟨s.issue _ _ _, s.issue_after past _ _ _, fun other => s.issue_after other _ _ _ ▸ .issue hc⟩
  | release => exact ⟨s.release, s.release_after past, fun other => s.release_after other ▸ .release⟩
  | skip hn => exact ⟨s, rfl, fun _ => .skip hn⟩
  | unpinnableAhead hn hb => exact ⟨s, rfl, fun _ => .unpinnableAhead hn hb⟩
  | @askAhead k p _ hn hl hb => exact ⟨s.ask p.request (s.reach p), rfl, fun _ => .askAhead hn hl hb⟩
  | @shortAhead k p _ next pages hl => exact ⟨s.decline pages, rfl, fun _ => .shortAhead hl⟩
  | keepNext hl => exact ⟨(s.count _).keepNext _, rfl, fun _ => .keepNext hl⟩
  | fail => exact ⟨s.tell _ _, s.tell_after past _ _, fun other => s.tell_after other _ _ ▸ .fail⟩
  | heard => exact ⟨s, rfl, fun _ => .heard⟩
  | closeStart => exact ⟨s, rfl, fun _ => .closeStart⟩
  | closeAdvance => exact ⟨s.mapChannel Channel.closeAdvance, rfl, fun _ => .closeAdvance⟩

theorem Path.after (h : Path A H (j, s.after past) y) :
    ∃ t : Station σ, y.2 = t.after past ∧ ∀ other, Path A H (j, s.after other) (y.1, t.after other) := by
  induction h with
  | refl => exact ⟨s, rfl, fun _ => .refl⟩
  | @tail z y _ hstep ih =>
    obtain ⟨t, ht, hpath⟩ := ih
    rw [show z = (z.1, t.after past) from Prod.ext rfl ht] at hstep
    obtain ⟨u, hu, hnext⟩ := hstep.after
    exact ⟨u, hu, fun other => (hpath other).tail (hnext other)⟩

end Steps
end ScatterGather
