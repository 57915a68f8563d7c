import ScatterGather.Proofs.Junctures

/-! # Every run is a path

Each call of the worker is shown to follow a path of steps from the juncture where it begins to the
juncture where it ends, and a whole run follows a path from rest to rest.
-/
namespace ScatterGather
open Relation

namespace Machine
variable {σ : Type}

@[simp] theorem incur_settings (m : Machine σ) (i : Incident) :
    (m.incur i).channel.settings = m.channel.settings := by
  cases i with
  | complete dir => simp only [incur]; split <;> rfl
  | flag dir id value => rfl
  | interrupt status =>
    simp only [incur, record, Channel.interrupt, Channel.requestAdvance, Channel.wake]
    split <;> (try split) <;> (try split) <;> rfl
  | submit request =>
    simp only [incur, record, Channel.submit, Channel.wake]
    split <;> (try split) <;> (try split) <;> (try split) <;> (try split) <;> rfl

@[simp] theorem incur_listener (m : Machine σ) (i : Incident) :
    (m.incur i).listener = m.listener := by
  cases i with
  | complete dir => simp only [incur]; split <;> rfl
  | flag dir id value => rfl
  | interrupt status => rfl
  | submit request => rfl

theorem incur_registers (m : Machine σ) (i : Incident) : (m.incur i).registers = m.registers := by
  cases i with
  | complete dir =>
    simp only [incur]
    split <;> rfl
  | _ => rfl

theorem incur_platform (m : Machine σ) (i : Incident) : (m.incur i).platform = m.platform := by
  cases i with
  | complete dir =>
    simp only [incur]
    split <;> rfl
  | _ => rfl

theorem incurAll_cons (m : Machine σ) (i : Incident) (rest : List Incident) :
    m.incurAll (i :: rest) = (m.incur i).incurAll rest := rfl

@[simp] theorem incurAll_settings (m : Machine σ) (incidents : List Incident) :
    (m.incurAll incidents).channel.settings = m.channel.settings := by
  induction incidents generalizing m with
  | nil => rfl
  | cons i rest ih => rw [incurAll_cons, ih, incur_settings]

@[simp] theorem incurAll_listener (m : Machine σ) (incidents : List Incident) :
    (m.incurAll incidents).listener = m.listener := by
  induction incidents generalizing m with
  | nil => rfl
  | cons i rest ih => rw [incurAll_cons, ih, incur_listener]

@[simp] theorem writeAt_listener [Platform σ] (m : Machine σ) (offset : Nat) (value : UInt32) :
    (m.writeAt offset value).listener = m.listener := incurAll_listener _ _

@[simp] theorem writeAt_settings [Platform σ] (m : Machine σ) (offset : Nat) (value : UInt32) :
    (m.writeAt offset value).channel.settings = m.channel.settings := incurAll_settings _ _

end Machine

theorem Station.strikeAll_eq {σ : Type} (s : Station σ) (incidents : List Incident) :
    s.strikeAll incidents = { s with machine := s.machine.incurAll incidents } := by
  induction incidents generalizing s with
  | nil => rfl
  | cons i rest ih => exact ih (s.strike i)

theorem Platform.within_true {σ : Type} [Platform σ] : Platform.Within σ fun _ => True :=
  ⟨fun _ _ _ _ _ => trivial, fun _ _ _ _ _ => trivial⟩

theorem Act.within_true (a : Act) : a.Within fun _ => True := by cases a <;> trivial

section Calls
variable {σ : Type} [Platform σ] {A : Incident → Prop} {H : Act → Worker → Prop} {s : Station σ}
  {k : Errand} {p : Progress}

theorem Step.mono {B : Incident → Prop} {K : Act → Worker → Prop} {x y : Juncture × Station σ}
    (h : Step A H x y) (hAB : ∀ i, A i → B i) (hHK : ∀ a w, H a w → K a w) : Step B K x y := by
  cases h with
  | strike hj hi => exact .strike hj (hAB _ hi)
  | setPayload hh => exact .setPayload (hHK _ _ hh)
  | stop hh => exact .stop (hHK _ _ hh)
  | finish hh => exact .finish (hHK _ _ hh)
  | unpinnableAhead hn hb => exact .unpinnableAhead hn hb
  | _ => constructor <;> assumption

theorem Path.mono {B : Incident → Prop} {K : Act → Worker → Prop} {x y : Juncture × Station σ}
    (h : Path A H x y) (hAB : ∀ i, A i → B i) (hHK : ∀ a w, H a w → K a w) : Path B K x y :=
  ReflTransGen.mono (fun _ _ hstep => hstep.mono hAB hHK) _ _ h

theorem Path.strikeAll {j : Juncture} (hj : j.Exposed) {incidents : List Incident}
    (hi : ∀ i ∈ incidents, A i) : Path A H (j, s) (j, s.strikeAll incidents) := by
  induction incidents generalizing s with
  | nil => exact .refl
  | cons i rest ih =>
    exact .head (.strike hj (hi i List.mem_cons_self)) (ih fun i h => hi i (List.mem_cons_of_mem _ h))

/-- The platform has answered a wish, and what happened meanwhile has happened. -/
def Station.waited (s : Station σ) (r : Request) (next : Nat) : Station σ :=
  (s.ask r next).strikeAll (s.answer r next).incidents

@[simp] theorem Station.waited_settings (s : Station σ) (r : Request) (next : Nat) :
    (s.waited r next).settings = s.settings := by
  rw [waited, strikeAll_eq]
  exact Machine.incurAll_settings _ _

@[simp] theorem Station.waited_worker (s : Station σ) (r : Request) (next : Nat) :
    (s.waited r next).worker = s.worker := by
  rw [waited, strikeAll_eq]
  rfl

theorem pin_cases (s : Station σ) (r : Request) (next : Nat) :
    let pin := s.machine.pin s.settings.pageSize (r.host + next) (r.windowLen s.settings next)
      r.direction
    let pages := (s.answer r next).pages
    let pinnable := Machine.Pinnable (r.host + next) (r.windowLen s.settings next)
    let count := (r.windowRun s.settings next).pages
    ¬ pinnable ∧ pin = (.error .invalidRange, s.machine) ∨
    pinnable ∧ pages.length < count ∧
      pin = (.error (.partialLock count pages.length), ((s.waited r next).decline pages).machine) ∨
    pinnable ∧ count ≤ pages.length ∧
      pin = (.ok (r.windowRegion s.settings next pages), ((s.waited r next).count count).machine) := by
  intro pin pages pinnable count
  have hpin : pin = if pinnable then
      if pages.length < count then
        (.error (.partialLock count pages.length), ((s.waited r next).decline pages).machine)
      else (.ok (r.windowRegion s.settings next pages), ((s.waited r next).count count).machine)
    else (.error .invalidRange, s.machine) := by
    simp only [Station.waited, Station.strikeAll_eq, pin, Machine.pin, Machine.lock_eq]
    rfl
  by_cases hb : pinnable
  · by_cases hl : pages.length < count
    · exact .inr (.inl ⟨hb, hl, by rw [hpin, if_pos hb, if_pos hl]⟩)
    · exact .inr (.inr ⟨hb, Nat.le_of_not_lt hl, by rw [hpin, if_pos hb, if_neg hl]⟩)
  · exact .inl ⟨hb, by rw [hpin, if_neg hb]⟩

theorem Path.asked {start : BatchPlace} (hp : Platform.Within σ A)
    (hn : s.worker.pipeline.next = none)
    (hb : Machine.Pinnable (p.request.host + p.sent) (p.request.windowLen s.settings p.sent)) :
    Path A H (.turned k p start, s)
      (.asked k p start (s.answer p.request p.sent).pages, s.waited p.request p.sent) :=
  .head (.ask hn hb) (Path.strikeAll (j := .asked ..) trivial (hp.lock _ _ _))

theorem Path.askedAhead (hp : Platform.Within σ A) (hn : s.worker.pipeline.next = none)
    (hl : s.reach p < p.request.len)
    (hb : Machine.Pinnable (p.request.host + s.reach p)
      (p.request.windowLen s.settings (s.reach p))) :
    Path A H (.released k p, s)
      (.askedAhead k p (s.reach p) (s.answer p.request (s.reach p)).pages,
        s.waited p.request (s.reach p)) :=
  .head (.askAhead hn hl hb) (Path.strikeAll (j := .askedAhead ..) trivial (hp.lock _ _ _))

@[simp] theorem Machine.unpin_settings (m : Machine σ) (r : Region) :
    (m.unpin r).2.channel.settings = m.channel.settings := by
  unfold Machine.unpin
  split <;> rfl

@[simp] theorem Machine.unpin_listener (m : Machine σ) (r : Region) :
    (m.unpin r).2.listener = m.listener := by
  unfold Machine.unpin
  split <;> rfl

@[simp] theorem Station.turn_settings (s : Station σ) : s.turn.settings = s.settings := by
  simp only [Station.turn, Station.settings, Pipeline.unpinDone]
  split <;> simp

theorem Path.rotate {start : BatchPlace} (hp : Platform.Within σ A) (hr : p.remaining ≠ 0)
    (hs : s.worker.ring.start? p.request.direction = .ok start) (hd : s.worker.pipeline.drained)
    {found : Except MemoryFault Window × Pipeline × Machine σ}
    (hf : s.worker.pipeline.rotate s.machine (fun m =>
      m.pin s.settings.pageSize (p.request.host + p.sent) (p.request.windowLen s.settings p.sent)
        p.request.direction) = found) :
    Path A H (.due k p, s)
      (match found.1 with
        | .ok w => .supplied k p start w
        | .error e => .broken k (.memory e),
       { worker := { s.worker with pipeline := found.2.1 }, machine := found.2.2 }) := by
  apply ReflTransGen.head (.turn hr hs hd)
  have hset := s.turn_settings
  have hpin := pin_cases s.turn p.request p.sent
  unfold Pipeline.rotate at hf
  dsimp only at hf hpin
  split at hf
  · next r hn =>
    subst hf
    exact .single (.promote hn)
  · next hn =>
    rw [← hset, show (s.worker.pipeline.unpinDone s.machine).2 = s.turn.machine from rfl] at hf
    rcases hpin with ⟨hb, he⟩ | ⟨hb, hl, he⟩ | ⟨hb, hl, he⟩ <;> rw [he] at hf <;> subst hf
    · exact .single (.unpinnable hn hb)
    · apply (Path.asked (s := s.turn) hp hn hb).tail
      have hstep : Step A H (.asked k p start _, s.turn.waited p.request p.sent) _ :=
        .short (by rwa [Station.waited_settings])
      simp only [Station.waited_settings, Station.decline, Station.waited_worker] at hstep
      exact hstep
    · apply (Path.asked (s := s.turn) hp hn hb).tail
      have hstep : Step A H (.asked k p start _, s.turn.waited p.request p.sent) _ :=
        .pinned (by rwa [Station.waited_settings])
      simp only [Station.waited_settings, Station.activate, Station.count,
        Station.waited_worker] at hstep
      exact hstep

theorem supply_of_drained {q : Pipeline} (h : q.drained) (m : Machine σ)
    (fresh : Machine σ → Except MemoryFault Region × Machine σ) :
    q.supply m fresh = q.rotate m fresh := by
  unfold Pipeline.supply
  split
  · next w hw => rw [if_pos (by simpa [Pipeline.drained, hw] using h)]
  · rfl

theorem supply_of_left {q : Pipeline} {w : Window} (hw : q.active = some w) (hl : w.left ≠ 0)
    (m : Machine σ) (fresh : Machine σ → Except MemoryFault Region × Machine σ) :
    q.supply m fresh = (.ok w, q, m) := by
  simp only [Pipeline.supply, hw, if_neg hl]

theorem Path.windowFor {start : BatchPlace} (hp : Platform.Within σ A) (hr : p.remaining ≠ 0)
    (hs : s.worker.ring.start? p.request.direction = .ok start) :
    Path A H (.due k p, s)
      (match (s.windowFor p).1 with
        | .ok w => .supplied k p start w
        | .error e => .broken k (.memory e), (s.windowFor p).2) := by
  unfold Station.windowFor
  dsimp only
  by_cases hd : s.worker.pipeline.drained
  · rw [supply_of_drained hd]
    exact Path.rotate hp hr hs hd rfl
  · obtain ⟨w, hw, hl⟩ : ∃ w, s.worker.pipeline.active = some w ∧ w.left ≠ 0 := by
      cases hw : s.worker.pipeline.active <;> simp_all [Pipeline.drained]
    rw [supply_of_left hw hl]
    exact .single (.keep hr hs hw hl)

theorem Path.pinAhead (hp : Platform.Within σ A) :
    Path A H (.released k p, s) (.closing k, s.pinAhead p.request (s.reach p)) := by
  have hpin := pin_cases s p.request (s.reach p)
  unfold Station.pinAhead
  split
  · next h => exact .single (.skip h)
  · next h =>
    simp only [not_or, Option.not_isSome_iff_eq_none, Nat.not_le] at h
    obtain ⟨hn, hlen⟩ := h
    dsimp only at hpin ⊢
    rw [Request.windowLen] at hpin
    rcases hpin with ⟨hb, he⟩ | ⟨hb, hl, he⟩ | ⟨hb, hl, he⟩ <;> rw [he]
    · exact .single (.unpinnableAhead hn hb)
    · apply (Path.askedAhead hp hn hlen hb).tail
      have hstep := Step.shortAhead (A := A) (H := H) (k := k) (p := p)
        (s := s.waited p.request (s.reach p)) (by rwa [Station.waited_settings])
      simp only [Station.decline, Station.waited_worker] at hstep
      exact hstep
    · apply (Path.askedAhead hp hn hlen hb).tail
      have hstep := Step.keepNext (A := A) (H := H) (k := k) (p := p)
        (s := s.waited p.request (s.reach p)) (by rwa [Station.waited_settings])
      simp only [Station.waited_settings, Station.keepNext, Station.count,
        Station.waited_worker] at hstep
      exact hstep

@[simp] theorem unpinDone_active (q : Pipeline) (m : Machine σ) :
    (q.unpinDone m).1.active = q.active := by
  unfold Pipeline.unpinDone
  split <;> rfl

def Station.handed (s : Station σ) (p : Progress) (start : BatchPlace) (entries : List Entry) :
    Station σ :=
  { s.issue p start entries with
    machine := (s.worker.ring.publish s.machine p.request.direction start entries).2 }

theorem Station.hand_eq (s : Station σ) (p : Progress) (start : BatchPlace) (entries : List Entry) :
    s.hand p start entries = (s.handed p start entries).release.pinAhead p.request
      ((s.handed p start entries).release.reach (p.past entries)) := by
  simp only [handed, release, reach, unpinDone_active]
  rfl

theorem Station.pinAhead_transfer (s : Station σ) (r : Request) (next : Nat) :
    (s.pinAhead r next).worker.transfer = s.worker.transfer := by
  unfold pinAhead
  split
  · rfl
  · dsimp only
    split <;> rfl

theorem Station.hand_transfer (s : Station σ) (p : Progress) (start : BatchPlace)
    (entries : List Entry) : (s.hand p start entries).worker.transfer = some (p.past entries) := by
  rw [hand_eq]
  exact pinAhead_transfer ..

theorem Station.handed_eq (s : Station σ) (p : Progress) (start : BatchPlace) (entries : List Entry) :
    s.handed p start entries = (s.issue p start entries).strikeAll
      (Platform.written (s.worker.ring.stage s.machine p.request.direction start entries).2.platform
        (Register.address p.request.direction .lastId)
        (UInt32.ofNat (Ring.lastIdOf start entries))).1 :=
  (Station.strikeAll_eq _ _).symm

theorem Path.handed {start : BatchPlace} {w : Window} {entries : List Entry}
    (hp : Platform.Within σ A)
    (hc : w.carve s.settings p.request.direction (p.request.device + p.sent) start = .ok entries) :
    Path A H (.supplied k p start w, s) (.handed k (p.past entries), s.handed p start entries) := by
  rw [Station.handed_eq]
  exact .head (.issue hc) (Path.strikeAll (j := .handed ..) trivial (hp.written _ _ _))

theorem Path.hand {start : BatchPlace} {w : Window} {entries : List Entry}
    (hp : Platform.Within σ A)
    (hc : w.carve s.settings p.request.direction (p.request.device + p.sent) start = .ok entries) :
    Path A H (.supplied k p start w, s) (.closing k, s.hand p start entries) := by
  rw [Station.hand_eq]
  exact ((Path.handed hp hc).tail .release).trans (Path.pinAhead (p := p.past entries) hp)

/-- Every incident that the listener brings along is one of `A`. -/
def Station.Heeds (A : Incident → Prop) (s : Station σ) : Prop :=
  ∀ reaction ∈ s.machine.listener, ∀ i ∈ reaction, A i

omit [Platform σ] in
theorem Station.Heeds.head (h : s.Heeds A) : ∀ i ∈ s.machine.listener.headD [], A i := by
  cases hl : s.machine.listener with
  | nil => simp
  | cons reaction rest => exact h reaction (by simp [hl])

theorem Path.notify {j : Juncture} {phase : Phase} {outcome : Outcome}
    (hl : (s.reset phase).Heeds A)
    (ht : Step A H (j, s) (.told k, s.tell phase outcome)) :
    Path A H (j, s) (.closing k,
      { s.reset phase with machine := (s.reset phase).machine.notify outcome }) := by
  have hstruck : (s.tell phase outcome).strikeAll ((s.reset phase).machine.listener.headD []) =
      { s.reset phase with machine := (s.reset phase).machine.notify outcome } := by
    rw [Station.strikeAll_eq, Machine.notify_eq]
    rfl
  rw [← hstruck]
  exact (ReflTransGen.head ht (Path.strikeAll (j := .told k) trivial hl.head)).tail .heard

@[simp] theorem unpinDone_listener (q : Pipeline) (m : Machine σ) :
    (q.unpinDone m).2.listener = m.listener := by
  unfold Pipeline.unpinDone
  split <;> simp

@[simp] theorem unpinAll_listener (q : Pipeline) (m : Machine σ) :
    (q.unpinAll m).2.listener = m.listener := by
  unfold Pipeline.unpinAll
  dsimp only
  split <;> split <;> simp

@[simp] theorem Station.reset_listener (s : Station σ) (phase : Phase) :
    (s.reset phase).machine.listener = s.machine.listener := by
  simp [Station.reset, Station.unpinAll, Station.mapChannel]

theorem stage_listener (ring : Ring) (m : Machine σ) (dir : Direction) (start : BatchPlace)
    (entries : List Entry) : (ring.stage m dir start entries).2.listener = m.listener := by
  unfold Ring.stage Ring.announce
  cases start.announce <;>
    simp [Machine.record, Machine.mapTable, Machine.programTable, Machine.programFifo,
      Machine.programSize, Machine.writeHalves, Machine.writeRegister]

theorem stage_settings (ring : Ring) (m : Machine σ) (dir : Direction) (start : BatchPlace)
    (entries : List Entry) :
    (ring.stage m dir start entries).2.channel.settings = m.channel.settings := by
  unfold Ring.stage Ring.announce
  cases start.announce <;>
    simp [Machine.record, Machine.mapTable, Machine.programTable, Machine.programFifo,
      Machine.programSize, Machine.writeHalves, Machine.writeRegister, Channel.setTable,
      Channel.setIssued]

/-- A step takes nothing but its head off the listener's list. -/
theorem Step.listener {x y : Juncture × Station σ} (h : Step A H x y) :
    y.2.machine.listener = x.2.machine.listener ∨
      y.2.machine.listener = x.2.machine.listener.tail := by
  cases h with
  | strike => exact .inl (Machine.incur_listener _ _)
  | stop => left; simp [Station.stop, Station.unpinAll, Station.mapChannel]
  | finish => left; simp [Station.finish, Station.stop, Station.unpinAll, Station.mapChannel]
  | complete => right; simp [Station.tell, Machine.told]
  | fail => right; simp [Station.tell, Machine.told]
  | turn => left; simp [Station.turn]
  | release => left; simp [Station.release]
  | issue => exact .inl (stage_listener ..)
  | _ => exact .inl rfl

theorem Path.heeds {B : Incident → Prop} {x y : Juncture × Station σ} (h : Path A H x y)
    (hx : x.2.Heeds B) : y.2.Heeds B := by
  induction h with
  | refl => exact hx
  | tail _ hstep ih =>
    intro reaction hr
    rcases hstep.listener with hl | hl <;> rw [hl] at hr
    · exact ih reaction hr
    · exact ih reaction (List.mem_of_mem_tail hr)

/-- The next batch is handed over from where a window was supplied, or there is none. -/
theorem Path.nextBatch (hp : Platform.Within σ A) (hr : p.remaining ≠ 0) :
    (∃ cause s', s.nextBatch p = (some cause, s') ∧ Path A H (.due k p, s) (.broken k cause, s')) ∨
    ∃ s' start w entries, s.nextBatch p = (none, s'.hand p start entries) ∧
      Path A H (.due k p, s) (.supplied k p start w, s') ∧
      w.carve s'.settings p.request.direction (p.request.device + p.sent) start = .ok entries := by
  unfold Station.nextBatch
  cases hs : s.worker.ring.start? p.request.direction with
  | error e => exact .inl ⟨_, s, rfl, .single (.refuse hr hs)⟩
  | ok start =>
    have hw := Path.windowFor (H := H) (k := k) hp hr hs
    rcases hf : s.windowFor p with ⟨found, s'⟩
    rw [hf] at hw
    cases found with
    | error e => exact .inl ⟨_, s', rfl, hw⟩
    | ok w =>
      simp only
      cases hc : w.carve s'.settings p.request.direction (p.request.device + p.sent) start with
      | error e => exact .inl ⟨e, s', rfl, hw.tail (.uncarved hc)⟩
      | ok entries => exact .inr ⟨s', start, w, entries, rfl, hw, hc⟩

theorem Path.advance (hp : Platform.Within σ A) (hl : s.Heeds A)
    (ht : s.worker.transfer = some p) : Path A H (.due k p, s) (.closing k, s.advance) := by
  unfold Station.advance
  simp only [ht]
  split
  · next hr => exact Path.notify (by simpa [Station.Heeds] using hl) (.complete hr)
  · next hr =>
    rcases Path.nextBatch (H := H) (k := k) (s := s) hp hr with
      ⟨cause, s', heq, hpath⟩ | ⟨s', start, w, entries, heq, hpath, hcarve⟩ <;> rw [heq]
    · exact hpath.trans (Path.notify (by simpa [Station.Heeds] using hpath.heeds hl) .fail)
    · exact hpath.trans (Path.hand hp hcarve)

theorem Path.handle {job : Job} (hp : Platform.Within σ A) (hl : s.Heeds A)
    (hj : s.takeWork.1 = some job) : Path A H (.ready, s) (.ready, s.takeWork.2.handle job) := by
  cases job with
  | start r =>
    have hdue : Path A H (.ready, s) (.due .start { request := r }, s.takeWork.2.begin r) :=
      .single (.begin hj)
    exact (hdue.trans (Path.advance hp (hdue.heeds hl) rfl)).tail .closeStart
  | advance =>
    refine .tail ?_ .closeAdvance
    cases ht : s.worker.transfer with
    | none =>
      have hnone : s.takeWork.2.advance = s.takeWork.2 := by
        unfold Station.advance
        rw [show s.takeWork.2.worker.transfer = none from ht]
      rw [hnone]
      exact .single (.stale hj ht)
    | some p =>
      have hdue : Path A H (.ready, s) (.due .advance p, s.takeWork.2) := .single (.resume hj ht)
      exact hdue.trans (Path.advance hp (hdue.heeds hl) ht)

theorem Path.serveUpTo (hp : Platform.Within σ A) (limit : Nat) (hl : s.Heeds A) :
    Path A H (.ready, s) (.rest, (s.serveUpTo limit).2) := by
  induction limit generalizing s with
  | zero => exact .single .leave
  | succ limit ih =>
    unfold Station.serveUpTo
    rcases ht : s.takeWork with ⟨_ | job, s'⟩
    · have hstep := Step.drained (A := A) (H := H) (s := s) (by rw [ht])
      rw [ht] at hstep
      exact .single hstep
    · have hjob := Path.handle (H := H) hp hl (by rw [ht])
      rw [ht] at hjob
      exact hjob.trans (ih (hjob.heeds hl))

theorem Path.act {a : Act} (hp : Platform.Within σ A) (hl : s.Heeds A) (ha : a.Within A)
    (hh : H a s.worker) : Path A H (.rest, s) (.rest, s.act a) := by
  cases a with
  | strike i => exact .single (.strike trivial ha)
  | interrupt status => exact .single (.interrupt status)
  | serve => exact .head .serve (Path.serveUpTo hp _ hl)
  | stop => exact .single (.stop hh)
  | finish => exact .single (.finish hh)
  | setPayload payload => exact .single (.setPayload hh)

/-- Every run follows a path from rest to rest. -/
theorem Path.run {T : Worker → Prop} {acts : List Act} (hp : Platform.Within σ A) (hl : s.Heeds A)
    (ha : ∀ a ∈ acts, a.Within A) (hh : s.HaltsOnly T acts) :
    Path A (fun a w => a.Halts → T w) (.rest, s) (.rest, s.run acts) := by
  induction acts generalizing s with
  | nil => exact .refl
  | cons a acts ih =>
    have hact := Path.act (H := fun a w => a.Halts → T w) hp hl (ha a List.mem_cons_self) hh.1
    exact hact.trans (ih (hact.heeds hl) (fun b hb => ha b (List.mem_cons_of_mem _ hb)) hh.2)

theorem Station.haltsOnly_of_forall {T : Worker → Prop} {acts : List Act}
    (h : ∀ a ∈ acts, a.Halts → ∀ w, T w) (s : Station σ) : s.HaltsOnly T acts := by
  induction acts generalizing s with
  | nil => trivial
  | cons a acts ih =>
    exact ⟨fun ha => h a List.mem_cons_self ha _, ih (fun b hb => h b (List.mem_cons_of_mem _ hb)) _⟩

theorem Station.haltsOnly_true (s : Station σ) (acts : List Act) :
    s.HaltsOnly (fun _ => True) acts := haltsOnly_of_forall (fun _ _ _ _ => trivial) s

theorem Station.run_append (s : Station σ) (acts later : List Act) :
    s.run (acts ++ later) = (s.run acts).run later := List.foldl_append

/-- Every run is a path in a world in which anything can happen. -/
theorem Path.everyRun (s : Station σ) (acts : List Act) :
    Path (fun _ => True) (fun _ _ => True) (.rest, s) (.rest, s.run acts) := by
  simpa using Path.run (s := s) Platform.within_true (fun _ _ _ _ => trivial)
    (fun a _ => a.within_true) (s.haltsOnly_true acts)

theorem Path.handled {job : Job} (hj : s.takeWork.1 = some job) :
    Path (fun _ => True) (fun _ _ => True) (.ready, s) (.ready, s.takeWork.2.handle job) :=
  Path.handle Platform.within_true (fun _ _ _ _ => trivial) hj

end Calls
end ScatterGather
