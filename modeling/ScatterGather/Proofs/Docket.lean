import ScatterGather.Bench.Meters
import ScatterGather.Proofs.Hosts
import ScatterGather.Proofs.Moments

/-! # The docket of a run

Every accepted request is a case. It is pending until the listener is told how it ended, or until the
worker is halted. Cases are closed one by one, in the order in which they were opened, and whenever
the listener is told, everything is ready for a new one.
-/
namespace ScatterGather

/-- A line of the chronicle of a run: an event, or a call that leaves no event behind. -/
inductive Note where
  | event (e : Event)
  | halted
  | payload (value : UInt32)

def Act.notes : Act → List Note
  | stop | finish => [.halted]
  | setPayload value => [.payload value]
  | _ => []

section Chronicles
variable {σ : Type}

/-- The events of the later of two stations that the earlier one has not seen, the latest first. -/
def Station.news (s t : Station σ) : List Event :=
  t.machine.history.take (t.machine.history.length - s.machine.history.length)

theorem Station.news_eq {s t : Station σ} {newer : List Event}
    (h : t.machine.history = newer ++ s.machine.history) : s.news t = newer := by
  simp [news, h]

/-- All that happened in a run, the latest first. -/
def Station.chronicle [Platform σ] (s : Station σ) : List Act → List Note
  | [] => []
  | a :: acts => (s.act a).chronicle acts ++ (a.notes ++ (s.news (s.act a)).map .event)

end Chronicles

def eventsOf : List Note → List Event
  | [] => []
  | .event e :: older => e :: eventsOf older
  | _ :: older => eventsOf older

/-- The payload that was set last. -/
def payloadAt (initial : UInt32) : List Note → UInt32
  | [] => initial
  | .payload value :: _ => value
  | _ :: older => payloadAt initial older

/-- The requests that were accepted, the latest first. -/
def accepted : List Event → List Request
  | [] => []
  | .submit request none :: older => request :: accepted older
  | _ :: older => accepted older

/-- What became of a request. -/
inductive Fate where
  | pending
  | dropped
  | told (payload : UInt32) (outcome : Outcome)
deriving DecidableEq

def Fate.notice? : Fate → Option Bench.Notice
  | told payload outcome => some (payload, outcome)
  | _ => none

/-- Cases, the one that was opened last first. -/
abbrev Docket := List (Request × Fate)

namespace Docket

def pending? : Docket → Option Request
  | (request, .pending) :: _ => some request
  | _ => none

/-- Closes the case that was opened last, if it is still pending. -/
def close (fate : Fate) : Docket → Docket
  | (request, .pending) :: older => (request, fate) :: older
  | cases => cases

def after (cases : Docket) : Note → Docket
  | .event (.submit request none) => (request, .pending) :: cases
  | .event (.notify payload outcome) => cases.close (.told payload outcome)
  | .halted => cases.close .dropped
  | _ => cases

def ofNotes : List Note → Docket
  | [] => []
  | note :: older => (ofNotes older).after note

/-- What the listener was told, in the order of the cases. -/
def notices (cases : Docket) : List Bench.Notice := cases.reverse.filterMap fun c => c.2.notice?

variable {cases : Docket} {request : Request} {fate : Fate}

theorem close_of_pending (h : cases.pending? = some request) (fate : Fate) :
    ∃ older, cases = (request, .pending) :: older ∧ cases.close fate = (request, fate) :: older := by
  unfold pending? at h
  split at h
  · next older =>
    cases h
    exact ⟨older, rfl, rfl⟩
  · cases h

theorem close_of_none (h : cases.pending? = none) : cases.close fate = cases := by
  unfold close
  split
  · cases h
  · rfl

theorem pending?_close (h : fate ≠ .pending) : (cases.close fate).pending? = none := by
  cases hp : cases.pending? with
  | none => rwa [close_of_none hp]
  | some request =>
    obtain ⟨older, -, he⟩ := close_of_pending hp fate
    rw [he]
    cases fate with
    | pending => exact absurd rfl h
    | _ => rfl

theorem close_requests (cases : Docket) (fate : Fate) :
    (cases.close fate).map Prod.fst = cases.map Prod.fst := by
  unfold close
  split <;> rfl

/-- The cases are those of the accepted requests. -/
theorem ofNotes_requests (notes : List Note) :
    (ofNotes notes).map Prod.fst = accepted (eventsOf notes) := by
  induction notes with
  | nil => rfl
  | cons note older ih =>
    rw [ofNotes]
    cases note with
    | payload => exact ih
    | halted => exact (close_requests _ _).trans ih
    | event e =>
      cases e with
      | submit request refusal =>
        cases refusal with
        | none => exact congrArg (request :: ·) ih
        | some => exact ih
      | notify => exact (close_requests _ _).trans ih
      | _ => exact ih

end Docket

/-- A chronicle in which the cases are closed as they should be. The payload was `initial` at first. -/
structure Orderly (initial : UInt32) (notes : List Note) : Prop where
  /-- The listener was told of the cases one by one, but for those that were dropped. -/
  notices : (Bench.Recorder.ofHistory (eventsOf notes)).notices = (Docket.ofNotes notes).notices
  /-- No case but the last is still pending. -/
  closed : ∀ c ∈ (Docket.ofNotes notes).tail, c.2 ≠ .pending
  bytes : ∀ request payload bytes,
    (request, .told payload (.completed bytes)) ∈ Docket.ofNotes notes → bytes = request.len
  payload : ∀ newer payload outcome older, notes = newer ++ .event (.notify payload outcome) :: older →
    payload = payloadAt initial older ||| transferDoneBit

/-- Events by which no case is opened or closed. -/
def Event.KeepsDocket : Event → Prop
  | notify .. | submit _ none => False
  | _ => True

theorem Event.Passive.keepsDocket {e : Event} (h : e.Passive) : e.KeepsDocket := by
  cases e with
  | submit request refusal => cases refusal <;> exact h
  | notify => exact h
  | _ => trivial

theorem accepted_append (newer older : List Event) :
    accepted (newer ++ older) = accepted newer ++ accepted older := by
  induction newer with
  | nil => rfl
  | cons e newer ih =>
    cases e with
    | submit r refusal =>
      cases refusal with
      | none => exact congrArg (r :: ·) ih
      | some cause => exact ih
    | _ => exact ih

theorem accepted_of_suffix {older history : List Event} (h : older <:+ history) :
    ∀ r ∈ accepted older, r ∈ accepted history := by
  obtain ⟨newer, rfl⟩ := h
  rw [accepted_append]
  exact fun r hr => List.mem_append_right _ hr

theorem Account.accepted {history : List Event} {r : Request}
    (h : (ofHistory history).request = some r) : r ∈ accepted history := by
  induction history with
  | nil => cases h
  | cons e older ih =>
    cases e with
    | submit request refusal =>
      cases refusal with
      | none =>
        obtain rfl : request = r := Option.some.inj h
        exact List.mem_cons_self
      | some cause => exact ih h
    | _ => exact ih h

section Notes
variable {initial : UInt32} {notes : List Note} {e : Event} {l : List Event}

theorem eventsOf_append (l : List Event) (notes : List Note) :
    eventsOf (l.map .event ++ notes) = l ++ eventsOf notes := by
  induction l with
  | nil => rfl
  | cons e l ih => exact congrArg (e :: ·) ih

theorem payloadAt_append (l : List Event) (notes : List Note) :
    payloadAt initial (l.map .event ++ notes) = payloadAt initial notes := by
  induction l with
  | nil => rfl
  | cons e l ih => exact ih

theorem Account.request_append (he : ∀ e ∈ l, e.KeepsDocket) (older : List Event) :
    (Account.ofHistory (l ++ older)).request = (Account.ofHistory older).request := by
  refine unchanged_append (f := fun h => (ofHistory h).request) (fun e older hfirst => ?_) he older
  cases e with
  | submit request refusal =>
    cases refusal with
    | none => exact hfirst.elim
    | some => rfl
  | notify => exact hfirst.elim
  | _ => rfl

theorem Docket.after_event (he : e.KeepsDocket) (cases : Docket) : cases.after (.event e) = cases := by
  cases e with
  | submit request refusal =>
    cases refusal with
    | none => exact he.elim
    | some => rfl
  | notify => exact he.elim
  | _ => rfl

theorem Docket.ofNotes_append (he : ∀ e ∈ l, e.KeepsDocket) (notes : List Note) :
    ofNotes (l.map .event ++ notes) = ofNotes notes := by
  induction l with
  | nil => rfl
  | cons e l ih =>
    calc
      ofNotes ((e :: l).map .event ++ notes) = (ofNotes (l.map .event ++ notes)).after (.event e) := rfl
      _ = ofNotes (l.map .event ++ notes) := after_event (he e List.mem_cons_self) _
      _ = ofNotes notes := ih fun x hx => he x (List.mem_cons_of_mem _ hx)

theorem Docket.notices_cons (c : Request × Fate) (cases : Docket) :
    notices (c :: cases) = notices cases ++ c.2.notice?.toList := by
  unfold notices
  rw [List.reverse_cons, List.filterMap_append]
  cases h : c.2.notice? <;> simp [h]

namespace Orderly
variable {request : Request} {payload : UInt32} {outcome : Outcome}

theorem nil : Orderly initial [] := by
  refine ⟨rfl, by simp [Docket.ofNotes], by simp [Docket.ofNotes], ?_⟩
  intro newer payload outcome older heq
  cases newer <;> cases heq

/-- Only a new notice has its payload to account for. -/
theorem payload_cons (note : Note) (h : Orderly initial notes)
    (hnow : ∀ payload outcome, note = .event (.notify payload outcome) →
      payload = payloadAt initial notes ||| transferDoneBit) :
    ∀ newer payload outcome older, note :: notes = newer ++ .event (.notify payload outcome) :: older →
      payload = payloadAt initial older ||| transferDoneBit := by
  intro newer payload outcome older heq
  cases newer with
  | nil =>
    obtain ⟨hnote, rfl⟩ := List.cons.inj heq
    exact hnow payload outcome hnote
  | cons first newer => exact h.payload newer payload outcome older (List.cons.inj heq).2

theorem event (h : Orderly initial notes) (he : e.KeepsDocket) : Orderly initial (.event e :: notes) := by
  have hdocket : Docket.ofNotes (.event e :: notes) = Docket.ofNotes notes := Docket.after_event he _
  refine ⟨?_, hdocket ▸ h.closed, hdocket ▸ h.bytes, h.payload_cons _ ?_⟩
  · rw [hdocket, ← h.notices]
    refine congrArg Bench.Recorder.notices (Bench.Recorder.ofHistory_cons ?_ _)
    rintro payload outcome rfl
    exact he
  · rintro payload outcome ⟨⟩
    exact he.elim

theorem events (h : Orderly initial notes) (he : ∀ e ∈ l, e.KeepsDocket) :
    Orderly initial (l.map .event ++ notes) := by
  induction l with
  | nil => exact h
  | cons e l ih =>
    exact (ih fun x hx => he x (List.mem_cons_of_mem _ hx)).event (he e List.mem_cons_self)

theorem set (h : Orderly initial notes) (value : UInt32) : Orderly initial (.payload value :: notes) :=
  ⟨h.notices, h.closed, h.bytes, h.payload_cons _ (by simp)⟩

/-- A request is accepted when no other one is pending. -/
theorem accept (h : Orderly initial notes) (hp : (Docket.ofNotes notes).pending? = none) :
    Orderly initial (.event (.submit request none) :: notes) where
  notices := by
    have hcons := Docket.notices_cons (request, .pending) (Docket.ofNotes notes)
    rw [← h.notices] at hcons
    simpa [Docket.ofNotes, Docket.after, eventsOf, Bench.Recorder.ofHistory, Fate.notice?]
      using hcons.symm
  closed c hc := by
    have hmem : c ∈ Docket.ofNotes notes := hc
    cases hcases : Docket.ofNotes notes with
    | nil => simp [hcases] at hmem
    | cons first older =>
      rw [hcases] at hmem hp
      rcases List.mem_cons.mp hmem with rfl | hmem
      · intro hpending
        obtain ⟨request, fate⟩ := c
        obtain rfl : fate = .pending := hpending
        cases hp
      · exact h.closed c (by rwa [hcases])
  bytes r payload bytes hmem := by
    rcases List.mem_cons.mp hmem with heq | hmem
    · cases heq
    · exact h.bytes r payload bytes hmem
  payload := h.payload_cons _ (by simp)

/-- A halt drops the case that is pending, if there is one. -/
theorem halt (h : Orderly initial notes) : Orderly initial (.halted :: notes) := by
  have hdocket : Docket.ofNotes (.halted :: notes) = (Docket.ofNotes notes).close .dropped := rfl
  have hpayload := h.payload_cons .halted (by simp)
  cases hp : (Docket.ofNotes notes).pending? with
  | none =>
    rw [Docket.close_of_none hp] at hdocket
    exact ⟨hdocket ▸ h.notices, hdocket ▸ h.closed, hdocket ▸ h.bytes, hpayload⟩
  | some request =>
    obtain ⟨older, hcases, hclose⟩ := Docket.close_of_pending hp .dropped
    rw [hclose] at hdocket
    have hnotices := h.notices
    have hclosed := h.closed
    rw [hcases] at hnotices hclosed
    refine ⟨?_, hdocket ▸ hclosed, ?_, hpayload⟩
    · rw [hdocket, Docket.notices_cons]
      rw [Docket.notices_cons] at hnotices
      exact hnotices
    · intro r payload bytes hmem
      rw [hdocket] at hmem
      rcases List.mem_cons.mp hmem with heq | hmem
      · cases heq
      · exact h.bytes r payload bytes (hcases ▸ List.mem_cons_of_mem _ hmem)

/-- The case that is pending is the one that the listener is told of. -/
theorem answer (h : Orderly initial notes) (hp : (Docket.ofNotes notes).pending? = some request)
    (hpayload : payload = payloadAt initial notes ||| transferDoneBit)
    (hbytes : ∀ bytes, outcome = .completed bytes → bytes = request.len) :
    Orderly initial (.event (.notify payload outcome) :: notes) := by
  obtain ⟨older, hcases, hclose⟩ := Docket.close_of_pending hp (.told payload outcome)
  have hdocket : Docket.ofNotes (.event (.notify payload outcome) :: notes) =
      (request, .told payload outcome) :: older := hclose
  have hnotices := h.notices
  have hclosed := h.closed
  rw [hcases] at hnotices hclosed
  refine ⟨?_, hdocket ▸ hclosed, ?_, h.payload_cons _ ?_⟩
  · rw [Docket.notices_cons] at hnotices
    rw [hdocket, Docket.notices_cons, eventsOf, Bench.Recorder.ofHistory_notify, hnotices]
    simp [Fate.notice?]
  · intro r payload bytes hmem
    rw [hdocket] at hmem
    rcases List.mem_cons.mp hmem with heq | hmem
    · cases heq
      exact hbytes bytes rfl
    · exact h.bytes r payload bytes (hcases ▸ List.mem_cons_of_mem _ hmem)
  · rintro payload outcome ⟨⟩
    exact hpayload

end Orderly
end Notes

/-- What is set by calls alone, and by no incident. -/
def Channel.orders (c : Channel) : Bool × UInt32 := (c.finished, c.payload)

section Orders
variable {σ : Type}

theorem Machine.Sees.orders {m m' : Machine σ} {events : List Event} (h : m.Sees events m') :
    m'.channel.orders = m.channel.orders := by
  obtain ⟨n, hn⟩ := h.channel
  rw [hn]
  rfl

theorem Channel.interrupt_orders (c : Channel) (status : UInt32) :
    (c.interrupt status).2.orders = c.orders := by
  obtain ⟨work, advanceOpen, waker, h⟩ := c.interrupt_frame status
  rw [h]
  rfl

theorem Channel.closeAdvance_orders (c : Channel) : c.closeAdvance.orders = c.orders := by
  obtain ⟨work, advanceOpen, h⟩ := c.closeAdvance_frame
  rw [h]
  rfl

theorem Machine.incur_orders (m : Machine σ) (i : Incident) :
    (m.incur i).channel.orders = m.channel.orders := by
  obtain ⟨work, advanceOpen, idle, direction, waker, tables, h⟩ := m.incur_frame i
  rw [h]
  rfl

theorem Ring.stage_orders [Platform σ] (ring : Ring) (m : Machine σ) (dir : Direction)
    (start : BatchPlace) (entries : List Entry) :
    (ring.stage m dir start entries).2.channel.orders = m.channel.orders :=
  stage_induction (P := (·.channel.orders = m.channel.orders)) dir (fun _ _ _ _ hm => hm)
    (fun m i hm => (m.incur_orders i).trans hm) (fun _ _ hm => hm) (fun _ _ hm => hm)
    ring start entries rfl

end Orders

/-- A station and all that happened until then. -/
structure Station.Recorded {σ : Type} (initial : UInt32) (notes : List Note) (s : Station σ) :
    Prop where
  events : eventsOf notes = s.machine.history
  orderly : Orderly initial notes
  /-- A case is pending as long as the channel is not idle. -/
  pending : (Docket.ofNotes notes).pending? =
    if s.machine.channel.idle then none else (Account.ofHistory s.machine.history).request
  payload : s.machine.channel.payload = payloadAt initial notes

namespace Station.Recorded
variable {σ : Type} {initial : UInt32} {notes : List Note} {s t : Station σ} {l : List Event}

theorem frame (h : s.Recorded initial notes) (hi : t.machine.channel.idle = s.machine.channel.idle)
    (hp : t.machine.channel.payload = s.machine.channel.payload)
    (hh : t.machine.history = l ++ s.machine.history) (he : ∀ e ∈ l, e.KeepsDocket) :
    t.Recorded initial (l.map .event ++ notes) where
  events := by rw [eventsOf_append, h.events, hh]
  orderly := h.orderly.events he
  pending := by rw [Docket.ofNotes_append he, h.pending, hi, hh, Account.request_append he]
  payload := by rw [payloadAt_append, hp, h.payload]

theorem accept {r : Request} (h : s.Recorded initial notes) (hidle : s.machine.channel.idle = true)
    (hi : t.machine.channel.idle = false)
    (hp : t.machine.channel.payload = s.machine.channel.payload)
    (hh : t.machine.history = .submit r none :: s.machine.history) :
    t.Recorded initial (.event (.submit r none) :: notes) where
  events := by rw [eventsOf, h.events, hh]
  orderly := h.orderly.accept (by rw [h.pending, if_pos hidle])
  pending := by
    rw [hi, hh]
    rfl
  payload := hp.trans h.payload

theorem strike (h : s.Recorded initial notes) (i : Incident) :
    ∃ newer, (s.strike i).machine.history = newer ++ s.machine.history ∧
      (s.strike i).Recorded initial (newer.map .event ++ notes) := by
  cases i with
  | complete dir =>
    simp only [Station.strike, Machine.incur]
    split
    · exact ⟨[_], rfl, h.frame rfl rfl rfl (by simp [Event.KeepsDocket])⟩
    · exact ⟨[], rfl, h⟩
  | flag => exact ⟨[_], rfl, h.frame rfl rfl rfl (by simp [Event.KeepsDocket])⟩
  | interrupt status =>
    obtain ⟨work, advanceOpen, waker, he⟩ := s.machine.channel.interrupt_frame status
    refine ⟨[_], rfl, h.frame ?_ ?_ rfl (by simp [Event.KeepsDocket])⟩ <;>
      rw [Station.strike, Machine.incur, he] <;> rfl
  | submit r =>
    simp only [Station.strike, Machine.incur]
    rcases s.machine.channel.submit_cases r with ⟨e, he⟩ | ⟨-, -, he⟩ | ⟨hidle, -, -, he⟩ <;> rw [he]
    · exact ⟨[_], rfl, h.frame rfl rfl rfl (by simp [Event.KeepsDocket])⟩
    · exact ⟨[_], rfl, h.frame rfl rfl rfl (by simp [Event.KeepsDocket])⟩
    · exact ⟨[_], rfl, h.accept hidle rfl rfl rfl⟩

theorem halt (h : s.Recorded initial notes) (hd : s.Drops [] t)
    (hidle : t.machine.channel.idle = true) : t.Recorded initial (.halted :: (s.news t).map .event ++ notes) := by
  obtain ⟨events, hh, he⟩ := hd.history
  have hkeeps : ∀ e ∈ events, e.KeepsDocket := fun e hmem => (he e hmem).passive.keepsDocket
  rw [Station.news_eq hh]
  constructor
  case events => 
    rw [hh, ← h.events]
    exact eventsOf_append _ _
  case orderly => exact (h.orderly.events hkeeps).halt
  case pending =>
    rw [hidle, if_pos rfl]
    exact Docket.pending?_close (by simp)
  case payload =>
    rw [hd.payload, h.payload]
    exact (payloadAt_append _ _).symm

/-- The listener is told of the transfer in hand. -/
theorem tell [Platform σ] {k : Errand} {p : Progress} (h : s.Recorded initial notes)
    (hc : s.view.Poised k p) (phase : Phase) {outcome : Outcome}
    (ho : ∀ bytes, outcome = .completed bytes → bytes = p.request.len) :
    ∃ newer, (s.tell phase outcome).machine.history = newer ++ s.machine.history ∧
      (s.tell phase outcome).Recorded initial (newer.map .event ++ notes) := by
  have hdrops := s.tell_drops phase outcome
  obtain ⟨events, hh, he⟩ := hdrops.history
  have hkeeps : ∀ e ∈ events, e.KeepsDocket := fun e hmem => (he e hmem).passive.keepsDocket
  have hpending : (Docket.ofNotes (events.map .event ++ notes)).pending? = some p.request := by
    have hidle : s.machine.channel.idle = false := hc.idle
    rw [Docket.ofNotes_append hkeeps, h.pending, hidle, if_neg (by simp)]
    exact hc.request
  have hpayload : s.machine.channel.payloadForTransfer =
      payloadAt initial (events.map .event ++ notes) ||| transferDoneBit := by
    rw [payloadAt_append, ← h.payload]
    rfl
  refine ⟨.notify s.machine.channel.payloadForTransfer outcome :: events, hh, ?_⟩
  constructor
  case events =>
    rw [eventsOf_append, h.events, hh]
    rfl
  case orderly => exact (h.orderly.events hkeeps).answer hpending hpayload ho
  case pending =>
    have hidle := (hc.tell phase outcome).idle
    rw [show (s.tell phase outcome).machine.channel.idle = true from hidle, if_pos rfl]
    exact Docket.pending?_close (by simp)
  case payload => 
    rw [hdrops.payload, h.payload]
    exact (payloadAt_append _ _).symm

end Station.Recorded

section Steps
variable {σ : Type} [Platform σ] {A : Incident → Prop} {initial : UInt32} {notes : List Note}
  {s : Station σ} {x y : Juncture × Station σ}

/-- Every step that leaves no note of its own is recorded by its events. -/
theorem Station.Recorded.step (hstep : Step A (fun a _ => a.notes = []) x y)
    (hc : Control x.2.view x.1) (h : x.2.Recorded initial notes) :
    ∃ newer, y.2.machine.history = newer ++ x.2.machine.history ∧
      y.2.Recorded initial (newer.map .event ++ notes) := by
  cases hstep.deed with
  | tend htends =>
    obtain ⟨work, n, hchannel⟩ := htends.channel
    obtain ⟨events, hh, he⟩ := htends.history
    refine ⟨events, hh, h.frame ?_ ?_ hh fun e hmem => (he e hmem).passive.keepsDocket⟩ <;>
      rw [hchannel]
  | strike => exact h.strike _
  | @interrupt s status =>
    obtain ⟨work, advanceOpen, waker, he⟩ := s.machine.channel.interrupt_frame status
    refine ⟨[], rfl, h.frame ?_ ?_ rfl (by simp)⟩ <;> rw [Station.mapChannel, he]
  | @close s =>
    obtain ⟨work, advanceOpen, he⟩ := s.machine.channel.closeAdvance_frame
    refine ⟨[], rfl, h.frame ?_ ?_ rfl (by simp)⟩ <;> rw [Station.mapChannel, he]
  | setPayload hn => simp [Act.notes] at hn
  | @halt s a ha hn =>
    cases a with
    | stop | finish => simp [Act.notes] at hn
    | _ => exact ha.elim
  | begin => exact ⟨[_], rfl, h.frame rfl rfl rfl (by simp [Event.KeepsDocket])⟩
  | complete => exact h.tell hc .idle (by simp)
  | fail =>
    obtain ⟨p, hpoised⟩ := hc
    exact h.tell hpoised .fault (by simp)
  | @issue k p s start w entries =>
    obtain ⟨events, hsilent, hh⟩ := Station.issue_history hc.1.busy p start entries
    have hidle := congrArg Posture.idle (Station.issue_posture hc.1.busy p start entries)
    have hpayload := congrArg Prod.snd
      (s.worker.ring.stage_orders s.machine p.request.direction start entries)
    rw [List.append_cons events, ← List.cons_append] at hh
    refine ⟨_, hh, h.frame hidle hpayload hh ?_⟩
    simp only [List.mem_cons, List.mem_append, List.not_mem_nil, or_false]
    rintro e (rfl | hmem | rfl)
    · trivial
    · exact (hsilent e hmem).passive.keepsDocket
    · trivial

theorem Station.Recorded.path (hs : s.settings.Valid) (hc : Control s.view .rest)
    (h : s.Recorded initial notes) (hpath : Path A (fun a _ => a.notes = []) (.rest, s) y) :
    ∃ newer, y.2.machine.history = newer ++ s.machine.history ∧
      y.2.Recorded initial (newer.map .event ++ notes) := by
  refine Path.keep (x := (.rest, s)) (P := fun z => ∃ newer, z.2.machine.history =
    newer ++ s.machine.history ∧ z.2.Recorded initial (newer.map .event ++ notes)) hs hc ?_ ?_ hpath
  · rintro u v - hcontrol hstep ⟨newer, hh, hrecorded⟩
    obtain ⟨latest, hh', hrecorded'⟩ := hrecorded.step hstep hcontrol
    refine ⟨latest ++ newer, by rw [hh', hh, List.append_assoc], ?_⟩
    rwa [List.map_append, List.append_assoc]
  · exact ⟨[], rfl, h⟩

/-- Every act is recorded by its notes and by its events. -/
theorem Station.Recorded.act (hs : s.settings.Valid) (hc : Control s.view .rest)
    (h : s.Recorded initial notes) (a : Act) :
    (s.act a).Recorded initial (a.notes ++ (s.news (s.act a)).map .event ++ notes) := by
  have hquiet (hn : a.notes = []) :
      (s.act a).Recorded initial (a.notes ++ (s.news (s.act a)).map .event ++ notes) := by
    have hpath : Path (fun _ => True) (fun a _ => a.notes = []) (.rest, s) (.rest, s.act a) :=
      Path.act Platform.within_true (fun _ _ _ _ => trivial) a.within_true hn
    obtain ⟨newer, hh, hrecorded⟩ := h.path hs hc hpath
    rwa [hn, List.nil_append, Station.news_eq hh]
  cases a with
  | strike | interrupt | serve => exact hquiet rfl
  | stop => exact h.halt s.stop_drops (hc.halt_vacant (a := .stop) trivial).idle
  | finish => exact h.halt s.finish_drops (hc.halt_vacant (a := .finish) trivial).idle
  | setPayload value =>
    have hh : (s.act (.setPayload value)).machine.history = [] ++ s.machine.history := rfl
    rw [Station.news_eq hh]
    exact ⟨h.events, h.orderly.set value, h.pending, rfl⟩

theorem Station.Recorded.run (hs : s.settings.Valid) (hc : Control s.view .rest)
    (h : s.Recorded initial notes) (acts : List Act) :
    (s.run acts).Recorded initial (s.chronicle acts ++ notes) := by
  induction acts generalizing s notes with
  | nil => exact h
  | cons a acts ih =>
    have hact := Path.control (x := (.rest, s)) hs hc (Path.everyRun s [a])
    have := ih (hact.2 ▸ hs) hact.1 (h.act hs hc a)
    rw [Station.chronicle, List.append_assoc]
    exact this

end Steps

section Moments
variable {σ : Type} [Platform σ] {A : Incident → Prop} {H : Act → Worker → Prop}
  {x y u v : Juncture × Station σ} {s : Station σ} {payload : UInt32} {outcome : Outcome}
  {older : List Event}

/-- A finished worker has nothing to do, and nothing can be submitted to it. -/
def Retired (z : Juncture × Station σ) : Prop :=
  z.2.machine.channel.finished = true →
    (z.1 = .rest ∨ z.1 = .ready) ∧ z.2.machine.channel.idle = true

/-- Nothing is to be done right after the listener was told, before anything else happens. -/
def Cleared (z : Juncture × Station σ) : Prop :=
  ∀ k, z.1 = .told k → ∀ payload outcome older,
    z.2.machine.history = .notify payload outcome :: older → z.2.view.Vacant k.opened

theorem Step.finished (h : Step A H x y) (hx : x.1 ≠ .rest) :
    y.2.machine.channel.finished = x.2.machine.channel.finished := by
  cases h.deed with
  | tend htends =>
    obtain ⟨work, n, hchannel⟩ := htends.channel
    rw [hchannel]
  | strike => exact congrArg Prod.fst (Machine.incur_orders _ _)
  | interrupt | setPayload | halt => exact absurd rfl hx
  | begin => rfl
  | @complete k p s => exact congrArg Prod.fst (s.worker.pipeline.unpinAll_sees s.machine).orders
  | @fail k cause s => exact congrArg Prod.fst (s.worker.pipeline.unpinAll_sees s.machine).orders
  | issue => exact congrArg Prod.fst (Ring.stage_orders _ _ _ _ _)
  | close => exact congrArg Prod.fst (Channel.closeAdvance_orders _)

omit [Platform σ] in
theorem Station.strike_idle (hf : s.machine.channel.finished = true) (i : Incident) :
    (s.strike i).machine.channel.idle = s.machine.channel.idle := by
  cases i with
  | complete dir =>
    simp only [strike, Machine.incur]
    split <;> rfl
  | flag => rfl
  | interrupt status =>
    obtain ⟨work, advanceOpen, waker, he⟩ := s.machine.channel.interrupt_frame status
    rw [strike, Machine.incur, he]
    rfl
  | submit r =>
    simp only [strike, Machine.incur]
    rcases s.machine.channel.submit_cases r with ⟨e, he⟩ | ⟨-, -, he⟩ | ⟨-, -, hopen, -⟩
    · rw [he]
      rfl
    · rw [he]
      rfl
    · cases hf.symm.trans hopen

theorem Retired.step (hstep : Step A H x y) (hc : Control x.2.view x.1) (h : Retired x) :
    Retired y := by
  intro hf
  have hsame := hstep.finished
  cases hstep with
  | @strike j s i =>
    have hf' : s.machine.channel.finished = true :=
      (congrArg Prod.fst (s.machine.incur_orders i)).symm.trans hf
    exact ⟨(h hf').1, (s.strike_idle hf' i).trans (h hf').2⟩
  | @interrupt s status =>
    have hf' : s.machine.channel.finished = true :=
      (congrArg Prod.fst (s.machine.channel.interrupt_orders status)).symm.trans hf
    refine ⟨.inl rfl, ?_⟩
    exact (s.strike_idle hf' (.interrupt status)).trans (h hf').2
  | setPayload => exact h hf
  | stop => exact ⟨.inl rfl, (hc.halt_vacant (a := .stop) trivial).idle⟩
  | finish => exact ⟨.inl rfl, (hc.halt_vacant (a := .finish) trivial).idle⟩
  | serve => exact ⟨.inr rfl, (h hf).2⟩
  | leave => exact ⟨.inl rfl, (h hf).2⟩
  | drained => exact ⟨.inl rfl, (h hf).2⟩
  | begin hj =>
    obtain ⟨-, ⟨r, -, hq⟩ | ⟨p, hr, -⟩⟩ := hc.taken hj
    · cases hq.idle.symm.trans (h hf).2
    · cases hr
  | resume hj ht => cases (hc.engaged ht).idle.symm.trans (h hf).2
  | stale hj ht => exact absurd ht (hc.not_stale hj)
  | _ =>
    -- a call that has work in hand was begun before the worker was finished
    have hretired := h ((hsame (by simp)).symm.trans hf)
    simp at hretired

theorem Cleared.step (hstep : Step A H x y) (hc : Control x.2.view x.1) (h : Cleared x) :
    Cleared y := by
  intro k hk payload outcome older hh
  cases hstep with
  | @strike j s i =>
    cases i with
    | complete dir =>
      simp only [Station.strike, Machine.incur] at hh ⊢
      split at hh
      · cases hh
      · next hlast =>
        rw [if_neg hlast]
        exact h k hk payload outcome older hh
    | _ => cases hh
  | complete =>
    cases hk
    exact View.Poised.tell hc _ _
  | fail =>
    cases hk
    obtain ⟨p, hpoised⟩ := hc
    exact hpoised.tell _ _
  | _ => cases hk

/-- Of all steps only those that tell the listener leave a notice, as the latest event. -/
theorem Step.notice (hstep : Step A H u v) (hc : Control u.2.view u.1)
    (hu : u.2.machine.history <:+ older)
    (hv : .notify payload outcome :: older <:+ v.2.machine.history) :
    (∃ k, v.1 = .told k) ∧ v.2.machine.history = .notify payload outcome :: older := by
  have hnone {l : List Event} (hh : v.2.machine.history = l ++ u.2.machine.history)
      (he : .notify payload outcome ∉ l) :
      (∃ k, v.1 = .told k) ∧ v.2.machine.history = .notify payload outcome :: older := by
    obtain ⟨newer, between, rfl, -⟩ := suffix_within (hh ▸ hv) hu
    simp at he
  have htold {k : Errand} {newest : Event} (hk : v.1 = .told k)
      (hh : ∃ events, v.2.machine.history = [newest] ++ (events ++ u.2.machine.history) ∧
        ∀ e ∈ events, e.MovesPages) :
      (∃ k, v.1 = .told k) ∧ v.2.machine.history = .notify payload outcome :: older := by
    obtain ⟨events, hh, he⟩ := hh
    rw [← List.append_assoc] at hh
    obtain ⟨newer, between, heq, rfl⟩ := suffix_within (hh ▸ hv) hu
    cases newer with
    | nil =>
      obtain ⟨rfl, rfl⟩ := List.cons.inj heq
      exact ⟨⟨k, hk⟩, hh⟩
    | cons first newer =>
      obtain ⟨-, rfl⟩ := List.cons.inj heq
      exact absurd (he (.notify payload outcome) (by simp)) id
  cases hstep.deed with
  | tend htends =>
    obtain ⟨events, hh, he⟩ := htends.history
    exact hnone hh fun hmem => he _ hmem
  | @strike j s i =>
    obtain ⟨events, hh, he⟩ := s.machine.incur_incidental i
    exact hnone hh fun hmem => he _ hmem
  | interrupt | setPayload | close => exact hnone (l := []) rfl (by simp)
  | @halt s a ha =>
    obtain ⟨events, hh, he⟩ := (s.halt_drops ha).history
    exact hnone hh fun hmem => he _ hmem
  | begin => exact hnone (l := [_]) rfl (by simp)
  | @complete k p s => exact htold rfl (s.tell_drops _ _).history
  | @fail k cause s => exact htold rfl (s.tell_drops _ _).history
  | @issue k p s start w entries =>
    obtain ⟨events, hsilent, hh⟩ := Station.issue_history hc.1.busy p start entries
    rw [List.append_cons events, ← List.cons_append] at hh
    refine hnone hh ?_
    simp only [List.mem_cons, List.mem_append, reduceCtorEq, List.not_mem_nil, or_false, false_or]
    exact fun hmem => hsilent _ hmem

omit [Platform σ] in
theorem Channel.submit_accepts {c : Channel} (hf : c.finished = false) (hi : c.idle = true)
    (hw : c.work.isFull = false) (r : Request) : (c.submit r).1 = none ↔ r.Aligned := by
  unfold submit
  rw [hf, hi, Request.Aligned]
  by_cases hlen : r.len % wordBytes = 0 <;> by_cases hhost : r.host % wordBytes = 0 <;>
    simp [hlen, hhost, hw]

/-- How the requests of a run from `s` to `t` are answered. -/
structure Answered (s t : Station σ) (notes : List Note) : Prop where
  events : eventsOf notes = t.machine.history
  requests : (Docket.ofNotes notes).map Prod.fst = accepted t.machine.history
  orderly : Orderly s.settings.payload notes
  idle : (Docket.ofNotes notes).pending? = none ↔ t.machine.channel.idle = true
  /-- There is a moment for each notice. -/
  told : ∀ payload outcome older, .notify payload outcome :: older <:+ t.machine.history →
    ∃ k u, Midway (fun _ => True) (fun _ _ => True) s t (.told k, u) ∧
      u.machine.history = .notify payload outcome :: older
  /-- At that moment nothing is to be done, and any aligned request is accepted. -/
  cleared : ∀ k u payload outcome older,
    Midway (fun _ => True) (fun _ _ => True) s t (.told k, u) →
    u.machine.history = .notify payload outcome :: older →
    u.view.Vacant k.opened ∧ ∀ r, (u.machine.channel.submit r).1 = none ↔ r.Aligned

/-- In every run of a worker, whatever the platform answers, however incidents strike and however the
run is halted: each accepted request is answered once, with its own length and with the payload that is
set at the time, unless it is dropped by a halt or is the one that is still pending. Whenever the
listener is told, the worker is ready for the next request. -/
theorem run_answered (settings : Settings) (hs : settings.Valid) (tableBus : Sides Nat)
    (registers : RegisterFile) (platform : σ) (listener : List (List Incident)) (acts : List Act) :
    let s := Station.initial settings tableBus registers platform listener
    Answered s (s.run acts) (s.chronicle acts) := by
  intro s
  have hcontrol : Control s.view .rest := Control.initial ..
  have hfirst : s.Recorded settings.payload [] := ⟨rfl, Orderly.nil, rfl, rfl⟩
  have hrecorded := Station.Recorded.run (s := s) hs hcontrol hfirst acts
  rw [List.append_nil] at hrecorded
  have hmoment {z : Juncture × Station σ} (hz : Path (fun _ => True) (fun _ _ => True) (.rest, s) z) :
      Control z.2.view z.1 ∧ Retired z ∧ Cleared z := by
    refine ⟨(Path.control (x := (.rest, s)) hs hcontrol hz).1, ?_, ?_⟩
    · refine Path.keep (x := (.rest, s)) hs hcontrol ?_ (fun hf => by cases hf) hz
      rintro u v - hc hstep h
      exact h.step hstep hc
    · refine Path.keep (x := (.rest, s)) hs hcontrol ?_ (fun k hk => by cases hk) hz
      rintro u v - hc hstep h
      exact h.step hstep hc
  have hrun := Path.everyRun s acts
  constructor
  case events => exact hrecorded.events
  case requests =>
    rw [← hrecorded.events]
    exact Docket.ofNotes_requests _
  case orderly => exact hrecorded.orderly
  case idle =>
    rw [hrecorded.pending]
    cases hidle : (s.run acts).machine.channel.idle with
    | true => simp
    | false =>
      have hrequest : ∃ r, (s.run acts).view.account.request = some r := by
        rcases (hmoment hrun).1 with (hv | ⟨r, hq⟩) | ⟨p, hr⟩
        · cases hidle.symm.trans hv.idle
        · exact ⟨r, congrArg Account.request hq.account⟩
        · exact ⟨_, hr.request⟩
      obtain ⟨r, hr⟩ := hrequest
      simp only [Station.view] at hr
      simp [hr]
  case told =>
    intro payload outcome older hsuffix
    obtain ⟨u, v, hu, hstep, hv, holder, hnow⟩ := Path.crossing hrun hsuffix List.nil_suffix
    obtain ⟨⟨k, hk⟩, hhistory⟩ := hstep.notice (hmoment hu).1 holder hnow
    obtain ⟨j, w⟩ := v
    obtain rfl : j = .told k := hk
    exact ⟨k, w, ⟨hu.tail hstep, hv⟩, hhistory⟩
  case cleared =>
    rintro k u payload outcome older ⟨hu, -⟩ hhistory
    obtain ⟨-, hretired, hcleared⟩ := hmoment hu
    have hvacant := hcleared k rfl payload outcome older hhistory
    refine ⟨hvacant, Channel.submit_accepts ?_ hvacant.idle hvacant.work.isFull⟩
    rw [← Bool.not_eq_true]
    intro hf
    simpa using (hretired hf).1

end Moments

/-- One transfer is dropped, one is completed, and one is submitted by the listener. -/
theorem run_answered_tally :
    let s := Station.initial { payload := 6 } (.both 0) .reset ({} : Bench.PageTally)
      [[.submit { direction := .deviceToHost, host := 0x7000, device := 0, len := 8 }]]
    let acts := [
      .strike (.submit { direction := .hostToDevice, host := 0x2004, device := 0, len := 4 }), .serve,
      .stop, .strike (.submit { direction := .hostToDevice, host := 0x3000, device := 0, len := 0 }),
      .setPayload 8, .serve]
    Answered s (s.run acts) (s.chronicle acts) :=
  run_answered { payload := 6 } (by decide) (.both 0) .reset ({} : Bench.PageTally)
    [[.submit { direction := .deviceToHost, host := 0x7000, device := 0, len := 8 }]] [
      .strike (.submit { direction := .hostToDevice, host := 0x2004, device := 0, len := 4 }), .serve,
      .stop, .strike (.submit { direction := .hostToDevice, host := 0x3000, device := 0, len := 0 }),
      .setPayload 8, .serve]
end ScatterGather
