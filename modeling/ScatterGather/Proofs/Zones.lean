import ScatterGather.Proofs.Docket
import ScatterGather.Proofs.Publications

/-! # Each direction keeps to its side

While a transfer is in flight, only registers of its direction are read and written, only its table is
stored to by the worker, and of the other ring neither the worker nor the interrupt handler knows a
last id. This holds whenever anything can be seen, between the register writes of a batch as well.
-/
namespace ScatterGather

/-- What an event leaves in the tables. Only batches are stored by the worker. -/
def Event.stored : Event → Sides Table → Sides Table
  | issue dir start entries, tables => tables.set dir ((tables.get dir).staged start entries)
  | e, tables => e.mark tables

/-- What a history leaves in tables that were blank. -/
def tablesAfter (history : List Event) : Sides Table := history.foldr Event.stored (.both .blank)

/-- An event for which the direction matters is one of the direction of the request. -/
def Event.Sided (request : Option Request) : Event → Prop
  | read offset _ | write offset _ =>
    ∃ r reg, request = some r ∧ offset = Register.address r.direction reg
  | issue dir _ _ => ∃ r, request = some r ∧ dir = r.direction
  | _ => True

/-- Each event keeps to the side of the request that had been accepted last. -/
def Sided : List Event → Prop := Throughout fun
  | [] => True
  | e :: older => e.Sided (Account.ofHistory older).request

/-- The tables are what the history has stored, and all of it kept to its side. -/
structure Machine.Zoned {σ : Type} (m : Machine σ) : Prop where
  sided : ScatterGather.Sided m.history
  tables : m.channel.tables = tablesAfter m.history

/-- The request is in flight, and for the other direction no id was issued. -/
structure Machine.Confined {σ : Type} (r : Request) (m : Machine σ) : Prop extends m.Zoned where
  idle : m.channel.idle = false
  request : (Account.ofHistory m.history).request = some r
  issued : m.channel.issued.get r.direction.other = noId

/-- No register is accessed and no batch is stored. -/
def Event.Outer : Event → Prop
  | read .. | write .. | issue .. => False
  | _ => True

section Histories
variable {e : Event} {l older : List Event} {r : Request}

theorem Event.MovesPages.outer (h : e.MovesPages) : e.Outer := by
  cases e with
  | lock | unlock => trivial
  | _ => exact h.elim

theorem Event.Incidental.outer (h : e.Incidental) : e.Outer := by
  cases e with
  | complete | flag | interrupt | submit => trivial
  | _ => exact h.elim

theorem Event.Outer.sided (h : e.Outer) (request : Option Request) : e.Sided request := by
  cases e with
  | read | write | issue => exact h.elim
  | _ => trivial

theorem Event.Outer.stored (h : e.Outer) (tables : Sides Table) : e.stored tables = e.mark tables := by
  cases e with
  | read | write | issue => exact h.elim
  | _ => rfl

theorem Sided.outer (h : Sided older) (he : ∀ e ∈ l, e.Outer) : Sided (l ++ older) :=
  Throughout.append (fun e hmem _ _ => (he e hmem).sided _) h

theorem tablesAfter_outer (he : ∀ e ∈ l, e.Outer) :
    tablesAfter (l ++ older) = l.foldr Event.mark (tablesAfter older) := by
  induction l with
  | nil => rfl
  | cons e l ih =>
    rw [List.foldr_cons, ← ih fun x hx => he x (List.mem_cons_of_mem _ hx)]
    exact (he e List.mem_cons_self).stored _

/-- As long as a request is pending, nothing but flags is stored to the other table. -/
theorem Sided.other_table (h : Sided (l ++ older)) (hr : (Account.ofHistory older).request = some r)
    (he : ∀ e ∈ l, e.KeepsDocket) : (tablesAfter (l ++ older)).get r.direction.other =
      (l.foldr Event.mark (tablesAfter older)).get r.direction.other := by
  induction l with
  | nil => rfl
  | cons e l ih =>
    have hrest : ∀ x ∈ l, x.KeepsDocket := fun x hx => he x (List.mem_cons_of_mem _ hx)
    have hsame := ih (Throughout.older [e] h) hrest
    have hfirst : e.Sided (some r) := by
      have hnow : e.Sided (Account.ofHistory (l ++ older)).request := Throughout.now h
      rwa [Account.request_append hrest, hr] at hnow
    rw [List.cons_append, List.foldr_cons, tablesAfter, List.foldr_cons]
    change (e.stored (tablesAfter (l ++ older))).get _ = _
    cases e with
    | issue dir =>
      obtain ⟨q, hq, rfl⟩ := hfirst
      cases hq
      exact (Sides.get_set_of_ne _ _ (Direction.other_ne _)).trans hsame
    | complete dir | flag dir =>
      simp only [Event.stored, Event.mark, Sides.get_set]
      split
      · next hd => rw [← hd, hsame]
      · exact hsame
    | _ => exact hsame

end Histories

namespace Machine
variable {σ : Type} {m n : Machine σ} {r : Request} {events : List Event}

theorem Zoned.outer (h : m.Zoned) (hh : n.history = events ++ m.history)
    (ht : n.channel.tables = events.foldr Event.mark m.channel.tables) (he : ∀ e ∈ events, e.Outer) :
    n.Zoned where
  sided := hh ▸ h.sided.outer he
  tables := by rw [ht, hh, tablesAfter_outer he, h.tables]

theorem Zoned.incur (h : m.Zoned) (i : Incident) : (m.incur i).Zoned :=
  h.outer (m.incur_watches i).history (m.incur_watches i).tables
    fun e he => (m.traces_incidental i e he).outer

namespace Confined

theorem incur (h : m.Confined r) (i : Incident) : (m.incur i).Confined r where
  toZoned := h.toZoned.incur i
  idle := by
    rcases m.incur_cases i with ⟨events, -, -, hidle⟩ | ⟨hidle, -⟩
    · exact hidle.trans h.idle
    · cases hidle.symm.trans h.idle
  request := by
    rcases m.incur_cases i with ⟨events, hh, he, -⟩ | ⟨hidle, -⟩
    · rw [hh, Account.ofHistory_passive fun e hmem => (he e hmem).passive, h.request]
    · cases hidle.symm.trans h.idle
  issued := by
    obtain ⟨work, advanceOpen, idle, direction, waker, tables, hc⟩ := m.incur_frame i
    rw [hc]
    exact h.issued

/-- The batch is recorded and stored. -/
theorem filled (h : m.Confined r) (start : BatchPlace) (entries : List Entry) :
    ((m.record (.issue r.direction start entries)).mapTable r.direction
      (·.staged start entries)).Confined r where
  sided := Throughout.cons h.sided ⟨r, h.request, rfl⟩
  tables := congrArg (fun tables : Sides Table =>
    tables.set r.direction ((tables.get r.direction).staged start entries)) h.tables
  idle := h.idle
  request := h.request
  issued := h.issued

theorem setIssued (h : m.Confined r) (last : Nat) :
    ({ m with channel := m.channel.setIssued r.direction last } : Machine σ).Confined r :=
  { h with issued := (Sides.get_set_of_ne _ _ (Direction.other_ne _)).trans h.issued }

theorem incurAll (h : m.Confined r) (incidents : List Incident) : (m.incurAll incidents).Confined r := by
  induction incidents generalizing m with
  | nil => exact h
  | cons i rest ih => exact ih (h.incur i)

variable [Platform σ]

theorem wrote (h : m.Confined r) (reg : Register) (value : UInt32) :
    (m.wrote (reg.address r.direction) value).Confined r where
  sided := Throughout.cons h.sided ⟨r, reg, h.request, rfl⟩
  tables := h.tables
  idle := h.idle
  request := h.request
  issued := h.issued

theorem writeEach (h : m.Confined r) {writes : List (Nat × UInt32)} (hw : Announcing r.direction writes) :
    (m.writeEach writes).Confined r ∧ ∀ x ∈ m.atWrites writes, x.Confined r := by
  induction writes generalizing m with
  | nil => exact ⟨h, nofun⟩
  | cons w writes ih =>
    obtain ⟨reg, -, hplace⟩ := hw w List.mem_cons_self
    have hwrote := h.wrote reg w.2
    rw [← hplace] at hwrote
    obtain ⟨hlast, hrest⟩ := ih (hwrote.incurAll _) fun x hx => hw x (List.mem_cons_of_mem _ hx)
    exact ⟨hlast, List.forall_mem_cons.mpr ⟨hwrote, hrest⟩⟩

/-- At each register write of a batch everything has kept to its side, and so it has when the last id is to
be written. -/
theorem stage (h : m.Confined r) (ring : Ring) (start : BatchPlace) (entries : List Entry) :
    (ring.stage m r.direction start entries).2.Confined r ∧
      ∀ x ∈ ring.moments m r.direction start entries, x.2.Confined r := by
  obtain ⟨hannounced, hwrites⟩ := (h.filled start entries).writeEach
    (ring.announcement_announcing r.direction start)
  have hstaged : (ring.stage m r.direction start entries).2.Confined r := by
    rw [ring.stage_eq]
    exact hannounced.setIssued _
  refine ⟨hstaged, ?_⟩
  intro x hx
  rcases List.mem_append.mp hx with hx | hx
  · obtain ⟨y, hy, rfl⟩ := List.mem_map.mp hx
    exact hwrites y hy
  · obtain rfl := List.mem_singleton.mp hx
    exact hstaged.wrote .lastId _

end Confined
end Machine

/-- What is known of the ring at each register write of a batch. -/
theorem Ring.moments_lastId {σ : Type} [Platform σ] {ring : Ring} {m : Machine σ} {dir : Direction}
    {start : BatchPlace} {entries : List Entry} (h : ring.lastId.get dir.other = noId) :
    ∀ x ∈ ring.moments m dir start entries, x.1.lastId.get dir.other = noId := by
  intro x hx
  rcases List.mem_append.mp hx with hx | hx
  · obtain ⟨y, -, rfl⟩ := List.mem_map.mp hx
    exact h
  · obtain rfl := List.mem_singleton.mp hx
    exact (Sides.get_set_of_ne _ _ dir.other_ne).trans h

/-- With a transfer in hand neither the worker nor the interrupt handler knows an id of the other ring. -/
theorem Control.other_unissued {v : View} {j : Juncture} {p : Progress} (h : Control v j)
    (ht : v.worker.transfer = some p) : v.worker.ring.lastId.get p.request.direction.other = noId ∧
      v.posture.issued.get p.request.direction.other = noId := by
  have hset (last : Nat) : ((Sides.both noId).set p.request.direction last).get
      p.request.direction.other = noId := by
    rw [Sides.get_set_of_ne _ _ (Direction.other_ne _), Sides.get_both]
  have hpublished {last : Nat} (hl : v.Published p.request.direction last) :
      v.worker.ring.lastId.get p.request.direction.other = noId ∧
        v.posture.issued.get p.request.direction.other = noId := by
    rw [hl.ring, hl.issued]
    exact ⟨hset last, hset last⟩
  obtain ⟨k, hp | hr⟩ := h.poised_or_running ht
  · cases k with
    | start =>
      rw [hp.place.ring, hp.place.issued]
      exact ⟨hset _, Sides.get_both ..⟩
    | advance =>
      obtain ⟨-, last, hl⟩ := hp.place
      exact hpublished hl
  · obtain ⟨last, hl⟩ := hr.published
    exact hpublished hl

section Steps
variable {σ : Type} [Platform σ] {A : Incident → Prop} {H : Act → Worker → Prop}
  {x y : Juncture × Station σ} {s t : Station σ} {p : Progress}

omit [Platform σ] in
theorem Machine.Zoned.confined {j : Juncture} (h : s.machine.Zoned) (hc : Control s.view j)
    (ht : s.worker.transfer = some p) : s.machine.Confined p.request where
  toZoned := h
  idle := (hc.engaged ht).idle
  request := (hc.engaged ht).request
  issued := (hc.other_unissued ht).2

theorem Machine.Zoned.step (h : x.2.machine.Zoned) (hc : Control x.2.view x.1) (hstep : Step A H x y) :
    y.2.machine.Zoned := by
  have hdrops {t : Station σ} {newest : List Event} (hd : x.2.Drops newest t)
      (hn : ∀ e ∈ newest, e.Outer ∧ ∀ tables, e.mark tables = tables) : t.machine.Zoned := by
    obtain ⟨events, hh, he⟩ := hd.added hn fun e hm => ⟨hm.outer, hm.mark⟩
    exact h.outer hh (hd.tables.trans (marks_same (fun e hmem => (he e hmem).2) _).symm)
      fun e hmem => (he e hmem).1
  cases hstep.deed with
  | tend htends =>
    obtain ⟨events, hh, he⟩ := htends.history
    exact h.outer hh (htends.tables.trans (marks_moves he _).symm) fun e hmem => (he e hmem).outer
  | strike => exact h.incur _
  | @interrupt s status =>
    obtain ⟨work, advanceOpen, waker, hframe⟩ := s.machine.channel.interrupt_frame status
    exact ⟨h.sided, (congrArg Channel.tables hframe).trans h.tables⟩
  | @close s =>
    obtain ⟨work, advanceOpen, hframe⟩ := s.machine.channel.closeAdvance_frame
    exact ⟨h.sided, (congrArg Channel.tables hframe).trans h.tables⟩
  | setPayload => exact ⟨h.sided, h.tables⟩
  | @halt s a ha => exact hdrops (s.halt_drops ha) nofun
  | @complete k p s => exact hdrops (s.tell_drops _ _) (by simp [Event.Outer, Event.mark])
  | @fail k cause s => exact hdrops (s.tell_drops _ _) (by simp [Event.Outer, Event.mark])
  | @begin s r hj =>
    obtain ⟨-, ⟨q, hq, hqueued⟩ | ⟨p, hp, -⟩⟩ := hc.taken hj
    · cases hq
      exact ⟨Throughout.cons h.sided ⟨r, .lastId, congrArg Account.request hqueued.account, rfl⟩,
        h.tables⟩
    · cases hp
  | @issue k p s start w entries hcarve =>
    have hconfined := h.confined (j := .supplied k p start w) hc hc.1.transfer
    exact ((hconfined.stage s.worker.ring start entries).1.wrote .lastId _).toZoned

theorem Path.zoned (hs : x.2.settings.Valid) (hc : Control x.2.view x.1) (hx : x.2.machine.Zoned)
    (h : Path A H x y) : y.2.machine.Zoned :=
  Path.keep (P := fun z => z.2.machine.Zoned) hs hc (fun _ _ _ hu hstep hz => hz.step hu hstep) hx h

end Steps

section Runs
variable {σ : Type} [Platform σ]

/-- The transfer in hand keeps to its side: of the other ring neither the interrupt handler nor the worker
knows a last id, at each register write of a batch as well. -/
structure Station.KeepsToSide (s : Station σ) (p : Progress) : Prop where
  confined : s.machine.Confined p.request
  tracker : s.worker.ring.lastId.get p.request.direction.other = noId
  moments : ∀ start entries,
    ∀ x ∈ s.worker.ring.moments s.machine p.request.direction start entries,
      x.2.Confined p.request ∧ x.1.lastId.get p.request.direction.other = noId

/-- On the way from one station to the other each transfer keeps to the side of its direction. -/
structure Station.KeepsSides (s t : Station σ) : Prop where
  sided : Sided t.machine.history
  held : ∀ x, Midway (fun _ => True) (fun _ _ => True) s t x → ∀ p, x.2.worker.transfer = some p →
    x.2.KeepsToSide p
  /-- Until the transfer ends, nothing but flags is stored to the other table. -/
  stores : ∀ x, Midway (fun _ => True) (fun _ _ => True) s t x → ∀ p, x.2.worker.transfer = some p →
    ∀ y newer, Path (fun _ => True) (fun _ _ => True) x y →
      y.2.machine.history = newer ++ x.2.machine.history → (∀ e ∈ newer, e.KeepsDocket) →
      y.2.machine.channel.table p.request.direction.other =
        (newer.foldr Event.mark x.2.machine.channel.tables).get p.request.direction.other

/-- Whatever happens in a run, each transfer keeps to its side. -/
theorem Station.initial_keepsSides {settings : Settings} (hs : settings.Valid) (tableBus : Sides Nat)
    (registers : RegisterFile) (platform : σ) (listener : List (List Incident)) (acts : List Act) :
    let s := initial settings tableBus registers platform listener
    s.KeepsSides (s.run acts) := by
  intro s
  have hcontrol : Control s.view .rest := Control.initial ..
  have hzoned : s.machine.Zoned := ⟨.nil trivial, rfl⟩
  have hmidway {x : Juncture × Station σ} {p : Progress}
      (h : Midway (fun _ => True) (fun _ _ => True) s (s.run acts) x)
      (ht : x.2.worker.transfer = some p) : Control x.2.view x.1 ∧ x.2.machine.Confined p.request := by
    have hc := (Path.control (x := (.rest, s)) hs hcontrol h.1).1
    exact ⟨hc, (Path.zoned (x := (.rest, s)) hs hcontrol hzoned h.1).confined hc ht⟩
  constructor
  case sided => exact (Path.zoned (x := (.rest, s)) hs hcontrol hzoned (Path.everyRun s acts)).sided
  case held =>
    intro x hx p ht
    obtain ⟨hc, hconfined⟩ := hmidway hx ht
    have htracker := (hc.other_unissued ht).1
    exact ⟨hconfined, htracker, fun start entries moment hmem =>
      ⟨(hconfined.stage x.2.worker.ring start entries).2 moment hmem,
        Ring.moments_lastId htracker moment hmem⟩⟩
  case stores =>
    intro x hx p ht y newer hpath hh he
    have hconfined := (hmidway hx ht).2
    have hy := Path.zoned (x := (.rest, s)) hs hcontrol hzoned (hx.1.trans hpath)
    rw [Channel.table, hy.tables, hconfined.tables, hh]
    exact Sided.other_table (hh ▸ hy.sided) hconfined.request he

end Runs
end ScatterGather
