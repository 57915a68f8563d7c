import ScatterGather.Proofs.Moments

/-! # What happens while the worker only looks on

Between two deeds of a worker pages are moved and incidents strike. Neither touches a register, and
of the tables nothing is changed but the flags that the incidents tell of.
-/
namespace ScatterGather

/-- What an event that is none of the worker's doing leaves in the tables. -/
def Event.mark : Event → Sides Table → Sides Table
  | complete dir id, tables => tables.set dir ((tables.get dir).putFlag id 1)
  | flag dir id value, tables => tables.set dir ((tables.get dir).putFlag id value)
  | _, tables => tables

theorem Event.MovesPages.mark {e : Event} (h : e.MovesPages) (tables : Sides Table) :
    e.mark tables = tables := by
  cases e with
  | lock | unlock => rfl
  | _ => exact h.elim

theorem marks_same {events : List Event} (h : ∀ e ∈ events, ∀ tables, e.mark tables = tables)
    (tables : Sides Table) : events.foldr Event.mark tables = tables := by
  induction events with
  | nil => rfl
  | cons e events ih =>
    rw [List.foldr_cons, ih fun x hx => h x (List.mem_cons_of_mem _ hx), h e List.mem_cons_self]

theorem marks_moves {events : List Event} (h : ∀ e ∈ events, e.MovesPages) (tables : Sides Table) :
    events.foldr Event.mark tables = tables :=
  marks_same (fun e he => (h e he).mark) tables

namespace Machine
variable {σ : Type} {m m' m'' : Machine σ} {events newer : List Event}

/-- Pages were moved and incidents struck, as the events tell. -/
structure Watches (m : Machine σ) (events : List Event) (m' : Machine σ) : Prop where
  history : m'.history = events ++ m.history
  outer : ∀ e ∈ events, e.MovesPages ∨ e.Incidental
  registers : m'.registers = m.registers
  tables : m'.channel.tables = events.foldr Event.mark m.channel.tables

namespace Watches

theorem refl (m : Machine σ) : m.Watches [] m := ⟨rfl, by simp, rfl, rfl⟩

theorem trans (h : m.Watches events m') (h' : m'.Watches newer m'') :
    m.Watches (newer ++ events) m'' where
  history := by rw [h'.history, h.history, List.append_assoc]
  outer := List.forall_mem_append.mpr ⟨h'.outer, h.outer⟩
  registers := h'.registers.trans h.registers
  tables := by rw [h'.tables, h.tables, List.foldr_append]

end Watches

theorem Sees.watches (h : m.Sees events m') (he : ∀ e ∈ events, e.MovesPages) :
    m.Watches events m' where
  history := h.history
  outer e hmem := .inl (he e hmem)
  registers := h.registers
  tables := h.tables.trans (marks_moves he _).symm

/-- The events that an incident leaves behind. -/
def traces (m : Machine σ) : Incident → List Event
  | .complete dir =>
    if m.registers.lastId dir ≤ lastSlot then [.complete dir (m.registers.lastId dir)] else []
  | .flag dir id value => [.flag dir id value]
  | .interrupt status => [.interrupt status (m.channel.interrupt status).1]
  | .submit r => [.submit r (m.channel.submit r).1]

theorem traces_incidental (m : Machine σ) (i : Incident) : ∀ e ∈ m.traces i, e.Incidental := by
  cases i with
  | complete dir =>
    simp only [traces]
    split <;> simp [Event.Incidental]
  | _ => simp [traces, Event.Incidental]

theorem incur_watches (m : Machine σ) (i : Incident) : m.Watches (m.traces i) (m.incur i) := by
  have hmark (e : Event) (ht : m.traces i = [e]) (hh : (m.incur i).history = e :: m.history)
      (hc : (m.incur i).channel.tables = e.mark m.channel.tables) :
      m.Watches (m.traces i) (m.incur i) := by
    refine ⟨by rw [ht, hh]; rfl, fun e he => .inr (m.traces_incidental i e he), m.incur_registers i, ?_⟩
    rw [ht, hc]
    rfl
  cases i with
  | complete dir =>
    by_cases hid : m.registers.lastId dir ≤ lastSlot
    · apply hmark (.complete dir (m.registers.lastId dir)) (if_pos hid) <;> rw [incur, if_pos hid] <;> rfl
    · rw [traces, incur, if_neg hid, if_neg hid]
      exact .refl m
  | flag dir id value => exact hmark _ rfl rfl rfl
  | interrupt status =>
    obtain ⟨work, advanceOpen, waker, h⟩ := m.channel.interrupt_frame status
    exact hmark _ rfl rfl (by rw [incur, h]; rfl)
  | submit r =>
    obtain ⟨work, idle, direction, waker, h⟩ := m.channel.submit_frame r
    exact hmark _ rfl rfl (by rw [incur, h]; rfl)

theorem incurAll_watches (m : Machine σ) (incidents : List Incident) :
    ∃ events, m.Watches events (m.incurAll incidents) ∧ ∀ e ∈ events, e.Incidental := by
  induction incidents generalizing m with
  | nil => exact ⟨[], .refl m, by simp⟩
  | cons i rest ih =>
    obtain ⟨newer, hrest, hn⟩ := ih (m.incur i)
    exact ⟨newer ++ m.traces i, (m.incur_watches i).trans hrest,
      List.forall_mem_append.mpr ⟨hn, m.traces_incidental i⟩⟩

/-- Pages were moved and incidents struck. -/
def Waits (m m' : Machine σ) : Prop := ∃ events, m.Watches events m'

theorem Waits.refl (m : Machine σ) : m.Waits m := ⟨[], .refl m⟩

theorem Waits.trans (h : m.Waits m') (h' : m'.Waits m'') : m.Waits m'' := by
  obtain ⟨events, he⟩ := h
  obtain ⟨newer, hn⟩ := h'
  exact ⟨newer ++ events, he.trans hn⟩

theorem Sees.waits (h : m.Sees events m') (he : ∀ e ∈ events, e.MovesPages) : m.Waits m' :=
  ⟨events, h.watches he⟩

theorem waits_pinning [Platform σ] : KeptByPinning (@Waits σ) where
  refl := .refl
  trans := .trans
  unpin m r := (m.unpin_sees r).waits (by simpa using moves_unlocks [r])
  pin m pageSize start len dir := by
    unfold pin
    split
    · have hlocked (range : PageRun) : m.Waits (m.lock range dir.writesHost).2 := by
        obtain ⟨events, hstruck, -⟩ := (m.asked range dir.writesHost).incurAll_watches
          (Platform.lock m.platform range dir.writesHost).incidents
        exact ((m.asked_sees range dir.writesHost).waits (by simp [Event.MovesPages])).trans
          ⟨events, hstruck⟩
      dsimp only
      split
      · exact (hlocked _).trans ((unlock_sees _ _ _).waits (by simp [Event.MovesPages]))
      · exact (hlocked _).trans ((countLocked_sees _ _).waits (by simp))
    · exact .refl m

end Machine
end ScatterGather
