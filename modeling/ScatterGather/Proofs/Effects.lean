import ScatterGather.Proofs.Flags
import ScatterGather.Proofs.Paths
import ScatterGather.Worker.Account

/-! # What each operation changes

The operations that the steps are made of, each with what it does to the channel, to the flags, to
the last ids and to the history. Everything that is not mentioned stays as it was.
-/
namespace ScatterGather

/-- The part of a channel that tells whose turn it is. -/
structure Posture where
  work : BoundedQueue Job workDepth
  advanceOpen : Bool
  idle : Bool
  direction : Direction
  issued : Sides Nat

def Request.Aligned (r : Request) : Prop := r.len % wordBytes = 0 ∧ r.host % wordBytes = 0

namespace Channel

def posture (c : Channel) : Posture := ⟨c.work, c.advanceOpen, c.idle, c.direction, c.issued⟩

theorem requestAdvance_cases (c : Channel) :
    c.requestAdvance = (false, c) ∨
    c.advanceOpen = false ∧
      c.requestAdvance = (true, { c with advanceOpen := true, work := c.work.push .advance }) := by
  unfold requestAdvance
  cases c.advanceOpen <;> cases c.work.isFull <;> simp

theorem interrupt_cases (c : Channel) (status : UInt32) :
    (c.interrupt status).2 = c ∨
    c.idle = false ∧ c.completed = true ∧ c.advanceOpen = false ∧
      (c.interrupt status).2 = { c with advanceOpen := true, work := c.work.push .advance }.wake := by
  unfold interrupt
  by_cases h : (!c.idle && c.completed) = true
  · simp only [h, if_true]
    have hbusy : c.idle = false ∧ c.completed = true := by simpa using h
    rcases c.requestAdvance_cases with hr | ⟨hopen, hr⟩ <;> rw [hr]
    · exact .inl rfl
    · exact .inr ⟨hbusy.1, hbusy.2, hopen, rfl⟩
  · simp only [h]
    exact .inl rfl

theorem closeAdvance_cases (c : Channel) :
    c.closeAdvance = { c with advanceOpen := false } ∨
    c.idle = false ∧ c.completed = true ∧
      c.closeAdvance = { c with advanceOpen := true, work := c.work.push .advance } := by
  unfold closeAdvance
  dsimp only
  split
  · next h =>
    have hbusy : c.idle = false ∧ c.completed = true := by simpa [completed, table] using h
    rcases ({ c with advanceOpen := false } : Channel).requestAdvance_cases with hr | ⟨-, hr⟩ <;>
      rw [hr]
    · exact .inl rfl
    · exact .inr ⟨hbusy.1, hbusy.2, rfl⟩
  · exact .inl rfl

theorem submit_cases (c : Channel) (r : Request) :
    (∃ e, c.submit r = (some e, c)) ∨
    c.idle = true ∧ c.work.isFull = true ∧
      c.submit r = (some (.request .queueFull), { c with direction := r.direction }) ∨
    c.idle = true ∧ r.Aligned ∧ c.finished = false ∧
      c.submit r = (none, { c with
        direction := r.direction, idle := false, work := c.work.push (.start r) }.wake) := by
  unfold submit
  split
  · exact .inl ⟨_, rfl⟩
  · next hf =>
    split
    · exact .inl ⟨_, rfl⟩
    · next hlen =>
      split
      · exact .inl ⟨_, rfl⟩
      · next hhost =>
        split
        · exact .inl ⟨_, rfl⟩
        · next hidle =>
          have hi : c.idle = true := by simpa using hidle
          dsimp only
          split
          · next hfull => exact .inr (.inl ⟨hi, hfull, rfl⟩)
          · exact .inr (.inr ⟨hi, ⟨by simpa using hlen, by simpa using hhost⟩, by simpa using hf, rfl⟩)

theorem interrupt_frame (c : Channel) (status : UInt32) : ∃ work advanceOpen waker,
    (c.interrupt status).2 = { c with work, advanceOpen, waker } := by
  rcases c.interrupt_cases status with h | ⟨-, -, -, h⟩
  · exact ⟨_, _, _, h⟩
  · exact ⟨_, _, _, h⟩

theorem closeAdvance_frame (c : Channel) : ∃ work advanceOpen,
    c.closeAdvance = { c with work, advanceOpen } := by
  rcases c.closeAdvance_cases with h | ⟨-, -, h⟩
  · exact ⟨_, _, h⟩
  · exact ⟨_, _, h⟩

theorem interrupt_idle (c : Channel) (status : UInt32) : (c.interrupt status).2.idle = c.idle := by
  obtain ⟨work, advanceOpen, waker, h⟩ := c.interrupt_frame status
  rw [h]

theorem closeAdvance_idle (c : Channel) : c.closeAdvance.idle = c.idle := by
  obtain ⟨work, advanceOpen, h⟩ := c.closeAdvance_frame
  rw [h]

theorem submit_frame (c : Channel) (r : Request) : ∃ work idle direction waker,
    (c.submit r).2 = { c with work, idle, direction, waker } := by
  rcases c.submit_cases r with ⟨e, h⟩ | ⟨-, -, h⟩ | ⟨-, -, -, h⟩ <;> rw [h] <;> exact ⟨_, _, _, _, rfl⟩

end Channel

/-- No incident changes more of a channel than its queue, its tables and what is known of the transfer. -/
theorem Machine.incur_frame {σ : Type} (m : Machine σ) (i : Incident) :
    ∃ work advanceOpen idle direction waker tables, (m.incur i).channel =
      { m.channel with work, advanceOpen, idle, direction, waker, tables } := by
  cases i with
  | complete dir =>
    simp only [incur]
    split <;> exact ⟨_, _, _, _, _, _, rfl⟩
  | flag => exact ⟨_, _, _, _, _, _, rfl⟩
  | interrupt status =>
    obtain ⟨work, advanceOpen, waker, h⟩ := m.channel.interrupt_frame status
    exact ⟨_, _, _, _, _, _, h⟩
  | submit r =>
    obtain ⟨work, idle, direction, waker, h⟩ := m.channel.submit_frame r
    exact ⟨_, _, _, _, _, _, h⟩

def Region.unlocks (r : Region) : List Event :=
  if r.valid then [.unlock r.pages r.direction.writesHost] else []

def Pipeline.unlocks (q : Pipeline) : List Event := q.regions.reverse.flatMap Region.unlocks

namespace Machine
variable {σ : Type}

/-- A machine has seen some events, and but for the platform and the count of locked pages nothing
has changed. -/
structure Sees (m : Machine σ) (events : List Event) (m' : Machine σ) : Prop where
  channel : ∃ n, m'.channel = { m.channel with pagesLocked := n }
  registers : m'.registers = m.registers
  history : m'.history = events ++ m.history

namespace Sees
variable {m m' m'' : Machine σ} {events newer : List Event}

theorem refl (m : Machine σ) : m.Sees [] m := ⟨⟨_, rfl⟩, rfl, rfl⟩

theorem trans (h : m.Sees events m') (h' : m'.Sees newer m'') : m.Sees (newer ++ events) m'' := by
  obtain ⟨⟨n, hc⟩, hr, hh⟩ := h
  obtain ⟨⟨n', hc'⟩, hr', hh'⟩ := h'
  exact ⟨⟨n', by rw [hc', hc]⟩, hr'.trans hr, by rw [hh', hh, List.append_assoc]⟩

theorem posture (h : m.Sees events m') : m'.channel.posture = m.channel.posture := by
  obtain ⟨⟨n, hc⟩, -, -⟩ := h
  rw [hc]
  rfl

theorem tables (h : m.Sees events m') : m'.channel.tables = m.channel.tables := by
  obtain ⟨⟨n, hc⟩, -, -⟩ := h
  rw [hc]

theorem settings (h : m.Sees events m') : m'.channel.settings = m.channel.settings := by
  obtain ⟨⟨n, hc⟩, -, -⟩ := h
  rw [hc]

theorem payload (h : m.Sees events m') : m'.channel.payload = m.channel.payload := by
  obtain ⟨⟨n, hc⟩, -, -⟩ := h
  rw [hc]

end Sees

theorem countLocked_sees (m : Machine σ) (pages : Nat) : m.Sees [] (m.countLocked pages) :=
  ⟨⟨_, rfl⟩, rfl, rfl⟩

/-- An incident leaves at most one event behind, and but for the acceptance of a request a silent one. -/
theorem incur_cases (m : Machine σ) (i : Incident) :
    (∃ events, (m.incur i).history = events ++ m.history ∧ (∀ e ∈ events, e.Silent) ∧
      (m.incur i).channel.idle = m.channel.idle) ∨
    m.channel.idle = true ∧ ∃ r, (m.incur i).history = .submit r none :: m.history := by
  cases i with
  | complete dir =>
    simp only [incur]
    split
    · exact .inl ⟨[_], rfl, by simp [Event.Silent], rfl⟩
    · exact .inl ⟨[], rfl, by simp, rfl⟩
  | flag dir id value => exact .inl ⟨[_], rfl, by simp [Event.Silent], rfl⟩
  | interrupt status =>
    exact .inl ⟨[_], rfl, by simp [Event.Silent], m.channel.interrupt_idle status⟩
  | submit r =>
    simp only [incur]
    rcases m.channel.submit_cases r with ⟨e, he⟩ | ⟨-, -, he⟩ | ⟨hidle, -, -, he⟩ <;> rw [he]
    · exact .inl ⟨[_], rfl, by simp [Event.Silent], rfl⟩
    · exact .inl ⟨[_], rfl, by simp [Event.Silent], rfl⟩
    · exact .inr ⟨hidle, r, rfl⟩

theorem incur_history (m : Machine σ) (i : Incident) :
    ∃ events, (m.incur i).history = events ++ m.history ∧
      ((∀ e ∈ events, e.Silent) ∨
        m.channel.idle = true ∧ ∃ r, events = [.submit r none]) := by
  rcases m.incur_cases i with ⟨events, hh, hsilent, -⟩ | ⟨hidle, r, hh⟩
  · exact ⟨events, hh, .inl hsilent⟩
  · exact ⟨[_], hh, .inr ⟨hidle, r, rfl⟩⟩

theorem record_sees (m : Machine σ) (e : Event) : m.Sees [e] (m.record e) := ⟨⟨_, rfl⟩, rfl, rfl⟩

variable [Platform σ]

theorem unlock_sees (m : Machine σ) (pages : List Page) (dirty : Bool) :
    m.Sees [.unlock pages dirty] (m.unlock pages dirty) := ⟨⟨_, rfl⟩, rfl, rfl⟩

theorem asked_sees (m : Machine σ) (range : PageRun) (writable : Bool) :
    m.Sees [.lock range writable (Platform.lock m.platform range writable).pages]
      (m.asked range writable) := ⟨⟨_, rfl⟩, rfl, rfl⟩

theorem unpin_sees (m : Machine σ) (r : Region) : m.Sees r.unlocks (m.unpin r).2 := by
  unfold unpin Region.unlocks
  split
  · exact ⟨⟨_, rfl⟩, rfl, rfl⟩
  · exact .refl m

def unpinEach (m : Machine σ) (regions : List Region) : Machine σ :=
  regions.foldl (fun m r => (m.unpin r).2) m

theorem unpinEach_sees (m : Machine σ) (regions : List Region) :
    m.Sees (regions.reverse.flatMap Region.unlocks) (m.unpinEach regions) := by
  induction regions generalizing m with
  | nil => exact .refl m
  | cons r regions ih =>
    rw [List.reverse_cons, List.flatMap_append, List.flatMap_singleton]
    exact (m.unpin_sees r).trans (ih _)

end Machine

/-- Where regions are given back, nothing happens but that pages are unlocked. -/
theorem Region.forall_unlocks {P : Event → Prop} (h : ∀ pages dirty, P (.unlock pages dirty))
    (regions : List Region) : ∀ e ∈ regions.flatMap Region.unlocks, P e := by
  intro e he
  obtain ⟨r, -, he⟩ := List.mem_flatMap.mp he
  unfold Region.unlocks at he
  split at he
  · obtain rfl := List.mem_singleton.mp he
    exact h _ _
  · cases he

theorem passive_unlocks (regions : List Region) :
    ∀ e ∈ regions.flatMap Region.unlocks, e.Passive :=
  Region.forall_unlocks (fun _ _ => trivial) regions

namespace Pipeline
variable {σ : Type} [Platform σ]

theorem unpinDone_eq (q : Pipeline) (m : Machine σ) :
    (q.unpinDone m).2 = m.unpinEach q.done.toList := by
  unfold unpinDone
  cases q.done <;> rfl

/-- The regions are given back one after the other. -/
theorem unpinAll_eq (q : Pipeline) (m : Machine σ) : (q.unpinAll m).2 = m.unpinEach q.regions := by
  unfold unpinAll regions
  rw [q.unpinDone_eq]
  cases q.done <;> cases q.active <;> cases q.next <;> rfl

theorem unpinDone_sees (q : Pipeline) (m : Machine σ) :
    m.Sees (q.done.toList.flatMap Region.unlocks) (q.unpinDone m).2 := by
  have hsees := m.unpinEach_sees q.done.toList
  rw [q.unpinDone_eq]
  cases h : q.done <;> simpa [h] using hsees

theorem unpinDone_pipeline (q : Pipeline) (m : Machine σ) :
    (q.unpinDone m).1 = { q with done := none } := by
  unfold unpinDone
  cases h : q.done with
  | none => simp [← h]
  | some r => rfl

theorem unpinAll_sees (q : Pipeline) (m : Machine σ) : m.Sees q.unlocks (q.unpinAll m).2 := by
  rw [q.unpinAll_eq]
  exact m.unpinEach_sees q.regions

end Pipeline

section Pinning
variable {σ : Type} [Platform σ]

/-- What pages are locked and given back for: a relation of machines that each pinning and each
unpinning keeps. -/
structure Machine.KeptByPinning (R : Machine σ → Machine σ → Prop) : Prop where
  refl : ∀ m, R m m
  trans : ∀ {m m' m''}, R m m' → R m' m'' → R m m''
  unpin : ∀ m r, R m (m.unpin r).2
  pin : ∀ m pageSize start len dir, R m (m.pin pageSize start len dir).2

namespace Machine.KeptByPinning
variable {R : Machine σ → Machine σ → Prop} (h : KeptByPinning R)
include h

theorem unpinDone (q : Pipeline) (m : Machine σ) : R m (q.unpinDone m).2 := by
  unfold Pipeline.unpinDone
  split
  · exact h.unpin _ _
  · exact h.refl m

theorem supply {fresh : Machine σ → Except MemoryFault Region × Machine σ}
    (hfresh : ∀ m, R m (fresh m).2) (q : Pipeline) (m : Machine σ) : R m (q.supply m fresh).2.2 := by
  have hrotate : R m (q.rotate m fresh).2.2 := by
    have hdone := h.unpinDone q m
    unfold Pipeline.rotate
    dsimp only
    split
    · exact hdone
    · have hnew := h.trans hdone (hfresh (q.unpinDone m).2)
      split
      · next heq => rwa [heq] at hnew
      · next heq => rwa [heq] at hnew
  unfold Pipeline.supply
  split
  · split
    · exact hrotate
    · exact h.refl m
  · exact hrotate

theorem windowFor (s : Station σ) (p : Progress) : R s.machine (s.windowFor p).2.machine :=
  h.supply (fun m => h.pin m _ _ _ _) _ _

theorem release (s : Station σ) : R s.machine s.release.machine := h.unpinDone _ _

theorem pinAhead (s : Station σ) (r : Request) (next : Nat) :
    R s.machine (s.pinAhead r next).machine := by
  have hpin := h.pin s.machine s.settings.pageSize (r.host + next)
    (min (r.len - next) s.settings.fullWindow) r.direction
  unfold Station.pinAhead
  split
  · exact h.refl _
  · dsimp only
    split
    · next heq => rwa [heq] at hpin
    · next heq => rwa [heq] at hpin

end Machine.KeptByPinning
end Pinning

section Handing
variable {σ : Type} [Platform σ]

/-- What register writes keep, and what can strike right after them, is kept while a ring is announced. -/
theorem Ring.announce_induction {P : Machine σ → Prop} (dir : Direction)
    (hwrote : ∀ (m : Machine σ) (r : Register) value, r ≠ .lastId → P m →
      P (m.wrote (r.address dir) value))
    (hincur : ∀ (m : Machine σ) i, P m → P (m.incur i)) (ring : Ring) {m : Machine σ} (h : P m) :
    P (ring.announce m dir) := by
  have hincurAll (incidents : List Incident) : ∀ m : Machine σ, P m → P (m.incurAll incidents) := by
    induction incidents with
    | nil => exact fun _ hm => hm
    | cons i rest ih => exact fun m hm => ih _ (hincur m i hm)
  have hwrite {m : Machine σ} (hm : P m) (r : Register) (hr : r ≠ .lastId) (value : UInt32) :
      P (m.writeRegister dir r value) := hincurAll _ _ (hwrote m r value hr hm)
  have htable := hwrite (hwrite h .tableLow nofun (lowWord (ring.tableBus.get dir))) .tableHigh nofun
    (highWord (ring.tableBus.get dir))
  have hfifo := hwrite (hwrite htable .fifoLow nofun (lowWord (fifoBase dir))) .fifoHigh nofun
    (highWord (fifoBase dir))
  exact hwrite hfifo .tableSize nofun _

/-- A batch is announced or not before its last id is written: what its record establishes is kept
by all that follows. -/
theorem Ring.stage_induction {P : Machine σ → Prop} (dir : Direction)
    (hwrote : ∀ (m : Machine σ) (r : Register) value, r ≠ .lastId → P m →
      P (m.wrote (r.address dir) value))
    (hincur : ∀ (m : Machine σ) i, P m → P (m.incur i))
    (hfill : ∀ (m : Machine σ) f, P m → P (m.mapTable dir f))
    (hissued : ∀ (m : Machine σ) last, P m → P { m with channel := m.channel.setIssued dir last })
    (ring : Ring) {m : Machine σ} (start : BatchPlace) (entries : List Entry)
    (h : P (m.record (.issue dir start entries))) : P (ring.stage m dir start entries).2 := by
  unfold stage
  cases start.announce with
  | false => exact hissued _ _ (hfill _ (·.writeAll entries) h)
  | true =>
    have hfilled := hfill _ (·.writeAll entries) (hfill _ Table.zeroFlags h)
    exact hissued _ _ (announce_induction dir hwrote hincur ring hfilled)

theorem Machine.writeRegister_quiet (hq : Platform.Quiet σ) (m : Machine σ) (dir : Direction)
    {r : Register} (hr : r ≠ .lastId) (value : UInt32) :
    m.writeRegister dir r value = m.wrote (r.address dir) value := by
  have hquiet := hq m.platform (r.address dir) value fun d h =>
    hr (Register.address_inj.mp h).2
  rw [writeRegister, writeAt_eq, hquiet]
  rfl

theorem Machine.wrote_lastId (m : Machine σ) (d dir : Direction) {r : Register} (hr : r ≠ .lastId)
    (value : UInt32) : (m.wrote (r.address d) value).registers.lastId dir = m.registers.lastId dir := by
  have hne : Register.address dir .lastId ≠ r.address d := fun h =>
    hr (Register.address_inj.mp h).2.symm
  simp [wrote, record, RegisterFile.lastId, RegisterFile.read_write_of_ne _ value hne]

theorem Ring.announce_channel (hq : Platform.Quiet σ) (ring : Ring) (m : Machine σ)
    (dir : Direction) : (ring.announce m dir).channel = m.channel := by
  simp only [Ring.announce, Machine.programTable, Machine.programFifo, Machine.programSize,
    Machine.writeHalves, Machine.writeRegister_quiet hq, ne_eq, reduceCtorEq, not_false_eq_true]
  rfl

def Table.staged (t : Table) (start : BatchPlace) (entries : List Entry) : Table :=
  (if start.announce then t.zeroFlags else t).writeAll entries

theorem Ring.stage_tables (hq : Platform.Quiet σ) (ring : Ring) (m : Machine σ) (dir : Direction)
    (start : BatchPlace) (entries : List Entry) :
    (ring.stage m dir start entries).2.channel.tables =
      m.channel.tables.set dir ((m.channel.table dir).staged start entries) := by
  unfold Ring.stage Table.staged
  cases start.announce with
  | false => rfl
  | true =>
    simp only [if_true, Channel.setIssued, ring.announce_channel hq]
    simp [Machine.mapTable, Machine.record, Channel.setTable, Channel.table]

end Handing
end ScatterGather
