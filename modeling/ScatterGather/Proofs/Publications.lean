import Mathlib.Data.List.Forall2
import ScatterGather.Proofs.Laps
import ScatterGather.Proofs.Watches

/-! # What can be seen while a batch is published

The controller and the interrupt handler can look at the table, at the registers and at the last issued
id whenever a register is written. A batch is in the table at the first of its register writes, and at
the last of them, that of the last id, this id is in place for the interrupt handler.
-/
namespace ScatterGather

/-- A table `t` that has come from `old`: the batch is in its slots, and beyond them only the flags were
touched, if the ring begins anew. -/
structure Table.Filled (t old : Table) (start : BatchPlace) (entries : List Entry) : Prop where
  stored : ∀ i e, entries[i]? = some e → t.slotWords (start.id + i) = e.words
  kept : ∀ slot < slotCount, (∀ i < entries.length, slot ≠ start.id + i) →
    t.slotWords slot = old.slotWords slot
  zeroed : start.announce = true → ∀ id < slotCount, t.flag? id = some 0
  unzeroed : start.announce = false → ∀ id < slotCount, t.flag? id = old.flag? id

namespace Machine
variable {σ : Type} [Platform σ]

def writeEach (m : Machine σ) (writes : List (Nat × UInt32)) : Machine σ :=
  writes.foldl (fun m w => m.writeAt w.1 w.2) m

/-- The machine at each of the register writes, before anything reacts to it. -/
def atWrites (m : Machine σ) : List (Nat × UInt32) → List (Machine σ)
  | [] => []
  | w :: writes => m.wrote w.1 w.2 :: (m.writeAt w.1 w.2).atWrites writes

end Machine

section Vocabulary
variable {σ : Type} [Platform σ]

/-- The ring and the machine at each register write of a batch, before anything reacts to it. -/
def Ring.moments (ring : Ring) (m : Machine σ) (dir : Direction) (start : BatchPlace)
    (entries : List Entry) : List (Ring × Machine σ) :=
  let filled := (m.record (.issue dir start entries)).mapTable dir (·.staged start entries)
  let announced := if start.announce then announcement ring.tableBus dir else []
  let staged := ring.stage m dir start entries
  let last := UInt32.ofNat (lastIdOf start entries)
  (filled.atWrites announced).map (ring, ·) ++
    [(staged.1, staged.2.wrote (Register.address dir .lastId) last)]

end Vocabulary

/-- From `m` to `m'`, registers of one direction were written, but not that of its last id. -/
structure Machine.Announces {σ : Type} (dir : Direction) (m : Machine σ) (events : List Event)
    (m' : Machine σ) : Prop where
  history : m'.history = events ++ m.history
  tables : m'.channel.tables = events.foldr Event.mark m.channel.tables
  issued : m'.channel.issued = m.channel.issued
  registers : ∀ offset, (∀ r : Register, r ≠ .lastId → offset ≠ r.address dir) →
    m'.registers.read offset = m.registers.read offset

/-- The flag of the descriptor with this id is set. -/
def Table.Reports (t : Table) (id : Nat) : Prop :=
  id ≠ noId ∧ ∃ value, t.flag? id = some value ∧ value ≠ 0

/-- What is in place when the register write `w` of a batch is made. The batch was handed over on
machine `m`, and `newer` has happened since then. An interrupt at this time is judged by the last id
of the batch before, except at the last write. -/
structure Ring.Moment {σ : Type} (ring : Ring) (m : Machine σ) (dir : Direction) (start : BatchPlace)
    (entries : List Entry) (w : Nat × UInt32) (newer : List Event) (x : Ring × Machine σ) : Prop where
  history : x.2.history = .write w.1 w.2 :: (newer ++ .issue dir start entries :: m.history)
  written : x.2.registers.read w.1 = w.2
  registers : ∀ offset, (∀ r, offset ≠ Register.address dir r) →
    x.2.registers.read offset = m.registers.read offset
  tables : ∃ t : Table, t.Filled (m.channel.table dir) start entries ∧
    x.2.channel.tables = newer.foldr Event.mark (m.channel.tables.set dir t)
  unflagged : (∀ e ∈ newer, e.KeepsTables) →
    (x.2.channel.table dir).Filled (m.channel.table dir) start entries ∧
      x.2.channel.table dir.other = m.channel.table dir.other
  untold : w.1 ≠ Register.address dir .lastId →
    x.1 = ring ∧ x.2.channel.issued = m.channel.issued ∧
      x.2.registers.lastId dir = m.registers.lastId dir
  told : w.1 = Register.address dir .lastId →
    x.1 = ring.track dir (lastIdOf start entries) ∧
      x.2.channel.issued = m.channel.issued.set dir (lastIdOf start entries)
  judged : ∀ status, (x.2.channel.interrupt status).1.batchDone = true ↔
    x.2.channel.idle = false ∧ (x.2.channel.table x.2.channel.direction).Reports
      ((if w.1 = Register.address dir .lastId then
          m.channel.issued.set dir (lastIdOf start entries)
        else m.channel.issued).get x.2.channel.direction)

section Tables
variable {start : BatchPlace} {entries : List Entry}

theorem Table.staged_filled (t : Table) (hn : Table.Numbered start.id entries)
    (hfit : start.id + entries.length ≤ slotCount) :
    (t.staged start entries).Filled t start entries where
  stored i e he := slotWords_writeAll_numbered _ hn hfit he
  kept slot hs hout := by
    have hother : ∀ e ∈ entries, e.id.toNat ≠ slot := by
      intro e he
      obtain ⟨i, hi⟩ := List.mem_iff_getElem?.mp he
      have hlt : i < entries.length := (List.getElem?_eq_some_iff.mp hi).1
      rw [hn i e hi]
      exact (hout i hlt).symm
    rw [staged, slotWords_writeAll_of_ne _ hother]
    split
    · exact slotWords_zeroFlags t slot
    · rfl
  zeroed ha id hid := by
    rw [staged, if_pos ha, flag?_writeAll _ _ hid, flag?_zeroFlags _ hid]
  unzeroed ha id hid := by
    rw [staged, ha, if_neg Bool.false_ne_true, flag?_writeAll _ _ hid]

theorem Event.KeepsTables.mark {e : Event} (h : e.KeepsTables) (tables : Sides Table) :
    e.mark tables = tables := by
  cases e with
  | issue | complete | flag => exact h.elim
  | _ => rfl

theorem Channel.filled_of_unflagged {c : Channel} {tables : Sides Table} {dir : Direction}
    {t old : Table} {newer : List Event} (ht : t.Filled old start entries)
    (hc : c.tables = newer.foldr Event.mark (tables.set dir t)) (he : ∀ e ∈ newer, e.KeepsTables) :
    (c.table dir).Filled old start entries ∧ c.table dir.other = tables.get dir.other := by
  rw [marks_same fun e hmem => (he e hmem).mark] at hc
  rw [Channel.table, Channel.table, hc, Sides.get_set_self, Sides.get_set_of_ne _ _ dir.other_ne]
  exact ⟨ht, rfl⟩

end Tables

theorem Channel.interrupt_batchDone (c : Channel) (status : UInt32) :
    (c.interrupt status).1.batchDone = true ↔
      c.idle = false ∧ (c.table c.direction).Reports (c.issued.get c.direction) := by
  have hcompleted : c.completed = true ↔
      (c.table c.direction).Reports (c.issued.get c.direction) := by
    simp [completed, Table.Reports, Option.any_eq_true]
  rw [← hcompleted]
  unfold interrupt
  cases c.idle <;> cases c.completed <;> simp

namespace Machine
variable {σ : Type} {m m' : Machine σ} {dir : Direction} {events : List Event}

theorem incurAll_issued (m : Machine σ) (incidents : List Incident) :
    (m.incurAll incidents).channel.issued = m.channel.issued := by
  induction incidents generalizing m with
  | nil => rfl
  | cons i rest ih =>
    obtain ⟨work, advanceOpen, idle, direction, waker, tables, h⟩ := m.incur_frame i
    rw [incurAll_cons, ih, h]

namespace Announces

theorem refl (dir : Direction) (m : Machine σ) : m.Announces dir [] m :=
  ⟨rfl, rfl, rfl, fun _ _ => rfl⟩

theorem incurAll (h : m.Announces dir events m') (incidents : List Incident) :
    ∃ newer, m.Announces dir newer (m'.incurAll incidents) := by
  obtain ⟨struck, hw, -⟩ := m'.incurAll_watches incidents
  refine ⟨struck ++ events, ?_, ?_, ?_, ?_⟩
  · rw [hw.history, h.history, List.append_assoc]
  · rw [hw.tables, h.tables, List.foldr_append]
  · rw [incurAll_issued, h.issued]
  · intro offset ho
    rw [hw.registers, h.registers offset ho]

variable [Platform σ]

theorem wrote (h : m.Announces dir events m') {r : Register} (hr : r ≠ .lastId) (value : UInt32) :
    m.Announces dir (.write (r.address dir) value :: events) (m'.wrote (r.address dir) value) where
  history := congrArg _ h.history
  tables := h.tables
  issued := h.issued
  registers offset ho :=
    (RegisterFile.read_write_of_ne _ value (ho r hr)).trans (h.registers offset ho)

theorem writeAt (h : m.Announces dir events m') {r : Register} (hr : r ≠ .lastId) (value : UInt32) :
    ∃ newer, m.Announces dir newer (m'.writeAt (r.address dir) value) :=
  (h.wrote hr value).incurAll _

end Announces

section Writes
variable [Platform σ] {writes : List (Nat × UInt32)}

theorem writeAt_grows (m : Machine σ) (offset : Nat) (value : UInt32) :
    (m.wrote offset value).history <:+ (m.writeAt offset value).history := by
  obtain ⟨events, h, -⟩ := (m.wrote offset value).incurAll_incidental
    (Platform.written m.platform offset value).1
  exact ⟨events, h.symm⟩

theorem writeEach_grows (m : Machine σ) (writes : List (Nat × UInt32)) :
    m.history <:+ (m.writeEach writes).history := by
  induction writes generalizing m with
  | nil => exact List.suffix_rfl
  | cons w writes ih =>
    have hwrote : m.history <:+ (m.wrote w.1 w.2).history := List.suffix_cons _ _
    exact (hwrote.trans (m.writeAt_grows w.1 w.2)).trans (ih _)

/-- Register writes of one direction, none of them that of the last id. -/
def Announcing (dir : Direction) (writes : List (Nat × UInt32)) : Prop :=
  ∀ w ∈ writes, ∃ r : Register, r ≠ .lastId ∧ w.1 = r.address dir

theorem Announces.writeEach (h : m.Announces dir events m') (hw : Announcing dir writes) :
    ∃ newer, m.Announces dir newer (m'.writeEach writes) := by
  induction writes generalizing m' events with
  | nil => exact ⟨events, h⟩
  | cons w writes ih =>
    obtain ⟨r, hr, hplace⟩ := hw w List.mem_cons_self
    obtain ⟨newer, hnext⟩ := h.writeAt hr w.2
    rw [← hplace] at hnext
    exact ih hnext fun x hx => hw x (List.mem_cons_of_mem _ hx)

/-- Each of the writes is made on a machine that only the writes before it have changed. -/
theorem Announces.atWrites (h : m.Announces dir events m') (hw : Announcing dir writes) :
    List.Forall₂ (fun w x => x.history <:+ (m'.writeEach writes).history ∧
      ∃ (r : Register) (newer : List Event) (before : Machine σ), r ≠ .lastId ∧ w.1 = r.address dir ∧
        m.Announces dir newer before ∧ x = before.wrote w.1 w.2) writes (m'.atWrites writes) := by
  induction writes generalizing m' events with
  | nil => exact .nil
  | cons w writes ih =>
    obtain ⟨r, hr, hplace⟩ := hw w List.mem_cons_self
    obtain ⟨newer, hnext⟩ := h.writeAt hr w.2
    rw [← hplace] at hnext
    have hgrows := (m'.writeAt_grows w.1 w.2).trans (writeEach_grows _ writes)
    exact .cons ⟨hgrows, r, events, m', hr, hplace, h, rfl⟩
      (ih hnext fun x hx => hw x (List.mem_cons_of_mem _ hx))

end Writes
end Machine

namespace Ring
variable {σ : Type} [Platform σ]

theorem announcement_announcing (ring : Ring) (dir : Direction) (start : BatchPlace) :
    Machine.Announcing dir (if start.announce then announcement ring.tableBus dir else []) := by
  intro w hw
  split at hw
  · simp only [announcement, List.mem_cons, List.not_mem_nil, or_false] at hw
    rcases hw with rfl | rfl | rfl | rfl | rfl <;> exact ⟨_, by decide, rfl⟩
  · cases hw

omit [Platform σ] in
theorem fill_eq (m : Machine σ) (dir : Direction) (start : BatchPlace) (entries : List Entry) :
    (if start.announce then m.mapTable dir Table.zeroFlags else m).mapTable dir (·.writeAll entries) =
      m.mapTable dir (·.staged start entries) := by
  unfold Table.staged
  cases start.announce with
  | false => rfl
  | true => simp [Machine.mapTable, Channel.setTable, Channel.table]

theorem stage_eq (ring : Ring) (m : Machine σ) (dir : Direction) (start : BatchPlace)
    (entries : List Entry) :
    let filled := (m.record (.issue dir start entries)).mapTable dir (·.staged start entries)
    let announced := filled.writeEach (if start.announce then announcement ring.tableBus dir else [])
    ring.stage m dir start entries = (ring.track dir (lastIdOf start entries),
      { announced with channel := announced.channel.setIssued dir (lastIdOf start entries) }) := by
  unfold stage
  dsimp only
  rw [fill_eq]
  cases start.announce <;> rfl

variable {ring : Ring} {m before : Machine σ} {dir : Direction} {start : BatchPlace}
  {entries : List Entry} {newer : List Event}

theorem moment_announced (hn : Table.Numbered start.id entries)
    (hfit : start.id + entries.length ≤ slotCount) {r : Register} (hr : r ≠ .lastId) (value : UInt32)
    (h : ((m.record (.issue dir start entries)).mapTable dir (·.staged start entries)).Announces dir
      newer before) :
    ring.Moment m dir start entries (r.address dir, value) newer
      (ring, before.wrote (r.address dir) value) := by
  have hlast : r.address dir ≠ Register.address dir .lastId :=
    fun hc => hr (Register.address_inj.mp hc).2
  have hissued : before.channel.issued = m.channel.issued := h.issued
  constructor
  case history => exact congrArg _ h.history
  case written => exact RegisterFile.read_write_self _ _ _
  case registers =>
    intro offset ho
    exact (RegisterFile.read_write_of_ne _ _ (ho r)).trans (h.registers offset fun r _ => ho r)
  case tables => exact ⟨_, Table.staged_filled _ hn hfit, h.tables⟩
  case unflagged =>
    exact Channel.filled_of_unflagged (Table.staged_filled _ hn hfit) h.tables
  case untold =>
    refine fun _ => ⟨rfl, hissued, congrArg UInt32.toNat ?_⟩
    refine (RegisterFile.read_write_of_ne _ _ hlast.symm).trans (h.registers _ ?_)
    exact fun r hr hc => hr (Register.address_inj.mp hc).2.symm
  case told => exact fun hc => absurd hc hlast
  case judged =>
    intro status
    rw [if_neg hlast, ← hissued]
    exact Channel.interrupt_batchDone _ status

theorem moment_told (hn : Table.Numbered start.id entries)
    (hfit : start.id + entries.length ≤ slotCount) (value : UInt32)
    (h : ((m.record (.issue dir start entries)).mapTable dir (·.staged start entries)).Announces dir
      newer before) :
    let last := lastIdOf start entries
    let told : Machine σ := { before with channel := before.channel.setIssued dir last }
    ring.Moment m dir start entries (Register.address dir .lastId, value) newer
      (ring.track dir last, told.wrote (Register.address dir .lastId) value) := by
  intro last told
  have hissued : told.channel.issued = m.channel.issued.set dir last :=
    congrArg (fun issued : Sides Nat => issued.set dir last) h.issued
  constructor
  case history => exact congrArg _ h.history
  case written => exact RegisterFile.read_write_self _ _ _
  case registers =>
    intro offset ho
    exact (RegisterFile.read_write_of_ne _ _ (ho .lastId)).trans (h.registers offset fun r _ => ho r)
  case tables => exact ⟨_, Table.staged_filled _ hn hfit, h.tables⟩
  case unflagged =>
    exact Channel.filled_of_unflagged (Table.staged_filled _ hn hfit) h.tables
  case untold => exact fun hc => absurd rfl hc
  case told => exact fun _ => ⟨rfl, hissued⟩
  case judged =>
    intro status
    rw [if_pos rfl, ← hissued]
    exact Channel.interrupt_batchDone _ status

theorem publish?_ok (ring : Ring) (m : Machine σ) (dir : Direction)
    (hn : Table.Numbered start.id entries) (hfit : start.id + entries.length ≤ slotCount) :
    ring.publish? m dir start entries = some (ring.publish m dir start entries) := by
  apply if_pos
  rw [List.all_eq_true]
  intro e he
  obtain ⟨i, hi⟩ := List.mem_iff_getElem?.mp he
  have hlt := (List.getElem?_eq_some_iff.mp hi).1
  have hnumber := hn i e hi
  exact decide_eq_true (by omega)

theorem writesOf_publish (ring : Ring) (m : Machine σ) (dir : Direction) (start : BatchPlace)
    (entries : List Entry) : writesOf (ring.publish m dir start entries).2.history =
      (programme ring.tableBus dir start entries).reverse ++ writesOf m.history := by
  rw [programme, List.reverse_append, publish, Machine.programLastId, Machine.writesOf_writeRegister,
    writesOf_stage]
  rfl

theorem moments_hold (ring : Ring) (m : Machine σ) (dir : Direction)
    (hn : Table.Numbered start.id entries) (hfit : start.id + entries.length ≤ slotCount) :
    List.Forall₂ (fun w x => x.2.history <:+ (ring.publish m dir start entries).2.history ∧
        ∃ newer, ring.Moment m dir start entries w newer x)
      (programme ring.tableBus dir start entries) (ring.moments m dir start entries) := by
  let filled := (m.record (.issue dir start entries)).mapTable dir (·.staged start entries)
  let announced := if start.announce then announcement ring.tableBus dir else []
  let place := Register.address dir .lastId
  let last := UInt32.ofNat (lastIdOf start entries)
  have hstart : filled.Announces dir [] filled := .refl dir filled
  have hannouncing := ring.announcement_announcing dir start
  have hstage := ring.stage_eq m dir start entries
  have hgrows := (ring.stage m dir start entries).2.writeAt_grows place last
  have hstaged : (filled.writeEach announced).history <:+
      (ring.publish m dir start entries).2.history := by
    have hwrote : (ring.stage m dir start entries).2.history <:+
        ((ring.stage m dir start entries).2.wrote place last).history := List.suffix_cons _ _
    have hannounced : (ring.stage m dir start entries).2.history =
        (filled.writeEach announced).history := by rw [hstage]
    exact hannounced ▸ hwrote.trans hgrows
  apply List.rel_append
  · rw [List.forall₂_map_right_iff]
    apply (hstart.atWrites hannouncing).imp
    rintro ⟨offset, value⟩ x ⟨hsuffix, r, newer, before, hr, rfl, hbefore, rfl⟩
    exact ⟨hsuffix.trans hstaged, newer, moment_announced hn hfit hr value hbefore⟩
  · obtain ⟨newer, hbefore⟩ := hstart.writeEach hannouncing
    refine .cons ⟨hgrows, newer, ?_⟩ .nil
    rw [hstage]
    exact moment_told hn hfit _ hbefore

end Ring

section Runs
variable {σ : Type} [Platform σ]

/-- The register writes of a batch are those of its programme, in this order, and at each of them
everything is in place that is to be seen there. After the last of them only the platform reacts. -/
theorem publish_in_order (ring : Ring) (m : Machine σ) (dir : Direction) (start : BatchPlace)
    (entries : List Entry) (hne : entries ≠ []) (hn : Table.Numbered start.id entries)
    (hcap : entries.length ≤ start.capacity) :
    let published := ring.publish m dir start entries
    ring.publish? m dir start entries = some published ∧
    Ring.lastIdOf start entries ≤ lastSlot ∧
    writesOf published.2.history =
      (programme ring.tableBus dir start entries).reverse ++ writesOf m.history ∧
    List.Forall₂ (fun w x => x.2.history <:+ published.2.history ∧
        ∃ newer, ring.Moment m dir start entries w newer x)
      (programme ring.tableBus dir start entries) (ring.moments m dir start entries) ∧
    ∃ x reaction, (ring.moments m dir start entries).getLast? = some x ∧
      published = (x.1, x.2.incurAll reaction) := by
  intro published
  have hsizes : lastSlot = 127 ∧ slotCount = 128 := by decide
  have hpos := List.length_pos_iff.mpr hne
  have hfit : start.id + entries.length ≤ slotCount := by
    rw [BatchPlace.capacity] at hcap
    omega
  have hlast : Ring.lastIdOf start entries ≤ lastSlot := by
    rw [Ring.lastIdOf]
    omega
  refine ⟨ring.publish?_ok m dir hn hfit, hlast, ring.writesOf_publish m dir start entries,
    ring.moments_hold m dir hn hfit, ?_⟩
  exact ⟨_, _, List.getLast?_concat, rfl⟩

end Runs
/-- A batch of two descriptors begins a ring, and the device is done with it at once. -/
theorem publish_in_order_echo :
    let ring : Ring := { tableBus := .both 0x100001000 }
    let m := Machine.initial {} ({ echo := .interrupt } : Bench.ScriptedHost)
    let start : BatchPlace := { id := 0, announce := true }
    let entries : List Entry :=
      [.moving .hostToDevice 4096 0 4096 0, .moving .hostToDevice 8192 4096 4096 1]
    ∃ published, ring.publish? m .hostToDevice start entries = some published ∧
      (writesOf published.2.history).length = 6 ∧
      List.Forall₂ (fun w x => x.2.history <:+ published.2.history ∧
          ∃ newer, ring.Moment m .hostToDevice start entries w newer x)
        (programme ring.tableBus .hostToDevice start entries)
        (ring.moments m .hostToDevice start entries) := by
  intro ring m start entries
  have hn : Table.Numbered start.id entries := by
    intro i e he
    match i, he with
    | 0, rfl => rfl
    | 1, rfl => rfl
  obtain ⟨hpublished, -, hwrites, hmoments, -⟩ :=
    publish_in_order ring m .hostToDevice start entries (by decide) hn (by decide)
  exact ⟨_, hpublished, congrArg List.length hwrites, hmoments⟩

end ScatterGather
