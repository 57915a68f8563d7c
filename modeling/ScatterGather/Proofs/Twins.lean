import ScatterGather.Proofs.Lockers
import ScatterGather.Proofs.Pairs
import ScatterGather.Proofs.Tallies

/-! # Machines that cannot be told apart

Two machines are twins if they differ at most in what no one looks at: old descriptors, the flags of
ids that were handed over before, the place of the queue in its ring, the waker, and the direction of
the last transfer as long as none is under way. Whatever is done to both of them, they answer alike
and stay twins.
-/
namespace ScatterGather

/-- What two machines have in common: their settings, the last ids of their rings, and the flags in
which they agree. All flags behind a last id are among them. -/
structure Horizon where
  settings : Settings
  valid : settings.Valid
  lastId : Direction → Nat
  Shown : Direction → Nat → Prop
  slots : ∀ dir id, Shown dir id → id ≤ lastSlot
  behind : ∀ dir id, id ≤ lastSlot → lastSlot < lastId dir ∨ lastId dir < id → Shown dir id

structure Channel.Twin (z : Horizon) (c d : Channel) : Prop where
  settings : c.settings = z.settings ∧ d.settings = z.settings
  work : ∃ jobs, c.work.Holds jobs ∧ d.work.Holds jobs
  advanceOpen : d.advanceOpen = c.advanceOpen
  idle : d.idle = c.idle
  finished : d.finished = c.finished
  direction : c.idle = false → d.direction = c.direction
  issued : d.issued = c.issued
  payload : d.payload = c.payload
  /-- The flag that the interrupt handler looks at is among those that agree. -/
  watched : ∀ dir, c.issued.get dir ≠ noId → z.Shown dir (c.issued.get dir)
  flags : ∀ dir id, z.Shown dir id → (d.table dir).flag? id = (c.table dir).flag? id

namespace Channel.Twin
variable {z : Horizon} {c d : Channel}

theorem isFull (h : Twin z c d) : d.work.isFull = c.work.isFull := by
  obtain ⟨jobs, hc, hd⟩ := h.work
  rw [hc.isFull, hd.isFull]

theorem push (h : Twin z c d) (hroom : c.work.isFull = false) (job : Job) :
    ∃ jobs, (c.work.push job).Holds jobs ∧ (d.work.push job).Holds jobs := by
  obtain ⟨jobs, hc, hd⟩ := h.work
  have hlt : jobs.length < workDepth := by
    rw [hc.isFull, decide_eq_false_iff_not] at hroom
    exact Nat.lt_of_le_of_ne hc.fits hroom
  exact ⟨_, hc.push hlt job, hd.push hlt job⟩

/-- As long as a transfer is under way both look at the same flag. -/
theorem completed (h : Twin z c d) (hbusy : c.idle = false) : d.completed = c.completed := by
  unfold Channel.completed
  dsimp only
  rw [h.direction hbusy, h.issued]
  by_cases hid : c.issued.get c.direction = noId
  · simp [hid]
  · rw [h.flags _ _ (h.watched _ hid)]

theorem busyCompleted (h : Twin z c d) :
    (!d.idle && d.completed) = (!c.idle && c.completed) := by
  rw [h.idle]
  cases hidle : c.idle with
  | true => rfl
  | false => rw [h.completed hidle]

theorem submit (h : Twin z c d) (r : Request) :
    (d.submit r).1 = (c.submit r).1 ∧ Twin z (c.submit r).2 (d.submit r).2 := by
  unfold Channel.submit
  rw [h.finished, h.idle]
  split
  · exact ⟨rfl, h⟩
  split
  · exact ⟨rfl, h⟩
  split
  · exact ⟨rfl, h⟩
  split
  · exact ⟨rfl, h⟩
  dsimp only
  rw [h.isFull]
  split
  · exact ⟨rfl, { h with finished := rfl, idle := rfl, direction := fun _ => rfl }⟩
  · next hfull =>
    exact ⟨rfl, { h with
      finished := rfl, idle := rfl, direction := fun _ => rfl, work := h.push (Bool.eq_false_iff.mpr hfull) _ }⟩

theorem takeWork (h : Twin z c d) :
    d.takeWork.1 = c.takeWork.1 ∧ Twin z c.takeWork.2 d.takeWork.2 := by
  obtain ⟨jobs, hc, hd⟩ := h.work
  unfold Channel.takeWork
  cases jobs with
  | nil =>
    rw [hc.pop_nil, hd.pop_nil]
    exact ⟨rfl, { h with }⟩
  | cons job jobs =>
    obtain ⟨rest, hpop, hrest⟩ := hc.pop_cons
    obtain ⟨rest', hpop', hrest'⟩ := hd.pop_cons
    rw [hpop, hpop']
    exact ⟨rfl, { h with work := ⟨jobs, hrest, hrest'⟩ }⟩

theorem requestAdvance (h : Twin z c d) :
    d.requestAdvance.1 = c.requestAdvance.1 ∧ Twin z c.requestAdvance.2 d.requestAdvance.2 := by
  unfold Channel.requestAdvance
  rw [h.advanceOpen, h.isFull]
  split
  · exact ⟨rfl, h⟩
  · next hroom =>
    simp only [Bool.or_eq_true, not_or, Bool.not_eq_true] at hroom
    exact ⟨rfl, { h with advanceOpen := rfl, work := h.push hroom.2 _ }⟩

theorem interrupt (h : Twin z c d) (status : UInt32) :
    (d.interrupt status).1 = (c.interrupt status).1 ∧
      Twin z (c.interrupt status).2 (d.interrupt status).2 := by
  obtain ⟨hanswer, hqueued⟩ := h.requestAdvance
  unfold Channel.interrupt
  dsimp only
  rw [h.busyCompleted, hanswer]
  split
  · refine ⟨rfl, ?_⟩
    split
    · exact { hqueued with }
    · exact hqueued
  · exact ⟨rfl, h⟩

theorem closeAdvance (h : Twin z c d) : Twin z c.closeAdvance d.closeAdvance := by
  have hclosed : Twin z { c with advanceOpen := false } { d with advanceOpen := false } :=
    { h with advanceOpen := rfl }
  unfold Channel.closeAdvance
  dsimp only
  rw [hclosed.busyCompleted]
  split
  · exact hclosed.requestAdvance.2
  · exact hclosed

theorem dropWork (h : Twin z c d) : Twin z c.dropWork d.dropWork := by
  obtain ⟨jobs, hc, hd⟩ := h.work
  exact { h with advanceOpen := rfl, work := ⟨[], hc.clear, hd.clear⟩ }

theorem settle (h : Twin z c d) : Twin z c.settle d.settle := by
  refine { h with idle := rfl, direction := nofun, issued := rfl, watched := ?_ }
  intro dir hne
  exact absurd (Sides.get_both noId dir) hne

theorem setTable (h : Twin z c d) (dir : Direction) {t u : Table}
    (hflags : ∀ id, z.Shown dir id → u.flag? id = t.flag? id) :
    Twin z (c.setTable dir t) (d.setTable dir u) := by
  refine { h with flags := ?_ }
  intro d' id hid
  simp only [Channel.table, Channel.setTable, Sides.get_set]
  split
  · next hd => exact hflags id (hd ▸ hid)
  · exact h.flags d' id hid

theorem putFlag (h : Twin z c d) (dir : Direction) (id : Nat) (value : UInt32) :
    Twin z (c.setTable dir ((c.table dir).putFlag id value))
      (d.setTable dir ((d.table dir).putFlag id value)) := by
  apply h.setTable
  intro i hi
  have hsame := h.flags dir i hi
  unfold Table.flag? at hsame ⊢
  rw [Table.putFlag, Table.putFlag, Table.getElem?_setWord, Table.getElem?_setWord, hsame]

theorem setIssued (h : Twin z c d) {dir : Direction} {id : Nat} (hid : z.Shown dir id) :
    Twin z (c.setIssued dir id) (d.setIssued dir id) := by
  refine { h with issued := congrArg (·.set dir id) h.issued, watched := ?_ }
  intro d' hne
  simp only [Channel.setIssued, Sides.get_set] at hne ⊢
  split
  · next hd => exact hd ▸ hid
  · next hd =>
    rw [if_neg hd] at hne
    exact h.watched d' hne

end Channel.Twin

/-- Platforms in related states answer alike. -/
structure Platform.Matches {σ : Type} [Platform σ] (R : σ → σ → Prop) : Prop where
  lock : ∀ x y range writable, R x y →
    (Platform.lock y range writable).pages = (Platform.lock x range writable).pages ∧
    (Platform.lock y range writable).incidents = (Platform.lock x range writable).incidents ∧
    R (Platform.lock x range writable).platform (Platform.lock y range writable).platform
  unlock : ∀ x y pages dirty, R x y →
    R (Platform.unlock x pages dirty) (Platform.unlock y pages dirty)
  written : ∀ x y offset value, R x y →
    (Platform.written y offset value).1 = (Platform.written x offset value).1 ∧
    R (Platform.written x offset value).2 (Platform.written y offset value).2

/-- Where two runs begin to be compared: which states of their platforms answer alike, and what had
happened in each of them. -/
structure Outset (σ : Type) where
  Alike : σ → σ → Prop
  first : List Event
  second : List Event

structure Machine.Twin {σ : Type} (o : Outset σ) (z : Horizon) (m n : Machine σ) : Prop where
  channel : Channel.Twin z m.channel n.channel
  lastId : ∀ dir, m.registers.lastId dir = z.lastId dir ∧ n.registers.lastId dir = z.lastId dir
  platform : o.Alike m.platform n.platform
  listener : n.listener = m.listener
  history : ∃ events, m.history = events ++ o.first ∧ n.history = events ++ o.second

theorem RegisterFile.lastId_write (r : RegisterFile) (offset : Nat) (value : UInt32) (dir : Direction) :
    (r.write offset value).lastId dir =
      if offset = Register.address dir .lastId then value.toNat else r.lastId dir := by
  unfold lastId
  split
  · next h => rw [h, read_write_self]
  · next h => rw [read_write_of_ne _ _ (Ne.symm h)]

namespace Machine.Twin
variable {σ : Type} {o : Outset σ} {z : Horizon} {m n : Machine σ}

theorem record (h : Twin o z m n) (e : Event) : Twin o z (m.record e) (n.record e) := by
  obtain ⟨events, hm, hn⟩ := h.history
  exact { h with history := ⟨e :: events, congrArg (e :: ·) hm, congrArg (e :: ·) hn⟩ }

theorem mapChannel (h : Twin o z m n) {c d : Channel} (hc : Channel.Twin z c d) :
    Twin o z { m with channel := c } { n with channel := d } := { h with channel := hc }

theorem mapPlatform (h : Twin o z m n) {x y : σ} (hxy : o.Alike x y) :
    Twin o z { m with platform := x } { n with platform := y } := { h with platform := hxy }

theorem incur (h : Twin o z m n) (i : Incident) : Twin o z (m.incur i) (n.incur i) := by
  cases i with
  | complete dir =>
    simp only [Machine.incur]
    rw [(h.lastId dir).1, (h.lastId dir).2]
    split
    · exact (h.mapChannel (h.channel.putFlag dir _ 1)).record _
    · exact h
  | flag dir id value => exact (h.mapChannel (h.channel.putFlag dir id value)).record _
  | interrupt status =>
    obtain ⟨hreport, hchannel⟩ := h.channel.interrupt status
    simp only [Machine.incur]
    rw [hreport]
    exact (h.mapChannel hchannel).record _
  | submit r =>
    obtain ⟨hanswer, hchannel⟩ := h.channel.submit r
    simp only [Machine.incur]
    rw [hanswer]
    exact (h.mapChannel hchannel).record _

theorem incurAll (h : Twin o z m n) (incidents : List Incident) :
    Twin o z (m.incurAll incidents) (n.incurAll incidents) := by
  induction incidents generalizing m n with
  | nil => exact h
  | cons i rest ih => exact ih (h.incur i)

theorem readLastId (h : Twin o z m n) (dir : Direction) :
    (m.readRegister dir .lastId).1.toNat = z.lastId dir ∧
      (n.readRegister dir .lastId).1 = (m.readRegister dir .lastId).1 ∧
      Twin o z (m.readRegister dir .lastId).2 (n.readRegister dir .lastId).2 := by
  have hsame : n.registers.read (Register.address dir .lastId) =
      m.registers.read (Register.address dir .lastId) :=
    UInt32.toNat_inj.mp ((h.lastId dir).2.trans (h.lastId dir).1.symm)
  refine ⟨(h.lastId dir).1, hsame, ?_⟩
  simp only [readRegister, readAt]
  rw [hsame]
  exact h.record _

theorem notify (h : Twin o z m n) (outcome : Outcome) :
    Twin o z (m.notify outcome) (n.notify outcome) := by
  have htold : Twin o z (m.told outcome) (n.told outcome) := by
    have hpayload : n.channel.payloadForTransfer = m.channel.payloadForTransfer :=
      congrArg (· ||| transferDoneBit) h.channel.payload
    unfold told
    rw [hpayload]
    exact { h.record _ with listener := congrArg List.tail h.listener }
  rw [notify_eq, notify_eq, h.listener]
  exact htold.incurAll _

theorem recount (h : Twin o z m n) (f : UInt64 → UInt64) :
    Twin o z { m with channel := { m.channel with pagesLocked := f m.channel.pagesLocked } }
      { n with channel := { n.channel with pagesLocked := f n.channel.pagesLocked } } :=
  h.mapChannel { h.channel with }

variable [Platform σ] (hR : Platform.Matches o.Alike)
include hR

theorem lock (h : Twin o z m n) (range : PageRun) (writable : Bool) :
    (n.lock range writable).1 = (m.lock range writable).1 ∧
      Twin o z (m.lock range writable).2 (n.lock range writable).2 := by
  obtain ⟨hpages, hincidents, halike⟩ := hR.lock _ _ range writable h.platform
  refine ⟨hpages, ?_⟩
  rw [lock_eq, lock_eq, hincidents]
  have hasked : Twin o z (m.asked range writable) (n.asked range writable) := by
    unfold asked
    dsimp only
    rw [hpages]
    exact (h.mapPlatform halike).record _
  exact hasked.incurAll _

theorem unlock (h : Twin o z m n) (pages : List Page) (dirty : Bool) :
    Twin o z (m.unlock pages dirty) (n.unlock pages dirty) :=
  (h.mapPlatform (hR.unlock _ _ pages dirty h.platform)).record _

theorem lockAlike (dir : Direction) : LockAlike (Twin o z) dir where
  settings h := h.channel.settings.2.trans h.channel.settings.1.symm
  recount h := h.recount
  lock h range := h.lock hR range dir.writesHost
  unlock h := h.unlock hR

/-- The registers of the ring may be written, but not the one of the last id. -/
theorem writeRegister (h : Twin o z m n) (dir : Direction) {r : Register} (hr : r ≠ .lastId)
    (value : UInt32) : Twin o z (m.writeRegister dir r value) (n.writeRegister dir r value) := by
  obtain ⟨hincidents, halike⟩ := hR.written _ _ (r.address dir) value h.platform
  have hwrote : Twin o z (m.wrote (r.address dir) value) (n.wrote (r.address dir) value) := by
    have hlater := (h.mapPlatform halike).record (.write (r.address dir) value)
    refine { hlater with lastId := fun d => ?_ }
    exact ⟨(m.wrote_lastId dir d hr value).trans (h.lastId d).1,
      (n.wrote_lastId dir d hr value).trans (h.lastId d).2⟩
  rw [Machine.writeRegister, Machine.writeRegister, writeAt_eq, writeAt_eq, hincidents]
  exact hwrote.incurAll _

end Machine.Twin

/-- All flags of a ring agree, because they were zeroed. -/
def Horizon.renewed (z : Horizon) (dir : Direction) : Horizon where
  settings := z.settings
  valid := z.valid
  lastId := z.lastId
  Shown d id := z.Shown d id ∨ d = dir ∧ id ≤ lastSlot
  slots d id h := h.elim (z.slots d id) And.right
  behind d id hid h := .inl (z.behind d id hid h)

def Horizon.past (z : Horizon) (dir : Direction) (last : Nat) (hle : last ≤ lastSlot)
    (hbehind : ∀ id ≤ lastSlot, last ≤ id → z.Shown dir id) : Horizon where
  settings := z.settings
  valid := z.valid
  lastId d := if d = dir then last else z.lastId d
  Shown := z.Shown
  slots := z.slots
  behind d id hid h := by
    split at h
    · next hd => exact hd ▸ hbehind id hid (by omega)
    · exact z.behind d id hid h

namespace Machine.Twin
variable {σ : Type} {o : Outset σ} {z : Horizon} {m n : Machine σ}

theorem zeroFlags (h : Twin o z m n) (dir : Direction) :
    Twin o (z.renewed dir) (m.mapTable dir Table.zeroFlags) (n.mapTable dir Table.zeroFlags) := by
  refine { h with channel := { h.channel with
    watched := fun d hne => .inl (h.channel.watched d hne), flags := fun d id hid => ?_ } }
  simp only [mapTable, Channel.setTable, Channel.table, Sides.get_set]
  split
  · have hslot : id < slotCount := Nat.lt_of_le_of_lt ((z.renewed dir).slots d id hid) (by decide)
    rw [Table.flag?_zeroFlags _ hslot, Table.flag?_zeroFlags _ hslot]
  · next hd =>
    rcases hid with hid | ⟨hdir, -⟩
    · exact h.channel.flags d id hid
    · exact absurd hdir hd

theorem writeAll (h : Twin o z m n) (dir : Direction) (entries : List Entry) :
    Twin o z (m.mapTable dir (·.writeAll entries)) (n.mapTable dir (·.writeAll entries)) := by
  apply h.mapChannel
  apply h.channel.setTable
  intro id hid
  have hslot : id < slotCount := Nat.lt_of_le_of_lt (z.slots dir id hid) (by decide)
  rw [Table.flag?_writeAll _ _ hslot, Table.flag?_writeAll _ _ hslot]
  exact h.channel.flags dir id hid

variable [Platform σ] (hR : Platform.Matches o.Alike)
include hR

theorem announce (h : Twin o z m n) (ring : Ring) (dir : Direction) :
    Twin o z (ring.announce m dir) (ring.announce n dir) := by
  have hwrite {m n : Machine σ} (h : Twin o z m n) {r : Register} (hr : r ≠ .lastId) (value : UInt32) :
      Twin o z (m.writeRegister dir r value) (n.writeRegister dir r value) :=
    h.writeRegister hR dir hr value
  have hhalves {m n : Machine σ} (h : Twin o z m n) {low high : Register} (hlow : low ≠ .lastId)
      (hhigh : high ≠ .lastId) (value : Nat) :
      Twin o z (m.writeHalves dir low high value) (n.writeHalves dir low high value) :=
    hwrite (hwrite h hlow _) hhigh _
  exact hwrite (hhalves (hhalves h (by decide) (by decide) _) (by decide) (by decide) _) (by decide) _

/-- Before the last id of a batch is written, the flags agree from that id on: they were just zeroed, or
they are those behind the last id of the batch before. -/
theorem stage (h : Twin o z m n) (ring : Ring) (dir : Direction) (start : BatchPlace)
    (entries : List Entry) (hle : Ring.lastIdOf start entries ≤ lastSlot)
    (hnew : start.announce = true ∨ z.lastId dir < Ring.lastIdOf start entries) :
    ∃ y : Horizon, (∀ id ≤ lastSlot, Ring.lastIdOf start entries ≤ id → y.Shown dir id) ∧
      Twin o y (ring.stage m dir start entries).2 (ring.stage n dir start entries).2 := by
  have hissued {y : Horizon} {m n : Machine σ} (h : Twin o y m n)
      (hshown : ∀ id ≤ lastSlot, Ring.lastIdOf start entries ≤ id → y.Shown dir id) :
      Twin o y { m with channel := m.channel.setIssued dir (Ring.lastIdOf start entries) }
        { n with channel := n.channel.setIssued dir (Ring.lastIdOf start entries) } :=
    h.mapChannel (h.channel.setIssued (hshown _ hle (Nat.le_refl _)))
  have hrecorded := h.record (.issue dir start entries)
  unfold Ring.stage
  cases ha : start.announce with
  | true =>
    have hshown : ∀ id ≤ lastSlot, Ring.lastIdOf start entries ≤ id → (z.renewed dir).Shown dir id :=
      fun id hid _ => .inr ⟨rfl, hid⟩
    have hwritten := ((hrecorded.zeroFlags dir).writeAll dir entries).announce hR ring dir
    exact ⟨z.renewed dir, hshown, hissued hwritten hshown⟩
  | false =>
    have hlater : z.lastId dir < Ring.lastIdOf start entries := hnew.resolve_left (by simp [ha])
    have hshown : ∀ id ≤ lastSlot, Ring.lastIdOf start entries ≤ id → z.Shown dir id :=
      fun id hid hlast => z.behind dir id hid (.inr (Nat.lt_of_lt_of_le hlater hlast))
    exact ⟨z, hshown, hissued (hrecorded.writeAll dir entries) hshown⟩

theorem programLastId (h : Twin o z m n) (dir : Direction) {last : Nat} (hle : last ≤ lastSlot)
    (hbehind : ∀ id ≤ lastSlot, last ≤ id → z.Shown dir id) :
    Twin o (z.past dir last hle hbehind) (m.programLastId dir last) (n.programLastId dir last) := by
  obtain ⟨hincidents, halike⟩ := hR.written _ _ (Register.address dir .lastId) (UInt32.ofNat last) h.platform
  have hvalue : (UInt32.ofNat last).toNat = last :=
    UInt32.toNat_ofNat_of_lt' (Nat.lt_of_le_of_lt hle (by decide))
  have hwritten (registers : RegisterFile) (hbefore : ∀ d, registers.lastId d = z.lastId d)
      (d : Direction) : (registers.write (Register.address dir .lastId) (UInt32.ofNat last)).lastId d =
        (z.past dir last hle hbehind).lastId d := by
    rw [RegisterFile.lastId_write, hvalue, hbefore]
    simp only [Register.address_inj, and_true, Horizon.past, eq_comm]
  have hwrote : Twin o (z.past dir last hle hbehind)
      (m.wrote (Register.address dir .lastId) (UInt32.ofNat last))
      (n.wrote (Register.address dir .lastId) (UInt32.ofNat last)) := by
    have hlater := (h.mapPlatform halike).record
      (.write (Register.address dir .lastId) (UInt32.ofNat last))
    exact { hlater with
      channel := { hlater.channel with }
      lastId := fun d => ⟨hwritten _ (fun d => (h.lastId d).1) d, hwritten _ (fun d => (h.lastId d).2) d⟩ }
  unfold Machine.programLastId Machine.writeRegister
  rw [writeAt_eq, writeAt_eq, hincidents]
  exact hwrote.incurAll _

/-- Twins that are handed the same batch stay twins, with its last id as the last one. -/
theorem publish (h : Twin o z m n) (ring : Ring) (dir : Direction) (start : BatchPlace)
    (entries : List Entry) (hle : Ring.lastIdOf start entries ≤ lastSlot)
    (hnew : start.announce = true ∨ z.lastId dir < Ring.lastIdOf start entries) :
    ∃ y : Horizon, y.lastId dir = Ring.lastIdOf start entries ∧
      Twin o y (ring.publish m dir start entries).2 (ring.publish n dir start entries).2 := by
  obtain ⟨y, hshown, hstaged⟩ := h.stage hR ring dir start entries hle hnew
  exact ⟨y.past dir _ hle hshown, if_pos rfl, hstaged.programLastId hR dir hle hshown⟩

end Machine.Twin

end ScatterGather
