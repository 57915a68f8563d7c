import Mathlib.Data.List.Forall2
import ScatterGather.Proofs.Pairs
import ScatterGather.Proofs.Tables

/-! # Machines that differ in the flags of one table

Two machines differ at most in the completion flags of one direction. As long as no id of that direction
is issued no one looks at these flags, so they may be stored on one of the machines alone. Once the
ring is announced they are zeroed, and from then on the two machines agree in them as well.
-/
namespace ScatterGather

/-- A flag of this direction is stored. -/
def Incident.flagging (dir : Direction) : Incident → Bool
  | complete d => d = dir
  | flag d id _ => d = dir ∧ id < slotCount
  | _ => false

def Event.flagging (dir : Direction) : Event → Bool
  | complete d _ => d = dir
  | flag d id _ => d = dir ∧ id < slotCount
  | _ => false

/-- The incidents differ at most in stores of flags of this direction. -/
def Incident.SameBesides (dir : Direction) (incidents others : List Incident) : Prop :=
  others.filter (! ·.flagging dir) = incidents.filter (! ·.flagging dir)

instance (dir : Direction) (incidents others : List Incident) :
    Decidable (Incident.SameBesides dir incidents others) := inferInstanceAs (Decidable (_ = _))

def Event.SameBesides (dir : Direction) (history other : List Event) : Prop :=
  other.filter (! ·.flagging dir) = history.filter (! ·.flagging dir)

instance (dir : Direction) (history other : List Event) :
    Decidable (Event.SameBesides dir history other) := inferInstanceAs (Decidable (_ = _))

/-- Tables that differ at most in their flags. -/
def Table.SameSlots (t u : Table) : Prop := ∀ i, slotCount ≤ i → u.words[i]? = t.words[i]?

/-- Tables that differ at most in the flags of this direction, and if they agree not even in those. -/
structure Sides.Beside (dir : Direction) (agree : Prop) (t u : Sides Table) : Prop where
  other : u.get dir.other = t.get dir.other
  slots : (t.get dir).SameSlots (u.get dir)
  flags : agree → u.get dir = t.get dir

def Channel.withTables (c : Channel) (tables : Sides Table) : Channel := { c with tables }

structure Channel.Beside (dir : Direction) (agree : Prop) (c d : Channel) : Prop where
  frame : d = c.withTables d.tables
  tables : c.tables.Beside dir agree d.tables
  /-- Flags in which the two differ are not looked at. -/
  unissued : ¬ agree → c.issued.get dir = noId

/-- Platforms in related states answer alike, except that flags of this direction may be stored by one
of them alone while it is asked for something on behalf of the other direction. -/
structure Platform.MatchesBesides {σ : Type} [Platform σ] (dir : Direction) (R : σ → σ → Prop) :
    Prop where
  lock : ∀ x y range writable, R x y →
    (Platform.lock y range writable).pages = (Platform.lock x range writable).pages ∧
    Incident.SameBesides dir (Platform.lock x range writable).incidents
      (Platform.lock y range writable).incidents ∧
    (writable = dir.writesHost →
      (Platform.lock y range writable).incidents = (Platform.lock x range writable).incidents) ∧
    R (Platform.lock x range writable).platform (Platform.lock y range writable).platform
  unlock : ∀ x y pages dirty, R x y →
    R (Platform.unlock x pages dirty) (Platform.unlock y pages dirty)
  written : ∀ x y offset value, R x y →
    Incident.SameBesides dir (Platform.written x offset value).1 (Platform.written y offset value).1 ∧
    ((∃ reg, offset = Register.address dir reg) →
      (Platform.written y offset value).1 = (Platform.written x offset value).1) ∧
    R (Platform.written x offset value).2 (Platform.written y offset value).2

structure Machine.Beside {σ : Type} (dir : Direction) (R : σ → σ → Prop) (agree : Prop)
    (m n : Machine σ) : Prop where
  channel : Channel.Beside dir agree m.channel n.channel
  registers : n.registers = m.registers
  platform : R m.platform n.platform
  listener : List.Forall₂ (Incident.SameBesides dir) m.listener n.listener
  history : Event.SameBesides dir m.history n.history

theorem Incident.SameBesides.heads {dir : Direction} {listener other : List (List Incident)}
    (h : List.Forall₂ (SameBesides dir) listener other) :
    SameBesides dir (listener.headD []) (other.headD []) ∧
      List.Forall₂ (SameBesides dir) listener.tail other.tail := by
  cases h with
  | nil => exact ⟨rfl, .nil⟩
  | cons hfirst hrest => exact ⟨hfirst, hrest⟩

namespace Table.SameSlots
variable {t u : Table}

theorem setWord (h : t.SameSlots u) (index : Nat) (value : UInt32) :
    (t.setWord index value).SameSlots (u.setWord index value) := by
  intro i hi
  rw [getElem?_setWord, getElem?_setWord, h i hi]

theorem putFlag_left (h : t.SameSlots u) {id : Nat} (hid : id < slotCount) (value : UInt32) :
    (t.putFlag id value).SameSlots u := by
  intro i hi
  rw [putFlag, getElem?_setWord, if_neg (by omega), h i hi]

theorem zeroFlags_eq (h : t.SameSlots u) : u.zeroFlags = t.zeroFlags := by
  have hwords : u.zeroFlags.words = t.zeroFlags.words := by
    apply Vector.ext
    intro i hi
    simp only [zeroFlags, Vector.getElem_mapIdx]
    split
    · rfl
    · next hout =>
      have hsame := h i (by omega)
      rwa [Vector.getElem?_eq_getElem hi, Vector.getElem?_eq_getElem hi, Option.some.injEq] at hsame
  exact congrArg Table.mk hwords

theorem storeWords (h : t.SameSlots u) (base : Nat) (ws : List UInt32) :
    (t.storeWords base ws).SameSlots (u.storeWords base ws) := by
  induction ws generalizing t u base with
  | nil => exact h
  | cons w ws ih => exact ih (h.setWord base w) (base + 1)

theorem writeAll (h : t.SameSlots u) (entries : List Entry) :
    (t.writeAll entries).SameSlots (u.writeAll entries) := by
  induction entries generalizing t u with
  | nil => exact h
  | cons e entries ih =>
    have hfirst : (t.write e.id.toNat e).SameSlots (u.write e.id.toNat e) := h.storeWords _ _
    rw [writeAll_cons, writeAll_cons]
    exact ih hfirst

end Table.SameSlots

namespace Sides.Beside
variable {dir : Direction} {agree : Prop} {t u : Sides Table}

theorem set (h : t.Beside dir agree u) (d : Direction) {f : Table → Table}
    (hf : ∀ {a b : Table}, a.SameSlots b → (f a).SameSlots (f b)) :
    (t.set d (f (t.get d))).Beside dir agree (u.set d (f (u.get d))) := by
  by_cases hd : d = dir
  · subst hd
    refine ⟨?_, ?_, fun ha => ?_⟩
    · rw [Sides.get_set_of_ne _ _ d.other_ne, Sides.get_set_of_ne _ _ d.other_ne, h.other]
    · rw [Sides.get_set_self, Sides.get_set_self]
      exact hf h.slots
    · rw [Sides.get_set_self, Sides.get_set_self, h.flags ha]
  · obtain rfl := Direction.eq_other_of_ne hd
    have hne : dir ≠ dir.other := dir.other_ne.symm
    refine ⟨?_, ?_, fun ha => ?_⟩
    · rw [Sides.get_set_self, Sides.get_set_self, h.other]
    · rw [Sides.get_set_of_ne _ _ hne, Sides.get_set_of_ne _ _ hne]
      exact h.slots
    · rw [Sides.get_set_of_ne _ _ hne, Sides.get_set_of_ne _ _ hne, h.flags ha]

/-- A flag is stored in one of the tables only. -/
theorem putFlag_left (h : t.Beside dir agree u) (ha : ¬ agree) {id : Nat} (hid : id < slotCount)
    (value : UInt32) : (t.set dir ((t.get dir).putFlag id value)).Beside dir agree u where
  other := by rw [Sides.get_set_of_ne _ _ dir.other_ne, h.other]
  slots := by
    rw [Sides.get_set_self]
    exact h.slots.putFlag_left hid value
  flags hagree := absurd hagree ha

theorem symm (h : t.Beside dir agree u) : u.Beside dir agree t :=
  ⟨h.other.symm, fun i hi => (h.slots i hi).symm, fun ha => (h.flags ha).symm⟩

end Sides.Beside

namespace Channel

theorem submit_tables (c : Channel) (tables : Sides Table) (r : Request) :
    (c.withTables tables).submit r = ((c.submit r).1, (c.submit r).2.withTables tables) := by
  unfold submit withTables
  dsimp only
  split
  · rfl
  split
  · rfl
  split
  · rfl
  split
  · rfl
  split <;> rfl

theorem requestAdvance_tables (c : Channel) (tables : Sides Table) :
    (c.withTables tables).requestAdvance =
      (c.requestAdvance.1, c.requestAdvance.2.withTables tables) := by
  unfold requestAdvance withTables
  dsimp only
  split <;> rfl

namespace Beside
variable {dir : Direction} {agree : Prop} {c d c' d' : Channel}

/-- A change of the rest of both channels. -/
theorem follow (h : Beside dir agree c d) (ht : c'.tables = c.tables) (hi : c'.issued = c.issued)
    (hd : d' = c'.withTables d.tables) : Beside dir agree c' d' where
  frame := by
    rw [hd]
    rfl
  tables := by
    rw [hd, ht]
    exact h.tables
  unissued ha := by rw [hi, h.unissued ha]

theorem issued (h : Beside dir agree c d) : d.issued = c.issued :=
  (congrArg Channel.issued h.frame).trans rfl

theorem idle (h : Beside dir agree c d) : d.idle = c.idle := (congrArg Channel.idle h.frame).trans rfl

/-- Whichever flag the interrupt handler looks at, both have the same one. -/
theorem completed (h : Beside dir agree c d) : d.completed = c.completed := by
  have hdirection : d.direction = c.direction := (congrArg Channel.direction h.frame).trans rfl
  unfold Channel.completed Channel.table
  rw [h.issued, hdirection]
  by_cases hd : c.direction = dir
  · rw [hd]
    by_cases ha : agree
    · rw [h.tables.flags ha]
    · simp [h.unissued ha]
  · rw [Direction.eq_other_of_ne hd, h.tables.other]

theorem submit (h : Beside dir agree c d) (r : Request) :
    (d.submit r).1 = (c.submit r).1 ∧ Beside dir agree (c.submit r).2 (d.submit r).2 := by
  obtain ⟨work, idle, direction, waker, hc⟩ := c.submit_frame r
  have hd := c.submit_tables d.tables r
  rw [← h.frame] at hd
  rw [hd]
  exact ⟨rfl, h.follow (by rw [hc]) (by rw [hc]) rfl⟩

theorem requestAdvance (h : Beside dir agree c d) :
    d.requestAdvance.1 = c.requestAdvance.1 ∧
      Beside dir agree c.requestAdvance.2 d.requestAdvance.2 := by
  have hd := c.requestAdvance_tables d.tables
  rw [← h.frame] at hd
  have hc : c.requestAdvance.2.tables = c.tables ∧ c.requestAdvance.2.issued = c.issued := by
    rcases c.requestAdvance_cases with hc | ⟨-, hc⟩ <;> rw [hc] <;> exact ⟨rfl, rfl⟩
  rw [hd]
  exact ⟨rfl, h.follow hc.1 hc.2 rfl⟩

theorem interrupt (h : Beside dir agree c d) (status : UInt32) :
    (d.interrupt status).1 = (c.interrupt status).1 ∧
      Beside dir agree (c.interrupt status).2 (d.interrupt status).2 := by
  obtain ⟨hanswer, hqueued⟩ := h.requestAdvance
  unfold Channel.interrupt
  dsimp only
  rw [h.idle, h.completed, hanswer]
  split
  · refine ⟨rfl, ?_⟩
    split
    · exact hqueued.follow rfl rfl ((congrArg Channel.wake hqueued.frame).trans rfl)
    · exact hqueued
  · exact ⟨rfl, h⟩

theorem closeAdvance (h : Beside dir agree c d) : Beside dir agree c.closeAdvance d.closeAdvance := by
  have hclosed : Beside dir agree { c with advanceOpen := false } { d with advanceOpen := false } :=
    h.follow rfl rfl
      ((congrArg (fun c : Channel => { c with advanceOpen := false }) h.frame).trans rfl)
  have hbusy : (!d.idle && ({ d with advanceOpen := false } : Channel).completed) =
      (!c.idle && ({ c with advanceOpen := false } : Channel).completed) := by
    rw [hclosed.completed, h.idle]
  unfold Channel.closeAdvance
  dsimp only
  rw [hbusy]
  split
  · exact hclosed.requestAdvance.2
  · exact hclosed

/-- Nothing is issued any more, so the flags need not agree. -/
theorem settle (h : Beside dir agree c d) : Beside dir False c.settle d.settle where
  frame := (congrArg Channel.settle h.frame).trans rfl
  tables := ⟨h.tables.other, h.tables.slots, False.elim⟩
  unissued _ := Sides.get_both ..

theorem setTable (h : Beside dir agree c d) (e : Direction) {f : Table → Table}
    (hf : ∀ {a b : Table}, a.SameSlots b → (f a).SameSlots (f b)) :
    Beside dir agree (c.setTable e (f (c.table e))) (d.setTable e (f (d.table e))) where
  frame := (congrArg (·.setTable e (f (d.table e))) h.frame).trans rfl
  tables := h.tables.set e hf
  unissued := h.unissued

theorem symm (h : Beside dir agree c d) : Beside dir agree d c where
  frame := by
    rw [h.frame]
    rfl
  tables := h.tables.symm
  unissued ha := by rw [h.issued, h.unissued ha]

end Beside
end Channel

namespace Machine.Beside
variable {σ : Type} {dir : Direction} {R : σ → σ → Prop} {agree : Prop} {m n : Machine σ}

theorem mapChannel (h : Beside dir R agree m n) {c d : Channel} (hc : Channel.Beside dir agree c d) :
    Beside dir R agree { m with channel := c } { n with channel := d } := { h with channel := hc }

theorem mapPlatform (h : Beside dir R agree m n) {x y : σ} (hxy : R x y) :
    Beside dir R agree { m with platform := x } { n with platform := y } := { h with platform := hxy }

theorem record (h : Beside dir R agree m n) (e : Event) :
    Beside dir R agree (m.record e) (n.record e) := by
  refine { h with history := ?_ }
  simp only [Event.SameBesides, Machine.record, List.filter_cons]
  rw [h.history]

theorem mapTable (h : Beside dir R agree m n) (d : Direction) {f : Table → Table}
    (hf : ∀ {a b : Table}, a.SameSlots b → (f a).SameSlots (f b)) :
    Beside dir R agree (m.mapTable d f) (n.mapTable d f) := h.mapChannel (h.channel.setTable d hf)

theorem symm (h : Beside dir R agree m n) : Beside dir (fun x y => R y x) agree n m where
  channel := h.channel.symm
  registers := h.registers.symm
  platform := h.platform
  listener := List.Forall₂.flip (h.listener.imp fun _ _ hsame => hsame.symm)
  history := h.history.symm

/-- Whether the two agree in the flags may be seen in another way. -/
theorem regrade (h : Beside dir R agree m n) {agree' : Prop}
    (hf : agree' → n.channel.table dir = m.channel.table dir)
    (hu : ¬ agree' → m.channel.issued.get dir = noId) : Beside dir R agree' m n :=
  { h with channel := ⟨h.channel.frame, ⟨h.channel.tables.other, h.channel.tables.slots, hf⟩, hu⟩ }

theorem settled (h : Beside dir R agree m n) :
    Beside dir R (m.channel.issued.get dir ≠ noId) m n :=
  h.regrade (fun hissued => h.channel.tables.flags (Classical.byContradiction fun ha =>
    hissued (h.channel.unissued ha))) fun hnone => Decidable.not_not.mp hnone

section Incidents

theorem incur (h : Beside dir R agree m n) (i : Incident) :
    Beside dir R agree (m.incur i) (n.incur i) := by
  cases i with
  | complete d =>
    simp only [Machine.incur]
    rw [h.registers]
    split
    · exact (h.mapTable d fun hslots => hslots.setWord _ _).record _
    · exact h
  | flag d id value => exact (h.mapTable d fun hslots => hslots.setWord _ _).record _
  | interrupt status =>
    obtain ⟨hreport, hchannel⟩ := h.channel.interrupt status
    simp only [Machine.incur]
    rw [hreport]
    exact (h.mapChannel hchannel).record _
  | submit r =>
    obtain ⟨hanswer, hchannel⟩ := h.channel.submit r
    simp only [Machine.incur]
    rw [hanswer]
    exact (h.mapChannel hchannel).record _

theorem incurAll (h : Beside dir R agree m n) (incidents : List Incident) :
    Beside dir R agree (m.incurAll incidents) (n.incurAll incidents) := by
  induction incidents generalizing m n with
  | nil => exact h
  | cons i rest ih => exact ih (h.incur i)

variable (ha : ¬ agree)
include ha

theorem putFlag_left (h : Beside dir R agree m n) {id : Nat} (hid : id < slotCount) (value : UInt32)
    {e : Event} (he : e.flagging dir = true) :
    Beside dir R agree ((m.mapTable dir (·.putFlag id value)).record e) n where
  channel := ⟨h.channel.frame.trans rfl, h.channel.tables.putFlag_left ha hid value, h.channel.unissued⟩
  registers := h.registers
  platform := h.platform
  listener := h.listener
  history := by
    simp only [Event.SameBesides, Machine.record, Machine.mapTable, List.filter_cons, he]
    exact h.history

/-- A flag may be stored on the first machine alone. -/
theorem incur_left (h : Beside dir R agree m n) {i : Incident} (hi : i.flagging dir = true) :
    Beside dir R agree (m.incur i) n := by
  cases i with
  | complete d =>
    obtain rfl : d = dir := by simpa [Incident.flagging] using hi
    simp only [Machine.incur]
    split
    · next hid =>
      exact h.putFlag_left ha (Nat.lt_of_le_of_lt hid (by decide)) 1 (by simp [Event.flagging])
    · exact h
  | flag d id value =>
    obtain ⟨rfl, hid⟩ : d = dir ∧ id < slotCount := by simpa [Incident.flagging] using hi
    exact h.putFlag_left ha hid value (by simp [Event.flagging, hid])
  | interrupt => cases hi
  | submit => cases hi

theorem incur_right (h : Beside dir R agree m n) {i : Incident} (hi : i.flagging dir = true) :
    Beside dir R agree m (n.incur i) := (h.symm.incur_left ha hi).symm

theorem incurAll_right (h : Beside dir R agree m n) {incidents : List Incident}
    (hi : ∀ i ∈ incidents, i.flagging dir = true) : Beside dir R agree m (n.incurAll incidents) := by
  induction incidents generalizing n with
  | nil => exact h
  | cons i rest ih =>
    exact ih (h.incur_right ha (hi i List.mem_cons_self)) fun x hx => hi x (List.mem_cons_of_mem _ hx)

/-- Incidents that differ in such stores make no difference. -/
theorem incurAll_besides (h : Beside dir R agree m n) {incidents others : List Incident}
    (hs : Incident.SameBesides dir incidents others) :
    Beside dir R agree (m.incurAll incidents) (n.incurAll others) := by
  induction incidents generalizing m n others with
  | nil => exact h.incurAll_right ha (by simpa [Incident.SameBesides] using hs)
  | cons i rest ih =>
    by_cases hi : i.flagging dir = true
    · rw [Incident.SameBesides, List.filter_cons_of_neg (by simp [hi])] at hs
      exact ih (h.incur_left ha hi) hs
    · rw [Incident.SameBesides, List.filter_cons_of_pos (by simp [hi]), List.filter_eq_cons_iff] at hs
      obtain ⟨before, later, rfl, hbefore, -, hlater⟩ := hs
      have hstruck := (h.incurAll_right ha (by simpa using hbefore)).incur i
      rw [show n.incurAll (before ++ i :: later) = ((n.incurAll before).incur i).incurAll later from
        List.foldl_append]
      exact ih hstruck hlater

theorem notify (h : Beside dir R agree m n) (outcome : Outcome) :
    Beside dir R agree (m.notify outcome) (n.notify outcome) := by
  have hpayload : n.channel.payloadForTransfer = m.channel.payloadForTransfer := by
    rw [h.channel.frame]
    rfl
  obtain ⟨hreaction, hrest⟩ := Incident.SameBesides.heads h.listener
  have htold : Beside dir R agree (m.told outcome) (n.told outcome) := by
    unfold Machine.told
    rw [hpayload]
    exact { h.record _ with listener := hrest }
  rw [notify_eq, notify_eq]
  exact htold.incurAll_besides ha hreaction

end Incidents

/-- The count of locked pages is a part of the channel in which the two agree. -/
theorem recount (h : Beside dir R agree m n) (f : UInt64 → UInt64) :
    Beside dir R agree
      { m with channel := { m.channel with pagesLocked := f m.channel.pagesLocked } }
      { n with channel := { n.channel with pagesLocked := f n.channel.pagesLocked } } :=
  h.mapChannel (h.channel.follow rfl rfl ((congrArg (fun c : Channel =>
    { c with pagesLocked := f c.pagesLocked }) h.channel.frame).trans rfl))

theorem readLastId (h : Beside dir R agree m n) (d : Direction) :
    (n.readRegister d .lastId).1 = (m.readRegister d .lastId).1 ∧
      Beside dir R agree (m.readRegister d .lastId).2 (n.readRegister d .lastId).2 := by
  simp only [Machine.readRegister, Machine.readAt]
  rw [h.registers]
  exact ⟨rfl, h.record _⟩

variable [Platform σ] (hR : Platform.MatchesBesides dir R)
include hR

theorem lock (h : Beside dir R agree m n) (range : PageRun) (writable : Bool)
    (hw : agree → writable = dir.writesHost) : (n.lock range writable).1 = (m.lock range writable).1 ∧
      Beside dir R agree (m.lock range writable).2 (n.lock range writable).2 := by
  obtain ⟨hpages, hbesides, hsame, hnext⟩ := hR.lock _ _ range writable h.platform
  have hasked : Beside dir R agree (m.asked range writable) (n.asked range writable) := by
    unfold Machine.asked
    dsimp only
    rw [hpages]
    exact (h.mapPlatform hnext).record _
  refine ⟨hpages, ?_⟩
  rw [lock_eq, lock_eq]
  by_cases ha : agree
  · rw [hsame (hw ha)]
    exact hasked.incurAll _
  · exact hasked.incurAll_besides ha hbesides

theorem unlock (h : Beside dir R agree m n) (pages : List Page) (dirty : Bool) :
    Beside dir R agree (m.unlock pages dirty) (n.unlock pages dirty) :=
  (h.mapPlatform (hR.unlock _ _ pages dirty h.platform)).record _

theorem lockAlike {d : Direction} (hd : agree → d = dir) :
    LockAlike (Machine.Beside dir R agree) d where
  settings h := (congrArg Channel.settings h.channel.frame).trans rfl
  recount h := h.recount
  lock h range := h.lock hR range d.writesHost fun ha => congrArg Direction.writesHost (hd ha)
  unlock h := h.unlock hR

section Batches
variable {d : Direction} (hd : agree → d = dir)
include hd

theorem writeRegister (h : Beside dir R agree m n) (reg : Register) (value : UInt32) :
    Beside dir R agree (m.writeRegister d reg value) (n.writeRegister d reg value) := by
  obtain ⟨hbesides, hsame, hnext⟩ := hR.written _ _ (reg.address d) value h.platform
  have hwrote : Beside dir R agree (m.wrote (reg.address d) value) (n.wrote (reg.address d) value) := by
    have hlater := (h.mapPlatform hnext).record (.write (reg.address d) value)
    exact { hlater with registers := congrArg (·.write (reg.address d) value) h.registers }
  rw [Machine.writeRegister, Machine.writeRegister, writeAt_eq, writeAt_eq]
  by_cases ha : agree
  · rw [hsame ⟨reg, by rw [hd ha]⟩]
    exact hwrote.incurAll _
  · exact hwrote.incurAll_besides ha hbesides

theorem announce (h : Beside dir R agree m n) (ring : Ring) :
    Beside dir R agree (ring.announce m d) (ring.announce n d) := by
  have hhalves {m n : Machine σ} (h : Beside dir R agree m n) (low high : Register) (value : Nat) :
      Beside dir R agree (m.writeHalves d low high value) (n.writeHalves d low high value) :=
    (h.writeRegister hR hd low _).writeRegister hR hd high _
  exact (hhalves (hhalves h _ _ _) _ _ _).writeRegister hR hd _ _

omit hR [Platform σ] hd in
/-- Flags that were just zeroed agree. -/
theorem zeroFlags (h : Beside dir R agree m n) (d : Direction) :
    Beside dir R (agree ∨ d = dir) (m.mapTable d Table.zeroFlags) (n.mapTable d Table.zeroFlags) := by
  have hzeroed := h.mapTable d (f := Table.zeroFlags) fun hslots i _ => by rw [hslots.zeroFlags_eq]
  refine hzeroed.regrade ?_ fun hneither => hzeroed.channel.unissued fun ha => hneither (.inl ha)
  rintro (ha | rfl)
  · exact hzeroed.channel.tables.flags ha
  · simp only [Machine.mapTable, Channel.setTable, Channel.table, Sides.get_set_self]
    exact h.channel.tables.slots.zeroFlags_eq

/-- Behind a batch that announces its ring the flags of this ring agree, and behind the other batches if
they did before. -/
theorem publish (h : Beside dir R agree m n) (ring : Ring) (start : BatchPlace) (entries : List Entry)
    (hgo : d = dir → start.announce = true ∨ agree) :
    Beside dir R (agree ∨ d = dir) (ring.publish m d start entries).2
      (ring.publish n d start entries).2 := by
  have hd' : agree ∨ d = dir → d = dir := fun h => h.elim hd id
  have hrecorded := h.record (.issue d start entries)
  have hwrite {m n : Machine σ} (h : Beside dir R (agree ∨ d = dir) m n) :
      Beside dir R (agree ∨ d = dir) (m.mapTable d (·.writeAll entries))
        (n.mapTable d (·.writeAll entries)) :=
    h.mapTable d fun hslots => hslots.writeAll entries
  have hissue {m n : Machine σ} (h : Beside dir R (agree ∨ d = dir) m n) (last : Nat) :
      Beside dir R (agree ∨ d = dir) { m with channel := m.channel.setIssued d last }
        { n with channel := n.channel.setIssued d last } := by
    refine h.mapChannel ⟨(congrArg (·.setIssued d last) h.channel.frame).trans rfl, h.channel.tables, ?_⟩
    intro hneither
    have hne : dir ≠ d := fun heq => hneither (.inr heq.symm)
    exact (Sides.get_set_of_ne _ _ hne).trans (h.channel.unissued hneither)
  unfold Ring.publish Ring.stage
  cases ha : start.announce with
  | true =>
    exact (hissue ((hwrite (hrecorded.zeroFlags d)).announce hR hd' ring) _).writeRegister hR hd' _ _
  | false =>
    have hkept : Beside dir R (agree ∨ d = dir) (m.record (.issue d start entries))
        (n.record (.issue d start entries)) := by
      refine hrecorded.regrade ?_ fun hneither => hrecorded.channel.unissued fun ha => hneither (.inl ha)
      rintro (hagree | heq)
      · exact hrecorded.channel.tables.flags hagree
      · exact hrecorded.channel.tables.flags ((hgo heq).resolve_left (by simp [ha]))
    exact (hissue (hwrite hkept) _).writeRegister hR hd' _ _

end Batches
end Machine.Beside
end ScatterGather
