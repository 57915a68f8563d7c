import ScatterGather.Proofs.Moments
import ScatterGather.Proofs.Tables

/-! # The tables as the history tells them

Flags are set by the device and zeroed with a new lap of the ring, and slots are filled with the
descriptors that are handed over. So the history of a machine tells what its tables hold.
-/
namespace ScatterGather

/-- The flag of an id. -/
def flagOf (dir : Direction) (id : Nat) : List Event → UInt32
  | [] => 0
  | .complete d i :: older => if d = dir ∧ i = id then 1 else flagOf dir id older
  | .flag d i value :: older => if d = dir ∧ i = id then value else flagOf dir id older
  | .issue d start _ :: older => if d = dir ∧ start.announce then 0 else flagOf dir id older
  | _ :: older => flagOf dir id older

/-- All descriptors that were handed over for one direction, the first one first. -/
def handed (dir : Direction) : List Event → List Entry
  | [] => []
  | .issue d _ entries :: older => if d = dir then handed dir older ++ entries else handed dir older
  | _ :: older => handed dir older

/-- The words of the latest of the descriptors whose id is that of the slot. -/
def leftIn (slot : Nat) (words : Vector UInt32 wordsPerEntry) (entries : List Entry) :
    Vector UInt32 wordsPerEntry :=
  entries.foldl (fun words e => if e.id.toNat = slot then e.words else words) words

theorem leftIn_append (slot : Nat) (words : Vector UInt32 wordsPerEntry) (entries rest : List Entry) :
    leftIn slot words (entries ++ rest) = leftIn slot (leftIn slot words entries) rest :=
  List.foldl_append

/-- Flags are stored in the words of flags only. -/
def Incident.InFlags : Incident → Prop
  | flag _ id _ => id < slotCount
  | _ => True

theorem Incident.Honest.inFlags {i : Incident} (h : i.Honest) : i.InFlags := by
  cases i with
  | flag => exact h.elim
  | _ => trivial

/-- The flags of a table are those of the history, and its slots hold the latest descriptors. -/
structure Machine.Imaged {σ : Type} (m : Machine σ) : Prop where
  flags : ∀ dir id, id < slotCount → (m.channel.table dir).flag? id = some (flagOf dir id m.history)
  slots : ∀ dir slot, slot < slotCount → (m.channel.table dir).slotWords slot =
    leftIn slot (Vector.replicate wordsPerEntry 0) (handed dir m.history)

/-- Events at which no table changes. -/
def Event.KeepsTables : Event → Prop
  | issue .. | complete .. | flag .. => False
  | _ => True

theorem Event.MovesPages.keepsTables {e : Event} (h : e.MovesPages) : e.KeepsTables := by
  cases e with
  | lock | unlock => trivial
  | _ => exact h.elim

theorem slotWords_writeAll (t : Table) (entries : List Entry) {slot : Nat} (hs : slot < slotCount) :
    (t.writeAll entries).slotWords slot = leftIn slot (t.slotWords slot) entries := by
  induction entries generalizing t with
  | nil => rfl
  | cons e entries ih =>
    rw [Table.writeAll_cons, ih, leftIn, leftIn, List.foldl_cons]
    by_cases he : e.id.toNat = slot
    · rw [if_pos he, he, Table.slotWords_write_self _ _ hs]
    · rw [if_neg he, Table.slotWords_write_of_ne _ _ he]

section Histories
variable {dir : Direction} {l history : List Event}

theorem flagOf_append (he : ∀ e ∈ l, e.KeepsTables) (id : Nat) :
    flagOf dir id (l ++ history) = flagOf dir id history := by
  refine unchanged_append (fun e older hfirst => ?_) he history
  cases e with
  | issue | complete | flag => exact hfirst.elim
  | _ => rfl

theorem handed_append (he : ∀ e ∈ l, ∀ d start entries, e ≠ .issue d start entries) :
    handed dir (l ++ history) = handed dir history := by
  refine unchanged_append (fun e older hfirst => ?_) he history
  cases e with
  | issue d start entries => exact absurd rfl (hfirst d start entries)
  | _ => rfl

end Histories

namespace Machine.Imaged
variable {σ : Type} {m m' : Machine σ} {l : List Event}

theorem frame (h : m.Imaged) (ht : m'.channel.tables = m.channel.tables)
    (hh : m'.history = l ++ m.history) (he : ∀ e ∈ l, e.KeepsTables) : m'.Imaged where
  flags dir id hid := by
    rw [Channel.table, ht, hh, flagOf_append he]
    exact h.flags dir id hid
  slots dir slot hs := by
    have hissue : ∀ e ∈ l, ∀ d start entries, e ≠ .issue d start entries := by
      rintro e hmem d start entries rfl
      exact he _ hmem
    rw [Channel.table, ht, hh, handed_append hissue]
    exact h.slots dir slot hs

theorem putFlag (h : m.Imaged) (dir : Direction) {id : Nat} (hid : id < slotCount) (value : UInt32)
    {e : Event} (hflag : ∀ d i, flagOf d i (e :: m.history) =
      if dir = d ∧ id = i then value else flagOf d i m.history)
    (hhanded : ∀ d, handed d (e :: m.history) = handed d m.history) :
    ((m.mapTable dir (·.putFlag id value)).record e).Imaged where
  flags d i hi := by
    have hslot : Table.HasFlag id := Nat.lt_of_lt_of_le hid (by decide)
    rw [show ((m.mapTable dir (·.putFlag id value)).record e).history = e :: m.history from rfl, hflag]
    simp only [record, mapTable, Channel.setTable, Channel.table]
    by_cases hd : d = dir
    · subst hd
      rw [Sides.get_set_self]
      by_cases hii : id = i
      · subst hii
        rw [if_pos ⟨rfl, rfl⟩, Table.flag?_putFlag_self _ hslot]
      · rw [if_neg fun hc => hii hc.2, Table.flag?_putFlag_of_ne _ hii]
        exact h.flags d i hi
    · rw [if_neg fun hc => hd hc.1.symm, Sides.get_set_of_ne _ _ hd]
      exact h.flags d i hi
  slots d slot hs := by
    rw [show ((m.mapTable dir (·.putFlag id value)).record e).history = e :: m.history from rfl,
      hhanded]
    simp only [record, mapTable, Channel.setTable, Channel.table]
    by_cases hd : d = dir
    · subst hd
      rw [Sides.get_set_self, Table.slotWords_putFlag _ hid]
      exact h.slots d slot hs
    · rw [Sides.get_set_of_ne _ _ hd]
      exact h.slots d slot hs

theorem incur (h : m.Imaged) {i : Incident} (hi : i.InFlags) : (m.incur i).Imaged := by
  cases i with
  | complete dir =>
    simp only [Machine.incur]
    split
    · next hid =>
      have hslot : m.registers.lastId dir < slotCount := Nat.lt_of_le_of_lt hid (by decide)
      exact h.putFlag dir hslot 1 (fun _ _ => rfl) fun _ => rfl
    · exact h
  | flag dir id value => exact h.putFlag dir hi value (fun _ _ => rfl) fun _ => rfl
  | interrupt status =>
    have hone : ∀ e ∈ [Event.interrupt status (m.channel.interrupt status).1], e.KeepsTables := by
      simp [Event.KeepsTables]
    obtain ⟨work, advanceOpen, waker, he⟩ := m.channel.interrupt_frame status
    exact h.frame (by rw [Machine.incur, he]; rfl) rfl hone
  | submit r =>
    have hone : ∀ e ∈ [Event.submit r (m.channel.submit r).1], e.KeepsTables := by
      simp [Event.KeepsTables]
    obtain ⟨work, idle, direction, waker, he⟩ := m.channel.submit_frame r
    exact h.frame (by rw [Machine.incur, he]; rfl) rfl hone

theorem incurAll (h : m.Imaged) {incidents : List Incident} (hi : ∀ i ∈ incidents, i.InFlags) :
    (m.incurAll incidents).Imaged := by
  induction incidents generalizing m with
  | nil => exact h
  | cons i rest ih =>
    exact ih (h.incur (hi i List.mem_cons_self)) fun x hx => hi x (List.mem_cons_of_mem _ hx)

/-- A batch fills its slots, and zeroes all flags if it begins a lap. -/
theorem filled (h : m.Imaged) (dir : Direction) (start : BatchPlace) (entries : List Entry) :
    ((m.record (.issue dir start entries)).mapTable dir (·.staged start entries)).Imaged where
  flags d id hid := by
    simp only [record, mapTable, Channel.setTable, Channel.table, flagOf]
    by_cases hd : d = dir
    · subst hd
      rw [Sides.get_set_self, Table.staged, Table.flag?_writeAll _ _ hid]
      by_cases ha : start.announce = true
      · rw [if_pos ha, if_pos ⟨rfl, ha⟩, Table.flag?_zeroFlags _ hid]
      · rw [if_neg ha, if_neg fun hc => ha hc.2]
        exact h.flags d id hid
    · rw [if_neg fun hc => hd hc.1.symm, Sides.get_set_of_ne _ _ hd]
      exact h.flags d id hid
  slots d slot hs := by
    simp only [record, mapTable, Channel.setTable, Channel.table, handed]
    by_cases hd : d = dir
    · subst hd
      rw [Sides.get_set_self, if_pos rfl, leftIn_append, Table.staged, slotWords_writeAll _ _ hs]
      congr 1
      by_cases ha : start.announce = true
      · rw [if_pos ha, Table.slotWords_zeroFlags]
        exact h.slots d slot hs
      · rw [if_neg ha]
        exact h.slots d slot hs
    · rw [if_neg (Ne.symm hd), Sides.get_set_of_ne _ _ hd]
      exact h.slots d slot hs

variable [Platform σ] (hp : Platform.Within σ Incident.InFlags)

include hp in
theorem writeRegister (h : m.Imaged) (dir : Direction) (r : Register) (value : UInt32) :
    (m.writeRegister dir r value).Imaged := by
  have hwrote : (m.wrote (r.address dir) value).Imaged :=
    h.frame (l := [_]) rfl rfl (by simp [Event.KeepsTables])
  exact hwrote.incurAll (hp.written _ _ _)

include hp in
theorem stage (h : m.Imaged) (ring : Ring) (dir : Direction) (start : BatchPlace)
    (entries : List Entry) : (ring.stage m dir start entries).2.Imaged := by
  have hfilled := h.filled dir start entries
  have hwrite {m : Machine σ} (h : m.Imaged) (r : Register) (value : UInt32) :
      (m.writeRegister dir r value).Imaged := h.writeRegister hp dir r value
  have hissued {m : Machine σ} (h : m.Imaged) (last : Nat) :
      ({ m with channel := m.channel.setIssued dir last } : Machine σ).Imaged :=
    ⟨h.flags, h.slots⟩
  unfold Ring.stage
  unfold Table.staged at hfilled
  cases ha : start.announce with
  | false =>
    rw [ha] at hfilled
    exact hissued hfilled _
  | true =>
    rw [ha] at hfilled
    apply hissued
    have hzeroed : (((m.record (.issue dir start entries)).mapTable dir Table.zeroFlags).mapTable dir
        (·.writeAll entries)).Imaged := by
      simpa [mapTable, Channel.setTable, Channel.table] using hfilled
    exact hwrite (hwrite (hwrite (hwrite (hwrite hzeroed _ _) _ _) _ _) _ _) _ _

end Machine.Imaged

section Steps
variable {σ : Type} [Platform σ] {A : Incident → Prop} {H : Act → Worker → Prop}
  {x y : Juncture × Station σ}

/-- The batch is in the history, and none behind it. -/
theorem Station.issue_latest {s : Station σ} (hb : s.machine.channel.posture.Busy) (p : Progress)
    (start : BatchPlace) (entries : List Entry) : ∃ newest,
      (s.issue p start entries).machine.history =
        newest ++ .issue p.request.direction start entries :: s.machine.history ∧
      ∀ e ∈ newest, ∀ d place batch, e ≠ .issue d place batch := by
  obtain ⟨events, hsilent, hh⟩ := s.issue_history hb p start entries
  refine ⟨_ :: events, hh, ?_⟩
  rintro e hmem d place batch rfl
  rcases List.mem_cons.mp hmem with heq | hmem
  · cases heq
  · exact hsilent _ hmem

theorem handed_issue {s : Station σ} (hb : s.machine.channel.posture.Busy) (p : Progress)
    (start : BatchPlace) (entries : List Entry) (dir : Direction) :
    handed dir (s.issue p start entries).machine.history =
      if p.request.direction = dir then handed dir s.machine.history ++ entries
      else handed dir s.machine.history := by
  obtain ⟨newest, hh, hlater⟩ := s.issue_latest hb p start entries
  rw [hh, handed_append hlater, handed]

theorem Machine.Imaged.step (hp : Platform.Within σ Incident.InFlags) (hA : ∀ i, A i → i.InFlags)
    (hstep : Step A H x y) (h : x.2.machine.Imaged) : y.2.machine.Imaged := by
  have hdrops {s t : Station σ} {newest : List Event} (h : s.machine.Imaged) (hd : s.Drops newest t)
      (hn : ∀ e ∈ newest, e.KeepsTables) : t.machine.Imaged := by
    obtain ⟨events, hh, he⟩ := hd.added hn fun _ => Event.MovesPages.keepsTables
    exact h.frame hd.tables hh he
  cases hstep.deed with
  | tend htends =>
    obtain ⟨events, hh, he⟩ := htends.history
    exact h.frame htends.tables hh fun e hmem => (he e hmem).keepsTables
  | strike _ hi => exact h.incur (hA _ hi)
  | @interrupt s status =>
    obtain ⟨work, advanceOpen, waker, he⟩ := s.machine.channel.interrupt_frame status
    exact h.frame (l := []) (by rw [Station.mapChannel, he]) rfl (by simp)
  | setPayload => exact ⟨h.flags, h.slots⟩
  | @halt s a ha => exact hdrops h (s.halt_drops ha) (by simp)
  | begin => exact h.frame (l := [_]) rfl rfl (by simp [Event.KeepsTables])
  | @complete k p s => exact hdrops h (s.tell_drops _ _) (by simp [Event.KeepsTables])
  | @fail k cause s => exact hdrops h (s.tell_drops _ _) (by simp [Event.KeepsTables])
  | @issue k p s start w entries =>
    have hstaged := h.stage hp s.worker.ring p.request.direction start entries
    exact hstaged.frame (l := [_]) rfl rfl (by simp [Event.KeepsTables])
  | @close s =>
    obtain ⟨work, advanceOpen, he⟩ := s.machine.channel.closeAdvance_frame
    exact h.frame (l := []) (by rw [Station.mapChannel, he]) rfl (by simp)

theorem Path.imaged (hp : Platform.Within σ Incident.InFlags) (hA : ∀ i, A i → i.InFlags)
    (h : x.2.machine.Imaged) (hpath : Path A H x y) : y.2.machine.Imaged := by
  induction hpath with
  | refl => exact h
  | tail _ hstep ih => exact ih.step hp hA hstep

omit [Platform σ] in
theorem Machine.Imaged.initial (settings : Settings) (tableBus : Sides Nat) (registers : RegisterFile)
    (platform : σ) (listener : List (List Incident)) :
    (Station.initial settings tableBus registers platform listener).machine.Imaged where
  flags dir id hid := by
    have hflag : Table.HasFlag id := Nat.lt_of_lt_of_le hid (by decide)
    cases dir <;> exact Table.flag?_blank hflag
  slots dir slot _ := by cases dir <;> exact Table.slotWords_blank slot

end Steps
end ScatterGather
