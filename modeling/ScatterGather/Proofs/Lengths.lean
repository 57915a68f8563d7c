import ScatterGather.Proofs.Hosts
import ScatterGather.Proofs.Images

/-! # What fits into the length of a descriptor

The control word has room for a length of less than `Entry.sizeLimit` bytes, and settings are valid
with pages of any size. A descriptor is read back from its slot as it was built, and with the length
of its piece, exactly if the piece is shorter than that; only then do the bytes that are counted as
described agree with the bytes that the controller will move.
-/
namespace ScatterGather

/-- Pieces from this length on do not fit into a control word. -/
def Entry.sizeLimit : Nat := (lengthMask.toNat + 1) * wordBytes

namespace Entry
variable {e : Entry} {dir : Direction} {host device len id : Nat}

/-- The length field cuts off what is too long, and nothing else is lost. -/
theorem ofWords_words_iff (hi : e.id.toNat ≤ lastSlot) :
    ofWords e.words = e ↔ e.length.toNat < 2 ^ 18 := by
  rw [ofWords_words_eq_iff, Fits]
  exact and_iff_left (Nat.lt_of_le_of_lt hi (by decide))

theorem moving_fits_iff (hlen : wordBytes ∣ len) (hid : (moving dir host device len id).id.toNat ≤ lastSlot) :
    ofWords (moving dir host device len id).words = moving dir host device len id ∧
      (moving dir host device len id).size = len ↔ len < sizeLimit := by
  have hlimit : sizeLimit = 2 ^ 18 * wordBytes := rfl
  have hword : wordBytes = 4 := rfl
  rw [ofWords_words_iff hid]
  constructor
  · rintro ⟨hfits, hsize⟩
    rw [size, hword] at hsize
    omega
  · intro hlt
    have hsize : (moving dir host device len id).size = len := size_moving hlen (by omega)
    refine ⟨?_, hsize⟩
    rw [size, hword] at hsize
    omega

end Entry

namespace Window
variable {w : Window} {dir : Direction} {device id offset : Nat} {lens : List Nat}
  {entries : List Entry}

/-- Each descriptor is made of the piece in its place. -/
theorem describe_moving (h : w.describe dir device lens id offset = .ok entries) {i : Nat} {e : Entry}
    (he : entries[i]? = some e) :
    ∃ len bus at_, lens[i]? = some len ∧ e = .moving dir bus at_ len (id + i) := by
  induction lens generalizing id offset entries i with
  | nil =>
    simp only [describe, Except.ok.injEq] at h
    simp [← h] at he
  | cons len lens ih =>
    obtain ⟨bus, rest, -, hrest, rfl⟩ := describe_cons h
    cases i with
    | zero =>
      simp only [List.getElem?_cons_zero, Option.some.injEq] at he
      exact ⟨len, bus, device + offset, rfl, he.symm⟩
    | succ i =>
      obtain ⟨n, bus', at_, hn, hentry⟩ := ih hrest he
      exact ⟨n, bus', at_, hn, by rw [hentry, Nat.add_assoc id, Nat.add_comm 1]⟩

end Window

section Steps
variable {σ : Type} {s x y : Station σ} {k : Errand} {p : Progress} {start : BatchPlace} {w : Window}
  {entries : List Entry} {lens : List Nat} {dir : Direction}

/-- Tables that differ by a batch in the history differ by that batch in the slots. -/
theorem Machine.Imaged.entry_issued (hx : x.machine.Imaged) (hy : y.machine.Imaged)
    (hh : handed dir y.machine.history = handed dir x.machine.history ++ entries) {slot : Nat}
    (hs : slot < slotCount) :
    (y.machine.channel.table dir).entry slot =
      ((x.machine.channel.table dir).writeAll entries).entry slot := by
  rw [Table.entry, Table.entry, hy.slots dir slot hs, hh, leftIn_append, slotWords_writeAll _ _ hs,
    hx.slots dir slot hs]

/-- What was described between `x` and `y`, by descriptors of these pieces. -/
structure Station.Describes (x : Station σ) (p : Progress) (w : Window) (lens : List Nat)
    (entries : List Entry) (y : Station σ) : Prop where
  length : entries.length = lens.length
  pieces : ∀ n ∈ lens, n ≤ x.settings.pageSize
  /-- A slot yields its descriptor, with the length of its piece, if the piece fits, and only then. -/
  slots : ∀ (i : Nat) (e : Entry) (n : Nat), entries[i]? = some e → lens[i]? = some n →
    ((y.machine.channel.table p.request.direction).entry e.id.toNat = e ∧ e.size = n ↔
      n < Entry.sizeLimit)
  transfer : y.worker.transfer = some (p.past entries)
  /-- If all pieces fit, then they are what was counted. -/
  counted : (∀ n ∈ lens, n < Entry.sizeLimit) → (p.past entries).sent = p.sent + lens.sum ∧
    y.worker.pipeline.active = some { w with cursor := w.cursor + lens.sum }

variable [Platform σ]

theorem handed_history (hb : s.machine.channel.posture.Busy) (p : Progress) (start : BatchPlace)
    (entries : List Entry) :
    handed p.request.direction (s.handed p start entries).machine.history =
      handed p.request.direction s.machine.history ++ entries := by
  obtain ⟨newer, hh, hincidental⟩ := (s.issue p start entries).machine.incurAll_incidental
    (Platform.written (s.worker.ring.stage s.machine p.request.direction start entries).2.platform
      (Register.address p.request.direction .lastId)
      (UInt32.ofNat (Ring.lastIdOf start entries))).1
  have hissue : ∀ e ∈ newer, ∀ d b l, e ≠ .issue d b l := by
    rintro e he d b l rfl
    exact hincidental _ he
  calc
    handed p.request.direction (s.handed p start entries).machine.history =
        handed p.request.direction (newer ++ (s.issue p start entries).machine.history) := by
      rw [Station.handed_eq, Station.strikeAll_eq, ← hh]
    _ = handed p.request.direction (s.issue p start entries).machine.history := handed_append hissue
    _ = handed p.request.direction s.machine.history ++ entries := by
      rw [handed_issue hb, if_pos rfl]

variable {A : Incident → Prop} {H : Act → Worker → Prop} {u v : Juncture × Station σ} {older : List Event}

/-- Of all steps only those that hand over a batch leave it in the history. -/
theorem Step.issued (hstep : Step A H u v) (hc : Control u.2.view u.1) (hu : u.2.machine.history <:+ older)
    (hv : .issue dir start entries :: older <:+ v.2.machine.history) :
    ∃ k p w, u.1 = .supplied k p start w ∧ u.2.machine.history = older ∧ p.request.direction = dir ∧
      w.carve u.2.settings dir (p.request.device + p.sent) start = .ok entries := by
  have hnone {l : List Event} (hh : v.2.machine.history = l ++ u.2.machine.history)
      (he : ∀ d b batch, .issue d b batch ∉ l) : False := by
    obtain ⟨newer, between, rfl, -⟩ := suffix_within (hh ▸ hv) hu
    exact he dir start entries (by simp)
  have hdrops {t : Station σ} {newest : List Event} (hd : u.2.Drops newest t) (ht : v.2 = t)
      (hn : ∀ d b batch, .issue d b batch ∉ newest) : False := by
    obtain ⟨events, hh, he⟩ := hd.history
    rw [← List.append_assoc, ← ht] at hh
    refine hnone hh fun d b batch hmem => ?_
    exact (List.mem_append.mp hmem).elim (hn d b batch) fun hmem => he _ hmem
  cases hstep.deed with
  | tend htends =>
    obtain ⟨events, hh, he⟩ := htends.history
    exact (hnone hh fun d b batch hmem => he _ hmem).elim
  | @strike j s i =>
    obtain ⟨events, hh, he⟩ := s.machine.incur_incidental i
    exact (hnone hh fun d b batch hmem => he _ hmem).elim
  | interrupt | setPayload | close => exact (hnone (l := []) rfl (by simp)).elim
  | @halt s a ha => exact (hdrops (s.halt_drops ha) rfl (by simp)).elim
  | begin => exact (hnone (l := [_]) rfl (by simp)).elim
  | @complete k p s => exact (hdrops (s.tell_drops _ _) rfl (by simp)).elim
  | @fail k cause s => exact (hdrops (s.tell_drops _ _) rfl (by simp)).elim
  | @issue k p s place w batch hcarve =>
    obtain ⟨events, hsilent, hh⟩ := Station.issue_history hc.1.busy p place batch
    rw [List.append_cons, ← List.cons_append] at hh
    obtain ⟨newer, between, heq, rfl⟩ := suffix_within (hh ▸ hv) hu
    rw [← List.cons_append] at heq
    -- the batch is the oldest of the events that the step adds
    rcases List.eq_nil_or_concat between with rfl | ⟨before, e, rfl⟩
    · obtain ⟨-, hsame⟩ := List.append_inj' heq rfl
      simp only [List.cons.injEq, Event.issue.injEq, and_true] at hsame
      obtain ⟨rfl, rfl, rfl⟩ := hsame
      exact ⟨k, p, w, rfl, rfl, rfl, hcarve⟩
    · rw [List.concat_eq_append, List.append_cons newer, ← List.append_assoc] at heq
      have hmem : .issue dir start entries ∈ Event.write (Register.address p.request.direction .lastId)
          (UInt32.ofNat (Ring.lastIdOf place batch)) :: events := by
        rw [(List.append_inj' heq rfl).1]
        simp
      simp only [List.mem_cons, reduceCtorEq, false_or] at hmem
      exact (hsilent _ hmem).elim

/-- The window that is supplied is the active one. -/
def Supplied (z : Juncture × Station σ) : Prop :=
  ∀ k p start w, z.1 = .supplied k p start w → z.2.worker.pipeline.active = some w

theorem Supplied.step (hstep : Step A H u v) (h : Supplied u) : Supplied v := by
  intro k p start w hv
  cases hstep with
  | strike hj =>
    cases hv
    exact hj.elim
  | keep _ _ hw =>
    cases hv
    exact hw
  | promote | pinned =>
    cases hv
    rfl
  | _ => cases hv

/-- The device is handed what the pieces of the window say. -/
theorem Station.handed_describes (hs : s.settings.Valid) (himaged : s.machine.Imaged)
    (himaged' : (s.handed p start entries).machine.Imaged)
    (hc : Control s.view (.supplied k p start w)) (hw : s.worker.pipeline.active = some w)
    (hcarve : w.carve s.settings p.request.direction (p.request.device + p.sent) start = .ok entries) :
    ∃ lens, w.pieces s.settings start.capacity = .ok lens ∧
      s.Describes p w lens entries (s.handed p start entries) := by
  have hid := Ring.start?_le hc.2
  have hslot : slotCount = lastSlot + 1 := rfl
  obtain ⟨lens, hlens, hentries⟩ := Window.carve_ok hcarve
  obtain ⟨hnumbered, hfit⟩ := Window.carve_numbered hs hid hcarve
  obtain ⟨hne, -, hsum, hbounds⟩ := Window.pieces_bounds hs (BatchPlace.capacity_ne_zero hid) hlens
  have hhistory := handed_history hc.1.busy p start entries
  refine ⟨lens, hlens, ?_⟩
  constructor
  case length => exact Window.describe_length hentries
  case pieces => exact fun n hn => (hbounds n hn).2.2
  case transfer => rfl
  case slots =>
    intro i e n he hn
    have hlt : i < entries.length := (List.getElem?_eq_some_iff.mp he).1
    have hnumber := hnumbered i e he
    rw [himaged.entry_issued himaged' hhistory (by omega), hnumber,
      Table.entry_writeAll _ hnumbered hfit he]
    obtain ⟨n', bus, at_, hn', rfl⟩ := Window.describe_moving hentries he
    obtain rfl : n = n' := Option.some.inj (hn.symm.trans hn')
    exact Entry.moving_fits_iff (hbounds n (List.mem_of_getElem? hn)).1 (by omega)
  case counted =>
    intro hfits
    have hlimit : Entry.sizeLimit = 2 ^ 20 := rfl
    have hsizes : entries.map Entry.size = lens := by
      apply Window.describe_size hentries
      intro n hn
      exact ⟨(hbounds n hn).1, Nat.lt_of_lt_of_le (hfits n hn) (by decide)⟩
    have htotal : Entry.total entries = lens.sum := by rw [Entry.total_eq, hsizes]
    refine ⟨congrArg (p.sent + ·) htotal, ?_⟩
    have hpos : 0 < lens.sum := by
      cases lens with
      | nil => exact absurd rfl hne
      | cons n lens =>
        rw [List.sum_cons]
        exact Nat.lt_of_lt_of_le (hbounds n List.mem_cons_self).2.1 (Nat.le_add_right _ _)
    calc
      (s.handed p start entries).worker.pipeline.active =
          s.worker.pipeline.active.map (·.consume (Entry.total entries)) := rfl
      _ = some { w with cursor := w.cursor + lens.sum } := by
        rw [hw, htotal, Option.map_some, Window.consume, Nat.min_eq_left]
        rw [Window.left] at hsum
        omega

/-- In every run of a worker, with pages of any size, each batch of the history was made of pieces of
a window, and right after it was handed over each of its descriptors is read back from its slot as
it was built and with the length of its piece if and only if the piece is shorter than
`Entry.sizeLimit`. With pages below that limit all pieces are, and then they are also what the
transfer and the window count. -/
theorem run_describes (settings : Settings) (hs : settings.Valid) (tableBus : Sides Nat)
    (registers : RegisterFile) (platform : σ) (listener : List (List Incident)) (acts : List Act)
    (hp : Platform.Within σ Incident.InFlags) (hl : ∀ reaction ∈ listener, ∀ i ∈ reaction, i.InFlags)
    (ha : ∀ a ∈ acts, a.Within Incident.InFlags) :
    let s := Station.initial settings tableBus registers platform listener
    ∀ dir start entries older, .issue dir start entries :: older <:+ (s.run acts).machine.history →
      ∃ k p w lens x, Midway Incident.InFlags (fun _ _ => True) s (s.run acts) (.supplied k p start w, x) ∧
        x.machine.history = older ∧ x.settings = settings ∧ p.request.direction = dir ∧
        w.carve settings dir (p.request.device + p.sent) start = .ok entries ∧
        w.pieces settings start.capacity = .ok lens ∧
        x.Describes p w lens entries (x.handed p start entries) := by
  intro s dir start entries older hissue
  have hcontrol : Control s.view .rest := Control.initial ..
  have hrun : Path Incident.InFlags (fun _ _ => True) (.rest, s) (.rest, s.run acts) := by
    simpa using Path.run (s := s) hp hl ha (s.haltsOnly_true acts)
  obtain ⟨⟨j, x⟩, v, hx, hstep, hv, holder, hnow⟩ := Path.crossing hrun hissue List.nil_suffix
  obtain ⟨hc, hsettings⟩ := Path.control (x := (.rest, s)) hs hcontrol hx
  have hsupplied : Supplied (j, x) :=
    Path.keep (x := (.rest, s)) hs hcontrol (fun _ _ _ _ hstep h => h.step hstep) nofun hx
  obtain ⟨k, p, w, rfl, rfl, rfl, hcarve⟩ := hstep.issued hc holder hnow
  have himaged := Machine.Imaged.initial settings tableBus registers platform listener
  have hbefore : x.machine.Imaged := Path.imaged hp (fun _ h => h) himaged hx
  have hafter : (x.handed p start entries).machine.Imaged :=
    Path.imaged hp (fun _ h => h) himaged (hx.trans (Path.handed hp hcarve))
  have hset : x.settings = settings := hsettings
  obtain ⟨lens, hlens, hdescribes⟩ := Station.handed_describes (hset ▸ hs) hbefore hafter hc
    (hsupplied k p start w rfl) hcarve
  exact ⟨k, p, w, lens, x, ⟨hx, .head hstep hv⟩, rfl, hset, rfl, hset ▸ hcarve, hset ▸ hlens, hdescribes⟩

end Steps

/-- A transfer that begins inside a page and goes on with whole ones. -/
theorem run_describes_tally :
    let acts : List Act := [
      .strike (.submit { direction := .hostToDevice, host := 0x2ffc, device := 0, len := 0x2004 }), .serve,
      .strike (.complete .hostToDevice), .interrupt 0, .serve]
    let s := Station.initial {} (.both 0) .reset ({} : Bench.PageTally) []
    ∀ dir start entries older, .issue dir start entries :: older <:+ (s.run acts).machine.history →
      ∃ k p w lens x, Midway Incident.InFlags (fun _ _ => True) s (s.run acts) (.supplied k p start w, x) ∧
        x.machine.history = older ∧ x.settings = {} ∧ p.request.direction = dir ∧
        w.carve {} dir (p.request.device + p.sent) start = .ok entries ∧
        w.pieces {} start.capacity = .ok lens ∧
        x.Describes p w lens entries (x.handed p start entries) :=
  run_describes {} (by decide) (.both 0) .reset ({} : Bench.PageTally) [] _ (Bench.PageTally.within _)
    (by simp) (by simp [Act.Within, Incident.InFlags])

/-- A page of `Entry.sizeLimit` bytes is counted as described, and its descriptor has no length left. -/
theorem oversized_page_lost :
    let settings : Settings := { pageSize := Entry.sizeLimit, windowPages := 1 }
    let request : Request :=
      { direction := .hostToDevice, host := Entry.sizeLimit, device := 0, len := Entry.sizeLimit }
    let s := Station.initial settings (.both 0) .reset ({} : Bench.PageTally) []
    let t := s.run [.strike (.submit request), .serve]
    settings.Valid ∧ (handed .hostToDevice t.machine.history).map Entry.size = [Entry.sizeLimit] ∧
      t.worker.sent = Entry.sizeLimit ∧ ((t.machine.channel.table .hostToDevice).entry 0).size = 0 := by
  intro settings request s t
  have himaged : t.machine.Imaged :=
    Path.imaged (A := Incident.InFlags) (Bench.PageTally.within _) (fun _ h => h)
      (Machine.Imaged.initial settings (.both 0) .reset ({} : Bench.PageTally) [])
      (Path.run (Bench.PageTally.within _) nofun (by simp [Act.Within, Incident.InFlags])
        (s.haltsOnly_true _))
  refine ⟨by decide, by decide +kernel, by decide +kernel, ?_⟩
  rw [Table.entry, himaged.slots .hostToDevice 0 (by decide)]
  decide +kernel
end ScatterGather
