import ScatterGather.Proofs.Hosts
import ScatterGather.Proofs.Images

/-! # Laps of the ring

Ids are given out round and round for as long as the controller lives, over transfers, failures and
stops, because the controller's register keeps the last id and a transfer goes on from there. The
register writes are those of the batches, one batch after the other.
-/
namespace ScatterGather

/-- All register writes, the latest first. -/
def writesOf : List Event → List (Nat × UInt32)
  | [] => []
  | .write offset value :: older => (offset, value) :: writesOf older
  | _ :: older => writesOf older

/-- The register writes that announce the ring to the controller, the first one first. -/
def announcement (tableBus : Sides Nat) (dir : Direction) : List (Nat × UInt32) :=
  [(Register.address dir .tableLow, lowWord (tableBus.get dir)),
    (Register.address dir .tableHigh, highWord (tableBus.get dir)),
    (Register.address dir .fifoLow, lowWord (fifoBase dir)),
    (Register.address dir .fifoHigh, highWord (fifoBase dir)),
    (Register.address dir .tableSize, UInt32.ofNat lastSlot)]

/-- The register writes of a batch, the first one first. -/
def programme (tableBus : Sides Nat) (dir : Direction) (start : BatchPlace) (entries : List Entry) :
    List (Nat × UInt32) :=
  (if start.announce then announcement tableBus dir else []) ++
    [(Register.address dir .lastId, UInt32.ofNat (Ring.lastIdOf start entries))]

/-- The register writes of all batches, the latest first. -/
def programmes (tableBus : Sides Nat) : List Event → List (Nat × UInt32)
  | [] => []
  | .issue dir start entries :: older =>
    (programme tableBus dir start entries).reverse ++ programmes tableBus older
  | _ :: older => programmes tableBus older

/-- A batch takes the ids that are next, and stays within a lap. -/
structure InTurn (tableBus : Sides Nat) (older : List Event) (dir : Direction) (start : BatchPlace)
    (entries : List Entry) : Prop where
  nonempty : entries ≠ []
  id : start.id = (handed dir older).length % slotCount
  announce : start.announce = true ↔ start.id = 0
  fits : start.id + entries.length ≤ slotCount
  numbered : Table.Numbered start.id entries
  /-- Until then exactly the registers of the earlier batches were written. -/
  written : writesOf older = programmes tableBus older

def InLaps (tableBus : Sides Nat) : List Event → Prop := Throughout fun
  | .issue dir start entries :: older => InTurn tableBus older dir start entries
  | _ => True

/-- The last id of a ring on which so many descriptors were handed over. -/
def lastAfter (count : Nat) : Nat := if count = 0 then noId else (count - 1) % slotCount

/-- Events that no ring has a part in. -/
def Event.KeepsRings : Event → Prop
  | issue .. | write .. => False
  | _ => True

theorem Event.MovesPages.keepsRings {e : Event} (h : e.MovesPages) : e.KeepsRings := by
  cases e with
  | lock | unlock => trivial
  | _ => exact h.elim

theorem Event.Incidental.keepsRings {e : Event} (h : e.Incidental) : e.KeepsRings := by
  cases e with
  | complete | flag | interrupt | submit => trivial
  | _ => exact h.elim

section Histories
variable {tableBus : Sides Nat} {dir : Direction} {l history : List Event}

theorem writesOf_append (he : ∀ e ∈ l, e.KeepsRings) : writesOf (l ++ history) = writesOf history := by
  refine unchanged_append (fun e older hfirst => ?_) he history
  cases e with
  | issue | write => exact hfirst.elim
  | _ => rfl

theorem programmes_append (he : ∀ e ∈ l, ∀ d start entries, e ≠ .issue d start entries) :
    programmes tableBus (l ++ history) = programmes tableBus history := by
  refine unchanged_append (fun e older hfirst => ?_) he history
  cases e with
  | issue d start entries => exact absurd rfl (hfirst d start entries)
  | _ => rfl

theorem InLaps.append (he : ∀ e ∈ l, ∀ d start entries, e ≠ .issue d start entries)
    (h : InLaps tableBus history) : InLaps tableBus (l ++ history) := by
  apply Throughout.append _ h
  intro e hmem older _
  have hfirst := he e hmem
  cases e with
  | issue d start entries => exact absurd rfl (hfirst d start entries)
  | _ => trivial

/-- The ids of all descriptors of a direction, in the order in which they were handed over, run
through the slots again and again. -/
theorem InLaps.ids (h : InLaps tableBus history) (dir : Direction) :
    (handed dir history).map (fun e => e.id.toNat) =
      (List.range (handed dir history).length).map (· % slotCount) := by
  induction history with
  | nil => rfl
  | cons e history ih =>
    have hrest := ih (Throughout.older [e] h)
    cases e with
    | issue d start entries =>
      have hturn : InTurn tableBus history d start entries := h.now
      rw [handed]
      split
      · next hd =>
        subst hd
        rw [List.map_append, hrest, List.length_append, List.range_add, List.map_append, List.map_map]
        congr 1
        apply List.ext_getElem?
        intro i
        rw [List.getElem?_map, List.getElem?_map]
        by_cases hi : i < entries.length
        · have hnumber := hturn.numbered i entries[i] (List.getElem?_eq_getElem hi)
          have hid := hturn.id
          have hfits := hturn.fits
          rw [List.getElem?_eq_getElem hi, List.getElem?_eq_getElem (by simpa using hi)]
          simp only [Option.map_some, List.getElem_range, Function.comp_apply, Option.some.injEq,
            hnumber]
          rw [hid] at hfits ⊢
          simp only [slotCount] at *
          omega
        · rw [List.getElem?_eq_none (by simpa using hi), List.getElem?_eq_none (by simpa using hi)]
          rfl
      · exact hrest
    | _ => exact hrest

end Histories

theorem Ring.start?_next {ring : Ring} {dir : Direction} {start : BatchPlace} {count : Nat}
    (h : ring.start? dir = .ok start) (hring : ring.lastId.get dir = lastAfter count) :
    start.id = count % slotCount ∧ (start.announce = true ↔ start.id = 0) := by
  unfold start? at h
  dsimp only at h
  rw [hring] at h
  by_cases hzero : count = 0
  · subst hzero
    rw [if_pos (.inl rfl)] at h
    cases h
    exact ⟨rfl, by simp⟩
  · have hlast : lastAfter count = (count - 1) % slotCount := if_neg hzero
    rw [hlast] at h
    have hsizes : lastSlot = 127 ∧ noId = 255 := by decide
    have hplace : (count - 1) % slotCount = (count - 1) % 128 := rfl
    have hnext : count % slotCount = count % 128 := rfl
    by_cases hfull : (count - 1) % slotCount = lastSlot
    · rw [if_pos (.inr hfull)] at h
      cases h
      refine ⟨?_, by simp⟩
      dsimp only
      omega
    · rw [if_neg (by omega), if_pos (by omega)] at h
      cases h
      refine ⟨?_, by simp⟩
      dsimp only
      omega

section Issue
variable {σ : Type} [Platform σ] {m : Machine σ}

theorem Machine.writesOf_writeRegister (m : Machine σ) (dir : Direction) (r : Register)
    (value : UInt32) :
    writesOf (m.writeRegister dir r value).history = (r.address dir, value) :: writesOf m.history := by
  obtain ⟨events, hh, he⟩ := (m.wrote (r.address dir) value).incurAll_incidental
    (Platform.written m.platform (r.address dir) value).1
  rw [writeRegister, writeAt_eq, hh, writesOf_append fun e hmem => (he e hmem).keepsRings]
  rfl

theorem Ring.writesOf_stage (ring : Ring) (m : Machine σ) (dir : Direction) (start : BatchPlace)
    (entries : List Entry) : writesOf (ring.stage m dir start entries).2.history =
      (if start.announce then announcement ring.tableBus dir else []).reverse ++ writesOf m.history := by
  unfold stage
  cases start.announce with
  | false => rfl
  | true =>
    simp only [if_true, Ring.announce, Machine.programTable, Machine.programFifo,
      Machine.programSize, Machine.writeHalves, Machine.writesOf_writeRegister]
    rfl

variable {s : Station σ} {p : Progress} {start : BatchPlace} {entries : List Entry}

theorem Station.writesOf_issue (s : Station σ) (p : Progress) (start : BatchPlace)
    (entries : List Entry) : writesOf (s.issue p start entries).machine.history =
      (programme s.worker.ring.tableBus p.request.direction start entries).reverse ++
        writesOf s.machine.history := by
  rw [programme, List.reverse_append]
  exact congrArg (_ :: ·) (s.worker.ring.writesOf_stage s.machine p.request.direction start entries)

end Issue

/-- The rings of both directions between two batches. -/
structure Laps {σ : Type} (tableBus : Sides Nat) (s : Station σ) : Prop where
  bus : s.worker.ring.tableBus = tableBus
  held : ∀ dir, s.machine.registers.lastId dir = lastAfter (handed dir s.machine.history).length
  inLaps : InLaps tableBus s.machine.history
  written : writesOf s.machine.history = programmes tableBus s.machine.history

section Steps
variable {σ : Type} {tableBus : Sides Nat} {s t : Station σ} {l : List Event} {k : Errand}
  {p : Progress} {start : BatchPlace} {entries : List Entry}

theorem Laps.frame (h : Laps tableBus s) (hb : t.worker.ring.tableBus = s.worker.ring.tableBus)
    (hr : t.machine.registers = s.machine.registers)
    (hh : t.machine.history = l ++ s.machine.history) (he : ∀ e ∈ l, e.KeepsRings) :
    Laps tableBus t := by
  have hissue : ∀ e ∈ l, ∀ d start entries, e ≠ .issue d start entries := by
    rintro e hmem d start entries rfl
    exact he _ hmem
  constructor
  case bus => exact hb.trans h.bus
  case held =>
    intro dir
    rw [hr, hh, handed_append hissue]
    exact h.held dir
  case inLaps => exact hh ▸ h.inLaps.append hissue
  case written =>
    rw [hh, writesOf_append he, programmes_append hissue]
    exact h.written

theorem Laps.drops {newest : List Event} (h : Laps tableBus s) (hd : s.Drops newest t)
    (hn : ∀ e ∈ newest, e.KeepsRings) : Laps tableBus t := by
  obtain ⟨events, hh, he⟩ := hd.added hn fun _ => Event.MovesPages.keepsRings
  exact h.frame hd.bus hd.registers hh he

variable [Platform σ]

/-- The worker goes on where the controller's register stands. -/
theorem Laps.issue (hs : s.settings.Valid) (hc : s.view.Poised k p)
    (hstart : s.worker.ring.start? p.request.direction = .ok start) {w : Window}
    (hcarve : w.carve s.settings p.request.direction (p.request.device + p.sent) start = .ok entries)
    (h : Laps tableBus s) : Laps tableBus (s.issue p start entries) := by
  obtain ⟨newest, hh, hlater⟩ := Station.issue_latest hc.busy p start entries
  obtain ⟨hne, hlast⟩ := Window.carve_fits hs (Ring.start?_le hstart) hcarve
  obtain ⟨hnumbered, hfits⟩ := Window.carve_numbered hs (Ring.start?_le hstart) hcarve
  have hring := hc.ring_held.trans (h.held p.request.direction)
  obtain ⟨hid, hannounce⟩ := Ring.start?_next hstart hring
  have hhanded := handed_issue hc.busy p start entries
  constructor
  case bus => exact h.bus
  case held =>
    intro dir
    rw [hhanded]
    by_cases hd : p.request.direction = dir
    · subst hd
      have hheld := Station.issue_held (s := s) p hlast
      simp only [Station.view] at hheld
      rw [hheld, if_pos rfl, List.length_append, lastAfter, Ring.lastIdOf]
      have hpos := List.length_pos_iff.mpr hne
      rw [if_neg (by omega)]
      simp only [slotCount] at *
      omega
    · have hheld := Station.issue_held_of_ne hc.busy p start entries (Ne.symm hd)
      simp only [Station.view] at hheld
      rw [hheld, if_neg hd]
      exact h.held dir
  case inLaps =>
    rw [hh]
    apply InLaps.append hlater
    exact Throughout.cons h.inLaps ⟨hne, hid, hannounce, hfits, hnumbered, h.written⟩
  case written =>
    rw [Station.writesOf_issue, h.bus, h.written, hh, programmes_append hlater]
    rfl

variable {A : Incident → Prop} {H : Act → Worker → Prop} {x y : Juncture × Station σ}

theorem Laps.step (hs : x.2.settings.Valid) (hstep : Step A H x y) (hc : Control x.2.view x.1)
    (h : Laps tableBus x.2) : Laps tableBus y.2 := by
  cases hstep.deed with
  | tend htends =>
    obtain ⟨events, hh, he⟩ := htends.history
    exact h.frame (congrArg Ring.tableBus htends.ring) htends.registers hh
      fun e hmem => (he e hmem).keepsRings
  | @strike j s i =>
    obtain ⟨events, hh, he⟩ := s.machine.incur_incidental i
    refine h.frame rfl ?_ hh fun e hmem => (he e hmem).keepsRings
    exact Machine.incur_registers _ _
  | interrupt | setPayload | close => exact h.frame (l := []) rfl rfl rfl (by simp)
  | @halt s a ha => exact h.drops (s.halt_drops ha) (by simp)
  | begin => exact h.frame (l := [_]) rfl rfl rfl (by simp [Event.KeepsRings])
  | @complete k p s => exact h.drops (s.tell_drops _ _) (by simp [Event.KeepsRings])
  | @fail k cause s => exact h.drops (s.tell_drops _ _) (by simp [Event.KeepsRings])
  | issue hcarve => exact h.issue hs hc.1 hc.2 hcarve

omit [Platform σ] in
theorem Laps.initial (settings : Settings) (tableBus : Sides Nat) (platform : σ)
    (listener : List (List Incident)) :
    Laps tableBus (Station.initial settings tableBus .reset platform listener) where
  bus := rfl
  held dir := by cases dir <;> rfl
  inLaps := .nil trivial
  written := rfl

/-- In every run of a worker on a controller that was just reset: the descriptors of each direction have
the ids 0, 1, .., 127, 0, 1 and so on, and no batch goes past the end of a lap; the registers of the
ring are written for exactly the batches that begin a lap, and after them the register of the last id,
once for each batch. As long as no one stores flags elsewhere than in the words of flags, at every
moment of the run each slot holds the descriptor that was handed over last with its id, and the flags
are those that were stored since the lap began. -/
theorem run_in_laps (settings : Settings) (hs : settings.Valid) (tableBus : Sides Nat) (platform : σ)
    (listener : List (List Incident)) (acts : List Act) :
    let s := Station.initial settings tableBus .reset platform listener
    let history := (s.run acts).machine.history
    (∀ dir, (handed dir history).map (fun e => e.id.toNat) =
      (List.range (handed dir history).length).map (· % slotCount)) ∧
    InLaps tableBus history ∧ writesOf history = programmes tableBus history ∧
    (Platform.Within σ Incident.InFlags → (∀ reaction ∈ listener, ∀ i ∈ reaction, i.InFlags) →
      (∀ a ∈ acts, a.Within Incident.InFlags) → (s.run acts).machine.Imaged ∧
        ∀ j x, Midway Incident.InFlags (fun _ _ => True) s (s.run acts) (j, x) → x.machine.Imaged) := by
  intro s history
  have hlaps : Laps tableBus (s.run acts) := by
    refine Path.keep (x := (.rest, s)) (P := fun z => Laps tableBus z.2) hs (Control.initial ..) ?_
      (Laps.initial ..) (Path.everyRun s acts)
    intro u v hsettings hcontrol hstep h
    exact h.step (hsettings ▸ hs) hstep hcontrol
  refine ⟨hlaps.inLaps.ids, hlaps.inLaps, hlaps.written, ?_⟩
  intro hp hl ha
  have himage {H : Act → Worker → Prop} {j : Juncture} {x : Station σ}
      (hx : Path Incident.InFlags H (.rest, s) (j, x)) : x.machine.Imaged :=
    Path.imaged (x := (.rest, s)) hp (fun _ h => h) (Machine.Imaged.initial ..) hx
  constructor
  · exact himage (Path.run hp hl ha (s.haltsOnly_true acts))
  · rintro j x ⟨hx, -⟩
    exact himage hx

end Steps

/-- A transfer to the device that is stopped after its first batch, and one that goes on behind it. -/
theorem run_in_laps_echo :
    let acts : List Act := [
      .strike (.submit { direction := .hostToDevice, host := 0x2ffc, device := 0, len := 8 }), .serve,
      .stop, .strike (.submit { direction := .hostToDevice, host := 0x3000, device := 8, len := 16 }),
      .serve]
    let s := Station.initial {} (.both 0x5000) .reset ({ echo := .flag } : Bench.ScriptedHost) []
    let history := (s.run acts).machine.history
    (∀ dir, (handed dir history).map (fun e => e.id.toNat) =
      (List.range (handed dir history).length).map (· % slotCount)) ∧
    InLaps (.both 0x5000) history ∧ writesOf history = programmes (.both 0x5000) history ∧
    (s.run acts).machine.Imaged :=
  have hplatform : Platform.Within Bench.ScriptedHost Incident.InFlags :=
    Bench.ScriptedHost.honest.mono fun _ h => h.inFlags
  have h := run_in_laps {} (by decide) (.both 0x5000) ({ echo := .flag } : Bench.ScriptedHost) [] [
    .strike (.submit { direction := .hostToDevice, host := 0x2ffc, device := 0, len := 8 }), .serve,
    .stop, .strike (.submit { direction := .hostToDevice, host := 0x3000, device := 8, len := 16 }),
    .serve]
  ⟨h.1, h.2.1, h.2.2.1,
    (h.2.2.2 hplatform (by simp) (by simp [Act.Within, Incident.InFlags])).1⟩
end ScatterGather
