import ScatterGather.Bench.Session
import ScatterGather.Proofs.Aims
import ScatterGather.Proofs.Custody
import ScatterGather.Proofs.Lockers
import ScatterGather.Proofs.Positions
import ScatterGather.Proofs.Tallies

/-! # The device executes what was handed over

In a session the device takes the descriptors in the order in which they were handed over, each at
most once, and finds every one of them in its slot. As long as the worker is halted only between
transfers none is left out, and when the channel is idle all of them were executed.
-/
namespace ScatterGather
open Bench Relation

/-- No flag is stored from outside, and every request is one of `P`. -/
def Incident.Asks (P : Request → Prop) : Incident → Prop
  | submit r => P r
  | interrupt _ => True
  | complete _ | flag .. => False

/-- The device may also flag the last id. -/
def Incident.Served (P : Request → Prop) : Incident → Prop
  | submit r => P r
  | interrupt _ | complete _ => True
  | flag .. => False

theorem Incident.Asks.served {P : Request → Prop} {i : Incident} (h : i.Asks P) : i.Served P := by
  cases i with
  | submit => exact h
  | interrupt => trivial
  | complete | flag => exact h.elim

theorem Incident.Served.honest {P : Request → Prop} {i : Incident} (h : i.Served P) : i.Honest := by
  cases i with
  | flag => exact h.elim
  | _ => trivial

namespace Bench.MemoryDevice
variable {d : MemoryDevice} {dir : Direction} {pageSize first : Nat} {entries : List Entry}
  {table : Table}

/-- Descriptors that stand in their slots and are parts of requests that the device reaches are
executed. -/
theorem executeAll?_parts (hn : Table.Numbered first entries)
    (hslots : ∀ i e, entries[i]? = some e → table.entry (first + i) = e)
    (hparts : ∀ e ∈ entries, ∃ r, d.Reaches r ∧ r.direction = dir ∧ r.HasPart pageSize e) :
    ∃ d', executeAll? table dir (List.range' first entries.length) d = some (entries, d') ∧
      ∀ r, d.Reaches r → d'.Reaches r := by
  induction entries generalizing first d with
  | nil => exact ⟨d, rfl, fun _ h => h⟩
  | cons e entries ih =>
    obtain ⟨hid, hlater⟩ := hn.of_cons
    have hslot : table.entry first = e := hslots 0 e rfl
    have hrests : ∀ i x, entries[i]? = some x → table.entry (first + 1 + i) = x := by
      intro i x hx
      rw [← hslots (i + 1) x hx, Nat.add_assoc, Nat.add_comm 1]
    obtain ⟨r, hreaches, rfl, x, hmove, hx⟩ := hparts e List.mem_cons_self
    obtain ⟨d₁, hone, -, -⟩ := execute?_ok hreaches hmove hx
    have hkept : ∀ r, d.Reaches r → d₁.Reaches r := fun r hr => execute?_reaches hone hr
    obtain ⟨d', hrest, hkept'⟩ := ih hlater hrests fun e' he' => by
      obtain ⟨r', hr', hdir, hpart⟩ := hparts e' (List.mem_cons_of_mem _ he')
      exact ⟨r', hkept r' hr', hdir, hpart⟩
    refine ⟨d', ?_, fun r hr => hkept' r (hkept r hr)⟩
    simp [List.length_cons, List.range'_succ, executeAll?, hslot, hid, hone, hrest]

end Bench.MemoryDevice

theorem handed_prefix (dir : Direction) (l history : List Event) :
    handed dir history <+: handed dir (l ++ history) := by
  induction l with
  | nil => exact List.prefix_refl _
  | cons e l ih =>
    cases e with
    | issue d start entries =>
      simp only [List.cons_append, handed]
      split
      · exact ih.trans (List.prefix_append _ _)
      · exact ih
    | _ => exact ih

section Stations
variable {σ : Type} [Platform σ] {A : Incident → Prop} {H : Act → Worker → Prop}
  {x y : Juncture × Station σ}

/-- Only the device itself takes descriptors. -/
theorem Step.landed_eq (hq : Platform.Quiet σ) (hA : ∀ dir, ¬ A (.complete dir)) (hstep : Step A H x y)
    (dir : Direction) : landed dir y.2.machine.history = landed dir x.2.machine.history := by
  obtain ⟨l, hh⟩ := hstep.deed.grows
  rw [← hh]
  apply landed_append
  rintro e he d id rfl
  obtain ⟨later, between, rfl⟩ := List.append_of_mem he
  rw [List.append_assoc, List.cons_append] at hh
  obtain ⟨i, hi, rfl, hsame, hstruck⟩ := hstep.struck hq (e := .complete d id) trivial
    (List.suffix_append between x.2.machine.history) ⟨later, hh⟩
  cases i with
  | complete dir => exact hA dir hi
  | submit | interrupt | flag =>
    have hfirst := (List.cons.inj (hstruck.trans (congrArg _ hsame.symm))).1
    cases hfirst

theorem Path.landed_eq (hq : Platform.Quiet σ) (hA : ∀ dir, ¬ A (.complete dir)) (hpath : Path A H x y)
    (dir : Direction) : landed dir y.2.machine.history = landed dir x.2.machine.history ∧
      ScatterGather.handed dir x.2.machine.history <+: ScatterGather.handed dir y.2.machine.history := by
  induction hpath with
  | refl => exact ⟨rfl, List.prefix_refl _⟩
  | tail _ hstep ih =>
    obtain ⟨l, hh⟩ := hstep.deed.grows
    exact ⟨(hstep.landed_eq hq hA dir).trans ih.1, ih.2.trans (hh ▸ handed_prefix dir l _)⟩

/-- The ring was announced once for each lap. -/
def Announced (s : Station σ) : Prop :=
  ∀ dir, s.machine.announced dir = lapsBegun (handed dir s.machine.history).length

theorem Announced.step {tableBus : Sides Nat} (hq : Platform.Quiet σ) (hs : x.2.settings.Valid)
    (hstep : Step A H x y) (hc : Control x.2.view x.1) (hlaps : Laps tableBus x.2)
    (h : Announced x.2) : Announced y.2 := by
  have hsame {l : List Event} (hr : y.2.machine.registers = x.2.machine.registers)
      (hh : y.2.machine.history = l ++ x.2.machine.history)
      (he : ∀ e ∈ l, ∀ d start entries, e ≠ .issue d start entries) : Announced y.2 := by
    intro dir
    rw [Machine.announced, hr, hh, handed_append he]
    exact h dir
  have hdrops {t : Station σ} {newest : List Event} (hd : x.2.Drops newest t) (ht : y.2 = t)
      (hn : ∀ e ∈ newest, Account.Neutral e) : Announced y.2 := by
    obtain ⟨l, hh, hl⟩ := hd.added hn fun _ hm => hm.passive.neutral
    exact hsame (ht ▸ hd.registers) (ht ▸ hh) fun e he => (hl e he).not_issue
  cases hstep.deed with
  | tend htends =>
    obtain ⟨events, hh, he⟩ := htends.history
    exact hsame htends.registers hh fun e hmem => (he e hmem).passive.neutral.not_issue
  | @strike j s i =>
    obtain ⟨events, hh, he⟩ := s.machine.incur_incidental i
    refine hsame (s.machine.incur_registers i) hh ?_
    rintro e hmem d start entries rfl
    exact he _ hmem
  | interrupt | setPayload | close => exact hsame (l := []) rfl rfl (by simp)
  | @halt s a ha => exact hdrops (s.halt_drops ha) rfl (by simp)
  | begin => exact hsame (l := [_]) rfl rfl (by simp)
  | @complete k p s => exact hdrops (s.tell_drops _ _) rfl (by simp [Account.Neutral, Account.after])
  | @fail k cause s => exact hdrops (s.tell_drops _ _) rfl (by simp [Account.Neutral, Account.after])
  | @issue k p s start w entries hcarve =>
    intro dir
    have hnext := Ring.start?_next hc.2 (hc.1.ring_held.trans (hlaps.held p.request.direction))
    obtain ⟨hne, -⟩ := Window.carve_fits hs (Ring.start?_le hc.2) hcarve
    obtain ⟨-, hfits⟩ := Window.carve_numbered hs (Ring.start?_le hc.2) hcarve
    rw [s.issue_announced hq, h dir, handed_issue hc.1.busy]
    by_cases hd : p.request.direction = dir
    · subst hd
      have hpos := List.length_pos_iff.mpr hne
      have hbegins : start.announce = true ↔
          (handed p.request.direction s.machine.history).length % slotCount = 0 := by
        rw [hnext.2, hnext.1]
      rw [hnext.1] at hfits
      simp only [true_and, if_true, List.length_append, hbegins, lapsBegun, lastSlot, slotCount] at *
      split <;> omega
    · simp [hd]

omit [Platform σ] in
theorem Announced.initial (settings : Settings) (tableBus : Sides Nat) (platform : σ)
    (listener : List (List Incident)) :
    Announced (Station.initial settings tableBus .reset platform listener) := by
  intro dir
  change 0 = lapsBegun 0
  rfl

end Stations

/-- The descriptors that the device was through with when it flagged last. -/
def taken (dir : Direction) (history : List Event) : List Entry :=
  (handed dir history).take (landed dir history)

theorem taken_eq {dir : Direction} {older newer : List Event}
    (hlanded : landed dir newer = landed dir older) (hhanded : handed dir older <+: handed dir newer) :
    taken dir newer = taken dir older := by
  obtain ⟨rest, hrest⟩ := hhanded
  rw [taken, hlanded, ← hrest, List.take_append_of_le_length (landed_le dir older), taken]

theorem taken_complete (dir d : Direction) (id : Nat) (history : List Event) :
    taken d (.complete dir id :: history) = if dir = d then handed d history else taken d history := by
  simp only [taken, landed, handed]
  split
  · exact List.take_length
  · rfl

/-- The descriptors of the latest lap stand in their slots. -/
theorem Machine.Imaged.written {σ : Type} {m : Machine σ} (h : m.Imaged) {dir : Direction} {first : Nat}
    (hcyclic : Cyclic (handed dir m.history))
    (hfits : ∀ e ∈ handed dir m.history, e.length.toNat < 2 ^ 18)
    (hfirst : lapStart (handed dir m.history).length ≤ first) :
    (m.channel.table dir).Written (first - lapStart (handed dir m.history).length)
      ((handed dir m.history).drop first) := by
  have hplace {i : Nat} {e : Entry} (he : ((handed dir m.history).drop first)[i]? = some e) :
      (handed dir m.history)[first + i]? = some e ∧ (handed dir m.history).length ≤ first + i + slotCount ∧
        (first + i) % slotCount = first - lapStart (handed dir m.history).length + i := by
    rw [List.getElem?_drop] at he
    have hlt := (List.getElem?_eq_some_iff.mp he).1
    refine ⟨he, ?_⟩
    simp only [lapStart, slotCount] at *
    omega
  constructor
  · intro i e he
    obtain ⟨hget, -, hslot⟩ := hplace he
    rw [hcyclic.id hget, hslot]
  · intro i e he
    obtain ⟨hget, hlate, hslot⟩ := hplace he
    have hlt : (first + i) % slotCount < slotCount := Nat.mod_lt _ (by decide)
    have hid : e.id.toNat < slotCount := hcyclic.id hget ▸ hlt
    rw [← hslot, Table.entry, h.slots dir _ hlt, hcyclic.leftIn_eq hget hlate]
    exact Entry.ofWords_words_eq_iff.mpr ⟨hfits e (List.mem_of_getElem? hget), hid⟩

namespace Bench.Session
variable {σ : Type} [Platform σ] {P : Request → Prop} {H : Act → Worker → Prop} {s : Station σ}
  {x y : Session σ MemoryDevice} {st : Settings} {tableBus : Sides Nat} {dir : Direction}

/-- What worker and device have in common in a session that began with `s`. -/
structure InStep (P : Request → Prop) (H : Act → Worker → Prop) (s : Station σ)
    (x : Session σ MemoryDevice) : Prop where
  path : Path (Incident.Served P) H (.rest, s) (.rest, x.station)
  positions : ∀ dir,
    x.device.reader.positions.get dir = .after (landed dir x.station.machine.history)
  reaches : ∀ r, P r → x.device.Reaches r
  executed : ∀ dir, (x.executed.get dir).Sublist (taken dir x.station.machine.history)
  /-- As long as no transfer was halted, no descriptor was left out. -/
  complete : (∀ a w, H a w → a.Halts → w.transfer = none) →
    ∀ dir, x.executed.get dir = taken dir x.station.machine.history

/-- What is known of the worker in a session. -/
structure Moment (P : Request → Prop) (st : Settings) (tableBus : Sides Nat) (s : Station σ) : Prop where
  control : Control s.view .rest
  laps : Laps tableBus s
  announced : Announced s
  imaged : s.machine.Imaged
  aimed : Aimed P st.pageSize s

section Moments
variable {platform : σ} {listener : List (List Incident)} (hs : st.Valid)
  (hsmall : st.pageSize ≤ 2 ^ 19) (hp : Platform.Within σ (Incident.Asks P)) (hquiet : Platform.Quiet σ)
  (hq : Platform.Answers σ (InOrder id)) (hfits : ∀ r, P r → r.Fits)
include hs hsmall hp hquiet hq hfits

theorem InStep.moment (h : InStep P H (.initial st tableBus .reset platform listener) x) :
    Moment P st tableBus x.station := by
  let s : Station σ := .initial st tableBus .reset platform listener
  have hcontrol : Control s.view .rest := Control.initial ..
  have hkept : Laps tableBus x.station ∧ Announced x.station := by
    refine Path.keep (x := (.rest, s)) (P := fun z => Laps tableBus z.2 ∧ Announced z.2) hs hcontrol ?_
      ⟨Laps.initial .., Announced.initial st tableBus platform listener⟩ h.path
    rintro u v hst hcu hstep ⟨hlaps, hannounced⟩
    have hvalid : u.2.settings.Valid := hst ▸ hs
    exact ⟨hlaps.step hvalid hstep hcu, hannounced.step hquiet hvalid hstep hcu hlaps⟩
  constructor
  case control => exact (Path.control (x := (.rest, s)) hs hcontrol h.path).1
  case laps => exact hkept.1
  case announced => exact hkept.2
  case imaged =>
    exact Path.imaged (hp.mono fun _ hi => hi.served.honest.inFlags) (fun _ hi => hi.honest.inFlags)
      (Machine.Imaged.initial ..) h.path
  case aimed =>
    exact Path.aimed (x := (.rest, s)) hs hsmall hfits (fun _ hr => hr) hq rfl hcontrol nofun
      (Aimed.initial ..) h.path

end Moments

theorem call?_batch (x : Session σ MemoryDevice) (dir : Direction) : x.call? (.batch dir) =
    match x.device.reader.take? x.station.machine.registers dir with
    | none => some x
    | some (ids, reader) =>
      (MemoryDevice.executeAll? (x.station.machine.channel.table dir) dir ids
        { x.device with reader }).map fun r =>
          { station := x.station.strike (.complete dir), device := r.2,
            executed := x.executed.set dir (x.executed.get dir ++ r.1) } := by
  unfold call? Setup.batch?
  simp only [DeviceModel.run?]
  cases x.device.reader.take? x.station.machine.registers dir with
  | none =>
    simp only [Option.map_some, List.append_nil, Sides.set_get]
  | some found =>
    simp only [Option.map_map]
    rfl

theorem run?_act (x : Session σ MemoryDevice) (a : Act) (calls : List Call) :
    x.run? (.act a :: calls) = run? { x with station := x.station.act a } calls := rfl

/-- A round of a drive is a part of a session: from one batch that is due to the next. -/
theorem run?_round (hs : st.Valid) (hsmall : st.pageSize ≤ 2 ^ 19) (hstill : Platform.Still σ)
    (hq : Platform.Answers σ (InOrder id)) {b : Setup σ MemoryDevice} {p : Progress}
    (h : b.Ready st p x.toSetup) (hlimit : p.request.host + p.request.len < addressLimit)
    (hfits : p.request.Fits) (hsupplied : x.toSetup.Supplied p.request) (hr : p.remaining ≠ 0) :
    ∃ entries, ∃ y : Session σ MemoryDevice, wordBytes ≤ Entry.total entries ∧
      x.toSetup.serve.2.station.worker.transfer = some (p.past entries) ∧
      b.Ready st (p.past entries) y.toSetup ∧ y.toSetup.Supplied p.request ∧ ∀ calls,
        x.run? (.act .serve :: .batch p.request.direction :: .act (.interrupt 0) :: calls) =
          y.run? calls := by
  rcases h.serve hs hsmall hstill hq hlimit hsupplied with ⟨hnone, -⟩ | ⟨start, entries, hbytes, haloft⟩
  · exact absurd hnone hr
  · obtain ⟨d, hbatch, hready⟩ := haloft.round hs hsmall hstill hq hfits
    obtain ⟨n, -, hmoving⟩ := haloft.moving
    have hengaged := Control.engaged hmoving.sound.control haloft.pending.transfer
    have hvisits {c : Setup σ MemoryDevice} (hc : d.interrupt.Visits c) : x.toSetup.Visits c :=
      .round hengaged.idle hbatch hc
    let executed :=
      x.executed.set p.request.direction (x.executed.get p.request.direction ++ entries)
    let y : Session σ MemoryDevice := { d.interrupt with executed }
    refine ⟨entries, y, hbytes, haloft.pending.transfer, hready, fun c hc => hsupplied c (hvisits hc), ?_⟩
    intro calls
    have hdir : x.toSetup.serve.2.station.machine.channel.direction = p.request.direction :=
      hengaged.direction
    rw [hdir] at hbatch
    have hcall : call? { x with toSetup := x.toSetup.serve.2 } (.batch p.request.direction) =
        some { d with executed } := by
      rw [call?, hbatch]
      rfl
    rw [run?_act, run?]
    exact congrArg (Option.bind · _) hcall

/-- The device finds nothing new, or it executes what it finds and flags the last id. -/
theorem InStep.batch_cases (h : InStep P H s x) (hm : Moment P st tableBus x.station) (dir : Direction) :
    let history := x.station.machine.history
    let first := max (landed dir history) (lapStart (handed dir history).length)
    landed dir history = (handed dir history).length ∧ x.call? (.batch dir) = some x ∨
    landed dir history < (handed dir history).length ∧ ∃ device : MemoryDevice,
      device.reader = ⟨x.device.reader.positions.set dir (.after (handed dir history).length)⟩ ∧
      (∀ r, P r → device.Reaches r) ∧
      x.call? (.batch dir) = some {
        station := x.station.strike (.complete dir), device,
        executed := x.executed.set dir (x.executed.get dir ++ (handed dir history).drop first) } := by
  intro history first
  have htake := RingReader.take?_after (h.positions dir) (hm.laps.held dir) (hm.announced dir)
    (landed_le dir history)
  rcases Nat.eq_or_lt_of_le (landed_le dir history) with heq | hlt
  · left
    rw [if_pos heq] at htake
    exact ⟨heq, by rw [call?_batch, htake]⟩
  · right
    rw [if_neg (Nat.ne_of_lt hlt), ← List.length_drop] at htake
    have hcyclic : Cyclic (handed dir history) := hm.laps.inLaps.ids dir
    have hlap : lapStart (handed dir history).length ≤ first := Nat.le_max_right _ _
    have hwritten := hm.imaged.written hcyclic (fun e he => (hm.aimed.parts dir e he).1) hlap
    let reader : RingReader := ⟨x.device.reader.positions.set dir (.after (handed dir history).length)⟩
    have hreaches {r : Request} (hr : P r) : ({ x.device with reader } : MemoryDevice).Reaches r :=
      ⟨(h.reaches r hr).apart, (h.reaches r hr).spans, (h.reaches r hr).inside⟩
    have hparts : ∀ e ∈ (handed dir history).drop first, ∃ r,
        ({ x.device with reader } : MemoryDevice).Reaches r ∧ r.direction = dir ∧
          r.HasPart st.pageSize e := by
      intro e he
      obtain ⟨-, r, hr, hdir, hpart⟩ := hm.aimed.parts dir e (List.mem_of_mem_drop he)
      exact ⟨r, hreaches hr, hdir, hpart⟩
    obtain ⟨device, hall, hkept⟩ :=
      MemoryDevice.executeAll?_parts hwritten.numbered hwritten.slots hparts
    refine ⟨hlt, device, MemoryDevice.executeAll?_reader hall, fun r hr => hkept r (hreaches hr), ?_⟩
    rw [call?_batch, htake]
    exact congrArg (Option.map _) hall

/-- The device takes what was handed over since it flagged last, as far as that is of the latest lap. -/
theorem InStep.takes (h : InStep P H s x) (hm : Moment P st tableBus x.station) (dir : Direction) :
    let history := x.station.machine.history
    let issued := handed dir history
    ∃ y, x.call? (.batch dir) = some y ∧ y.executed.get dir = x.executed.get dir ++
      issued.drop (max (landed dir history) (lapStart issued.length)) := by
  intro history issued
  rcases h.batch_cases hm dir with ⟨hall, hsame⟩ | ⟨-, device, -, -, hcall⟩
  · refine ⟨x, hsame, ?_⟩
    rw [List.drop_eq_nil_of_le (hall ▸ Nat.le_max_left _ _), List.append_nil]
  · exact ⟨_, hcall, Sides.get_set_self ..⟩

/-- Where nothing was left out, nothing is left after one more run of the device. -/
theorem InStep.catchesUp (h : InStep P H s x) (hm : Moment P st tableBus x.station)
    (hhalts : ∀ a w, H a w → a.Halts → w.transfer = none) {dir : Direction}
    (hnear : (handed dir x.station.machine.history).length ≤
      (landed dir x.station.machine.history / slotCount + 1) * slotCount) :
    ∃ y, x.call? (.batch dir) = some y ∧
      y.executed.get dir = handed dir x.station.machine.history := by
  obtain ⟨y, hy, htaken⟩ := h.takes hm dir
  refine ⟨y, hy, htaken.trans ?_⟩
  rw [h.complete hhalts, taken, max_lapStart hnear, List.take_append_drop]

/-- The device goes on where it stands, if what it is offered shares a lap with what it took last. -/
theorem InStep.batch (h : InStep P H s x) (hm : Moment P st tableBus x.station) (dir : Direction)
    (hnear : (∀ a w, H a w → a.Halts → w.transfer = none) →
      (handed dir x.station.machine.history).length ≤
        (landed dir x.station.machine.history / slotCount + 1) * slotCount) :
    ∃ y, x.call? (.batch dir) = some y ∧ InStep P H s y := by
  rcases h.batch_cases hm dir with ⟨-, hsame⟩ | ⟨hlt, device, hreader, hreaches, hcall⟩
  · exact ⟨x, hsame, h⟩
  · refine ⟨_, hcall, h.path.tail (.strike trivial trivial), ?_, hreaches, ?_, ?_⟩
    all_goals
      have hle : x.station.machine.registers.lastId dir ≤ lastSlot :=
        hm.laps.held dir ▸ lastAfter_le (Nat.zero_lt_of_lt hlt)
      have hhistory : (x.station.strike (.complete dir)).machine.history =
          .complete dir (x.station.machine.registers.lastId dir) :: x.station.machine.history := by
        simp only [Station.strike, Machine.incur, if_pos hle]
        rfl
      dsimp only
      rw [hhistory]
    · intro d
      rw [hreader, Sides.get_set, landed]
      by_cases hd : d = dir
      · rw [if_pos hd, if_pos hd.symm, hd]
      · rw [if_neg hd, if_neg (Ne.symm hd)]
        exact h.positions d
    · intro d
      rw [Sides.get_set, taken_complete]
      by_cases hd : d = dir
      · subst hd
        rw [if_pos rfl, if_pos rfl]
        have hlater := (h.executed d).append
          (List.drop_sublist_drop_left (handed d x.station.machine.history)
            (Nat.le_max_left (landed d x.station.machine.history)
              (lapStart (handed d x.station.machine.history).length)))
        rwa [taken, List.take_append_drop] at hlater
      · rw [if_neg hd, if_neg (Ne.symm hd)]
        exact h.executed d
    · intro hhalts d
      rw [Sides.get_set, taken_complete]
      by_cases hd : d = dir
      · subst hd
        rw [if_pos rfl, if_pos rfl, h.complete hhalts, max_lapStart (hnear hhalts), taken,
          List.take_append_drop]
      · rw [if_neg hd, if_neg (Ne.symm hd)]
        exact h.complete hhalts d

theorem InStep.act (h : InStep P H s x) (hp : Platform.Within σ (Incident.Asks P))
    (hquiet : Platform.Quiet σ) (hheeds : s.Heeds (Incident.Asks P)) {a : Act}
    (ha : a.Within (Incident.Asks P)) (hh : H a x.station.worker) :
    InStep P H s { x with station := x.station.act a } := by
  have hpath : Path (Incident.Asks P) H (.rest, x.station) (.rest, x.station.act a) :=
    Path.act hp (Path.heeds h.path hheeds) ha hh
  have hsame (dir : Direction) := Path.landed_eq hquiet (fun _ => id) hpath dir
  have htaken (dir : Direction) := taken_eq (hsame dir).1 (hsame dir).2
  constructor
  case path => exact h.path.trans (hpath.mono (fun _ hi => hi.served) fun _ _ => id)
  case positions =>
    intro dir
    rw [(hsame dir).1]
    exact h.positions dir
  case reaches => exact h.reaches
  case executed =>
    intro dir
    rw [htaken]
    exact h.executed dir
  case complete =>
    intro hhalts dir
    rw [htaken]
    exact h.complete hhalts dir

section Runs
variable {platform : σ} {listener : List (List Incident)} (hs : st.Valid)
  (hsmall : st.pageSize ≤ 2 ^ 19) (hp : Platform.Within σ (Incident.Asks P)) (hquiet : Platform.Quiet σ)
  (hq : Platform.Answers σ (InOrder id)) (hfirst : Platform.Answers σ FirstPages)
include hs hsmall hquiet hfirst

/-- Where no transfer is halted only one batch at a time is with the device. -/
theorem InStep.custody (h : InStep P H (.initial st tableBus .reset platform listener) x)
    (hhalts : ∀ a w, H a w → a.Halts → w.transfer = none) :
    Custody st.pageSize x.station .rest := by
  let s : Station σ := .initial st tableBus .reset platform listener
  exact Path.custody (x := (.rest, s)) hs hsmall hquiet hfirst rfl (Control.initial ..)
    (Pacing.initial ..) nofun (Custody.initial ..) (h.path.mono (fun _ hi => hi.honest) hhalts)

include hp hq

/-- Calls that halt the worker as they may keep worker and device in step. -/
theorem InStep.run {T : Worker → Prop} {calls : List Call} (hfits : ∀ r, P r → r.Fits)
    (hl : ∀ reaction ∈ listener, ∀ i ∈ reaction, i.Asks P)
    (hcalls : ∀ a, .act a ∈ calls → a.Within (Incident.Asks P)) (hhalts : x.HaltsOnly T calls)
    (h : InStep P (fun a w => a.Halts → T w) (.initial st tableBus .reset platform listener) x) :
    ∃ y, x.run? calls = some y ∧
      InStep P (fun a w => a.Halts → T w) (.initial st tableBus .reset platform listener) y := by
  induction calls generalizing x with
  | nil => exact ⟨x, rfl, h⟩
  | cons c calls ih =>
    obtain ⟨z, hz, hkept⟩ : ∃ z, x.call? c = some z ∧
        InStep P (fun a w => a.Halts → T w) (.initial st tableBus .reset platform listener) z := by
      cases c with
      | act a =>
        exact ⟨_, rfl, h.act hp hquiet hl (hcalls a List.mem_cons_self) (hhalts.1 a rfl)⟩
      | batch dir =>
        have hmoment := h.moment hs hsmall hp hquiet hq hfits
        refine h.batch hmoment dir fun hnone => ?_
        exact hmoment.laps.inLaps.near (h.custody hs hsmall hquiet hfirst hnone).sole dir
    obtain ⟨y, hy, hend⟩ := ih (fun a ha => hcalls a (List.mem_cons_of_mem _ ha)) (hhalts.2 z hz) hkept
    refine ⟨y, ?_, hend⟩
    rw [run?, hz]
    exact hy

end Runs

theorem haltsOnly_of_forall {T : Worker → Prop} {calls : List Call}
    (h : ∀ a, .act a ∈ calls → a.Halts → ∀ w, T w) (x : Session σ MemoryDevice) :
    x.HaltsOnly T calls := by
  induction calls generalizing x with
  | nil => trivial
  | cons c calls ih =>
    refine ⟨?_, fun y _ => ih (fun a ha => h a (List.mem_cons_of_mem _ ha)) y⟩
    rintro a rfl ha
    exact h a List.mem_cons_self ha _

end Bench.Session

/-- In every session of a worker and a device on a controller that was just reset, whose requests the
device reaches: the device never finds a descriptor that it cannot execute, and it executes the
descriptors of each direction in the order in which they were handed over, each at most once. Each time
it takes all that were handed over since the time before, except for those of laps that are over. If the
worker is halted only while no transfer is in hand, then there are no such exceptions, and whenever the
channel is idle the device has executed all of them. -/
theorem session_executes {σ : Type} [Platform σ] (settings : Settings) (hs : settings.Valid)
    (hsmall : settings.pageSize ≤ 2 ^ 19) (tableBus : Sides Nat) (platform : σ)
    (listener : List (List Incident)) (device : MemoryDevice) (hnew : device.reader = {})
    (hmemory : device.memory.size ≤ addressLimit) (hp : Platform.Within σ (Incident.Asks device.Reaches))
    (hquiet : Platform.Quiet σ) (hq : Platform.Answers σ (InOrder id))
    (hfirst : Platform.Answers σ FirstPages)
    (hl : ∀ reaction ∈ listener, ∀ i ∈ reaction, i.Asks device.Reaches) (calls : List Call)
    (hcalls : ∀ a, .act a ∈ calls → a.Within (Incident.Asks device.Reaches)) :
    let x : Session σ MemoryDevice :=
      { station := .initial settings tableBus .reset platform listener, device }
    ∃ y, x.run? calls = some y ∧ ∀ dir,
      let history := y.station.machine.history
      let issued := handed dir history
      (y.executed.get dir).Sublist issued ∧
        (∃ z, y.call? (.batch dir) = some z ∧ z.executed.get dir = y.executed.get dir ++
          issued.drop (max (landed dir history) (lapStart issued.length))) ∧
        (x.HaltsOnly (fun w => w.transfer = none) calls → y.executed.get dir <+: issued ∧
          (∃ z, y.call? (.batch dir) = some z ∧ z.executed.get dir = issued) ∧
          (y.station.machine.channel.idle = true → y.executed.get dir = issued)) := by
  intro x
  have hfits : ∀ r, device.Reaches r → r.Fits := fun r hr => Nat.le_trans hr.inside hmemory
  have hfresh {H : Act → Worker → Prop} : Session.InStep device.Reaches H x.station x := by
    refine ⟨.refl, fun dir => ?_, fun _ hr => hr, fun dir => ?_, fun _ dir => ?_⟩
    · rw [show x.device.reader = {} from hnew]
      exact (Sides.get_both _ dir).trans RingPosition.after_zero.symm
    · cases dir <;> exact List.Sublist.refl _
    · cases dir <;> rfl
  obtain ⟨y, hy, hkept⟩ := hfresh.run hs hsmall hp hquiet hq hfirst hfits hl hcalls
    (T := fun _ => True) (Session.haltsOnly_of_forall (fun _ _ _ _ => trivial) x)
  have hmoment := hkept.moment hs hsmall hp hquiet hq hfits
  refine ⟨y, hy, fun dir => ⟨(hkept.executed dir).trans (List.take_sublist _ _), hkept.takes hmoment dir,
    fun hhalts => ?_⟩⟩
  obtain ⟨z, hz, hhalted⟩ := hfresh.run hs hsmall hp hquiet hq hfirst hfits hl hcalls hhalts
  obtain rfl : y = z := Option.some.inj (hy.symm.trans hz)
  have hcustody := hhalted.custody hs hsmall hquiet hfirst fun _ _ h => h
  have hnear := hmoment.laps.inLaps.near hcustody.sole dir
  have hexact := hhalted.complete (fun _ _ h => h) dir
  refine ⟨hexact ▸ List.take_prefix _ _, hhalted.catchesUp hmoment (fun _ _ h => h) hnear,
    fun hidle => ?_⟩
  obtain ⟨opened, hvacant⟩ := hmoment.control.vacant_of_idle (j := .rest) trivial hidle
  have hnone := hcustody.grounded (.inr hvacant.transfer)
  rw [hexact, taken, landed_eq (by simp [hnone]), List.take_length]

/-- A transfer that crosses a page and is executed in two batches. When the channel is idle its bytes are
where they belong, and all its descriptors were executed. -/
theorem session_executes_crossing :
    let r : Request := { direction := .hostToDevice, host := 0x100ffc, device := 8, len := 8 }
    let x : Session PageTally MemoryDevice := {
      station := .initial {} (.both 0) .reset {} []
      device := { memory := Array.replicate 16 0, host := HostMemory.add {} 0xffc 8 bufferPattern } }
    let round : List Call := [.act .serve, .batch .hostToDevice, .act (.interrupt 0)]
    ∃ y, x.run? ([.act (.strike (.submit r))] ++ round ++ round ++ [.act .serve]) = some y ∧
      x.toSetup.Delivered r y.toSetup ∧
      ∀ dir, y.executed.get dir = handed dir y.station.machine.history := by
  intro r x round
  have hstill : Platform.Still PageTally := PageTally.within _
  have hapart : x.device.host.Apart := (HostMemory.ordered_empty.add _ _ _).apart
  have hspans : x.device.host.Spans r.host r.len := HostMemory.spans_add {} 0xffc 8 bufferPattern
  have hinside : r.device + r.len ≤ x.device.memory.size := by simp [r, x]
  have hreaches : x.device.Reaches r := ⟨hapart, hspans, hinside⟩
  have hlimit : r.host + r.len < addressLimit := by decide
  have hfits : r.Fits := by simp [Request.Fits, r, addressLimit]
  -- the worker hands over one word in each of the two rounds
  let x₁ : Session PageTally MemoryDevice := { x with station := x.station.act (.strike (.submit r)) }
  have hfresh : x.toSetup.Reached {} (.both 0) := .fresh _ _ _
  have hready₁ : x.toSetup.Ready {} { request := r } x₁.toSetup :=
    hfresh.ready (by decide) (by decide) hstill PageTally.in_order (by decide) hreaches
  have hsupplied₁ : x₁.toSetup.Supplied r := .of_lavish ⟨rfl, rfl⟩ r
  obtain ⟨first, x₂, -, htransfer, hready₂, hsupplied₂, hround₁⟩ :=
    Session.run?_round (by decide) (by decide) hstill PageTally.in_order hready₁ hlimit hfits hsupplied₁
      (by decide)
  have hfour : x₁.toSetup.serve.2.station.worker.transfer = some ⟨r, 4⟩ := by decide +kernel
  have hhalfway : ({ request := r } : Progress).past first = ⟨r, 4⟩ :=
    Option.some.inj (htransfer.symm.trans hfour)
  rw [hhalfway] at hready₂
  obtain ⟨second, x₃, hword, -, hready₃, hsupplied₃, hround₂⟩ :=
    Session.run?_round (by decide) (by decide) hstill PageTally.in_order hready₂ hlimit hfits hsupplied₂
      (by decide)
  have hnone : ((⟨r, 4⟩ : Progress).past second).remaining = 0 := by
    simp only [Progress.past, Progress.remaining, wordBytes, r] at hword ⊢
    omega
  have hdelivered :=
    hready₃.ends (by decide) (by decide) hstill PageTally.in_order hlimit hsupplied₃ hnone
  let y : Session PageTally MemoryDevice := { x₃ with toSetup := x₃.toSetup.serve.2 }
  let calls : List Call := [.act (.strike (.submit r))] ++ round ++ round ++ [.act .serve]
  have hrun : x.run? calls = some y := by
    simp only [calls, round, List.cons_append, List.nil_append]
    rw [Session.run?_act, hround₁, hround₂, Session.run?_act]
    rfl
  have hcalls : ∀ a, .act a ∈ calls → a.Within (Incident.Asks x.device.Reaches) := by
    simp [calls, round, Act.Within, Incident.Asks, hreaches]
  have hhalts : x.HaltsOnly (fun w => w.transfer = none) calls :=
    Session.haltsOnly_of_forall (by simp [calls, round, Act.Halts]) x
  obtain ⟨z, hz, hexecuted⟩ := session_executes {} (by decide) (by decide) (.both 0) {} [] x.device rfl
    (by simp [x, addressLimit]) (PageTally.within _) PageTally.quiet PageTally.in_order
    PageTally.first_pages (by simp) calls hcalls
  obtain rfl : y = z := Option.some.inj (hrun.symm.trans hz)
  exact ⟨y, hrun, hdelivered, fun dir => ((hexecuted dir).2.2 hhalts).2.2 hdelivered.idle⟩
end ScatterGather
