import ScatterGather.Proofs.Inventory
import ScatterGather.Proofs.Pacing
import ScatterGather.Proofs.Windows

/-! # Pages stay locked under the device

The pages that are held are those of the regions in the pipeline, and those of an answer that the
worker has in hand. A batch in flight lies in the active region, which is given back only after it
was retired, and it is retired only after its last batch was acknowledged.
-/
namespace ScatterGather

/-- The pages of an answer are the first pages of the range, in the order of their addresses. -/
def FirstPages (range : PageRun) (pages : List Page) : Prop :=
  ∃ count, pages.map Page.host = range.addresses.take count

theorem Region.Covers.ordered {g : Region} {r : Request} {s : Settings} {b : Nat}
    (h : g.Covers FirstPages r s b) : g.Ordered := by
  obtain ⟨count, hpages⟩ := h.pages
  intro i page hi
  have hhost : (g.pages.map Page.host)[i]? = some page.host := by
    rw [List.getElem?_map, hi]
    rfl
  rw [hpages, List.getElem?_take] at hhost
  split at hhost
  · rw [PageRun.addresses, List.getElem?_map, Option.map_eq_some_iff] at hhost
    obtain ⟨j, hj, hhost⟩ := hhost
    obtain rfl : i = j := by
      have := (List.getElem?_eq_some_iff.mp hj).2
      simpa using this
    have hbase : g.base = (r.windowRun s b).base := by
      rw [Region.base, h.start, h.pageSize]
      rfl
    rw [← hhost, hbase, h.pageSize]
    rfl
  · cases hhost

theorem Window.carve_lies {w : Window} {r : Request} {s : Settings} {b : Nat} {start : BatchPlace}
    {entries : List Entry} {device : Nat} {a : Account} (hs : s.Valid) (hsmall : s.pageSize ≤ 2 ^ 19)
    (hid : start.id ≤ lastSlot) (hcovers : w.region.Covers FirstPages r s b)
    (hrequest : a.request = some r) (hbytes : a.bytes = b + w.cursor)
    (h : w.carve s r.direction device start = .ok entries) :
    Flight.LiesIn ⟨r.direction, start, entries, a⟩ s.pageSize w.region.pages := by
  have hsize : s.pageSize < 2 ^ 34 := Nat.lt_of_le_of_lt hsmall (by decide)
  obtain ⟨hlens, hentries, -, hbounds⟩ := carve_pieces hs hsize hid h
  have hposition : r.host + a.bytes = w.position := by
    rw [hbytes, position, hcovers.start, Nat.add_assoc]
  refine ⟨r, hrequest, ?_⟩
  intro i e he
  obtain ⟨len, hlen, page, hp, hhost, hentry⟩ := describe_page hcovers.ordered hentries he
  have hin := pieces_in_page hs hlens hlen
  obtain ⟨hdvd, -, hmax⟩ := hbounds len (List.mem_of_getElem? hlen)
  simp only [Nat.zero_add, hcovers.pageSize] at hhost hentry
  rw [Entry.total_eq, List.map_take, hposition]
  refine ⟨page, hp, hhost, ?_, ?_⟩
  · rwa [hentry, Entry.size_moving hdvd (Nat.lt_of_le_of_lt hmax hsize)]
  · rw [hentry]
    cases r.direction <;> rfl

/-- No batch may be in flight here. -/
def Juncture.Grounded : Juncture → Prop
  | due .. | turned .. | asked .. | supplied .. | broken .. | told _ => True
  | _ => False

/-- What is held at a juncture, and what is in flight. -/
structure Custody {σ : Type} (pageSize : Nat) (s : Station σ) (j : Juncture) : Prop where
  valid : ∀ r ∈ s.worker.pipeline.regions, r.valid = true
  held : (heldRuns s.machine.history).Perm (s.worker.pipeline.regions.map Region.pages ++ j.inHand)
  bracketed : Bracketed s.machine.history
  sole : Sole s.machine.history
  sheltered : Sheltered pageSize s.machine.history
  grounded : j.Grounded ∨ s.worker.transfer = none → inFlight s.machine.history = []
  flight : ∀ b ∈ inFlight s.machine.history,
    ∃ w, s.worker.pipeline.active = some w ∧ b.LiesIn pageSize w.region.pages

section Steps
variable {σ : Type} {P : Nat} {s t : Station σ} {j j' : Juncture} {k : Errand} {p : Progress}
  {l : List Event}

theorem Pipeline.mem_regions {q : Pipeline} {w : Window} (h : q.active = some w) :
    w.region ∈ q.regions := by simp [regions, h]

theorem Pipeline.active_held {q : Pipeline} {w : Window} {held rest : List (List Page)}
    (hh : held.Perm (q.regions.map Region.pages ++ rest)) (hw : q.active = some w) :
    w.region.pages ∈ held := by
  apply hh.symm.subset
  exact List.mem_append_left _ (List.mem_map_of_mem (mem_regions hw))

theorem Custody.sheltered_now (h : Custody P s j) :
    ∀ b ∈ inFlight s.machine.history, ∃ pages ∈ heldRuns s.machine.history, b.LiesIn P pages := by
  intro b hb
  obtain ⟨w, hw, hlies⟩ := h.flight b hb
  exact ⟨w.region.pages, Pipeline.active_held h.held hw, hlies⟩

theorem Custody.pass (h : Custody P s j) (j' : Juncture) (hin : j'.inHand = j.inHand)
    (hg : j'.Grounded → inFlight s.machine.history = []) : Custody P s j' where
  valid := h.valid
  held := hin ▸ h.held
  bracketed := h.bracketed
  sole := h.sole
  sheltered := h.sheltered
  grounded hj := hj.elim hg fun hn => h.grounded (.inr hn)
  flight := h.flight

theorem Custody.silent (h : Custody P s j) (hh : t.machine.history = l ++ s.machine.history)
    (hl : ∀ e ∈ l, e.Silent) (hq : t.worker.pipeline = s.worker.pipeline)
    (hg : t.worker.transfer = none → s.worker.transfer = none) : Custody P t j where
  valid := hq ▸ h.valid
  held := by
    rw [hh, heldRuns_append fun e he => (hl e he).keepsPages, hq]
    exact h.held
  bracketed := hh ▸ h.bracketed.append hl
  sole := hh ▸ h.sole.append fun e he => (hl e he).passive
  sheltered := hh ▸ h.sheltered.append hl
  grounded hj := by
    rw [hh]
    exact inFlight_append_nil (fun e he => (hl e he).passive.neutral) (h.grounded (hj.imp_right hg))
  flight b hb := by
    rw [hh] at hb
    rw [hq]
    exact h.flight b (inFlight_append (fun e he => (hl e he).passive.neutral) b hb)

theorem Custody.event {e : Event} (h : Custody P s j) (hh : t.machine.history = e :: s.machine.history)
    (hheld : heldRuns (e :: s.machine.history) = heldRuns s.machine.history)
    (hflight : inFlight (e :: s.machine.history) = inFlight s.machine.history)
    (hb : Bracketed (e :: s.machine.history)) (hs : Sole (e :: s.machine.history))
    (hq : t.worker.pipeline = s.worker.pipeline)
    (hg : t.worker.transfer = none → s.worker.transfer = none) : Custody P t j where
  valid := hq ▸ h.valid
  held := by
    rw [hh, hheld, hq]
    exact h.held
  bracketed := hh ▸ hb
  sole := hh ▸ hs
  sheltered := by
    rw [hh]
    apply Throughout.cons h.sheltered
    intro b hb
    rw [hheld]
    exact h.sheltered_now b (hflight ▸ hb)
  grounded hj := by
    rw [hh, hflight]
    exact h.grounded (hj.imp_right hg)
  flight b hb := by
    rw [hh, hflight] at hb
    rw [hq]
    exact h.flight b hb

theorem Custody.strike (h : Custody P s j) (i : Incident) : Custody P (s.strike i) j := by
  obtain ⟨l, hh, hsilent | ⟨-, r, rfl⟩⟩ := s.machine.incur_history i
  · exact h.silent hh hsilent rfl id
  · exact h.event hh rfl rfl (Throughout.cons h.bracketed trivial) (Throughout.cons h.sole trivial)
      rfl id

/-- Regions that leave the pipeline are given back, and the others stay. -/
theorem Custody.freed (h : Custody P s j) {freed rest : List Region}
    (hr : s.worker.pipeline.regions = freed ++ rest) :
    (∀ r ∈ rest, r.valid = true) ∧
      (heldRuns (freed.reverse.flatMap Region.unlocks ++ s.machine.history)).Perm
        (rest.map Region.pages ++ j.inHand) ∧
      Bracketed (freed.reverse.flatMap Region.unlocks ++ s.machine.history) := by
  have hvalid := h.valid
  have hheld := h.held
  rw [hr, List.map_append, List.append_assoc] at hheld
  rw [hr] at hvalid
  refine ⟨fun r hm => hvalid r (List.mem_append_right _ hm), ?_⟩
  exact heldRuns_unlocks (fun r hm => hvalid r (List.mem_append_left _ hm)) hheld h.bracketed

/-- With nothing in flight any of the regions can be given back. -/
theorem Custody.clear (h : Custody P s j) (freed : List Region)
    (hn : inFlight s.machine.history = [])
    (hr : s.worker.pipeline.regions = freed ++ t.worker.pipeline.regions)
    (hh : t.machine.history = freed.reverse.flatMap Region.unlocks ++ s.machine.history)
    (hin : j'.inHand = j.inHand) : Custody P t j' := by
  have hpassive := passive_unlocks freed.reverse
  obtain ⟨hvalid, hheld, hb⟩ := h.freed hr
  have hnil : inFlight t.machine.history = [] := by
    rw [hh]
    exact inFlight_append_nil (fun e he => (hpassive e he).neutral) hn
  constructor
  case valid => exact hvalid
  case held =>
    rw [hh, hin]
    exact hheld
  case bracketed => exact hh ▸ hb
  case sole => exact hh ▸ h.sole.append hpassive
  case sheltered => exact hh ▸ h.sheltered.append_nil hpassive hn
  case grounded =>
    intro _
    exact hnil
  case flight =>
    intro b hb
    rw [hnil] at hb
    cases hb

theorem Custody.unpinAll (h : Custody P s j) (hn : inFlight s.machine.history = [])
    (hin : j.inHand = []) (hin' : j'.inHand = []) (ht : t.worker.pipeline = {})
    (hh : t.machine.history = s.worker.pipeline.unlocks ++ s.machine.history) : Custody P t j' := by
  apply h.clear s.worker.pipeline.regions hn _ hh (hin'.trans hin.symm)
  rw [ht]
  simp [Pipeline.regions]

/-- The retired region can be given back, since nothing in flight lies in it. -/
theorem Custody.retire (h : Custody P s j) (ha : t.worker.pipeline = { s.worker.pipeline with done := none })
    (hh : t.machine.history =
      s.worker.pipeline.done.toList.flatMap Region.unlocks ++ s.machine.history)
    (hg : t.worker.transfer = none → s.worker.transfer = none) : Custody P t j := by
  cases hd : s.worker.pipeline.done with
  | none =>
    have hsame : t.worker.pipeline = s.worker.pipeline := by rw [ha, ← hd]
    rw [hd] at hh
    exact h.silent hh (by simp) hsame hg
  | some r =>
    have hregions : s.worker.pipeline.regions = [r] ++ t.worker.pipeline.regions := by
      rw [ha]
      simp [Pipeline.regions, hd]
    have hunlock : r.unlocks = [.unlock r.pages r.direction.writesHost] :=
      if_pos (h.valid r (hregions ▸ List.mem_append_left _ (List.mem_singleton_self r)))
    obtain ⟨hvalid, hheld, hb⟩ := h.freed hregions
    simp only [List.reverse_singleton, List.flatMap_singleton, hunlock, List.singleton_append] at hheld hb
    simp only [hd, Option.toList_some, List.flatMap_singleton, hunlock, List.singleton_append] at hh
    have hflight : ∀ b ∈ inFlight t.machine.history,
        ∃ w, t.worker.pipeline.active = some w ∧ b.LiesIn P w.region.pages := by
      intro b hb
      rw [hh] at hb
      rw [ha]
      exact h.flight b hb
    rw [← hh] at hheld hb
    constructor
    case valid => exact hvalid
    case held => exact hheld
    case bracketed => exact hb
    case flight => exact hflight
    all_goals rw [hh]
    case sole => exact Throughout.cons h.sole trivial
    case sheltered =>
      apply Throughout.cons h.sheltered
      intro b hb
      obtain ⟨w, hw, hlies⟩ := hflight b (hh ▸ hb)
      exact ⟨w.region.pages, hh ▸ Pipeline.active_held hheld hw, hlies⟩
    case grounded =>
      intro hj
      exact h.grounded (hj.imp_right hg)

theorem Custody.lock {range : PageRun} {writable : Bool} {pages : List Page} (h : Custody P s j)
    (hh : t.machine.history = .lock range writable pages :: s.machine.history)
    (hw : t.worker = s.worker) (hin : j.inHand = []) (hin' : j'.inHand = [pages])
    (hg : j'.Grounded → j.Grounded) : Custody P t j' where
  valid := hw ▸ h.valid
  held := by
    have hheld := h.held
    rw [hin, List.append_nil] at hheld
    rw [hh, hw, hin']
    exact (hheld.cons pages).trans (List.perm_append_singleton _ _).symm
  bracketed := hh ▸ Throughout.cons h.bracketed trivial
  sole := hh ▸ Throughout.cons h.sole trivial
  sheltered := by
    rw [hh]
    apply Throughout.cons h.sheltered
    intro b hb
    obtain ⟨held, hm, hlies⟩ := h.sheltered_now b hb
    exact ⟨held, List.mem_cons_of_mem _ hm, hlies⟩
  grounded hj := by
    rw [hh]
    exact h.grounded (hj.imp hg fun ht => hw ▸ ht)
  flight b hb := by
    rw [hh] at hb
    rw [hw]
    exact h.flight b hb

theorem Custody.unlock {pages : List Page} {dirty : Bool} (h : Custody P s j)
    (hh : t.machine.history = .unlock pages dirty :: s.machine.history)
    (hw : t.worker = s.worker) (hin : j.inHand = [pages]) (hin' : j'.inHand = [])
    (hg : j'.Grounded → j.Grounded) : Custody P t j' := by
  have hheld := h.held
  rw [hin] at hheld
  have hmem : pages ∈ heldRuns s.machine.history := hheld.symm.subset (by simp)
  have hheld' : ((heldRuns s.machine.history).erase pages).Perm
      (s.worker.pipeline.regions.map Region.pages ++ []) := by
    have herase := (hheld.trans (List.perm_append_singleton _ _)).erase pages
    rwa [List.erase_cons_head, ← List.append_nil (List.map _ _)] at herase
  constructor
  case valid => exact hw ▸ h.valid
  case held =>
    rw [hh, hw, hin']
    exact hheld'
  case bracketed => exact hh ▸ Throughout.cons h.bracketed hmem
  case sole => exact hh ▸ Throughout.cons h.sole trivial
  case sheltered =>
    rw [hh]
    apply Throughout.cons h.sheltered
    intro b hb
    obtain ⟨w, hw, hlies⟩ := h.flight b hb
    exact ⟨w.region.pages, Pipeline.active_held hheld' hw, hlies⟩
  case grounded =>
    intro hj
    rw [hh]
    exact h.grounded (hj.imp hg fun ht => hw ▸ ht)
  case flight =>
    intro b hb
    rw [hh] at hb
    rw [hw]
    exact h.flight b hb

theorem Custody.adopt {r : Region} (h : Custody P s j) (hh : t.machine.history = s.machine.history)
    (hr : t.worker.pipeline.regions = s.worker.pipeline.regions ++ [r]) (hv : r.valid = true)
    (hin : j.inHand = [r.pages]) (hin' : j'.inHand = []) (ht : t.worker.transfer = s.worker.transfer)
    (ha : t.worker.pipeline.active = s.worker.pipeline.active ∨ j.Grounded)
    (hg : j'.Grounded → j.Grounded) : Custody P t j' where
  valid x hx := by
    rcases List.mem_append.mp (hr ▸ hx) with hx | hx
    · exact h.valid x hx
    · exact List.mem_singleton.mp hx ▸ hv
  held := by
    have hheld := h.held
    rw [hin] at hheld
    rwa [hh, hin', List.append_nil, hr, List.map_append]
  bracketed := hh ▸ h.bracketed
  sole := hh ▸ h.sole
  sheltered := hh ▸ h.sheltered
  grounded hj := by
    rw [hh]
    exact h.grounded (hj.imp hg fun hn => ht ▸ hn)
  flight b hb := by
    rw [hh] at hb
    rcases ha with ha | hj
    · rw [ha]
      exact h.flight b hb
    · rw [h.grounded (.inl hj)] at hb
      cases hb

variable [Platform σ] {st : Settings} {start : BatchPlace} {w : Window} {entries : List Entry}

/-- A batch that is handed over is the only one in flight, and lies in the active region. -/
theorem Custody.issue (hs : st.Valid) (hsmall : st.pageSize ≤ 2 ^ 19) (hc : s.view.Poised k p)
    (hid : start.id ≤ lastSlot) (hw : Windows FirstPages st s.worker (.supplied k p start w))
    (h : Custody st.pageSize s (.supplied k p start w))
    (hcarve : w.carve st p.request.direction (p.request.device + p.sent) start = .ok entries) :
    Custody st.pageSize (s.issue p start entries) (.handed k (p.past entries)) := by
  obtain ⟨⟨v, b, hv, hcovers, -, hx, -⟩, hactive, -⟩ := hw
  obtain rfl : w = v := Option.some.inj (hactive.symm.trans hv)
  obtain ⟨events, hsilent, hh⟩ := Station.issue_history hc.busy p start entries
  have hnone : inFlight s.machine.history = [] := h.grounded (.inl trivial)
  let batch : Flight := ⟨p.request.direction, start, entries, .ofHistory s.machine.history⟩
  have hlies : batch.LiesIn st.pageSize w.region.pages :=
    Window.carve_lies hs hsmall hid hcovers hc.request (hc.sent.symm.trans hx) hcarve
  have hflight : inFlight (.issue p.request.direction start entries :: s.machine.history) = [batch] := by
    rw [inFlight, hnone]
  -- first the batch alone is recorded, then the silent events up to the write of its last id
  let recorded : Station σ := { s.issue p start entries with
    machine := s.machine.record (.issue p.request.direction start entries) }
  have hregions : recorded.worker.pipeline.regions = s.worker.pipeline.regions :=
    Pipeline.regions_consume _ _
  have hrecorded : Custody st.pageSize recorded (.handed k (p.past entries)) := by
    constructor
    case valid => exact hregions ▸ h.valid
    case held =>
      rw [hregions]
      exact h.held
    case bracketed => exact Throughout.cons h.bracketed trivial
    case sole => exact Throughout.cons h.sole hnone
    case sheltered =>
      apply Throughout.cons h.sheltered
      intro b hb
      obtain rfl := List.mem_singleton.mp (hflight ▸ hb)
      exact ⟨w.region.pages, Pipeline.active_held h.held hactive, hlies⟩
    case grounded =>
      rintro (hj | ht)
      · exact hj.elim
      · cases ht
    case flight =>
      intro b hb
      obtain rfl := List.mem_singleton.mp (hflight ▸ hb)
      refine ⟨w.consume (Entry.total entries), ?_, hlies⟩
      exact congrArg (Option.map fun v => v.consume (Entry.total entries)) hactive
  refine hrecorded.silent (t := s.issue p start entries)
    (l := .write (Register.address p.request.direction .lastId)
      (UInt32.ofNat (Ring.lastIdOf start entries)) :: events) hh ?_ rfl id
  simpa [Event.Silent] using hsilent

theorem Custody.tell {phase : Phase} {outcome : Outcome} (h : Custody P s j) (hj : j.Grounded)
    (hin : j.inHand = []) : Custody P (s.tell phase outcome) (.told k) := by
  have hreset : Custody P (s.reset phase) (.told k) :=
    h.unpinAll (h.grounded (.inl hj)) hin rfl rfl (s.worker.pipeline.unpinAll_sees s.machine).history
  have hempty : heldRuns (s.reset phase).machine.history = [] := List.perm_nil.mp hreset.held
  exact hreset.event rfl rfl rfl (Throughout.cons hreset.bracketed hempty)
    (Throughout.cons hreset.sole trivial) rfl id

variable {x y : Juncture × Station σ}

theorem Custody.step (hs : st.Valid) (hsmall : st.pageSize ≤ 2 ^ 19) (hst : x.2.settings = st)
    (hstep : Step Incident.Honest (fun a w => a.Halts → w.transfer = none) x y)
    (hc : Control x.2.view x.1)
    (hp : Pacing x.2 x.1) (hw : Windows FirstPages st x.2.worker x.1)
    (h : Custody st.pageSize x.2 x.1) : Custody st.pageSize y.2 y.1 := by
  have hsame {s t : Station σ} {j : Juncture} (h : Custody st.pageSize s j)
      (ht : t.worker = s.worker) (hh : t.machine.history = s.machine.history) :
      Custody st.pageSize t j :=
    h.silent (l := []) hh (by simp) (congrArg Worker.pipeline ht)
      fun hn => (congrArg Worker.transfer ht).symm.trans hn
  cases hstep with
  | strike => exact h.strike _
  | interrupt | setPayload => exact hsame h rfl rfl
  | @stop s ht =>
    exact h.unpinAll (h.grounded (.inr (ht trivial))) rfl rfl rfl
      (s.worker.pipeline.unpinAll_sees s.machine).history
  | @finish s ht =>
    have hhistory := (s.worker.pipeline.unpinAll_sees
      (s.mapChannel ({ · with finished := true })).machine).history
    exact h.unpinAll (h.grounded (.inr (ht trivial))) rfl rfl rfl hhistory
  | serve | leave => exact h.pass _ rfl fun hj => hj.elim
  | @drained s => exact hsame (h.pass .rest rfl fun hj => hj.elim) rfl rfl
  | @begin s r hj =>
    obtain ⟨-, ⟨r', hr, hqueued⟩ | ⟨p, hr, -⟩⟩ := hc.taken hj <;> cases hr
    have hdue : Custody st.pageSize s (.due .start { request := r }) :=
      h.pass _ rfl fun _ => h.grounded (.inr hqueued.transfer)
    exact hdue.silent (l := [_]) rfl (by simp [Event.Silent]) rfl nofun
  | @resume s p hj ht =>
    -- only an acknowledged batch brings an advance, so nothing is in flight when one is handled
    have hacknowledged : Acknowledged s.machine.history := (hp.resume hj ht).batch rfl
    exact hsame (h.pass _ rfl fun _ => hacknowledged.landed h.sole) rfl rfl
  | stale hj ht => exact absurd ht (hc.not_stale hj)
  | complete => exact h.tell trivial rfl
  | fail => exact h.tell trivial rfl
  | refuse | keep | unpinnable | uncarved => exact h.pass _ rfl fun _ => h.grounded (.inl trivial)
  | @turn k p s start =>
    refine h.clear s.worker.pipeline.done.toList (h.grounded (.inl trivial)) ?_ ?_ rfl
    · simp [Station.turn, Pipeline.regions]
    · have hreverse : s.worker.pipeline.done.toList.reverse = s.worker.pipeline.done.toList := by
        cases s.worker.pipeline.done <;> rfl
      rw [hreverse]
      exact (s.worker.pipeline.unpinDone_sees s.machine).history
  | @promote k p s start r hn =>
    have hregions : (s.promote r).worker.pipeline.regions = s.worker.pipeline.regions :=
      Pipeline.regions_promote hw.active hn
    exact h.clear [] (h.grounded (.inl trivial)) hregions.symm rfl rfl
  | ask => exact h.lock rfl rfl rfl rfl fun _ => trivial
  | askAhead => exact h.lock rfl rfl rfl rfl fun hj => hj.elim
  | short => exact h.unlock rfl rfl rfl rfl fun _ => trivial
  | shortAhead => exact h.unlock rfl rfl rfl rfl fun hj => hj.elim
  | pinned =>
    obtain ⟨hturned, hn, -⟩ := hw
    exact h.adopt rfl (Pipeline.regions_activate hturned.active hn _) rfl rfl rfl rfl (.inr trivial)
      fun _ => trivial
  | keepNext =>
    obtain ⟨-, hn, -⟩ := hw
    exact h.adopt rfl (Pipeline.regions_keepNext hn _) rfl rfl rfl rfl (.inl rfl) fun hj => hj.elim
  | issue hcarve =>
    exact h.issue hs hsmall hc.1 (Ring.start?_le hc.2) hw (by rwa [hst] at hcarve)
  | @release k p s =>
    have hpipeline : s.release.worker.pipeline = { s.worker.pipeline with done := none } :=
      Pipeline.unpinDone_pipeline _ _
    have hhistory := (s.worker.pipeline.unpinDone_sees s.machine).history
    exact (h.pass (.released k p) rfl fun hj => hj.elim).retire hpipeline hhistory id
  | skip | unpinnableAhead | heard | closeStart => exact h.pass _ rfl fun hj => hj.elim
  | closeAdvance => exact hsame (h.pass .ready rfl fun hj => hj.elim) rfl rfl

theorem Path.custody (hs : st.Valid) (hsmall : st.pageSize ≤ 2 ^ 19) (hq : Platform.Quiet σ)
    (ha : Platform.Answers σ FirstPages) (hst : x.2.settings = st) (hc : Control x.2.view x.1)
    (hp : Pacing x.2 x.1) (hw : Windows FirstPages st x.2.worker x.1)
    (h : Custody st.pageSize x.2 x.1)
    (hpath : Path Incident.Honest (fun a w => a.Halts → w.transfer = none) x y) :
    Custody st.pageSize y.2 y.1 := by
  induction hpath with
  | refl => exact h
  | tail hpath hstep ih =>
    obtain ⟨hcontrol, hsame⟩ := Path.control (hst ▸ hs) hc hpath
    have hpacing := Path.pacing hq (hst ▸ hs) hc hp hpath
    have hwindows := Path.windows hs ha hst hc hw hpath
    exact ih.step hs hsmall (hsame.trans hst) hstep hcontrol hpacing hwindows

omit [Platform σ] in
theorem Custody.initial (settings : Settings) (tableBus : Sides Nat) (registers : RegisterFile)
    (platform : σ) (listener : List (List Incident)) :
    Custody P (Station.initial settings tableBus registers platform listener) .rest where
  valid _ hr := by cases hr
  held := .refl _
  bracketed := .nil trivial
  sole := .nil trivial
  sheltered := .nil nofun
  grounded _ := rfl
  flight _ hb := by cases hb

/-- In every run of a worker that is halted only between transfers, on a controller that was just
reset, and at every instant of the run: each descriptor of a batch that the device has not flagged
leads into one page of an answer that is held, all pages of such an answer are locked, also where two
answers share a page, and an answer is given back whole and once, before the end of its transfer is
told. -/
theorem run_sheltered (settings : Settings) (hs : settings.Valid) (hsmall : settings.pageSize ≤ 2 ^ 19)
    (tableBus : Sides Nat) (platform : σ) (hp : Platform.Within σ Incident.Honest)
    (hq : Platform.Quiet σ) (hfirst : Platform.Answers σ FirstPages) (listener : List (List Incident))
    (hl : ∀ reaction ∈ listener, ∀ i ∈ reaction, i.Honest) (acts : List Act)
    (ha : ∀ a ∈ acts, a.Within Incident.Honest)
    (hh : (Station.initial settings tableBus .reset platform listener).HaltsOnly
      (fun w => w.transfer = none) acts) :
    let history := ((Station.initial settings tableBus .reset platform listener).run acts).machine.history
    Sheltered settings.pageSize history ∧ Bracketed history ∧
      Throughout (fun now => ∀ pages ∈ heldRuns now, ∀ page ∈ pages, Locked page.host now) history := by
  intro history
  let s := Station.initial settings tableBus .reset platform listener
  have hpath := Path.run (s := s) hp hl ha hh
  have hcustody := Path.custody (x := (.rest, s)) hs hsmall hq hfirst rfl (Control.initial ..)
    (Pacing.initial ..) nofun (Custody.initial ..) hpath
  refine ⟨hcustody.sheltered, hcustody.bracketed, ?_⟩
  intro newer older heq pages hpages page hpage
  have hbracketed : Bracketed (newer ++ older) := heq ▸ hcustody.bracketed
  exact Bracketed.locked (Throughout.older newer hbracketed) hpages hpage

end Steps

theorem Bench.PageTally.first_pages : Platform.Answers Bench.PageTally FirstPages := by
  intro h range writable
  refine ⟨h.grant range.pages, ?_⟩
  simp only [Platform.lock, Bench.PageTally.lock, PageRun.addresses, List.map_map,
    ← List.map_take, List.take_range, Nat.min_eq_left (h.grant_le range.pages)]
  rfl

/-- A transfer over two windows that share a page, the second of which is pinned ahead. -/
theorem run_sheltered_tally :
    let history := ((Station.initial { windowPages := 1 } (.both 0) .reset ({} : Bench.PageTally)
      []).run [.stop,
        .strike (.submit { direction := .hostToDevice, host := 0x2004, device := 16, len := 0x2000 }),
        .serve, .strike (.complete .hostToDevice), .interrupt 0, .serve]).machine.history
    Sheltered 0x1000 history ∧ Bracketed history ∧
      Throughout (fun now => ∀ pages ∈ heldRuns now, ∀ page ∈ pages, Locked page.host now) history :=
  run_sheltered { windowPages := 1 } (by decide) (by decide) _ _ (Bench.PageTally.within _)
    Bench.PageTally.quiet Bench.PageTally.first_pages _ (by simp) _
    (by simp [Act.Within, Incident.Honest]) ⟨fun _ => rfl, nofun, nofun, nofun, nofun, nofun, trivial⟩
end ScatterGather
