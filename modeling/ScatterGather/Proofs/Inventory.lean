import ScatterGather.Proofs.Holdings
import ScatterGather.Proofs.Hosts
import ScatterGather.Proofs.Moments
import ScatterGather.Proofs.Windows

/-! # Every page is accounted for

Whatever the platform answers, what it handed out and did not get back are the pages of the regions in
the pipeline, and an answer that the worker has in hand. There are never more than two of them,
because one of the pipeline's three places is empty whenever a region is put into it.
-/
namespace ScatterGather

/-- All pages that were handed out, those of the latest answer first. -/
def lent : List Event → List Page
  | [] => []
  | .lock _ _ pages :: older => pages ++ lent older
  | _ :: older => lent older

/-- All pages that were given back, the latest first. -/
def returned : List Event → List Page
  | [] => []
  | .unlock pages _ :: older => pages ++ returned older
  | _ :: older => returned older

/-- Never more than two answers of the platform were held. -/
def Few : List Event → Prop := Throughout fun now => (heldRuns now).length ≤ 2

/-- Events that no page has a part in, and that do not ask for all pages to be given back. -/
def Event.Aside : Event → Prop
  | lock .. | unlock .. | notify .. => False
  | _ => True

theorem Event.Silent.aside {e : Event} (h : e.Silent) : e.Aside := by
  cases e with
  | lock | unlock | notify => exact h
  | _ => trivial

theorem Event.Aside.keepsPages {e : Event} (h : e.Aside) : e.KeepsPages := by
  cases e with
  | lock | unlock => exact h
  | _ => trivial

section Histories
variable {history l : List Event} {e : Event}

/-- What was handed out is what was given back and what is held. -/
theorem Bracketed.lent_perm (h : Bracketed history) :
    (lent history).Perm (returned history ++ (heldRuns history).flatten) := by
  induction history with
  | nil => exact .refl _
  | cons e history ih =>
    have hrest := ih (Throughout.older [e] h)
    cases e with
    | lock range writable pages =>
      exact (hrest.append_left pages).trans (List.perm_append_comm_assoc _ _ _)
    | unlock pages dirty =>
      have hmem : pages ∈ heldRuns history := h.now
      have hheld : (heldRuns history).flatten.Perm (pages ++ ((heldRuns history).erase pages).flatten) :=
        (List.perm_cons_erase hmem).flatten
      calc
        List.Perm (lent history) (returned history ++ (heldRuns history).flatten) := hrest
        List.Perm _ (returned history ++ (pages ++ ((heldRuns history).erase pages).flatten)) :=
          hheld.append_left _
        List.Perm _ (pages ++ (returned history ++ ((heldRuns history).erase pages).flatten)) :=
          List.perm_append_comm_assoc _ _ _
        _ = (pages ++ returned history) ++ ((heldRuns history).erase pages).flatten :=
          (List.append_assoc ..).symm
    | _ => exact hrest

theorem Bracketed.aside (he : ∀ e ∈ l, e.Aside) (h : Bracketed history) : Bracketed (l ++ history) := by
  apply Throughout.append _ h
  intro e hmem older _
  have haside := he e hmem
  cases e with
  | unlock | notify => exact haside.elim
  | _ => trivial

theorem Few.append (he : ∀ e ∈ l, ∀ range writable pages, e ≠ .lock range writable pages)
    (h : Few history) : Few (l ++ history) := by
  apply Throughout.append _ h
  intro e hmem older hrest
  have hfew := hrest.now
  cases e with
  | lock range writable pages => exact absurd rfl (he _ hmem range writable pages)
  | unlock pages dirty => exact Nat.le_trans List.length_erase_le hfew
  | _ => exact hfew

theorem not_lock_unlocks (regions : List Region) :
    ∀ e ∈ regions.flatMap Region.unlocks, ∀ range writable pages, e ≠ .lock range writable pages := by
  rintro e he range writable pages rfl
  obtain ⟨r, -, he⟩ := List.mem_flatMap.mp he
  unfold Region.unlocks at he
  split at he <;> simp at he

theorem heldRuns_unlocks {history : List Event} {regions : List Region} {rest : List (List Page)}
    (hv : ∀ r ∈ regions, r.valid = true)
    (hh : (heldRuns history).Perm (regions.map Region.pages ++ rest)) (hb : Bracketed history) :
    (heldRuns (regions.reverse.flatMap Region.unlocks ++ history)).Perm rest ∧
      Bracketed (regions.reverse.flatMap Region.unlocks ++ history) := by
  -- the last of the regions is given back first, so the others are held at that time
  induction regions generalizing history with
  | nil => exact ⟨hh, hb⟩
  | cons r regions ih =>
    have hunlock : r.unlocks = [.unlock r.pages r.direction.writesHost] :=
      if_pos (hv r List.mem_cons_self)
    have hmem : r.pages ∈ heldRuns history := hh.symm.subset (by simp)
    rw [List.reverse_cons, List.flatMap_append, List.append_assoc, List.flatMap_singleton, hunlock]
    refine ih (fun x hx => hv x (List.mem_cons_of_mem _ hx)) ?_ (Throughout.cons hb hmem)
    have herase := hh.erase r.pages
    rwa [List.map_cons, List.cons_append, List.erase_cons_head] at herase

end Histories

def Juncture.inHand : Juncture → List (List Page)
  | asked _ _ _ pages | askedAhead _ _ _ pages => [pages]
  | _ => []

namespace Pipeline

theorem regions_consume (q : Pipeline) (bytes : Nat) :
    (q.consume bytes).regions = q.regions := by
  rcases q with ⟨active, next, done⟩
  cases active <;> rfl

theorem regions_promote {q : Pipeline} {r : Region} (ha : q.active = none)
    (hn : q.next = some r) :
    ({ q with active := some { region := r }, next := none } : Pipeline).regions = q.regions := by
  simp [regions, ha, hn]

theorem regions_activate {q : Pipeline} (ha : q.active = none) (hn : q.next = none)
    (r : Region) :
    ({ q with active := some { region := r } } : Pipeline).regions = q.regions ++ [r] := by
  simp [regions, ha, hn]

theorem regions_keepNext {q : Pipeline} (hn : q.next = none) (r : Region) :
    (q.keepNext r).regions = q.regions ++ [r] := by
  simp [regions, keepNext, hn]

/-- One of the three places is empty, and so is every place that is about to be taken. -/
def HasRoom (q : Pipeline) : Juncture → Prop
  | .turned .. => q.active = none
  | .asked .. => q.active = none ∧ q.next = none
  | .supplied .. | .handed .. => q.done = none ∨ q.next = none
  | .askedAhead .. => q.done = none ∧ q.next = none
  | .broken .. => q.done = none ∨ q.active = none ∨ q.next = none
  | _ => q.done = none

theorem HasRoom.length_le {q : Pipeline} {j : Juncture} (h : q.HasRoom j) :
    q.regions.length + j.inHand.length ≤ 2 := by
  rcases q with ⟨active, next, done⟩
  cases j <;> simp only [HasRoom] at h <;> cases active <;> cases next <;> cases done <;>
    simp_all [regions, Juncture.inHand]

end Pipeline

/-- What is held at a juncture. -/
structure Inventory {σ : Type} (s : Station σ) (j : Juncture) : Prop where
  valid : ∀ r ∈ s.worker.pipeline.regions, r.valid = true
  held : (heldRuns s.machine.history).Perm (s.worker.pipeline.regions.map Region.pages ++ j.inHand)
  bracketed : Bracketed s.machine.history
  few : Few s.machine.history

section Frames
variable {σ : Type} {s t : Station σ} {j j' : Juncture} {l : List Event} {pages : List Page}

theorem Inventory.aside (h : Inventory s j) (hh : t.machine.history = l ++ s.machine.history)
    (hl : ∀ e ∈ l, e.Aside) (hr : t.worker.pipeline.regions = s.worker.pipeline.regions)
    (hin : j'.inHand = j.inHand) : Inventory t j' where
  valid := hr ▸ h.valid
  held := by
    rw [hh, heldRuns_append fun e he => (hl e he).keepsPages, hr, hin]
    exact h.held
  bracketed := hh ▸ h.bracketed.aside hl
  few := by
    rw [hh]
    apply h.few.append
    rintro e he range writable pages rfl
    exact hl _ he

/-- Regions that leave the pipeline are given back, and the others stay. -/
theorem Inventory.freed (h : Inventory s j) (freed : List Region)
    (hr : s.worker.pipeline.regions = freed ++ t.worker.pipeline.regions)
    (hh : t.machine.history = freed.reverse.flatMap Region.unlocks ++ s.machine.history)
    (hin : j'.inHand = j.inHand) : Inventory t j' := by
  have hvalid := h.valid
  have hheld := h.held
  rw [hr, List.map_append, List.append_assoc] at hheld
  rw [hr] at hvalid
  obtain ⟨hrest, hb⟩ := heldRuns_unlocks (fun r hm => hvalid r (List.mem_append_left _ hm)) hheld
    h.bracketed
  constructor
  case valid => exact fun r hm => hvalid r (List.mem_append_right _ hm)
  case held =>
    rw [hh, hin]
    exact hrest
  case bracketed => exact hh ▸ hb
  case few => exact hh ▸ h.few.append (not_lock_unlocks _)

theorem Inventory.clear (h : Inventory s j) (ht : t.worker.pipeline = {})
    (hh : t.machine.history = s.worker.pipeline.unlocks ++ s.machine.history)
    (hin : j'.inHand = j.inHand) : Inventory t j' := by
  apply h.freed s.worker.pipeline.regions _ hh hin
  rw [ht]
  simp [Pipeline.regions]

theorem Inventory.retire (h : Inventory s j)
    (hr : s.worker.pipeline.regions = s.worker.pipeline.done.toList ++ t.worker.pipeline.regions)
    (hh : t.machine.history =
      s.worker.pipeline.done.toList.flatMap Region.unlocks ++ s.machine.history)
    (hin : j'.inHand = j.inHand) : Inventory t j' := by
  apply h.freed s.worker.pipeline.done.toList hr _ hin
  rw [hh]
  cases s.worker.pipeline.done <;> rfl

theorem Inventory.lock {range : PageRun} {writable : Bool} (h : Inventory s j)
    (hh : t.machine.history = .lock range writable pages :: s.machine.history)
    (hw : t.worker = s.worker) (hin : j.inHand = []) (hin' : j'.inHand = [pages])
    (hroom : t.worker.pipeline.HasRoom j') : Inventory t j' := by
  have hheld := h.held
  rw [hin, List.append_nil] at hheld
  have hheld' : (heldRuns t.machine.history).Perm
      (t.worker.pipeline.regions.map Region.pages ++ j'.inHand) := by
    rw [hh, hw, hin']
    exact (hheld.cons pages).trans (List.perm_append_singleton _ _).symm
  constructor
  case valid => exact hw ▸ h.valid
  case held => exact hheld'
  case bracketed => exact hh ▸ Throughout.cons h.bracketed trivial
  case few =>
    have hlength := hheld'.length_eq
    rw [List.length_append, List.length_map] at hlength
    rw [hh] at hlength ⊢
    exact Throughout.cons h.few (hlength ▸ hroom.length_le)

theorem Inventory.unlock {dirty : Bool} (h : Inventory s j)
    (hh : t.machine.history = .unlock pages dirty :: s.machine.history)
    (hw : t.worker = s.worker) (hin : j.inHand = [pages]) (hin' : j'.inHand = []) :
    Inventory t j' := by
  have hheld := h.held
  rw [hin] at hheld
  have hmem : pages ∈ heldRuns s.machine.history := hheld.symm.subset (by simp)
  constructor
  case valid => exact hw ▸ h.valid
  case held =>
    have herase := (hheld.trans (List.perm_append_singleton _ _)).erase pages
    rw [List.erase_cons_head] at herase
    rw [hh, hw, hin', List.append_nil]
    exact herase
  case bracketed => exact hh ▸ Throughout.cons h.bracketed hmem
  case few => exact hh ▸ h.few.append (l := [_]) (by simp)

theorem Inventory.adopt {r : Region} (h : Inventory s j) (hh : t.machine.history = s.machine.history)
    (hr : t.worker.pipeline.regions = s.worker.pipeline.regions ++ [r]) (hv : r.valid = true)
    (hin : j.inHand = [r.pages]) (hin' : j'.inHand = []) : Inventory t j' where
  valid x hx := by
    rcases List.mem_append.mp (hr ▸ hx) with hx | hx
    · exact h.valid x hx
    · exact List.mem_singleton.mp hx ▸ hv
  held := by
    have hheld := h.held
    rw [hin] at hheld
    rwa [hh, hin', List.append_nil, hr, List.map_append]
  bracketed := hh ▸ h.bracketed
  few := hh ▸ h.few

theorem Inventory.strike (h : Inventory s j) (i : Incident) : Inventory (s.strike i) j := by
  obtain ⟨l, hh, hsilent | ⟨-, r, rfl⟩⟩ := s.machine.incur_history i
  · exact h.aside hh (fun e he => (hsilent e he).aside) rfl rfl
  · exact h.aside hh (by simp [Event.Aside]) rfl rfl

end Frames

section Steps
variable {σ : Type} [Platform σ] {A : Incident → Prop} {H : Act → Worker → Prop}
  {s : Station σ} {j : Juncture} {k : Errand} {x y : Juncture × Station σ}

theorem Pipeline.HasRoom.step (hstep : Step A H x y) (h : x.2.worker.pipeline.HasRoom x.1) :
    y.2.worker.pipeline.HasRoom y.1 := by
  cases hstep with
  | turn => rfl
  | stop | finish | complete | fail => rfl
  | refuse | keep => exact .inl h
  | promote => exact .inr rfl
  | unpinnable => exact .inr (.inl h)
  | ask hn => exact ⟨h, hn⟩
  | short => exact .inr (.inl h.1)
  | pinned => exact .inr h.2
  | uncarved => exact h.imp_right .inr
  | askAhead hn => exact ⟨h, hn⟩
  | shortAhead | keepNext => exact h.1
  | @release k p s =>
    have hpipeline : s.release.worker.pipeline = { s.worker.pipeline with done := none } :=
      Pipeline.unpinDone_pipeline _ _
    rw [hpipeline]
    rfl
  | _ => exact h

/-- All pages are given back before the end of a transfer is told. -/
theorem Inventory.tell {phase : Phase} {outcome : Outcome} (h : Inventory s j) (hin : j.inHand = []) :
    Inventory (s.tell phase outcome) (.told k) := by
  have hreset : Inventory (s.reset phase) (.told k) :=
    h.clear rfl (s.worker.pipeline.unpinAll_sees s.machine).history hin.symm
  have hempty : heldRuns (s.reset phase).machine.history = [] := List.perm_nil.mp hreset.held
  exact ⟨hreset.valid, hreset.held, Throughout.cons hreset.bracketed hempty,
    hreset.few.append (l := [_]) (by simp)⟩

theorem Inventory.step (hstep : Step A H x y) (hc : Control x.2.view x.1)
    (hroom : x.2.worker.pipeline.HasRoom x.1) (h : Inventory x.2 x.1) : Inventory y.2 y.1 := by
  have hroom' := hroom.step hstep
  cases hstep with
  | strike => exact h.strike _
  | @stop s => exact h.clear rfl (s.worker.pipeline.unpinAll_sees s.machine).history rfl
  | @finish s =>
    have hhistory := (s.worker.pipeline.unpinAll_sees
      (s.mapChannel ({ · with finished := true })).machine).history
    exact h.clear rfl hhistory rfl
  | complete | fail => exact h.tell rfl
  | begin => exact h.aside (l := [_]) rfl (by simp [Event.Aside]) rfl rfl
  | @turn k p s =>
    refine h.retire ?_ (s.worker.pipeline.unpinDone_sees s.machine).history rfl
    simp [Station.turn, Pipeline.regions]
  | @release k p s =>
    have hpipeline : s.release.worker.pipeline = { s.worker.pipeline with done := none } :=
      Pipeline.unpinDone_pipeline _ _
    refine h.retire ?_ (s.worker.pipeline.unpinDone_sees s.machine).history rfl
    rw [hpipeline]
    simp [Pipeline.regions]
  | promote hn =>
    have hregions := Pipeline.regions_promote hroom hn
    exact h.aside (l := []) rfl (by simp) hregions rfl
  | ask | askAhead => exact h.lock rfl rfl rfl rfl hroom'
  | short | shortAhead => exact h.unlock rfl rfl rfl rfl
  | pinned => exact h.adopt rfl (Pipeline.regions_activate hroom.1 hroom.2 _) rfl rfl rfl
  | keepNext => exact h.adopt rfl (Pipeline.regions_keepNext hroom.2 _) rfl rfl rfl
  | @issue k p s start w entries =>
    obtain ⟨events, hsilent, hh⟩ := Station.issue_history hc.1.busy p start entries
    have haside : ∀ e ∈ .write (Register.address p.request.direction .lastId)
        (UInt32.ofNat (Ring.lastIdOf start entries)) ::
          (events ++ [.issue p.request.direction start entries]), e.Aside := by
      intro e he
      simp only [List.mem_cons, List.mem_append, List.not_mem_nil, or_false] at he
      rcases he with rfl | he | rfl
      · trivial
      · exact (hsilent e he).aside
      · trivial
    exact h.aside (by simp [hh]) haside (Pipeline.regions_consume _ _) rfl
  | _ => exact h.aside (l := []) rfl (by simp) rfl rfl

theorem Path.inventory (hs : x.2.settings.Valid) (hc : Control x.2.view x.1)
    (hroom : x.2.worker.pipeline.HasRoom x.1) (h : Inventory x.2 x.1) (hpath : Path A H x y) :
    y.2.worker.pipeline.HasRoom y.1 ∧ Inventory y.2 y.1 := by
  refine Path.keep (P := fun z => z.2.worker.pipeline.HasRoom z.1 ∧ Inventory z.2 z.1) hs hc ?_
    ⟨hroom, h⟩ hpath
  rintro u v - hcontrol hstep ⟨hroom, h⟩
  exact ⟨hroom.step hstep, h.step hstep hcontrol hroom⟩

omit [Platform σ] in
theorem Inventory.initial (settings : Settings) (tableBus : Sides Nat) (registers : RegisterFile)
    (platform : σ) (listener : List (List Incident)) :
    Inventory (Station.initial settings tableBus registers platform listener) .rest where
  valid _ hr := by cases hr
  held := .refl _
  bracketed := .nil trivial
  few := .nil (Nat.zero_le _)

end Steps
end ScatterGather
