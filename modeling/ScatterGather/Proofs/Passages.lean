import ScatterGather.Proofs.Tallies
import ScatterGather.Proofs.Translations

/-! # The passage of regions through the pipeline

Regions enter the pipeline when they are pinned, become active one after the other, and are given back
in the order in which they came. This holds for any sequence of calls and for whatever pins the regions,
also when it fails in the middle of a rotation.
-/
namespace ScatterGather

/-- A call on the pipeline. What pins a region when one is needed comes with the call. -/
inductive PipelineCall (σ : Type) where
  | supply (fresh : Machine σ → Except MemoryFault Region × Machine σ)
  | consume (bytes : Nat)
  | keepNext (r : Region)
  | unpinDone
  | unpinAll

/-- A pipeline in use. What became of the regions so far is noted beside it, in the order of time. -/
structure Passage (σ : Type) where
  machine : Machine σ
  pipeline : Pipeline := {}
  entered : List Region := []
  activated : List Region := []
  unpinned : List Region := []

namespace Passage
variable {σ : Type} [Platform σ]

def call (x : Passage σ) : PipelineCall σ → Pipeline × Machine σ
  | .supply fresh => (x.pipeline.supply x.machine fresh).2
  | .consume bytes => (x.pipeline.consume bytes, x.machine)
  | .keepNext r => (x.pipeline.keepNext r, x.machine)
  | .unpinDone => x.pipeline.unpinDone x.machine
  | .unpinAll => x.pipeline.unpinAll x.machine

/-- The regions that are given back by a call, in this order. -/
def leaving (x : Passage σ) : PipelineCall σ → List Region
  | .supply _ => if x.pipeline.drained then x.pipeline.done.toList else []
  | .unpinDone => x.pipeline.done.toList
  | .unpinAll => x.pipeline.regions
  | _ => []

/-- What the call does when its regions are given back: a region is pinned if one is needed. -/
def afterwards (x : Passage σ) (m : Machine σ) : PipelineCall σ → Machine σ
  | .supply fresh => if x.pipeline.needsFresh then (fresh m).2 else m
  | _ => m

def arriving (x : Passage σ) : PipelineCall σ → List Region
  | .supply fresh =>
    if x.pipeline.needsFresh then
      (fresh (x.machine.unpinEach x.pipeline.done.toList)).1.toOption.toList
    else []
  | .keepNext r => [r]
  | _ => []

/-- The region that becomes active by a call, if one does. -/
def rising (x : Passage σ) : PipelineCall σ → List Region
  | .supply fresh =>
    if x.pipeline.drained then
      ((x.pipeline.supply x.machine fresh).1.toOption.map Window.region).toList
    else []
  | _ => []

def act (x : Passage σ) (c : PipelineCall σ) : Passage σ where
  machine := (x.call c).2
  pipeline := (x.call c).1
  entered := x.entered ++ x.arriving c
  activated := x.activated ++ x.rising c
  unpinned := x.unpinned ++ x.leaving c

def run (x : Passage σ) (calls : List (PipelineCall σ)) : Passage σ := calls.foldl act x

end Passage

/-- A region as pinning brings it. -/
def Region.Pinned (r : Region) : Prop := r.valid = true ∧ r.len ≠ 0

/-- Only pinned regions come into the pipeline, and none is kept as the next while there is a next. -/
def Passage.Admits {σ : Type} (x : Passage σ) : PipelineCall σ → Prop
  | .supply fresh => ∀ m r, (fresh m).1 = .ok r → r.Pinned
  | .keepNext r => x.pipeline.next = none ∧ r.Pinned
  | _ => True

def Passage.AdmitsAll {σ : Type} [Platform σ] : Passage σ → List (PipelineCall σ) → Prop
  | _, [] => True
  | x, c :: calls => x.Admits c ∧ (x.act c).AdmitsAll calls

/-- Every region that came in was given back or is in one of the three places, and the oldest ones are
those that were given back. -/
structure Passage.InOrder {σ : Type} (x : Passage σ) : Prop where
  whereabouts : x.entered = x.unpinned ++ x.pipeline.regions
  pinned : ∀ r ∈ x.pipeline.regions, r.Pinned
  few : x.pipeline.pinned ≤ 3
  activated : (x.activated ++ x.pipeline.next.toList).Sublist x.entered
  latest : x.pipeline.done.toList ++ (x.pipeline.active.map Window.region).toList <:+ x.activated

section Vocabulary
variable {σ : Type} [Platform σ]

/-- The regions that leave are unlocked one after the other, each of them once, and only then a region
is pinned. -/
structure Passage.Releases (x : Passage σ) (c : PipelineCall σ) : Prop where
  machine : (x.act c).machine = x.afterwards (x.machine.unpinEach (x.leaving c)) c
  history : (x.machine.unpinEach (x.leaving c)).history =
    (x.leaving c).reverse.flatMap Region.unlocks ++ x.machine.history
  once : ∀ r ∈ x.leaving c, r.unlocks = [.unlock r.pages r.direction.writesHost]

/-- When a region is pinned for a window, and what becomes of the places. -/
structure Passage.Supplies (x : Passage σ)
    (fresh : Machine σ → Except MemoryFault Region × Machine σ) : Prop where
  needed : x.pipeline.needsFresh = true ↔
    (∀ w, x.pipeline.active = some w → w.left = 0) ∧ x.pipeline.next = none
  called : x.pipeline.needsFresh = true →
    let answer := fresh (x.machine.unpinEach x.pipeline.done.toList)
    (x.pipeline.supply x.machine fresh).1 = answer.1.map (fun r => { region := r }) ∧
      (x.act (.supply fresh)).machine = answer.2
  uncalled : x.pipeline.needsFresh = false →
    ∀ other, x.pipeline.supply x.machine other = x.pipeline.supply x.machine fresh
  supplied : ∀ w, (x.pipeline.supply x.machine fresh).1 = .ok w →
    w.left ≠ 0 ∧ (x.act (.supply fresh)).pipeline.active = some w
  failed : ∀ e, (x.pipeline.supply x.machine fresh).1 = .error e →
    let y := x.act (.supply fresh)
    y.pipeline = { done := x.pipeline.active.map Window.region } ∧
      (y.act .unpinAll).pipeline.pinned = 0 ∧ (y.act .unpinAll).unpinned = y.entered

end Vocabulary

namespace Pipeline
variable {σ : Type} [Platform σ] {q : Pipeline} {m : Machine σ}
  {fresh : Machine σ → Except MemoryFault Region × Machine σ}

/-- The ways in which a window is supplied. -/
inductive Rotation (q : Pipeline) (m : Machine σ)
    (fresh : Machine σ → Except MemoryFault Region × Machine σ) : Prop where
  | left (w : Window) (hd : q.drained = false) (hw : q.active = some w) (hl : w.left ≠ 0)
      (h : q.supply m fresh = (.ok w, q, m))
  | promoted (r : Region) (hd : q.drained = true) (hn : q.next = some r)
      (h : q.supply m fresh = (.ok { region := r },
        { active := some { region := r }, done := q.active.map Window.region },
        m.unpinEach q.done.toList))
  | pinned (r : Region) (t : Machine σ) (hd : q.drained = true) (hn : q.next = none)
      (hf : fresh (m.unpinEach q.done.toList) = (.ok r, t))
      (h : q.supply m fresh = (.ok { region := r },
        { active := some { region := r }, done := q.active.map Window.region }, t))
  | failed (e : MemoryFault) (t : Machine σ) (hd : q.drained = true) (hn : q.next = none)
      (hf : fresh (m.unpinEach q.done.toList) = (.error e, t))
      (h : q.supply m fresh = (.error e, { done := q.active.map Window.region }, t))

theorem rotation (q : Pipeline) (m : Machine σ)
    (fresh : Machine σ → Except MemoryFault Region × Machine σ) : q.Rotation m fresh := by
  by_cases hd : q.drained = true
  · have hsupply := supply_of_drained hd m fresh
    cases hn : q.next with
    | some r =>
      refine .promoted r hd hn ?_
      rw [hsupply, rotate, hn, q.unpinDone_eq]
    | none =>
      rcases hf : fresh (m.unpinEach q.done.toList) with ⟨e | r, t⟩
      · refine .failed e t hd hn hf ?_
        simp only [hsupply, rotate, hn, q.unpinDone_eq, hf]
      · refine .pinned r t hd hn hf ?_
        simp only [hsupply, rotate, hn, q.unpinDone_eq, hf]
  · obtain ⟨w, hw, hl⟩ : ∃ w, q.active = some w ∧ w.left ≠ 0 := by
      cases hw : q.active <;> simp_all [drained]
    exact .left w (Bool.eq_false_iff.mpr hd) hw hl (supply_of_left hw hl m fresh)

theorem needsFresh_iff :
    q.needsFresh = true ↔ (∀ w, q.active = some w → w.left = 0) ∧ q.next = none := by
  rcases q with ⟨active, next, done⟩
  cases active <;> cases next <;> simp [needsFresh, drained]

end Pipeline

theorem Machine.pin_pinned {σ : Type} [Platform σ] (pageSize start len : Nat) (dir : Direction)
    (m : Machine σ) (r : Region) (h : (m.pin pageSize start len dir).1 = .ok r) : r.Pinned := by
  by_cases hb : Pinnable start len
  · let range := PageRun.covering start len pageSize
    by_cases hshort : (m.lock range dir.writesHost).1.length < range.pages
    · rw [pin_of_short hb hshort] at h
      cases h
    · rw [pin_of_full hb (Nat.le_of_not_lt hshort)] at h
      cases h
      exact ⟨rfl, hb.1⟩
  · rw [pin_of_not hb] at h
    cases h

namespace Passage
variable {σ : Type} [Platform σ] {x : Passage σ} {c : PipelineCall σ}
  {fresh : Machine σ → Except MemoryFault Region × Machine σ}

theorem act_supply_machine (x : Passage σ)
    (fresh : Machine σ → Except MemoryFault Region × Machine σ) :
    (x.act (.supply fresh)).machine = (x.pipeline.supply x.machine fresh).2.2 := rfl

theorem act_supply_pipeline (x : Passage σ)
    (fresh : Machine σ → Except MemoryFault Region × Machine σ) :
    (x.act (.supply fresh)).pipeline = (x.pipeline.supply x.machine fresh).2.1 := rfl

/-- What is in the pipeline or comes in, leaves or is in it afterwards. -/
theorem act_regions (h : x.Admits c) :
    x.pipeline.regions ++ x.arriving c = x.leaving c ++ (x.act c).pipeline.regions := by
  cases c with
  | supply fresh =>
    cases x.pipeline.rotation x.machine fresh with
    | left w hd hw hl hs =>
      simp [arriving, leaving, act, call, Pipeline.needsFresh, hd, hs]
    | promoted r hd hn hs =>
      simp [arriving, leaving, act, call, Pipeline.needsFresh, hd, hn, hs, Pipeline.regions]
    | pinned r t hd hn hf hs =>
      simp [arriving, leaving, act, call, Pipeline.needsFresh, hd, hn, hf, hs, Pipeline.regions,
        Except.toOption]
    | failed e t hd hn hf hs =>
      simp [arriving, leaving, act, call, Pipeline.needsFresh, hd, hn, hf, hs, Pipeline.regions,
        Except.toOption]
  | consume bytes =>
    simp only [arriving, leaving, act, call, Pipeline.regions_consume, List.append_nil,
      List.nil_append]
  | keepNext r => exact (Pipeline.regions_keepNext h.1 r).symm
  | unpinDone =>
    simp [arriving, leaving, act, call, Pipeline.unpinDone_pipeline, Pipeline.regions]
  | unpinAll => rfl

theorem act_machine (x : Passage σ) (c : PipelineCall σ) :
    (x.act c).machine = x.afterwards (x.machine.unpinEach (x.leaving c)) c := by
  cases c with
  | supply fresh =>
    cases x.pipeline.rotation x.machine fresh with
    | left w hd hw hl hs =>
      simp [afterwards, leaving, act, call, Pipeline.needsFresh, hd, hs, Machine.unpinEach]
    | promoted r hd hn hs => simp [afterwards, leaving, act, call, Pipeline.needsFresh, hd, hn, hs]
    | pinned r t hd hn hf hs | failed e t hd hn hf hs =>
      simp [afterwards, leaving, act, call, Pipeline.needsFresh, hd, hn, hf, hs]
  | unpinDone => exact x.pipeline.unpinDone_eq x.machine
  | unpinAll => exact x.pipeline.unpinAll_eq x.machine
  | _ => rfl

theorem arriving_pinned (h : x.Admits c) : ∀ r ∈ x.arriving c, r.Pinned := by
  cases c with
  | supply fresh =>
    intro r hr
    simp only [arriving] at hr
    split at hr
    · apply h (x.machine.unpinEach x.pipeline.done.toList) r
      rcases hf : fresh (x.machine.unpinEach x.pipeline.done.toList) with ⟨e | r', t⟩ <;>
        simp_all [Except.toOption]
    · cases hr
  | keepNext r =>
    intro r' hr
    exact List.mem_singleton.mp hr ▸ h.2
  | _ => nofun

/-- The next region is the one that becomes active, or it came in later than all that were active. -/
theorem act_activated (hx : (x.activated ++ x.pipeline.next.toList).Sublist x.entered)
    (h : x.Admits c) :
    ((x.act c).activated ++ (x.act c).pipeline.next.toList).Sublist (x.act c).entered := by
  have hwas : x.activated.Sublist x.entered := (List.sublist_append_left _ _).trans hx
  cases c with
  | supply fresh =>
    cases x.pipeline.rotation x.machine fresh with
    | left w hd hw hl hs => simpa [act, call, arriving, rising, Pipeline.needsFresh, hd, hs] using hx
    | promoted r hd hn hs =>
      rw [hn] at hx
      simpa [act, call, arriving, rising, Pipeline.needsFresh, hd, hn, hs, Except.toOption] using hx
    | pinned r t hd hn hf hs =>
      simpa [act, call, arriving, rising, Pipeline.needsFresh, hd, hn, hf, hs, Except.toOption]
        using hwas
    | failed e t hd hn hf hs =>
      simpa [act, call, arriving, rising, Pipeline.needsFresh, hd, hn, hf, hs, Except.toOption]
        using hwas
  | keepNext r =>
    simpa [act, call, arriving, rising, Pipeline.keepNext] using hwas
  | unpinAll => simpa [act, call, arriving, rising, Pipeline.unpinAll] using hwas
  | unpinDone => simpa [act, call, arriving, rising, Pipeline.unpinDone_pipeline] using hx
  | consume bytes => simpa [act, call, arriving, rising, Pipeline.consume] using hx

/-- The active region is the one that became active last, and the drained one was active before it. -/
theorem act_latest
    (hx : x.pipeline.done.toList ++ (x.pipeline.active.map Window.region).toList <:+ x.activated)
    (c : PipelineCall σ) :
    (x.act c).pipeline.done.toList ++ ((x.act c).pipeline.active.map Window.region).toList <:+
      (x.act c).activated := by
  have hactive : (x.pipeline.active.map Window.region).toList <:+ x.activated :=
    (List.suffix_append _ _).trans hx
  cases c with
  | supply fresh =>
    cases x.pipeline.rotation x.machine fresh with
    | left w hd hw hl hs => simpa [act, call, rising, hd, hs] using hx
    | promoted r hd hn hs | pinned r t hd hn hf hs =>
      obtain ⟨before, hbefore⟩ := hactive
      refine ⟨before, ?_⟩
      simp [act, call, rising, hd, hs, Except.toOption, ← hbefore]
    | failed e t hd hn hf hs => simpa [act, call, rising, hd, hs, Except.toOption] using hactive
  | unpinAll => simp [act, call, rising, Pipeline.unpinAll]
  | unpinDone => simpa [act, call, rising, Pipeline.unpinDone_pipeline] using hactive
  | consume bytes =>
    have hsame (w : Window) : (w.consume bytes).region = w.region := rfl
    simpa [act, call, rising, Pipeline.consume, Function.comp_def, hsame] using hx
  | keepNext r => simpa [act, call, rising, Pipeline.keepNext] using hx

theorem pinned_le (q : Pipeline) : q.pinned ≤ 3 := by
  rcases q with ⟨active, next, done⟩
  cases active <;> cases next <;> cases done <;> simp [Pipeline.pinned, Pipeline.regions]

theorem InOrder.act (hx : x.InOrder) (h : x.Admits c) : (x.act c).InOrder where
  whereabouts := by
    calc
      x.entered ++ x.arriving c = x.unpinned ++ (x.pipeline.regions ++ x.arriving c) := by
        rw [hx.whereabouts, List.append_assoc]
      _ = x.unpinned ++ x.leaving c ++ (x.act c).pipeline.regions := by
        rw [act_regions h, List.append_assoc]
  pinned := by
    intro r hr
    have hmem : r ∈ x.pipeline.regions ++ x.arriving c :=
      act_regions h ▸ List.mem_append_right _ hr
    rcases List.mem_append.mp hmem with hold | hnew
    · exact hx.pinned r hold
    · exact arriving_pinned h r hnew
  few := pinned_le _
  activated := act_activated hx.activated h
  latest := act_latest hx.latest c

theorem InOrder.run (hx : x.InOrder) {calls : List (PipelineCall σ)} (h : x.AdmitsAll calls) :
    (x.run calls).InOrder := by
  induction calls generalizing x with
  | nil => exact hx
  | cons c calls ih => exact ih (hx.act h.1) h.2

omit [Platform σ] in
theorem InOrder.start (m : Machine σ) : ({ machine := m } : Passage σ).InOrder where
  whereabouts := rfl
  pinned := nofun
  few := Nat.zero_le _
  activated := .slnil
  latest := List.suffix_rfl

/-- Nothing stays in the pipeline when all regions are given back. -/
theorem InOrder.cleared (hx : x.InOrder) :
    (x.act .unpinAll).pipeline.pinned = 0 ∧ (x.act .unpinAll).unpinned = x.entered :=
  ⟨rfl, hx.whereabouts.symm⟩

omit [Platform σ] in
theorem leaving_subset (x : Passage σ) (c : PipelineCall σ) : x.leaving c ⊆ x.pipeline.regions := by
  have hdone : x.pipeline.done.toList ⊆ x.pipeline.regions :=
    fun r hr => List.mem_append_left _ (List.mem_append_left _ hr)
  cases c with
  | supply fresh =>
    simp only [leaving]
    split
    · exact hdone
    · exact List.nil_subset _
  | unpinDone => exact hdone
  | unpinAll => exact fun _ => id
  | _ => exact List.nil_subset _

theorem InOrder.releases (hx : x.InOrder) (c : PipelineCall σ) : x.Releases c where
  machine := act_machine x c
  history := (x.machine.unpinEach_sees _).history
  once r hr := if_pos (hx.pinned r (leaving_subset x c hr)).1

theorem InOrder.supplies (hx : x.InOrder) (h : x.Admits (.supply fresh)) : x.Supplies fresh where
  needed := Pipeline.needsFresh_iff
  called hn := by
    obtain ⟨hd, hnext⟩ : x.pipeline.drained = true ∧ x.pipeline.next = none := by
      simpa [Pipeline.needsFresh] using hn
    cases x.pipeline.rotation x.machine fresh with
    | left w hleft => exact absurd hd (Bool.eq_false_iff.mp hleft)
    | promoted r _ hsome => cases hnext.symm.trans hsome
    | pinned r t _ _ hf hs | failed e t _ _ hf hs =>
      rw [act_supply_machine, hs, hf]
      exact ⟨rfl, rfl⟩
  uncalled hn other := by
    by_cases hd : x.pipeline.drained = true
    · obtain ⟨r, hnext⟩ : ∃ r, x.pipeline.next = some r := by
        simpa [Pipeline.needsFresh, hd, Option.isSome_iff_exists] using hn
      rw [supply_of_drained hd, supply_of_drained hd]
      simp only [Pipeline.rotate, hnext]
    · obtain ⟨w, hw, hl⟩ : ∃ w, x.pipeline.active = some w ∧ w.left ≠ 0 := by
        cases hw : x.pipeline.active <;> simp_all [Pipeline.drained]
      rw [supply_of_left hw hl, supply_of_left hw hl]
  supplied w hw := by
    cases x.pipeline.rotation x.machine fresh with
    | left v _ hv hl hs =>
      rw [hs] at hw
      cases hw
      exact ⟨hl, by rw [act_supply_pipeline, hs, hv]⟩
    | promoted r _ hsome hs =>
      rw [hs] at hw
      cases hw
      have hmem : r ∈ x.pipeline.regions := by simp [Pipeline.regions, hsome]
      exact ⟨(hx.pinned r hmem).2, by rw [act_supply_pipeline, hs]⟩
    | pinned r t _ _ hf hs =>
      rw [hs] at hw
      cases hw
      exact ⟨(h _ r (congrArg Prod.fst hf)).2, by rw [act_supply_pipeline, hs]⟩
    | failed e t _ _ hf hs =>
      rw [hs] at hw
      cases hw
  failed e he := by
    refine ⟨?_, (hx.act h).cleared⟩
    cases x.pipeline.rotation x.machine fresh with
    | failed e' t _ _ _ hs => rw [act_supply_pipeline, hs]
    | left w _ _ _ hs | promoted r _ _ hs | pinned r t _ _ _ hs =>
      rw [hs] at he
      cases he

end Passage

section Runs
variable {σ : Type} [Platform σ]

/-- However a pipeline is used, every region that comes in goes out once, in the order in which it came,
and a failure loses none. -/
theorem passage_in_order (m : Machine σ) (calls : List (PipelineCall σ))
    (h : ({ machine := m } : Passage σ).AdmitsAll calls) :
    let x := ({ machine := m } : Passage σ).run calls
    x.InOrder ∧ (∀ c, x.Releases c) ∧
      (∀ fresh, x.Admits (.supply fresh) → x.Supplies fresh) ∧
      (x.act .unpinAll).pipeline.pinned = 0 ∧ (x.act .unpinAll).unpinned = x.entered := by
  intro x
  have hx : x.InOrder := (Passage.InOrder.start m).run h
  exact ⟨hx, hx.releases, fun _ => hx.supplies, hx.cleared⟩

end Runs
/-- Of three windows the second is kept ready, and the platform refuses the third. -/
theorem passage_in_order_refused :
    let start : Passage Bench.PageTally :=
      { machine := .initial {} ({ limit := some 2 } : Bench.PageTally) }
    let ahead : Region :=
      { start := 8192, len := 4096, direction := .hostToDevice, pageSize := 4096
        pages := [{ host := 8192, bus := 8192 }], valid := true }
    let x := start.run [.supply (·.pin 4096 0 8192 .hostToDevice), .keepNext ahead, .consume 8192,
      .supply (·.pin 4096 8192 4096 .hostToDevice), .consume 4096,
      .supply (·.pin 4096 12288 16384 .hostToDevice)]
    x.InOrder ∧ x.pipeline = { done := some ahead } ∧ (x.act .unpinAll).unpinned = x.entered ∧
      x.entered.length = 2 := by
  intro start ahead x
  have hadmits : start.AdmitsAll [.supply (·.pin 4096 0 8192 .hostToDevice), .keepNext ahead,
      .consume 8192, .supply (·.pin 4096 8192 4096 .hostToDevice), .consume 4096,
      .supply (·.pin 4096 12288 16384 .hostToDevice)] :=
    ⟨Machine.pin_pinned _ _ _ _, ⟨by decide +kernel, by decide, by decide⟩, trivial,
      Machine.pin_pinned _ _ _ _, trivial, Machine.pin_pinned _ _ _ _, trivial⟩
  obtain ⟨hx, -, -, -, hcleared⟩ := passage_in_order start.machine _ hadmits
  exact ⟨hx, by decide +kernel, hcleared, by decide +kernel⟩

end ScatterGather
