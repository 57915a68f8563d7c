import ScatterGather.Bench.ScriptedHost
import ScatterGather.Proofs.Tallies
import ScatterGather.Proofs.Translations

/-! # The count of locked pages and the surplus

To pin counts the pages that were asked for, and to unpin counts the pages that the region holds. A
platform may answer with more pages than it was asked for. Then the count falls behind by this surplus,
and it stays behind when the region is gone.
-/
namespace ScatterGather

/-- A call of someone who keeps the regions that were pinned, numbered from zero on. -/
inductive PinCall where
  | pin (start len : Nat) (dir : Direction)
  | unpin (number : Nat)
deriving DecidableEq, Repr

/-- Someone with all regions that were ever pinned for them, in their order. -/
structure Owner (σ : Type) where
  machine : Machine σ
  regions : List Region := []

namespace Owner
variable {σ : Type}

/-- The number of pages of the valid regions. -/
def pages (o : Owner σ) : Nat := pageCount (o.regions.filter Region.valid)

def receive (o : Owner σ) : Except MemoryFault Region × Machine σ → Owner σ
  | (.ok r, machine) => { machine, regions := o.regions ++ [r] }
  | (.error _, machine) => { o with machine }

variable [Platform σ]

/-- A number that no region has is not heeded. -/
def call? (pageSize : Nat) (o : Owner σ) : PinCall → Option (Owner σ)
  | .pin start len dir => (o.machine.pin? pageSize start len dir).map o.receive
  | .unpin number =>
    match o.regions[number]? with
    | none => some o
    | some r =>
      let released := o.machine.unpin r
      some { machine := released.2, regions := o.regions.set number released.1 }

def run? (pageSize : Nat) (o : Owner σ) : List PinCall → Option (Owner σ)
  | [] => some o
  | c :: calls => (o.call? pageSize c).bind fun t => t.run? pageSize calls

end Owner

/-- The number of pages that were handed out beyond what was asked for. -/
def surplus : List Event → Nat
  | [] => 0
  | .lock range _ pages :: older => pages.length - range.pages + surplus older
  | _ :: older => surplus older

section Vocabulary
variable {σ : Type}

/-- After a pin that failed: if pages were locked for it, all of them went back at once. -/
structure Owner.Refused (o t : Owner σ) : Prop where
  regions : t.regions = o.regions
  count : t.machine.channel.pagesLocked = o.machine.channel.pagesLocked
  pages : t.machine = o.machine ∨ ∃ range writable pages struck, (∀ e ∈ struck, e.Incidental) ∧
    t.machine.history =
      .unlock pages false :: (struck ++ .lock range writable pages :: o.machine.history)

/-- From `o` to `t`, by calls that left `events` behind, what the count lacks is their surplus. -/
structure Owner.Lags [Platform σ] (o : Owner σ) (events : List Event) (t : Owner σ) : Prop where
  history : t.machine.history = events ++ o.machine.history
  count : t.machine.channel.pagesLocked + UInt64.ofNat (surplus events) + UInt64.ofNat o.pages =
    o.machine.channel.pagesLocked + UInt64.ofNat t.pages
  exact_of_at_most : Platform.Answers σ AtMost → surplus events = 0

end Vocabulary

section Histories
variable {l history : List Event}

theorem surplus_append (l history : List Event) :
    surplus (l ++ history) = surplus l + surplus history := by
  induction l with
  | nil => exact (Nat.zero_add _).symm
  | cons e l ih =>
    cases e with
    | lock range writable pages => rw [List.cons_append, surplus, surplus, ih, Nat.add_assoc]
    | _ => exact ih

theorem surplus_incidental (he : ∀ e ∈ l, e.Incidental) : surplus l = 0 := by
  have hsame : surplus (l ++ []) = surplus [] := by
    refine unchanged_append (fun e older hfirst => ?_) he []
    cases e with
    | lock => exact hfirst.elim
    | _ => rfl
  rwa [List.append_nil] at hsame

/-- Only what is locked can be too much. -/
theorem surplus_locked {range : PageRun} {writable : Bool} {pages : List Page}
    (he : ∀ e ∈ l, e.Incidental) :
    surplus (l ++ [.lock range writable pages]) = pages.length - range.pages := by
  rw [surplus_append, surplus_incidental he, Nat.zero_add]
  rfl

end Histories

/-- A valid region that is replaced by an invalid one takes its pages out of the count. -/
theorem pageCount_set {regions : List Region} {number : Nat} {r : Region} (r' : Region)
    (hr : regions[number]? = some r) (hv : r.valid = true) (hv' : r'.valid = false) :
    pageCount (regions.filter Region.valid) =
      r.pages.length + pageCount ((regions.set number r').filter Region.valid) := by
  induction regions generalizing number with
  | nil => cases hr
  | cons first regions ih =>
    cases number with
    | zero =>
      obtain rfl : first = r := Option.some.inj hr
      rw [List.set_cons_zero, List.filter_cons_of_pos hv, List.filter_cons_of_neg (by simp [hv']),
        pageCount_cons]
    | succ number =>
      have hrest := ih hr
      rw [List.set_cons_succ]
      by_cases hfirst : first.valid = true
      · rw [List.filter_cons_of_pos hfirst, List.filter_cons_of_pos hfirst, pageCount_cons,
          pageCount_cons, hrest]
        omega
      · rw [List.filter_cons_of_neg hfirst, List.filter_cons_of_neg hfirst, hrest]

theorem set_same {regions : List Region} {number : Nat} {r : Region}
    (hr : regions[number]? = some r) : regions.set number r = regions := by
  obtain ⟨hlt, hget⟩ := List.getElem?_eq_some_iff.mp hr
  rw [← hget, List.set_getElem_self]

theorem Machine.lock_pagesLocked {σ : Type} [Platform σ] (m : Machine σ) (range : PageRun)
    (writable : Bool) : (m.lock range writable).2.channel.pagesLocked = m.channel.pagesLocked :=
  incurAll_pagesLocked _ _

namespace Owner
variable {σ : Type} [Platform σ] {o t u : Owner σ} {events newer : List Event} {pageSize : Nat}

theorem Lags.refl (o : Owner σ) : o.Lags [] o where
  history := rfl
  count := by simp [surplus]
  exact_of_at_most _ := rfl

theorem Lags.trans (h : o.Lags events t) (h' : t.Lags newer u) : o.Lags (newer ++ events) u where
  history := by rw [h'.history, h.history, List.append_assoc]
  count := by
    have hcount := h.count
    have hcount' := h'.count
    rw [surplus_append, UInt64.ofNat_add]
    grind
  exact_of_at_most hq := by
    rw [surplus_append, h'.exact_of_at_most hq, h.exact_of_at_most hq]

theorem Lags.same {m : Machine σ} (hh : m.history = events ++ o.machine.history)
    (hc : m.channel.pagesLocked = o.machine.channel.pagesLocked) (hnone : surplus events = 0) :
    o.Lags events { o with machine := m } where
  history := hh
  count := by
    rw [hnone, hc, show UInt64.ofNat 0 = 0 from rfl, UInt64.add_zero]
    rfl
  exact_of_at_most _ := hnone

/-- A region comes with its pages, of which as many are counted as the surplus leaves. -/
theorem Lags.push {m : Machine σ} {r : Region} (hh : m.history = events ++ o.machine.history)
    (hv : r.valid = true)
    (hc : m.channel.pagesLocked + UInt64.ofNat (surplus events) =
      o.machine.channel.pagesLocked + UInt64.ofNat r.pages.length)
    (hq : Platform.Answers σ AtMost → surplus events = 0) :
    o.Lags events { machine := m, regions := o.regions ++ [r] } where
  history := hh
  count := by
    rw [hc, pages, pages, List.filter_append, pageCount_append, List.filter_cons_of_pos hv,
      List.filter_nil, pageCount_cons, UInt64.ofNat_add]
    grind [pageCount]
  exact_of_at_most := hq

theorem pin_lags (o : Owner σ) (pageSize start len : Nat) (dir : Direction) :
    ∃ events, o.Lags events (o.receive (o.machine.pin pageSize start len dir)) := by
  let range := PageRun.covering start len pageSize
  let locked := o.machine.lock range dir.writesHost
  obtain ⟨struck, hhistory, hstruck⟩ := o.machine.lock_incidental range dir.writesHost
  have hcount := o.machine.lock_pagesLocked range dir.writesHost
  have hover : surplus (struck ++ [.lock range dir.writesHost locked.1]) =
      locked.1.length - range.pages := surplus_locked hstruck
  by_cases hb : Machine.Pinnable start len
  · by_cases hshort : locked.1.length < range.pages
    · rw [Machine.pin_of_short hb hshort]
      refine ⟨.unlock locked.1 false :: (struck ++ [.lock range dir.writesHost locked.1]),
        .same ?_ hcount ?_⟩
      · rw [List.cons_append, List.append_assoc]
        exact congrArg _ hhistory
      · exact hover.trans (Nat.sub_eq_zero_of_le (Nat.le_of_lt hshort))
    · have hfull := Nat.le_of_not_lt hshort
      rw [Machine.pin_of_full hb hfull]
      refine ⟨struck ++ [.lock range dir.writesHost locked.1], .push ?_ rfl ?_ ?_⟩
      · rw [List.append_assoc]
        exact hhistory
      · rw [hover]
        calc
          locked.2.channel.pagesLocked + UInt64.ofNat range.pages +
                UInt64.ofNat (locked.1.length - range.pages) =
              locked.2.channel.pagesLocked + UInt64.ofNat locked.1.length := by
            rw [UInt64.add_assoc, ← UInt64.ofNat_add, Nat.add_sub_cancel' hfull]
          _ = o.machine.channel.pagesLocked + UInt64.ofNat locked.1.length := by rw [hcount]
      · intro hq
        rw [hover]
        exact Nat.sub_eq_zero_of_le (hq _ _ _)
  · rw [Machine.pin_of_not hb]
    exact ⟨[], .refl o⟩

theorem unpin_lags {number : Nat} {r : Region} (hr : o.regions[number]? = some r) :
    let released := o.machine.unpin r
    ∃ events, o.Lags events { machine := released.2, regions := o.regions.set number released.1 } := by
  by_cases hv : r.valid = true
  · simp only [Machine.unpin, if_pos hv]
    refine ⟨[.unlock r.pages r.direction.writesHost], rfl, ?_, fun _ => rfl⟩
    have hset := pageCount_set r.released hr hv rfl
    simp only [pages, hset, surplus, UInt64.ofNat_add]
    change o.machine.channel.pagesLocked - _ + _ + _ = _
    grind
  · simp only [Machine.unpin, if_neg hv, set_same hr]
    exact ⟨[], .refl o⟩

theorem call?_lags (hsize : 0 < pageSize) (o : Owner σ) (c : PinCall) :
    ∃ t events, o.call? pageSize c = some t ∧ o.Lags events t := by
  cases c with
  | pin start len dir =>
    obtain ⟨events, h⟩ := o.pin_lags pageSize start len dir
    refine ⟨_, events, ?_, h⟩
    rw [call?, Machine.pin?_eq hsize]
    rfl
  | unpin number =>
    cases hr : o.regions[number]? with
    | none => exact ⟨o, [], by rw [call?, hr], .refl o⟩
    | some r =>
      obtain ⟨events, h⟩ := unpin_lags hr
      exact ⟨_, events, by rw [call?, hr], h⟩

theorem run?_lags (hsize : 0 < pageSize) (o : Owner σ) (calls : List PinCall) :
    ∃ t events, o.run? pageSize calls = some t ∧ o.Lags events t := by
  induction calls generalizing o with
  | nil => exact ⟨o, [], rfl, .refl o⟩
  | cons c calls ih =>
    obtain ⟨t, events, hcall, hlags⟩ := o.call?_lags hsize c
    obtain ⟨u, newer, hrun, hrest⟩ := ih t
    refine ⟨u, newer ++ events, ?_, hlags.trans hrest⟩
    rw [run?, hcall, Option.bind_some, hrun]

/-- Without a region of its own a pin leaves no trace but what it locked and gave back. -/
theorem pin_refused (hsize : 0 < pageSize) {start len : Nat} {dir : Direction} {e : MemoryFault}
    (h : (o.machine.pin pageSize start len dir).1 = .error e) :
    ∃ t, o.call? pageSize (.pin start len dir) = some t ∧ o.Refused t := by
  let range := PageRun.covering start len pageSize
  let locked := o.machine.lock range dir.writesHost
  refine ⟨o.receive (o.machine.pin pageSize start len dir), ?_, ?_⟩
  · rw [call?, Machine.pin?_eq hsize, Option.map_some]
  by_cases hb : Machine.Pinnable start len
  · by_cases hshort : locked.1.length < range.pages
    · obtain ⟨struck, hhistory, hstruck⟩ := o.machine.lock_incidental range dir.writesHost
      rw [Machine.pin_of_short hb hshort]
      exact ⟨rfl, o.machine.lock_pagesLocked range dir.writesHost,
        .inr ⟨range, dir.writesHost, locked.1, struck, hstruck, congrArg _ hhistory⟩⟩
    · rw [Machine.pin_of_full hb (Nat.le_of_not_lt hshort)] at h
      cases h
  · rw [Machine.pin_of_not hb]
    exact ⟨rfl, rfl, .inl rfl⟩

theorem unpin_invalid {number : Nat} {r : Region} (hr : o.regions[number]? = some r)
    (hv : r.valid = false) : o.call? pageSize (.unpin number) = some o := by
  simp only [call?, hr, Machine.unpin, hv, Bool.false_eq_true, if_false, set_same hr]

omit [Platform σ] in
theorem pages_of_invalid (h : ∀ r ∈ o.regions, r.valid = false) : o.pages = 0 := by
  have hnone : o.regions.filter Region.valid = [] :=
    List.filter_eq_nil_iff.mpr fun r hr => by simp [h r hr]
  rw [pages, hnone]
  rfl

end Owner

/-- What is known of someone whose first machine was `m`, when their calls have left `events` behind. -/
structure Owner.Counted {σ : Type} [Platform σ] (pageSize : Nat) (m : Machine σ) (events : List Event)
    (o : Owner σ) : Prop where
  history : o.machine.history = events ++ m.history
  count : o.machine.channel.pagesLocked + UInt64.ofNat (surplus events) =
    m.channel.pagesLocked + UInt64.ofNat o.pages
  agrees : o.machine.channel.pagesLocked = m.channel.pagesLocked + UInt64.ofNat o.pages ↔
    surplus events % addressLimit = 0
  exact_of_at_most : Platform.Answers σ AtMost → surplus events = 0
  released : (∀ r ∈ o.regions, r.valid = false) → o.pages = 0
  refused : ∀ start len dir e, (o.machine.pin pageSize start len dir).1 = .error e →
    ∃ t, o.call? pageSize (.pin start len dir) = some t ∧ o.Refused t
  invalid : ∀ (number : Nat) (r : Region), o.regions[number]? = some r → r.valid = false →
    o.call? pageSize (.unpin number) = some o

section Runs
variable {σ : Type} [Platform σ]

/-- Whatever the platform answers, after all calls the count is that of the pages of the valid regions,
less the pages that were handed out beyond what was asked for. -/
theorem pins_counted {pageSize : Nat} (hsize : 0 < pageSize) (m : Machine σ) (calls : List PinCall) :
    ∃ o events, ({ machine := m } : Owner σ).run? pageSize calls = some o ∧
      o.Counted pageSize m events := by
  obtain ⟨o, events, hrun, hlags⟩ := ({ machine := m } : Owner σ).run?_lags hsize calls
  have hcount : o.machine.channel.pagesLocked + UInt64.ofNat (surplus events) =
      m.channel.pagesLocked + UInt64.ofNat o.pages :=
    (UInt64.add_zero _).symm.trans hlags.count
  have hagrees : o.machine.channel.pagesLocked = m.channel.pagesLocked + UInt64.ofNat o.pages ↔
      surplus events % addressLimit = 0 := by
    rw [← hcount, eq_comm, UInt64.add_eq_left, ← UInt64.toNat_inj, UInt64.toNat_ofNat']
    rfl
  exact ⟨o, events, hrun, hlags.history, hcount, hagrees, hlags.exact_of_at_most,
    Owner.pages_of_invalid, fun _ _ _ _ => Owner.pin_refused hsize, fun _ _ => Owner.unpin_invalid⟩

end Runs

/-- Two pages are pinned, two more are refused by a platform with a limit, and the region is given
back twice. -/
theorem pins_counted_tally :
    let m := Machine.initial {} ({ limit := some 3 } : Bench.PageTally)
    let calls : List PinCall :=
      [.pin 0 8192 .hostToDevice, .pin 16384 8192 .deviceToHost, .unpin 0, .unpin 0]
    ∃ o events, ({ machine := m } : Owner Bench.PageTally).run? 4096 calls = some o ∧
      o.Counted 4096 m events ∧ surplus events = 0 ∧
      o.machine.channel.pagesLocked = UInt64.ofNat o.pages := by
  intro m calls
  obtain ⟨o, events, hrun, hcounted⟩ := pins_counted (show 0 < 4096 by decide) m calls
  have hnone := hcounted.exact_of_at_most Bench.PageTally.at_most
  have hcount := hcounted.agrees.mpr (by rw [hnone]; rfl)
  exact ⟨o, events, hrun, hcounted, hnone, hcount.trans (UInt64.zero_add _)⟩

/-- Of three pages that were handed out for one, the count has one, and it falls below zero when they
are given back. -/
theorem surplus_miscounted :
    let o : Owner Bench.ScriptedHost := { machine := .initial {} { short := [(1, 3)] } }
    let report (calls : List PinCall) := (o.run? 4096 calls).map fun t =>
      (t.machine.channel.pagesLocked, t.pages)
    report [.pin 0 4096 .hostToDevice] = some (1, 3) ∧
      report [.pin 0 4096 .hostToDevice, .unpin 0] = some (0 - 2, 0) := by
  decide +kernel

end ScatterGather
