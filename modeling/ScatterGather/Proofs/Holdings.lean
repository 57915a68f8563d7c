import Mathlib.Data.List.Perm.Basic
import ScatterGather.Proofs.Acknowledgement

/-! # What is locked and what is in flight

What a history, its latest event first, tells of the pages that are locked and of the batches that
the device may still be working on.
-/
namespace ScatterGather

/-- The answers of the platform that were not given back, the latest first. -/
def heldRuns : List Event → List (List Page)
  | [] => []
  | .lock _ _ pages :: older => pages :: heldRuns older
  | .unlock pages _ :: older => (heldRuns older).erase pages
  | _ :: older => heldRuns older

def handedOut (a : Nat) : List Event → Nat
  | [] => 0
  | .lock _ _ pages :: older => handedOut a older + pages.countP (·.host = a)
  | _ :: older => handedOut a older

def givenBack (a : Nat) : List Event → Nat
  | [] => 0
  | .unlock pages _ :: older => givenBack a older + pages.countP (·.host = a)
  | _ :: older => givenBack a older

def Locked (a : Nat) (history : List Event) : Prop := givenBack a history < handedOut a history

/-- A batch, and the account of its transfer before it was issued. -/
structure Flight where
  direction : Direction
  start : BatchPlace
  entries : List Entry
  account : Account

def Flight.lastId (b : Flight) : Nat := Ring.lastIdOf b.start b.entries

/-- The batches whose last id was not flagged since they were issued, the latest first. -/
def inFlight : List Event → List Flight
  | [] => []
  | .issue dir start entries :: older => ⟨dir, start, entries, .ofHistory older⟩ :: inFlight older
  | .complete dir id :: older =>
    (inFlight older).filter fun b => !(b.direction = dir ∧ b.lastId = id)
  | _ :: older => inFlight older

def Entry.onBus (e : Entry) : Direction → UInt64
  | .hostToDevice => e.src
  | .deviceToHost => e.dst

/-- Each descriptor of the batch leads into that one of the pages which its bytes of host memory lie
in. -/
def Flight.LiesIn (b : Flight) (pageSize : Nat) (pages : List Page) : Prop :=
  ∃ r, b.account.request = some r ∧ ∀ i e, b.entries[i]? = some e →
    let host := r.host + b.account.bytes + Entry.total (b.entries.take i)
    ∃ page ∈ pages, page.host = host - host % pageSize ∧ host % pageSize + e.size ≤ pageSize ∧
      e.onBus b.direction = UInt64.ofNat (page.bus + host % pageSize)

/-- What was given back had been handed out, as it was, and had not been given back before. When the
listener is told of the end of a transfer, everything was given back. -/
def Bracketed : List Event → Prop := Throughout fun
  | .unlock pages _ :: older => pages ∈ heldRuns older
  | .notify _ _ :: older => heldRuns older = []
  | _ => True

/-- Nothing was in flight when a batch was issued. -/
def Sole : List Event → Prop := Throughout fun
  | .issue _ _ _ :: older => inFlight older = []
  | _ => True

/-- At every instant the batches in flight lie in pages that are held. -/
def Sheltered (pageSize : Nat) : List Event → Prop := Throughout fun history =>
  ∀ b ∈ inFlight history, ∃ pages ∈ heldRuns history, b.LiesIn pageSize pages

def Event.KeepsPages : Event → Prop
  | lock .. | unlock .. => False
  | _ => True

theorem Event.Silent.keepsPages {e : Event} (h : e.Silent) : e.KeepsPages := by
  cases e with
  | lock | unlock => exact h
  | _ => trivial

section Histories
variable {history l : List Event} {e : Event} {pageSize : Nat}

theorem heldRuns_append (he : ∀ e ∈ l, e.KeepsPages) :
    heldRuns (l ++ history) = heldRuns history := by
  refine unchanged_append (fun e older hfirst => ?_) he history
  cases e with
  | lock | unlock => exact hfirst.elim
  | _ => rfl

theorem inFlight_append (he : ∀ e ∈ l, Account.Neutral e) :
    ∀ b ∈ inFlight (l ++ history), b ∈ inFlight history := by
  induction l with
  | nil => exact fun b hb => hb
  | cons e l ih =>
    have hrest := ih fun x hx => he x (List.mem_cons_of_mem _ hx)
    intro b hb
    cases e with
    | issue dir start entries =>
      have hbatches := congrArg Account.batches (he _ List.mem_cons_self {})
      cases hbatches
    | complete => exact hrest b (List.mem_of_mem_filter hb)
    | _ => exact hrest b hb

theorem inFlight_append_nil (he : ∀ e ∈ l, Account.Neutral e) (h : inFlight history = []) :
    inFlight (l ++ history) = [] :=
  List.eq_nil_iff_forall_not_mem.mpr fun b hb => by simpa [h] using inFlight_append he b hb

theorem Bracketed.append (he : ∀ e ∈ l, e.Silent) (h : Bracketed history) :
    Bracketed (l ++ history) := by
  apply Throughout.append _ h
  intro e hmem older _
  have hsilent := he e hmem
  cases e with
  | unlock | notify => exact hsilent.elim
  | _ => trivial

theorem Sole.append (he : ∀ e ∈ l, e.Passive) (h : Sole history) : Sole (l ++ history) := by
  apply Throughout.append _ h
  intro e hmem older _
  have hpassive := he e hmem
  cases e with
  | issue => exact hpassive.elim
  | _ => trivial

theorem Sheltered.append_nil (he : ∀ e ∈ l, e.Passive) (h : Sheltered pageSize history)
    (hn : inFlight history = []) : Sheltered pageSize (l ++ history) := by
  induction l with
  | nil => exact h
  | cons e l ih =>
    apply Throughout.cons (ih fun x hx => he x (List.mem_cons_of_mem _ hx))
    intro b hb
    have hnil := inFlight_append_nil (fun x hx => (he x hx).neutral) hn
    rw [List.cons_append] at hnil
    exact absurd (hnil ▸ hb) List.not_mem_nil

theorem Sheltered.append (he : ∀ e ∈ l, e.Silent) (h : Sheltered pageSize history) :
    Sheltered pageSize (l ++ history) := by
  apply Throughout.append _ h
  intro e hmem older hrest b hb
  have hone : ∀ x ∈ [e], x.Silent := fun x hx => he x (List.mem_singleton.mp hx ▸ hmem)
  obtain ⟨pages, hp, hlies⟩ :=
    hrest.now b (inFlight_append (l := [e]) (fun x hx => (hone x hx).passive.neutral) b hb)
  have hkept : heldRuns ([e] ++ older) = heldRuns older :=
    heldRuns_append fun x hx => (hone x hx).keepsPages
  exact ⟨pages, hkept.symm ▸ hp, hlies⟩

/-- A batch that was acknowledged is not in flight. -/
theorem Acknowledged.landed (h : Acknowledged history) (hs : Sole history) :
    inFlight history = [] := by
  obtain ⟨newer, between, staged, dir, start, entries, older, rfl, hn⟩ := h
  have hneutral : (∀ e ∈ newer, Account.Neutral e) ∧ (∀ e ∈ between, Account.Neutral e) ∧
      ∀ e ∈ staged, Account.Neutral e := by
    simp only [List.mem_append] at hn
    exact ⟨fun e he => hn e (.inl (.inl he)), fun e he => hn e (.inl (.inr he)),
      fun e he => hn e (.inr he)⟩
  have hbefore : inFlight older = [] :=
    hs (newer ++ .complete dir (Ring.lastIdOf start entries) :: (between ++
      .write (Register.address dir .lastId) (UInt32.ofNat (Ring.lastIdOf start entries)) :: staged))
      (.issue dir start entries :: older) (by simp)
  apply inFlight_append_nil hneutral.1
  apply List.filter_eq_nil_iff.mpr
  intro b hb
  have hwritten := inFlight_append hneutral.2.1 b hb
  have hstaged := inFlight_append hneutral.2.2 b hwritten
  rw [inFlight, hbefore, List.mem_singleton] at hstaged
  simp [hstaged, Flight.lastId]

/-- What is held of a page is what was handed out of it and not given back. -/
theorem Bracketed.balance (h : Bracketed history) (a : Nat) :
    handedOut a history =
      givenBack a history + (heldRuns history).flatten.countP (·.host = a) := by
  induction history with
  | nil => rfl
  | cons e history ih =>
    have hrest := ih (Throughout.older [e] h)
    cases e with
    | lock range writable pages =>
      simp only [handedOut, givenBack, heldRuns, List.flatten_cons, List.countP_append, hrest]
      omega
    | unlock pages dirty =>
      -- what is given back is among what is held, so each of its pages is subtracted once
      have hmem : pages ∈ heldRuns history := h.now
      have hperm := (List.perm_cons_erase hmem).flatten.countP_eq (·.host = a)
      simp only [List.flatten_cons, List.countP_append] at hperm
      simp only [handedOut, givenBack, heldRuns, hrest, hperm]
      omega
    | _ => exact hrest

theorem Bracketed.locked (h : Bracketed history) {pages : List Page} (hp : pages ∈ heldRuns history)
    {page : Page} (hpage : page ∈ pages) : Locked page.host history := by
  unfold Locked
  have hbalance := h.balance page.host
  have hpos : 0 < (heldRuns history).flatten.countP (·.host = page.host) :=
    List.countP_pos_iff.mpr ⟨page, List.mem_flatten.mpr ⟨pages, hp, hpage⟩, by simp⟩
  omega

end Histories
end ScatterGather
