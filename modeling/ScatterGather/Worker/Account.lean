import ScatterGather.Machine

/-! # The account of a transfer

What a history, its latest event first, tells of the transfer that was accepted last: its request
and the batches that were issued for it.
-/
namespace ScatterGather

/-- What is read off a history stays as it is if each of the events behind leaves it as it is. -/
theorem unchanged_append {α : Type} {f : List Event → α} {P : Event → Prop}
    (hf : ∀ e older, P e → f (e :: older) = f older) {l : List Event} (h : ∀ e ∈ l, P e)
    (older : List Event) : f (l ++ older) = f older := by
  induction l with
  | nil => rfl
  | cons e l ih =>
    rw [List.cons_append, hf e _ (h e List.mem_cons_self),
      ih fun x hx => h x (List.mem_cons_of_mem _ hx)]

structure Account where
  request : Option Request := none
  /-- The descriptors of each batch, the first batch first. -/
  batches : List (List Entry) := []
deriving DecidableEq, Repr

namespace Account

def entries (a : Account) : List Entry := a.batches.flatten

def bytes (a : Account) : Nat := Entry.total a.entries

def after (a : Account) : Event → Account
  | .submit request none => { request := some request }
  | .issue _ _ entries => { a with batches := a.batches ++ [entries] }
  | _ => a

def ofHistory : List Event → Account
  | [] => {}
  | e :: older => (ofHistory older).after e

@[simp] theorem ofHistory_cons (e : Event) (older : List Event) :
    ofHistory (e :: older) = (ofHistory older).after e := rfl

/-- Events that leave every account as it is. -/
def Neutral (e : Event) : Prop := ∀ a : Account, a.after e = a

theorem ofHistory_append {l : List Event} (h : ∀ e ∈ l, Neutral e) (older : List Event) :
    ofHistory (l ++ older) = ofHistory older :=
  unchanged_append (fun _ older he => he (ofHistory older)) h older

end Account

/-- Events at which neither a batch is issued, nor a transfer begins or ends. -/
def Event.Passive : Event → Prop
  | issue .. | notify .. | submit _ none => False
  | _ => True

/-- Passive events by which no page is handed out or given back. -/
def Event.Silent : Event → Prop
  | issue .. | notify .. | submit _ none | lock .. | unlock .. => False
  | _ => True

theorem Event.Silent.passive {e : Event} (h : e.Silent) : e.Passive := by
  cases e with
  | submit request refusal => cases refusal <;> exact h
  | issue | notify => exact h
  | _ => trivial

theorem Event.Passive.neutral {e : Event} (h : e.Passive) : Account.Neutral e := by
  intro a
  cases e with
  | submit request refusal =>
    cases refusal with
    | none => exact h.elim
    | some cause => rfl
  | issue => exact h.elim
  | _ => rfl

theorem Account.ofHistory_passive {l history : List Event} (he : ∀ e ∈ l, e.Passive) :
    ofHistory (l ++ history) = ofHistory history :=
  ofHistory_append (fun e hmem => (he e hmem).neutral) history

/-- At every instant of a history, with what had happened until then. -/
def Throughout (P : List Event → Prop) (history : List Event) : Prop :=
  ∀ newer older, history = newer ++ older → P older

namespace Throughout
variable {P : List Event → Prop} {e : Event} {l history : List Event}

theorem now (h : Throughout P history) : P history := h [] history rfl

theorem older (newer : List Event) {older : List Event} (h : Throughout P (newer ++ older)) :
    Throughout P older :=
  fun _ _ heq => h _ _ (by rw [heq, ← List.append_assoc])

theorem nil (h : P []) : Throughout P [] := by
  intro newer older heq
  obtain ⟨-, rfl⟩ := List.append_eq_nil_iff.mp heq.symm
  exact h

theorem cons (h : Throughout P history) (hnow : P (e :: history)) : Throughout P (e :: history) := by
  intro newer older heq
  cases newer with
  | nil =>
    obtain rfl : e :: history = older := heq
    exact hnow
  | cons first newer =>
    simp only [List.cons_append, List.cons.injEq] at heq
    exact h newer older heq.2

theorem append (hstep : ∀ e ∈ l, ∀ older, Throughout P older → P (e :: older))
    (h : Throughout P history) : Throughout P (l ++ history) := by
  induction l with
  | nil => exact h
  | cons e l ih =>
    have hrest := ih fun x hx => hstep x (List.mem_cons_of_mem _ hx)
    exact hrest.cons (hstep e List.mem_cons_self _ hrest)

end Throughout
end ScatterGather
