import ScatterGather.Proofs.Devices
import ScatterGather.Proofs.Holdings
import ScatterGather.Proofs.Laps
import ScatterGather.Proofs.Services

/-! # Where a device stands

A device that has taken all of the first `count` descriptors of a direction stands at
`RingPosition.after count`. From there it finds, of the descriptors that were handed over since, those
of the latest lap: nothing is taken twice, and nothing is left out that shares a lap with what was
taken.
-/
namespace ScatterGather
open Bench

/-- The laps of the ring that so many descriptors begin. -/
def lapsBegun (count : Nat) : Nat := (count + lastSlot) / slotCount

/-- The number of descriptors that were handed over before the lap of the latest one. -/
def lapStart (count : Nat) : Nat := (count - 1) / slotCount * slotCount

def Bench.RingPosition.after (count : Nat) : RingPosition where
  announces := lapsBegun count
  consumed := if count = 0 then none else some (lastAfter count)

theorem Bench.RingPosition.after_zero : RingPosition.after 0 = {} := rfl

section Positions
variable {e n : Nat}

theorem lapStart_lt (hn : 0 < n) : lapStart n < n := by
  simp only [lapStart, slotCount]
  omega

theorem lastAfter_eq (hn : 0 < n) : lastAfter n = n - 1 - lapStart n := by
  rw [lastAfter, if_neg (Nat.ne_of_gt hn)]
  simp only [lapStart, slotCount]
  omega

theorem lastAfter_le (hn : 0 < n) : lastAfter n ≤ lastSlot := by
  rw [lastAfter, if_neg (Nat.ne_of_gt hn)]
  simp only [slotCount, lastSlot]
  omega

/-- The device goes on behind what it has taken, or at the beginning of the latest lap. -/
theorem Bench.RingPosition.first?_after (hle : e ≤ n) (hn : 0 < n) :
    (RingPosition.after e).first? (lapsBegun n) (lastAfter n) =
      if e = n then none else some (max e (lapStart n) - lapStart n) := by
  have hlast := lastAfter_eq hn
  have hlap := lapStart_lt hn
  unfold first? after
  dsimp only
  by_cases hlaps : lapsBegun n = lapsBegun e
  · have hpos : e ≠ 0 := by
      rintro rfl
      simp only [lapsBegun, lastSlot, slotCount] at hlaps
      omega
    have hsame : lapStart e = lapStart n := by
      simp only [lapsBegun, lapStart, lastSlot, slotCount] at hlaps ⊢
      omega
    have hlast' := lastAfter_eq (Nat.pos_of_ne_zero hpos)
    have hlap' := lapStart_lt (Nat.pos_of_ne_zero hpos)
    simp only [hlaps, ne_eq, not_true_eq_false, if_false, if_neg hpos]
    by_cases heq : e = n
    · rw [if_pos heq, heq, if_neg (Nat.lt_irrefl _)]
    · rw [if_neg heq, if_pos (by omega), Option.some.injEq]
      omega
  · have hne : e ≠ n := fun h => hlaps (by rw [h])
    have hbehind : e ≤ lapStart n := by
      simp only [lapsBegun, lapStart, lastSlot, slotCount] at hlaps ⊢
      omega
    rw [if_pos hlaps, if_neg hne, Nat.max_eq_right hbehind, Nat.sub_self]

/-- What was taken and what is offered share a lap, so nothing between them is left out. -/
theorem max_lapStart (hlap : n ≤ (e / slotCount + 1) * slotCount) : max e (lapStart n) = e := by
  simp only [lapStart, slotCount] at *
  omega

end Positions

namespace Bench.RingReader
variable {reader : RingReader} {registers : RegisterFile} {dir : Direction} {e n : Nat}

theorem take?_after (hpos : reader.positions.get dir = .after e)
    (hlast : registers.lastId dir = lastAfter n)
    (hannounced : registers.writeCount (Register.address dir .tableSize) = lapsBegun n) (hle : e ≤ n) :
    reader.take? registers dir = if e = n then none else
      some (List.range' (max e (lapStart n) - lapStart n) (n - max e (lapStart n)),
        ⟨reader.positions.set dir (.after n)⟩) := by
  unfold take?
  rw [hlast, hannounced, hpos]
  by_cases hn : n = 0
  · subst hn
    rw [if_pos (by decide), if_pos (Nat.le_zero.mp hle)]
  · have hpos := Nat.pos_of_ne_zero hn
    have hlap := lapStart_lt hpos
    dsimp only
    rw [if_neg (Nat.not_lt.mpr (lastAfter_le hpos)), RingPosition.first?_after hle hpos]
    by_cases heq : e = n
    · rw [if_pos heq, if_pos heq]
      rfl
    · rw [if_neg heq, if_neg heq, Option.map_some, RingPosition.after, if_neg hn]
      have hcount : lastAfter n + 1 - (max e (lapStart n) - lapStart n) = n - max e (lapStart n) := by
        rw [lastAfter_eq hpos]
        omega
      rw [hcount]

end Bench.RingReader

section Slots
variable {entries : List Entry} {words : Vector UInt32 wordsPerEntry} {slot : Nat}

theorem leftIn_of_ne (h : ∀ e ∈ entries, e.id.toNat ≠ slot) : leftIn slot words entries = words := by
  induction entries generalizing words with
  | nil => rfl
  | cons e entries ih =>
    rw [leftIn, List.foldl_cons, if_neg (h e List.mem_cons_self)]
    exact ih fun x hx => h x (List.mem_cons_of_mem _ hx)

/-- The ids go round. -/
def Cyclic (entries : List Entry) : Prop :=
  entries.map (fun e => e.id.toNat) = (List.range entries.length).map (· % slotCount)

theorem Cyclic.id (h : Cyclic entries) {i : Nat} {e : Entry} (he : entries[i]? = some e) :
    e.id.toNat = i % slotCount := by
  have hi := congrArg (·[i]?) h
  simp only [List.getElem?_map, he, Option.map_some] at hi
  rw [List.getElem?_range (List.getElem?_eq_some_iff.mp he).1] at hi
  exact Option.some.inj hi

/-- Each of the descriptors of the latest lap's length is still in its slot. -/
theorem Cyclic.leftIn_eq (h : Cyclic entries) {i : Nat} {e : Entry} (he : entries[i]? = some e)
    (hlate : entries.length ≤ i + slotCount) : leftIn (i % slotCount) words entries = e.words := by
  obtain ⟨hi, hget⟩ := List.getElem?_eq_some_iff.mp he
  have hsplit : entries = entries.take i ++ e :: entries.drop (i + 1) := by
    rw [← hget, ← List.drop_eq_getElem_cons hi, List.take_append_drop]
  have hlater : ∀ x ∈ entries.drop (i + 1), x.id.toNat ≠ i % slotCount := by
    intro x hx
    obtain ⟨k, hk⟩ := List.mem_iff_getElem?.mp hx
    rw [List.getElem?_drop] at hk
    have hlt := (List.getElem?_eq_some_iff.mp hk).1
    rw [h.id hk]
    simp only [slotCount] at *
    omega
  rw [hsplit, leftIn_append, leftIn, List.foldl_cons, if_pos (h.id he)]
  exact leftIn_of_ne hlater

end Slots

/-- The descriptors of a direction that the device was through with when it flagged last. -/
def landed (dir : Direction) : List Event → Nat
  | [] => 0
  | .complete d _ :: older => if d = dir then (handed dir older).length else landed dir older
  | _ :: older => landed dir older

section Histories
variable {dir : Direction} {l history : List Event} {tableBus : Sides Nat}

theorem landed_append (he : ∀ e ∈ l, ∀ d id, e ≠ .complete d id) :
    landed dir (l ++ history) = landed dir history := by
  refine unchanged_append (fun e older hfirst => ?_) he history
  cases e with
  | complete d id => exact absurd rfl (hfirst d id)
  | _ => rfl

theorem landed_le (dir : Direction) (history : List Event) :
    landed dir history ≤ (handed dir history).length := by
  induction history with
  | nil => exact Nat.zero_le _
  | cons e history ih =>
    cases e with
    | complete d id =>
      simp only [landed, handed]
      split
      · exact Nat.le_refl _
      · exact ih
    | issue d start entries =>
      simp only [landed, handed]
      split
      · rw [List.length_append]
        exact Nat.le_trans ih (Nat.le_add_right _ _)
      · exact ih
    | _ => exact ih

/-- What was handed over for a direction with nothing in flight was taken. -/
theorem landed_eq (h : ∀ b ∈ inFlight history, b.direction ≠ dir) :
    landed dir history = (handed dir history).length := by
  induction history with
  | nil => rfl
  | cons e history ih =>
    cases e with
    | issue d start entries =>
      have hd : d ≠ dir := h _ List.mem_cons_self
      simp only [landed, handed, if_neg hd]
      exact ih fun b hb => h b (List.mem_cons_of_mem _ hb)
    | complete d id =>
      simp only [landed, handed]
      split
      · rfl
      · next hd =>
        apply ih
        rintro b hb rfl
        refine h b (List.mem_filter.mpr ⟨hb, ?_⟩) rfl
        simp [Ne.symm hd]
    | _ => exact ih h

/-- If nothing was in flight whenever a batch was handed over, then what is still to be taken shares
a lap with what was taken last. -/
theorem InLaps.near (h : InLaps tableBus history) (hs : Sole history) (dir : Direction) :
    (handed dir history).length ≤ (landed dir history / slotCount + 1) * slotCount := by
  induction history with
  | nil => exact Nat.zero_le _
  | cons e history ih =>
    have hrest := ih (Throughout.older [e] h) (Throughout.older [e] hs)
    cases e with
    | issue d start entries =>
      have hturn : InTurn tableBus history d start entries := h.now
      have hnone : inFlight history = [] := hs.now
      simp only [landed, handed]
      split
      · next hd =>
        subst hd
        have hlanded : landed d history = (handed d history).length := landed_eq (by simp [hnone])
        have hid := hturn.id
        have hfits := hturn.fits
        rw [List.length_append, hlanded]
        simp only [slotCount] at *
        omega
      · exact hrest
    | complete d id =>
      simp only [landed, handed]
      split
      · simp only [slotCount]
        omega
      · exact hrest
    | _ => exact hrest

end Histories
end ScatterGather
