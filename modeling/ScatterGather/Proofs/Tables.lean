import ScatterGather.Proofs.Codec
import ScatterGather.Proofs.Flags

/-! # Descriptors in a table

A slot holds the words of the descriptor that was last written to it, and a batch fills the slots of
its ids and no others.
-/
namespace ScatterGather

namespace Table
variable {t : Table} {slot : Nat}

theorem getElem?_storeWords (t : Table) (base : Nat) (ws : List UInt32) (i : Nat) :
    (t.storeWords base ws).words[i]? =
      if base ≤ i ∧ i < base + ws.length ∧ i < wordsPerTable then ws[i - base]? else t.words[i]? := by
  induction ws generalizing t base with
  | nil => rw [storeWords, if_neg (by simp only [List.length_nil]; omega)]
  | cons w ws ih =>
    rw [storeWords, ih, getElem?_setWord, List.length_cons]
    by_cases hfirst : base = i
    · subst hfirst
      rw [if_neg (by omega)]
      by_cases hi : base < wordsPerTable
      · rw [if_pos ⟨rfl, hi⟩, if_pos ⟨Nat.le_refl _, by omega, hi⟩, Nat.sub_self]
        rfl
      · rw [if_neg fun h => hi h.2, if_neg fun h => hi h.2.2]
    · by_cases hrest : base + 1 ≤ i ∧ i < base + 1 + ws.length ∧ i < wordsPerTable
      · rw [if_pos hrest, if_pos (by omega), show i - base = i - (base + 1) + 1 by omega]
        rfl
      · rw [if_neg hrest, if_neg fun h => hfirst h.1, if_neg (by omega)]

theorem slotBase_lt {k : Nat} (hs : slot < slotCount) (hk : k < wordsPerEntry) :
    slotBase slot + k < wordsPerTable := by
  simp only [slotBase, wordsPerTable, slotCount, wordsPerEntry] at *
  omega

theorem slotWords_write_self (t : Table) (e : Entry) (hs : slot < slotCount) :
    (t.write slot e).slotWords slot = e.words := by
  apply Vector.ext
  intro k hk
  have hlen : e.words.toList.length = wordsPerEntry := e.words.length_toList
  have hword : e.words.toList[k]? = some e.words[k] := by
    rw [List.getElem?_eq_getElem (by omega), Vector.getElem_toList]
  rw [slotWords, Vector.getElem_ofFn, write, getElem?_storeWords,
    if_pos ⟨by omega, by omega, slotBase_lt hs hk⟩, Nat.add_sub_cancel_left, hword]
  rfl

theorem slotWords_write_of_ne (t : Table) (e : Entry) {i : Nat} (h : slot ≠ i) :
    (t.write slot e).slotWords i = t.slotWords i := by
  apply Vector.ext
  intro k hk
  have hlen : e.words.toList.length = wordsPerEntry := e.words.length_toList
  rw [slotWords, slotWords, Vector.getElem_ofFn, Vector.getElem_ofFn, write, getElem?_storeWords,
    hlen, if_neg]
  simp only [slotBase, wordsPerEntry] at hk ⊢
  omega

theorem slotWords_putFlag (t : Table) {id : Nat} (hid : id < slotCount) (value : UInt32)
    (slot : Nat) : (t.putFlag id value).slotWords slot = t.slotWords slot := by
  apply Vector.ext
  intro k hk
  rw [slotWords, slotWords, Vector.getElem_ofFn, Vector.getElem_ofFn, putFlag, getElem?_setWord,
    if_neg]
  simp only [slotBase] at *
  omega

theorem slotWords_zeroFlags (t : Table) (slot : Nat) :
    t.zeroFlags.slotWords slot = t.slotWords slot := by
  have hword (i : Nat) (hi : slotCount ≤ i) : t.zeroFlags.words[i]? = t.words[i]? := by
    rw [zeroFlags, Vector.getElem?_mapIdx]
    simp [Nat.not_lt.mpr hi]
  apply Vector.ext
  intro k hk
  rw [slotWords, slotWords, Vector.getElem_ofFn, Vector.getElem_ofFn, hword _ (by unfold slotBase; omega)]

theorem slotWords_blank (slot : Nat) : blank.slotWords slot = Vector.replicate wordsPerEntry 0 := by
  apply Vector.ext
  intro k hk
  rw [slotWords, Vector.getElem_ofFn, blank, Vector.getElem?_replicate, Vector.getElem_replicate]
  split <;> rfl

theorem slotWords_writeAll_of_ne (t : Table) {entries : List Entry}
    (h : ∀ e ∈ entries, e.id.toNat ≠ slot) : (t.writeAll entries).slotWords slot = t.slotWords slot := by
  induction entries generalizing t with
  | nil => rfl
  | cons e entries ih =>
    rw [writeAll_cons, ih _ fun x hx => h x (List.mem_cons_of_mem _ hx),
      slotWords_write_of_ne _ _ (h e List.mem_cons_self)]

/-- The descriptors have the ids from `first` on, one after the other. -/
def Numbered (first : Nat) (entries : List Entry) : Prop :=
  ∀ i e, entries[i]? = some e → e.id.toNat = first + i

theorem Numbered.of_cons {first : Nat} {head : Entry} {entries : List Entry}
    (h : Numbered first (head :: entries)) : head.id.toNat = first ∧ Numbered (first + 1) entries := by
  refine ⟨h 0 head rfl, ?_⟩
  intro i e he
  rw [h (i + 1) e he, Nat.add_assoc, Nat.add_comm 1]

theorem slotWords_writeAll_numbered (t : Table) {first : Nat} {entries : List Entry}
    (hn : Numbered first entries) (hfit : first + entries.length ≤ slotCount) {i : Nat} {e : Entry}
    (he : entries[i]? = some e) : (t.writeAll entries).slotWords (first + i) = e.words := by
  induction entries generalizing t first i with
  | nil => cases he
  | cons head entries ih =>
    obtain ⟨hid, hrest⟩ := hn.of_cons
    rw [List.length_cons] at hfit
    cases i with
    | zero =>
      obtain rfl : head = e := Option.some.inj he
      have hlater : ∀ x ∈ entries, x.id.toNat ≠ first := by
        intro x hx
        obtain ⟨k, hk⟩ := List.mem_iff_getElem?.mp hx
        have := hrest k x hk
        omega
      rw [writeAll_cons, Nat.add_zero, slotWords_writeAll_of_ne _ hlater, hid]
      exact slotWords_write_self _ _ (by omega)
    | succ i =>
      rw [writeAll_cons, show first + (i + 1) = first + 1 + i by omega]
      exact ih _ hrest (by omega) he

theorem entry_writeAll (t : Table) {first : Nat} {entries : List Entry}
    (hn : Numbered first entries) (hfit : first + entries.length ≤ slotCount) {i : Nat} {e : Entry}
    (he : entries[i]? = some e) :
    (t.writeAll entries).entry (first + i) = Entry.ofWords e.words := by
  rw [entry, slotWords_writeAll_numbered t hn hfit he]

end Table
end ScatterGather
