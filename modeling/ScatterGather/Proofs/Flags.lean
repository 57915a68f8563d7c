import ScatterGather.Descriptor.Table

/-! # Completion flags of a table

Flags and descriptors lie in different words, so storing descriptors leaves the flags alone.
-/
namespace ScatterGather.Table

theorem getElem?_setWord (t : Table) (index i : Nat) (value : UInt32) :
    (t.setWord index value).words[i]? =
      if index = i ∧ i < wordsPerTable then some value else t.words[i]? := by
  by_cases h : index = i
  · subst h
    by_cases hi : index < wordsPerTable
    · simp [setWord, hi]
    · have hn : ∀ v : Vector UInt32 wordsPerTable, v[index]? = none := fun v => by simp [hi]
      rw [if_neg (fun hc => hi hc.2), hn, hn]
  · simp [setWord, h]

theorem flag?_putFlag_self (t : Table) {id : Nat} (h : HasFlag id) (value : UInt32) :
    (t.putFlag id value).flag? id = some value := by
  rw [flag?, putFlag, getElem?_setWord, if_pos ⟨rfl, h⟩]

theorem flag?_putFlag_of_ne (t : Table) {id i : Nat} (h : id ≠ i) (value : UInt32) :
    (t.putFlag id value).flag? i = t.flag? i := by
  simp [flag?, putFlag, getElem?_setWord, h]

theorem flag?_zeroFlags (t : Table) {id : Nat} (h : id < slotCount) :
    t.zeroFlags.flag? id = some 0 := by
  have hid : id < wordsPerTable := by simp only [slotCount, wordsPerTable] at *; omega
  simp [flag?, zeroFlags, hid, h]

theorem flag?_blank {id : Nat} (h : HasFlag id) : blank.flag? id = some 0 := by
  simp only [HasFlag] at h
  simp [flag?, blank, h]

theorem getElem?_storeWords_of_lt (t : Table) (base : Nat) (ws : List UInt32) {i : Nat}
    (h : i < base) : (t.storeWords base ws).words[i]? = t.words[i]? := by
  induction ws generalizing t base with
  | nil => rfl
  | cons w ws ih =>
    rw [storeWords, ih _ _ (by omega), getElem?_setWord, if_neg (by omega)]

theorem flag?_write (t : Table) (slot : Nat) (e : Entry) {id : Nat} (h : id < slotCount) :
    (t.write slot e).flag? id = t.flag? id :=
  getElem?_storeWords_of_lt t _ _ (Nat.lt_of_lt_of_le h (Nat.le_add_right _ _))

theorem writeAll_cons (t : Table) (e : Entry) (entries : List Entry) :
    t.writeAll (e :: entries) = (t.write e.id.toNat e).writeAll entries :=
  List.foldl_cons ..

theorem flag?_writeAll (t : Table) (entries : List Entry) {id : Nat} (h : id < slotCount) :
    (t.writeAll entries).flag? id = t.flag? id := by
  induction entries generalizing t with
  | nil => rfl
  | cons e entries ih => rw [writeAll_cons, ih, flag?_write t _ e h]

end ScatterGather.Table
