import ScatterGather.Proofs.Tables

/-! # A table as two maps

Under any stores a table is a map from ids to flags and a map from slots to descriptors. Neither sees
what is stored in the other, a place keeps what was last stored there, and all of it lies at fixed
bytes.
-/
namespace ScatterGather
namespace Table

inductive Store where
  | write (slot : Fin slotCount) (e : Entry)
  | setFlag (id : Fin slotCount) (value : UInt32)
  | clearFlags
deriving DecidableEq, Repr

def store (t : Table) : Store → Table
  | .write slot e => t.write slot e
  | .setFlag id value => t.putFlag id value
  | .clearFlags => t.zeroFlags

/-- What a zeroed table has become, the latest store first. -/
def after : List Store → Table
  | [] => blank
  | s :: older => (after older).store s

/-- The value that was last set since the flags were last cleared. -/
def lastFlag (id : Fin slotCount) : List Store → UInt32
  | [] => 0
  | .setFlag i value :: older => if i = id then value else lastFlag id older
  | .clearFlags :: _ => 0
  | .write .. :: older => lastFlag id older

/-- The descriptor that was last written, as far as it has room in a slot. -/
def lastEntry (slot : Fin slotCount) : List Store → Entry
  | [] => { src := 0, dst := 0, length := 0, id := 0 }
  | .write i e :: older => if i = slot then e.reduced else lastEntry slot older
  | .setFlag .. :: older => lastEntry slot older
  | .clearFlags :: older => lastEntry slot older

def littleEndian (w : UInt32) : List UInt8 :=
  (List.range wordBytes).map fun i => UInt8.ofNat (w.toNat / 256 ^ i)

/-- The table reads as the two maps, and its bytes are those of the two maps. -/
structure Maps (t : Table) (flags : Fin slotCount → UInt32) (entries : Fin slotCount → Entry) :
    Prop where
  flag : ∀ id : Fin slotCount, t.flag? id = some (flags id)
  entry : ∀ slot : Fin slotCount, t.entryAt? slot = some (entries slot)
  size : t.bytes.length = 4608
  flagBytes : ∀ id : Fin slotCount, t.byteSlice? (4 * id) 4 = some (littleEndian (flags id))
  entryBytes : ∀ slot : Fin slotCount,
    t.byteSlice? (0x200 + 32 * slot) 32 = some ((entries slot).layout.flatMap littleEndian)

section Bytes

theorem wordToBytes_eq (w : UInt32) : wordToBytes w = littleEndian w := by
  have hbyte (n k : UInt32) (h : k.toNat < 32) : (n >>> k).toUInt8 = UInt8.ofNat (n.toNat / 2 ^ k.toNat) := by
    apply UInt8.toNat_inj.mp
    rw [UInt32.toNat_toUInt8, UInt32.toNat_shiftRight, Nat.mod_eq_of_lt h, Nat.shiftRight_eq_div_pow,
      UInt8.toNat_ofNat']
  have hfirst : w.toUInt8 = UInt8.ofNat (w.toNat / 256 ^ 0) := by
    apply UInt8.toNat_inj.mp
    rw [UInt32.toNat_toUInt8, UInt8.toNat_ofNat', Nat.pow_zero, Nat.div_one]
  rw [wordToBytes, hfirst, hbyte w 8 (by decide), hbyte w 16 (by decide), hbyte w 24 (by decide)]
  rfl

theorem length_flatMap_bytes (ws : List UInt32) :
    (ws.flatMap wordToBytes).length = wordBytes * ws.length := by
  induction ws with
  | nil => rfl
  | cons w ws ih =>
    rw [List.flatMap_cons, List.length_append, ih, List.length_cons, Nat.mul_succ, Nat.add_comm]
    rfl

theorem length_bytes (t : Table) : t.bytes.length = bytesPerTable := by
  rw [bytes, length_flatMap_bytes, Vector.length_toList, bytesPerTable, Nat.mul_comm]

/-- Bytes that start and end with a word are those of the words between. -/
theorem byteSlice?_words (t : Table) {first count : Nat} (h : first + count ≤ wordsPerTable) :
    t.byteSlice? (wordBytes * first) (wordBytes * count) =
      some (((t.words.toList.drop first).take count).flatMap littleEndian) := by
  have hin : wordBytes * first + wordBytes * count ≤ wordsPerTable * wordBytes := by
    rw [← Nat.mul_add, Nat.mul_comm]
    exact Nat.mul_le_mul_right _ h
  have hlen : t.words.toList.length = wordsPerTable := t.words.length_toList
  have hbefore : ((t.words.toList.take first).flatMap wordToBytes).length = wordBytes * first := by
    rw [length_flatMap_bytes, List.length_take, Nat.min_eq_left (by omega)]
  have hwithin : (((t.words.toList.drop first).take count).flatMap wordToBytes).length =
      wordBytes * count := by
    rw [length_flatMap_bytes, List.length_take, List.length_drop, Nat.min_eq_left (by omega)]
  have hsplit : t.bytes = (t.words.toList.take first).flatMap wordToBytes ++
      (((t.words.toList.drop first).take count).flatMap wordToBytes ++
        ((t.words.toList.drop first).drop count).flatMap wordToBytes) := by
    rw [← List.flatMap_append, List.take_append_drop, ← List.flatMap_append, List.take_append_drop,
      bytes]
  rw [byteSlice?, if_pos hin, hsplit, ← hbefore, List.drop_left, ← hwithin, List.take_left,
    funext wordToBytes_eq]

theorem flag_words {t : Table} {id : Nat} {value : UInt32} (h : t.flag? id = some value) :
    (t.words.toList.drop id).take 1 = [value] := by
  rw [flag?, ← Vector.getElem?_toList] at h
  rw [List.take_one, List.head?_drop, h]
  rfl

theorem slotBase_le {slot : Nat} (hs : slot < slotCount) :
    slotBase slot + wordsPerEntry ≤ wordsPerTable :=
  slotBase_lt hs (k := wordsPerEntry - 1) (by decide)

theorem slot_words (t : Table) {slot : Nat} (hs : slot < slotCount) :
    (t.words.toList.drop (slotBase slot)).take wordsPerEntry = (t.slotWords slot).toList := by
  have hlen : t.words.toList.length = wordsPerTable := t.words.length_toList
  have hin := slotBase_le hs
  apply List.ext_getElem
  · rw [List.length_take, List.length_drop, hlen, Vector.length_toList]
    exact Nat.min_eq_left (Nat.le_sub_of_add_le' hin)
  · intro k hk _
    have hlt : k < wordsPerEntry := Nat.lt_of_lt_of_le hk (List.length_take_le _ _)
    have hword : (t.slotWords slot)[k] = t.words[slotBase slot + k]?.getD 0 := Vector.getElem_ofFn _
    rw [List.getElem_take, List.getElem_drop, Vector.getElem_toList, Vector.getElem_toList, hword,
      Vector.getElem?_eq_getElem (slotBase_lt hs hlt)]
    rfl

end Bytes

/-- Each store keeps both maps: what it changes it changes in one place of one of them. -/
theorem flag?_after (id : Fin slotCount) (stores : List Store) :
    (after stores).flag? id = some (lastFlag id stores) := by
  have hslot (i : Fin slotCount) : HasFlag i := Nat.lt_of_lt_of_le i.isLt (by decide)
  induction stores with
  | nil => exact flag?_blank (hslot id)
  | cons s older ih =>
    cases s with
    | write slot e =>
      rw [after, store, flag?_write _ _ _ id.isLt, ih]
      rfl
    | setFlag i value =>
      rw [after, store, lastFlag]
      by_cases hi : i = id
      · rw [hi, flag?_putFlag_self _ (hslot id), if_pos rfl]
      · rw [flag?_putFlag_of_ne _ (Fin.val_ne_of_ne hi), if_neg hi, ih]
    | clearFlags => exact flag?_zeroFlags _ id.isLt

theorem lastEntry_fits (slot : Fin slotCount) (stores : List Store) : (lastEntry slot stores).Fits := by
  induction stores with
  | nil => rw [lastEntry]; decide
  | cons s older ih =>
    cases s with
    | write i e =>
      rw [lastEntry]
      split
      · exact e.reduced_fits
      · exact ih
    | setFlag | clearFlags => exact ih

theorem slotWords_after (slot : Fin slotCount) (stores : List Store) :
    (after stores).slotWords slot = (lastEntry slot stores).words := by
  induction stores with
  | nil =>
    rw [after, slotWords_blank, lastEntry]
    rfl
  | cons s older ih =>
    cases s with
    | write i e =>
      rw [after, store, lastEntry]
      by_cases hi : i = slot
      · rw [hi, slotWords_write_self _ _ slot.isLt, if_pos rfl, Entry.words_reduced]
      · rw [slotWords_write_of_ne _ _ (Fin.val_ne_of_ne hi), if_neg hi, ih]
    | setFlag i value => rw [after, store, slotWords_putFlag _ i.isLt, ih, lastEntry]
    | clearFlags => rw [after, store, slotWords_zeroFlags, ih, lastEntry]

/-- Whatever is stored in a table that was zeroed, in any order, it stays two maps with fixed places:
the last flags since they were last cleared, and the last descriptors. -/
theorem after_maps (stores : List Store) :
    (after stores).Maps (lastFlag · stores) (lastEntry · stores) where
  flag id := flag?_after id stores
  entry slot := by
    rw [entryAt?, if_pos slot.isLt, Table.entry, slotWords_after,
      Entry.ofWords_words_eq_iff.mpr (lastEntry_fits slot stores)]
  size := length_bytes _
  flagBytes id := by
    have hin : id.val + 1 ≤ wordsPerTable := Nat.lt_of_lt_of_le id.isLt (by decide)
    have hbytes := (after stores).byteSlice?_words hin
    rw [flag_words (flag?_after id stores), List.flatMap_singleton] at hbytes
    exact hbytes
  entryBytes slot := by
    have hstart : wordBytes * slotBase slot = 0x200 + 32 * slot := by
      simp only [slotBase, wordBytes, slotCount, wordsPerEntry]
      omega
    have hbytes := (after stores).byteSlice?_words (slotBase_le slot.isLt)
    rw [slot_words _ slot.isLt, slotWords_after, Entry.toList_words (lastEntry_fits slot stores), hstart]
      at hbytes
    exact hbytes

end Table
end ScatterGather
