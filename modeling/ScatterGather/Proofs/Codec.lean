import Mathlib.Algebra.GroupWithZero.Nat
import ScatterGather.Descriptor.Entry

/-! # Words of a descriptor

Both addresses pass through the words unchanged. The length and the id share the control word and keep
as many bits as it has room for, so a descriptor is read back as it was written exactly if both fit,
and whatever words are read, writing back what they stand for changes none that is looked at.
-/
namespace ScatterGather.Entry

section Halves

theorem toNat_joinHalves (low high : UInt32) :
    (joinHalves low high).toNat = high.toNat * 2 ^ 32 + low.toNat := by
  have hlow := low.toNat_lt
  have hhigh := high.toNat_lt
  have hbits : (joinHalves low high).toNat = high.toNat <<< 32 % 2 ^ 64 ||| low.toNat := by
    simp only [joinHalves, UInt64.toNat_or, UInt64.toNat_shiftLeft, UInt32.toNat_toUInt64]
    rfl
  rw [hbits, Nat.shiftLeft_eq, Nat.mod_eq_of_lt (by omega), ← Nat.shiftLeft_eq,
    ← Nat.shiftLeft_add_eq_or_of_lt hlow, Nat.shiftLeft_eq]

theorem joinHalves_halves (x : UInt64) : joinHalves x.toUInt32 (x >>> 32).toUInt32 = x := by
  apply UInt64.toNat_inj.mp
  have hx := x.toNat_lt
  have hhigh : (x >>> 32).toUInt32.toNat = x.toNat / 2 ^ 32 := by
    rw [UInt64.toNat_toUInt32, UInt64.toNat_shiftRight, show (32 : UInt64).toNat % 64 = 32 from rfl,
      Nat.shiftRight_eq_div_pow]
    omega
  rw [toNat_joinHalves, hhigh, UInt64.toNat_toUInt32]
  omega

theorem low_joinHalves (low high : UInt32) : (joinHalves low high).toUInt32 = low := by
  apply UInt32.toNat_inj.mp
  have hlow := low.toNat_lt
  rw [UInt64.toNat_toUInt32, toNat_joinHalves]
  omega

theorem high_joinHalves (low high : UInt32) : (joinHalves low high >>> 32).toUInt32 = high := by
  apply UInt32.toNat_inj.mp
  have hlow := low.toNat_lt
  have hhigh := high.toNat_lt
  rw [UInt64.toNat_toUInt32, UInt64.toNat_shiftRight, show (32 : UInt64).toNat % 64 = 32 from rfl,
    Nat.shiftRight_eq_div_pow, toNat_joinHalves]
  omega

end Halves

section Control

theorem toNat_and_lengthMask (w : UInt32) : (w &&& lengthMask).toNat = w.toNat % 2 ^ 18 := by
  rw [UInt32.toNat_and, show lengthMask.toNat = 2 ^ 18 - 1 from rfl, Nat.and_two_pow_sub_one_eq_mod]

theorem toNat_and_idMask (w : UInt32) : (w &&& idMask).toNat = w.toNat % 2 ^ 7 := by
  rw [UInt32.toNat_and, show idMask.toNat = 2 ^ 7 - 1 from rfl, Nat.and_two_pow_sub_one_eq_mod]

theorem toNat_control (e : Entry) :
    e.control.toNat = e.id.toNat % 2 ^ 7 * 2 ^ 18 + e.length.toNat % 2 ^ 18 := by
  have hlow : e.length.toNat % 2 ^ 18 < 2 ^ 18 := Nat.mod_lt _ (by decide)
  have hbits : e.control.toNat =
      e.length.toNat % 2 ^ 18 ||| (e.id.toNat % 2 ^ 7) <<< 18 % 2 ^ 32 := by
    rw [control, UInt32.toNat_or, UInt32.toNat_shiftLeft, toNat_and_lengthMask, toNat_and_idMask]
    rfl
  have hroom : (e.id.toNat % 2 ^ 7) <<< 18 < 2 ^ 32 := by rw [Nat.shiftLeft_eq]; omega
  rw [hbits, Nat.mod_eq_of_lt hroom, Nat.or_comm, ← Nat.shiftLeft_add_eq_or_of_lt hlow,
    Nat.shiftLeft_eq]

/-- What the length field of a control word says. -/
theorem toNat_length_ofWords (w : Vector UInt32 wordsPerEntry) :
    (ofWords w).length.toNat = w[4].toNat % 2 ^ 18 := toNat_and_lengthMask _

theorem toNat_id_ofWords (w : Vector UInt32 wordsPerEntry) :
    (ofWords w).id.toNat = w[4].toNat / 2 ^ 18 % 2 ^ 7 := by
  calc
    (ofWords w).id.toNat = ((w[4] >>> idShift) &&& idMask).toNat := rfl
    _ = w[4].toNat / 2 ^ 18 % 2 ^ 7 := by
      rw [toNat_and_idMask, UInt32.toNat_shiftRight, show idShift.toNat % 32 = 18 from rfl,
        Nat.shiftRight_eq_div_pow]

end Control

/-- The descriptor with the bits of its length and of its id that the control word has room for. -/
def reduced (e : Entry) : Entry :=
  { e with length := UInt32.ofNat (e.length.toNat % 2 ^ 18), id := UInt32.ofNat (e.id.toNat % 2 ^ 7) }

/-- The length and the id are in the range of their fields. -/
def Fits (e : Entry) : Prop := e.length.toNat < 2 ^ 18 ∧ e.id.toNat < 2 ^ 7

instance (e : Entry) : Decidable e.Fits := inferInstanceAs (Decidable (_ ∧ _))

/-- The words without the bits that no field of a descriptor is read from. -/
def meaningful (w : Vector UInt32 wordsPerEntry) : Vector UInt32 wordsPerEntry :=
  w.mapIdx fun i word =>
    if i < 4 then word else if i = 4 then UInt32.ofNat (word.toNat % 2 ^ 25) else 0

/-- The words of a descriptor when nothing is cut off. -/
def layout (e : Entry) : List UInt32 :=
  [e.src.toUInt32, (e.src >>> 32).toUInt32, e.dst.toUInt32, (e.dst >>> 32).toUInt32,
    e.length ||| e.id <<< 18, 0, 0, 0]

section Laws
variable {e f : Entry}

theorem toNat_length_reduced (e : Entry) : e.reduced.length.toNat = e.length.toNat % 2 ^ 18 :=
  UInt32.toNat_ofNat_of_lt' (Nat.lt_trans (Nat.mod_lt _ (by decide)) (by decide))

theorem toNat_id_reduced (e : Entry) : e.reduced.id.toNat = e.id.toNat % 2 ^ 7 :=
  UInt32.toNat_ofNat_of_lt' (Nat.lt_trans (Nat.mod_lt _ (by decide)) (by decide))

theorem reduced_fits (e : Entry) : e.reduced.Fits := by
  rw [Fits, toNat_length_reduced, toNat_id_reduced]
  exact ⟨Nat.mod_lt _ (by decide), Nat.mod_lt _ (by decide)⟩

theorem reduced_eq_iff : e.reduced = e ↔ e.Fits := by
  constructor
  · intro h
    exact h ▸ e.reduced_fits
  · rintro ⟨hlength, hid⟩
    simp only [reduced, Nat.mod_eq_of_lt hlength, Nat.mod_eq_of_lt hid, UInt32.ofNat_toNat]

theorem words_reduced (e : Entry) : e.reduced.words = e.words := by
  have hcontrol : e.reduced.control = e.control := by
    apply UInt32.toNat_inj.mp
    rw [toNat_control, toNat_control, toNat_length_reduced, toNat_id_reduced, Nat.mod_mod, Nat.mod_mod]
  rw [words, hcontrol]
  rfl

theorem ofWords_words (e : Entry) : ofWords e.words = e.reduced := by
  have hlength : (ofWords e.words).length = e.reduced.length := by
    apply UInt32.toNat_inj.mp
    rw [toNat_length_ofWords, toNat_length_reduced]
    change e.control.toNat % 2 ^ 18 = _
    rw [toNat_control]
    omega
  have hid : (ofWords e.words).id = e.reduced.id := by
    apply UInt32.toNat_inj.mp
    rw [toNat_id_ofWords, toNat_id_reduced]
    change e.control.toNat / 2 ^ 18 % 2 ^ 7 = _
    rw [toNat_control]
    omega
  calc
    ofWords e.words = ⟨joinHalves e.src.toUInt32 (e.src >>> 32).toUInt32,
        joinHalves e.dst.toUInt32 (e.dst >>> 32).toUInt32,
        (ofWords e.words).length, (ofWords e.words).id⟩ := rfl
    _ = e.reduced := by rw [joinHalves_halves, joinHalves_halves, hlength, hid]; rfl

/-- A descriptor is read back as it was written if both of its fields fit, and only then. -/
theorem ofWords_words_eq_iff : ofWords e.words = e ↔ e.Fits := by
  rw [ofWords_words, reduced_eq_iff]

theorem toList_words (h : e.Fits) : e.words.toList = e.layout := by
  have hlength : e.length &&& lengthMask = e.length := by
    apply UInt32.toNat_inj.mp
    rw [toNat_and_lengthMask, Nat.mod_eq_of_lt h.1]
  have hid : e.id &&& idMask = e.id := by
    apply UInt32.toNat_inj.mp
    rw [toNat_and_idMask, Nat.mod_eq_of_lt h.2]
  have hcontrol : e.control = e.length ||| e.id <<< 18 := by
    rw [control, hlength, hid]
    rfl
  rw [layout, ← hcontrol]
  rfl

theorem eq_of_words (he : e.Fits) (hf : f.Fits) (h : e.words = f.words) : e = f := by
  rw [← ofWords_words_eq_iff.mpr he, h, ofWords_words_eq_iff.mpr hf]

theorem ofWords_fits (w : Vector UInt32 wordsPerEntry) : (ofWords w).Fits := by
  rw [Fits, toNat_length_ofWords, toNat_id_ofWords]
  exact ⟨Nat.mod_lt _ (by decide), Nat.mod_lt _ (by decide)⟩

theorem words_ofWords (w : Vector UInt32 wordsPerEntry) : (ofWords w).words = meaningful w := by
  have hcontrol : (ofWords w).control = UInt32.ofNat (w[4].toNat % 2 ^ 25) := by
    apply UInt32.toNat_inj.mp
    rw [toNat_control, toNat_length_ofWords, toNat_id_ofWords,
      UInt32.toNat_ofNat_of_lt' (Nat.lt_trans (Nat.mod_lt _ (by decide)) (by decide))]
    omega
  apply Vector.ext
  intro i hi
  rw [meaningful, Vector.getElem_mapIdx]
  match i, hi with
  | 0, _ | 2, _ => exact low_joinHalves ..
  | 1, _ | 3, _ => exact high_joinHalves ..
  | 4, _ => exact hcontrol
  | 5, _ | 6, _ | 7, _ => rfl

end Laws

section Moving
variable {dir : Direction} {host device len id : Nat}

/-- What is too long for the length field is cut off, not rounded up. -/
theorem size_moving_le : (moving dir host device len id).size ≤ len := by
  have hwords : (UInt32.ofNat (len / wordBytes)).toNat ≤ len / wordBytes := by
    rw [UInt32.toNat_ofNat']
    exact Nat.mod_le _ _
  exact Nat.le_trans (Nat.mul_le_mul_right wordBytes hwords) (Nat.div_mul_le_self _ _)

theorem size_moving (h : wordBytes ∣ len) (hlen : len < 2 ^ 34) :
    (moving dir host device len id).size = len := by
  have hlt : len / wordBytes < 2 ^ 32 := Nat.div_lt_of_lt_mul hlen
  calc
    (moving dir host device len id).size = (UInt32.ofNat (len / wordBytes)).toNat * wordBytes := rfl
    _ = len := by rw [UInt32.toNat_ofNat_of_lt' hlt, Nat.div_mul_cancel h]

theorem moving_fits (hlen : len < 2 ^ 20) (hid : id < slotCount) :
    (moving dir host device len id).Fits := by
  have hwords : len / wordBytes < 2 ^ 18 := Nat.div_lt_of_lt_mul hlen
  have hlength : (UInt32.ofNat (len / wordBytes)).toNat = len / wordBytes :=
    UInt32.toNat_ofNat_of_lt' (Nat.lt_trans hwords (by decide))
  have hslot : (UInt32.ofNat id).toNat = id := UInt32.toNat_ofNat_of_lt' (Nat.lt_trans hid (by decide))
  exact ⟨hlength.symm ▸ hwords, hslot.symm ▸ hid⟩

end Moving

/-- What a descriptor of a transfer says once it is read back from its words. -/
structure Carries (dir : Direction) (host device : UInt64) (len id : Nat) (e : Entry) : Prop where
  size : e.size = len
  id : e.id.toNat = id
  src : e.src = match dir with
    | .deviceToHost => device
    | .hostToDevice => host
  dst : e.dst = match dir with
    | .deviceToHost => host
    | .hostToDevice => device

/-- Writing a descriptor into words and reading words as a descriptor undo each other, up to the bits
that have no place in the other form. A descriptor of a transfer loses nothing if its length is a
whole number of words below a mebibyte and its id that of a slot. -/
theorem words_roundTrip :
    (∀ e : Entry, ofWords e.words = e.reduced ∧ (ofWords e.words = e ↔ e.Fits)) ∧
    (∀ e f : Entry, e.Fits → f.Fits → e.words = f.words → e = f) ∧
    (∀ w : Vector UInt32 wordsPerEntry, (ofWords w).words = meaningful w ∧
      (ofWords (ofWords w).words).words = (ofWords w).words ∧
      ofWords (ofWords w).words = ofWords w) ∧
    ∀ (dir : Direction) (host device : UInt64) (len id : Nat),
      wordBytes ∣ len → len < 2 ^ 20 → id < slotCount →
        Carries dir host device len id
          (ofWords (moving dir host.toNat device.toNat len id).words) := by
  have hread (w : Vector UInt32 wordsPerEntry) : ofWords (ofWords w).words = ofWords w :=
    ofWords_words_eq_iff.mpr (ofWords_fits w)
  refine ⟨fun e => ⟨ofWords_words e, ofWords_words_eq_iff⟩, fun _ _ => eq_of_words,
    fun w => ⟨words_ofWords w, congrArg words (hread w), hread w⟩, ?_⟩
  intro dir host device len id hdvd hlen hid
  rw [ofWords_words_eq_iff.mpr (moving_fits hlen hid)]
  exact {
    size := size_moving hdvd (Nat.lt_trans hlen (by decide))
    id := UInt32.toNat_ofNat_of_lt' (Nat.lt_trans hid (by decide))
    src := by cases dir <;> exact UInt64.ofNat_toNat
    dst := by cases dir <;> exact UInt64.ofNat_toNat }

theorem words_roundTrip_chunk :
    (4 ∣ 2048 ∧ 2048 < 2 ^ 20 ∧ 127 < slotCount) ∧
      Carries .deviceToHost 0xABCD00001000 0x80000000 2048 127
        (ofWords (moving .deviceToHost 0xABCD00001000 0x80000000 2048 127).words) :=
  ⟨by decide, words_roundTrip.2.2.2 .deviceToHost 0xABCD00001000 0x80000000 2048 127
    (by decide) (by decide) (by decide)⟩

end ScatterGather.Entry
