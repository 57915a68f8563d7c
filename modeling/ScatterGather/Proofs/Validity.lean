import Mathlib.Algebra.GroupWithZero.Nat
import ScatterGather.Settings

/-! # Valid settings

What the worker may rely on once the settings were found to be without fault: pages and chunks are
powers of two of at least a word, and no window is empty.
-/
namespace ScatterGather.Settings

theorem valid_iff {s : Settings} :
    s.Valid ↔ 2 ^ s.pageSize.log2 = s.pageSize ∧ wordBytes ≤ s.pageSize ∧ s.windowPages ≠ 0 ∧
      minChunkLog ≤ s.chunkLog ∧ s.chunkLog < 64 ∧ 2 ^ s.chunkLog < s.pageSize := by
  unfold Valid fault?
  simp only [Nat.one_shiftLeft]
  repeat' split
  all_goals simp only [reduceCtorEq, false_iff, true_iff]
  all_goals omega

namespace Valid
variable {s : Settings}

theorem pageSize_pow (h : s.Valid) : 2 ^ s.pageSize.log2 = s.pageSize := (valid_iff.mp h).1

theorem wordBytes_le (h : s.Valid) : wordBytes ≤ s.pageSize := (valid_iff.mp h).2.1

theorem pageSize_pos (h : s.Valid) : 0 < s.pageSize := Nat.lt_of_lt_of_le (by decide) h.wordBytes_le

theorem windowPages_pos (h : s.Valid) : 0 < s.windowPages :=
  Nat.pos_of_ne_zero (valid_iff.mp h).2.2.1

theorem minChunkLog_le (h : s.Valid) : minChunkLog ≤ s.chunkLog := (valid_iff.mp h).2.2.2.1

theorem chunkLog_lt (h : s.Valid) : s.chunkLog < 64 := (valid_iff.mp h).2.2.2.2.1

theorem chunk_lt (h : s.Valid) : 2 ^ s.chunkLog < s.pageSize := (valid_iff.mp h).2.2.2.2.2

theorem fullWindow_pos (h : s.Valid) : 0 < s.fullWindow := Nat.mul_pos h.windowPages_pos h.pageSize_pos

theorem word_dvd_pageSize (h : s.Valid) : wordBytes ∣ s.pageSize := by
  rw [← h.pageSize_pow]
  have hlog : minChunkLog ≤ s.pageSize.log2 :=
    Nat.le_trans h.minChunkLog_le ((Nat.le_log2 (Nat.ne_of_gt h.pageSize_pos)).mpr (Nat.le_of_lt h.chunk_lt))
  exact ⟨2 ^ (s.pageSize.log2 - minChunkLog), by
    rw [show wordBytes = 2 ^ minChunkLog from rfl, ← Nat.pow_add, Nat.add_sub_cancel' hlog]⟩

theorem pageSize_dvd_addressLimit (h : s.Valid) (hle : s.pageSize ≤ addressLimit) :
    s.pageSize ∣ addressLimit := by
  rw [show addressLimit = 2 ^ 64 from rfl, ← h.pageSize_pow] at hle ⊢
  exact Nat.pow_dvd_pow 2 ((Nat.pow_le_pow_iff_right (by decide)).mp hle)

end Valid

end ScatterGather.Settings
