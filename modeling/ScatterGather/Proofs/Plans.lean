import Mathlib.Algebra.BigOperators.Ring.List
import Mathlib.Algebra.Ring.Nat
import ScatterGather.Proofs.Cuts

/-! # The greedy cut is the best one

Of all cuts of a slice into chunks of the sizes that the controller moves, none with room for as many
chunks covers more bytes than the greedy one, and none that covers as many bytes has fewer chunks. A
cut that the ring's end breaks off is continued by the cut of what is left.
-/
namespace ScatterGather

def ChunkSize (maxLog n : Nat) : Prop := ∃ log, minChunkLog ≤ log ∧ log ≤ maxLog ∧ n = 2 ^ log

/-- Some chunks of a slice of `bytes` bytes, in any order and no more than `capacity`. -/
structure Cut (bytes capacity maxLog : Nat) (sizes : List Nat) : Prop where
  size : ∀ n ∈ sizes, ChunkSize maxLog n
  fits : sizes.length ≤ capacity
  within : sizes.sum ≤ bytes

structure BestCut (bytes capacity maxLog : Nat) (sizes : List Nat) : Prop extends
    Cut bytes capacity maxLog sizes where
  descending : sizes.Pairwise (· ≥ ·)
  /-- Below the largest size no size occurs twice. -/
  once : ∀ n < 2 ^ maxLog, sizes.count n ≤ 1
  whole : sizes.sum = bytes / wordBytes * wordBytes ∨ sizes.length = capacity
  most : ∀ other, Cut bytes capacity maxLog other → other.sum ≤ sizes.sum
  fewest : ∀ other : List Nat, (∀ n ∈ other, ChunkSize maxLog n) → other.sum = sizes.sum →
    sizes.length ≤ other.length

section Sizes
variable {steps left : Nat}

theorem pow_of_mem_chunksOf {n : Nat} (h : n ∈ chunksOf steps left) :
    ∃ log, minChunkLog ≤ log ∧ log < steps + minChunkLog ∧ n = 2 ^ log := by
  induction steps generalizing left with
  | zero => simp [chunksOf] at h
  | succ steps ih =>
    simp only [chunksOf, List.mem_append, List.mem_replicate] at h
    rcases h with ⟨-, rfl⟩ | h
    · exact ⟨_, Nat.le_add_left _ _, by omega, rfl⟩
    · obtain ⟨log, hmin, hlt, hn⟩ := ih h
      exact ⟨log, hmin, by omega, hn⟩

theorem lt_of_mem_chunksOf {n : Nat} (h : n ∈ chunksOf steps left) : n < 2 ^ (steps + minChunkLog) := by
  obtain ⟨log, -, hlt, rfl⟩ := pow_of_mem_chunksOf h
  exact Nat.pow_lt_pow_right (by decide) hlt

theorem chunksOf_descending (steps left : Nat) : (chunksOf steps left).Pairwise (· ≥ ·) := by
  induction steps generalizing left with
  | zero => exact .nil
  | succ steps ih =>
    rw [chunksOf, List.pairwise_append]
    refine ⟨List.pairwise_replicate.mpr (.inr (Nat.le_refl _)), ih _, ?_⟩
    intro a ha b hb
    obtain rfl := (List.mem_replicate.mp ha).2
    exact Nat.le_of_lt (lt_of_mem_chunksOf hb)

/-- Less than twice the largest chunk is cut into chunks of different sizes. -/
theorem nodup_chunksOf (h : left < 2 ^ (steps + minChunkLog)) : (chunksOf steps left).Nodup := by
  induction steps generalizing left with
  | zero => exact .nil
  | succ steps ih =>
    have hpos : 0 < 2 ^ (steps + minChunkLog) := Nat.two_pow_pos _
    have hfew : left / 2 ^ (steps + minChunkLog) ≤ 1 := by
      rw [Nat.add_right_comm, Nat.pow_succ] at h
      exact Nat.le_of_lt_succ (Nat.div_lt_of_lt_mul h)
    rw [chunksOf, List.nodup_append]
    refine ⟨List.nodup_replicate.mpr hfew, ih (Nat.mod_lt _ hpos), ?_⟩
    intro a ha b hb
    obtain rfl := (List.mem_replicate.mp ha).2
    exact Nat.ne_of_gt (lt_of_mem_chunksOf hb)

theorem count_chunksOf_le_one {n : Nat} (h : n < 2 ^ (steps + minChunkLog)) :
    (chunksOf (steps + 1) left).count n ≤ 1 := by
  have hrest : (chunksOf steps (left % 2 ^ (steps + minChunkLog))).Nodup :=
    nodup_chunksOf (Nat.mod_lt _ (Nat.two_pow_pos _))
  rw [chunksOf, List.count_append, List.count_replicate, if_neg (by simpa using Nat.ne_of_gt h),
    Nat.zero_add]
  exact List.nodup_iff_count.mp hrest n

end Sizes

section Sums
variable {steps left : Nat}

/-- What a cut without limit leaves is less than a word. -/
theorem sum_chunksOf_add_mod (hsteps : steps ≠ 0) (left : Nat) :
    (chunksOf steps left).sum + left % wordBytes = left := by
  induction steps generalizing left with
  | zero => exact absurd rfl hsteps
  | succ steps ih =>
    have hdiv := Nat.div_add_mod' left (2 ^ (steps + minChunkLog))
    simp only [chunksOf, List.sum_append, List.sum_replicate_nat]
    by_cases hzero : steps = 0
    · subst hzero
      exact hdiv
    · have hsize : wordBytes ∣ 2 ^ (steps + minChunkLog) :=
        Nat.pow_dvd_pow 2 (Nat.le_add_left minChunkLog steps)
      have hrest := ih hzero (left % 2 ^ (steps + minChunkLog))
      rw [Nat.mod_mod_of_dvd _ hsize] at hrest
      omega

theorem sum_chunksOf_eq (hsteps : steps ≠ 0) (left : Nat) :
    (chunksOf steps left).sum = left / wordBytes * wordBytes := by
  have hsum := sum_chunksOf_add_mod hsteps left
  have hdiv := Nat.div_add_mod' left wordBytes
  omega

theorem chunksOf_eq_nil_iff : chunksOf steps left = [] ↔ steps = 0 ∨ left < wordBytes := by
  by_cases hsteps : steps = 0
  · subst hsteps
    simp [chunksOf]
  · have hsum := sum_chunksOf_eq hsteps left
    rw [or_iff_right hsteps]
    constructor
    · intro hnil
      rw [hnil, List.sum_nil, eq_comm, Nat.mul_eq_zero] at hsum
      exact (Nat.div_eq_zero_iff_lt (by decide)).mp (hsum.resolve_right (by decide))
    · intro hlt
      refine List.eq_nil_iff_forall_not_mem.mpr fun n hn => ?_
      obtain ⟨hdvd, hpos, hle⟩ := mem_chunksOf hn
      exact absurd (Nat.le_of_dvd hpos hdvd) (by omega)

end Sums

section Lengths
variable {steps left : Nat}

theorem chunksOf_mul_add {rest : Nat} (count : Nat) (h : rest < 2 ^ (steps + minChunkLog)) :
    chunksOf (steps + 1) (count * 2 ^ (steps + minChunkLog) + rest) =
      List.replicate count (2 ^ (steps + minChunkLog)) ++ chunksOf steps rest := by
  simp only [chunksOf]
  rw [Nat.mul_comm, Nat.mul_add_div (Nat.two_pow_pos _), Nat.mul_add_mod, Nat.div_eq_of_lt h,
    Nat.mod_eq_of_lt h, Nat.add_zero]

theorem chunksOf_add_top (steps left : Nat) :
    chunksOf (steps + 1) (left + 2 ^ (steps + minChunkLog)) =
      2 ^ (steps + minChunkLog) :: chunksOf (steps + 1) left := by
  simp only [chunksOf]
  rw [Nat.add_div_right _ (Nat.two_pow_pos _), Nat.add_mod_right, List.replicate_succ,
    List.cons_append]

/-- A slice that grows by one chunk is cut into one chunk more at most. -/
theorem length_chunksOf_add_pow {log : Nat} (hmin : minChunkLog ≤ log)
    (hlog : log < steps + minChunkLog) (left : Nat) :
    (chunksOf steps (left + 2 ^ log)).length ≤ (chunksOf steps left).length + 1 := by
  induction steps generalizing left with
  | zero => omega
  | succ steps ih =>
    obtain rfl | hlt : log = steps + minChunkLog ∨ log < steps + minChunkLog := by omega
    · exact Nat.le_of_eq (by rw [chunksOf_add_top, List.length_cons])
    obtain ⟨top, rfl⟩ : ∃ top, steps = top + 1 := ⟨steps - 1, by omega⟩
    have hdouble : 2 ^ (top + 1 + minChunkLog) = 2 ^ (top + minChunkLog) + 2 ^ (top + minChunkLog) := by
      rw [Nat.add_right_comm, Nat.pow_succ, Nat.mul_two]
    have hchunk : 2 ^ log ≤ 2 ^ (top + minChunkLog) := Nat.pow_le_pow_right (by decide) (by omega)
    have hmod := Nat.mod_lt left (Nat.two_pow_pos (top + 1 + minChunkLog))
    have hrest := ih hlt (left % 2 ^ (top + 1 + minChunkLog))
    have hdiv := Nat.div_add_mod' left (2 ^ (top + 1 + minChunkLog))
    generalize left / 2 ^ (top + 1 + minChunkLog) = count at hdiv
    generalize left % 2 ^ (top + 1 + minChunkLog) = rest at hmod hrest hdiv
    rw [← hdiv, chunksOf_mul_add count hmod, List.length_append, List.length_replicate,
      Nat.add_assoc (count * _) rest]
    rcases Nat.lt_or_ge (rest + 2 ^ log) (2 ^ (top + 1 + minChunkLog)) with hin | hover
    · rw [chunksOf_mul_add count hin, List.length_append, List.length_replicate]
      omega
    · -- two chunks of the next size become one of the largest
      obtain ⟨excess, hsum⟩ := Nat.exists_eq_add_of_le' hover
      have hshort : excess < 2 ^ (top + 1 + minChunkLog) := by omega
      rw [hsum, hdouble, ← Nat.add_assoc, chunksOf_add_top, chunksOf_add_top, List.length_cons,
        List.length_cons] at hrest
      rw [hsum, Nat.add_comm excess, ← Nat.add_assoc, ← Nat.succ_mul, chunksOf_mul_add _ hshort,
        List.length_append, List.length_replicate]
      omega

/-- No other chunks with the same sum are fewer. -/
theorem length_chunksOf_sum_le {maxLog : Nat} {sizes : List Nat}
    (hsteps : steps + minChunkLog = maxLog + 1) (h : ∀ n ∈ sizes, ChunkSize maxLog n) :
    (chunksOf steps sizes.sum).length ≤ sizes.length := by
  induction sizes with
  | nil => simp [chunksOf_zero]
  | cons n sizes ih =>
    obtain ⟨log, hmin, hlog, rfl⟩ := h n List.mem_cons_self
    have hrest := ih fun m hm => h m (List.mem_cons_of_mem _ hm)
    have hmore := length_chunksOf_add_pow hmin (show log < steps + minChunkLog by omega) sizes.sum
    rw [List.sum_cons, Nat.add_comm, List.length_cons]
    omega

/-- As many chunks of more bytes cover no less. -/
theorem sum_chunksOf_le_sum_take {fewer more count : Nat} (hle : fewer ≤ more)
    (hcount : (chunksOf steps fewer).length ≤ count) :
    (chunksOf steps fewer).sum ≤ ((chunksOf steps more).take count).sum := by
  induction steps generalizing fewer more count with
  | zero => exact Nat.zero_le _
  | succ steps ih =>
    have hpos : 0 < 2 ^ (steps + minChunkLog) := Nat.two_pow_pos _
    have hquotient := Nat.div_le_div_right (c := 2 ^ (steps + minChunkLog)) hle
    have hdivFewer := Nat.div_add_mod' fewer (2 ^ (steps + minChunkLog))
    have hdivMore := Nat.div_add_mod' more (2 ^ (steps + minChunkLog))
    have hmodFewer := Nat.mod_lt fewer hpos
    have hmodMore := Nat.mod_lt more hpos
    generalize fewer / 2 ^ (steps + minChunkLog) = q at *
    generalize more / 2 ^ (steps + minChunkLog) = q' at *
    generalize fewer % 2 ^ (steps + minChunkLog) = rest at *
    generalize more % 2 ^ (steps + minChunkLog) = rest' at *
    subst hdivFewer hdivMore
    rw [chunksOf_mul_add q hmodFewer] at hcount ⊢
    rw [chunksOf_mul_add q' hmodMore]
    generalize 2 ^ (steps + minChunkLog) = size at *
    simp only [List.length_append, List.length_replicate] at hcount
    simp only [List.sum_append, List.sum_replicate_nat, List.take_append, List.take_replicate,
      List.length_replicate]
    rcases Nat.lt_or_eq_of_le hquotient with hlt | rfl
    · -- one more of the largest size covers more than all that is smaller
      have hall := sum_chunksOf steps rest
      rcases Nat.lt_or_ge q count with hmore | hall'
      · have hle := Nat.mul_le_mul_right size (Nat.le_min.mpr ⟨hmore, hlt⟩)
        rw [Nat.succ_mul] at hle
        omega
      · have hnil : chunksOf steps rest = [] := List.eq_nil_of_length_eq_zero (by omega)
        have hle := Nat.mul_le_mul_right size (Nat.le_min.mpr ⟨(show q ≤ count by omega), Nat.le_of_lt hlt⟩)
        rw [hnil]
        simp only [List.sum_nil]
        omega
    · have hfewer : q ≤ count := by omega
      rw [Nat.min_eq_right hfewer]
      exact Nat.add_le_add_left (ih (by omega) (by omega)) _

/-- The first chunks of a slice are the chunks of as many bytes as they cover. -/
theorem chunksOf_sum_take (steps left count : Nat) :
    chunksOf steps ((chunksOf steps left).take count).sum = (chunksOf steps left).take count := by
  induction steps generalizing left count with
  | zero => exact List.take_nil.symm
  | succ steps ih =>
    have hmod := Nat.mod_lt left (Nat.two_pow_pos (steps + minChunkLog))
    have hdiv := Nat.div_add_mod' left (2 ^ (steps + minChunkLog))
    generalize left / 2 ^ (steps + minChunkLog) = q at *
    generalize left % 2 ^ (steps + minChunkLog) = rest at *
    have hrest := ih rest (count - q)
    have hsum : ((chunksOf steps rest).take (count - q)).sum ≤ rest := by
      have htake := congrArg List.sum (List.take_append_drop (count - q) (chunksOf steps rest))
      have hall := sum_chunksOf steps rest
      rw [List.sum_append] at htake
      omega
    rw [← hdiv, chunksOf_mul_add q hmod, List.take_append, List.take_replicate, List.length_replicate,
      List.sum_append, List.sum_replicate_nat, chunksOf_mul_add _ (by omega), hrest]

end Lengths

section Plans
variable {bytes capacity pageSize maxLog : Nat}

/-- Below a page the check for a size that fits twice never fails. -/
theorem chunkPlan_of_lt (hlt : bytes < pageSize) : chunkPlan bytes capacity pageSize maxLog =
    if bytes < wordBytes ∨ capacity = 0 ∨ maxLog < minChunkLog then .error .noChunkSize
    else .ok ((chunksOf (maxLog + 1 - minChunkLog) bytes).take capacity) := by
  have hcut : cutChunks (decide (pageSize ≤ 4096) && decide (11 ≤ maxLog)) (maxLog + 1 - minChunkLog)
      bytes capacity = .ok ((chunksOf (maxLog + 1 - minChunkLog) bytes).take capacity) := by
    apply cutChunks_ok
    intro honce
    simp only [Bool.and_eq_true, decide_eq_true_eq] at honce
    -- what is less than a page of 4 KiB is less than twice the largest chunk
    have hpow := Nat.pow_le_pow_right (show 0 < 2 by decide) (show 12 ≤ maxLog + 1 by omega)
    rw [Nat.sub_add_cancel (Nat.le_trans (show minChunkLog ≤ 12 by decide) (by omega))]
    omega
  have hnil : (chunksOf (maxLog + 1 - minChunkLog) bytes).take capacity = [] ↔
      bytes < wordBytes ∨ capacity = 0 ∨ maxLog < minChunkLog := by
    rw [List.take_eq_nil_iff, chunksOf_eq_nil_iff]
    omega
  unfold chunkPlan
  rw [if_neg (Nat.not_le_of_lt hlt)]
  dsimp only
  rw [hcut, ← if_congr hnil rfl rfl]
  split
  · next h =>
    rw [if_pos (Except.ok.inj h)]
  · next h =>
    rw [if_neg fun hempty => h (congrArg Except.ok hempty)]

theorem ChunkSize.word_dvd {n : Nat} (h : ChunkSize maxLog n) : wordBytes ∣ n := by
  obtain ⟨log, hmin, -, rfl⟩ := h
  exact Nat.pow_dvd_pow 2 hmin

theorem bestCut_chunksOf (hlog : minChunkLog ≤ maxLog) : BestCut bytes capacity maxLog
    ((chunksOf (maxLog + 1 - minChunkLog) bytes).take capacity) := by
  obtain ⟨steps, hsteps⟩ : ∃ steps, steps + 1 = maxLog + 1 - minChunkLog :=
    ⟨maxLog - minChunkLog, by omega⟩
  have htop : steps + minChunkLog = maxLog := by omega
  have hlength : ∀ sizes : List Nat, (∀ n ∈ sizes, ChunkSize maxLog n) →
      (chunksOf (steps + 1) sizes.sum).length ≤ sizes.length :=
    fun sizes => length_chunksOf_sum_le (by omega)
  have hchunk : ∀ n ∈ chunksOf (steps + 1) bytes, ChunkSize maxLog n := by
    intro n hn
    obtain ⟨log, hmin, hlt, heq⟩ := pow_of_mem_chunksOf hn
    exact ⟨log, hmin, by omega, heq⟩
  have hwhole := sum_chunksOf_eq (Nat.succ_ne_zero steps) bytes
  rw [← hsteps]
  constructor
  case toCut =>
    constructor
    case size => exact fun n hn => hchunk n (List.mem_of_mem_take hn)
    case fits => exact List.length_take_le _ _
    case within =>
      have hsum := congrArg List.sum (List.take_append_drop capacity (chunksOf (steps + 1) bytes))
      have hall := sum_chunksOf (steps + 1) bytes
      rw [List.sum_append] at hsum
      omega
  case descending => exact (chunksOf_descending _ _).sublist (List.take_sublist _ _)
  case once =>
    intro n hn
    exact Nat.le_trans ((List.take_sublist _ _).count_le n) (count_chunksOf_le_one (htop ▸ hn))
  case whole =>
    rcases Nat.le_total (chunksOf (steps + 1) bytes).length capacity with hle | hge
    · exact .inl (by rw [List.take_of_length_le hle, hwhole])
    · exact .inr (by rw [List.length_take, Nat.min_eq_left hge])
  case most =>
    intro other hother
    have hwords : wordBytes ∣ other.sum :=
      List.dvd_sum fun n hn => (hother.size n hn).word_dvd
    have hsame := sum_chunksOf_eq (Nat.succ_ne_zero steps) other.sum
    rw [Nat.div_mul_cancel hwords] at hsame
    have hfits := Nat.le_trans (hlength other hother.size) hother.fits
    exact hsame ▸ sum_chunksOf_le_sum_take hother.within hfits
  case fewest =>
    intro other hsize hsum
    have hlen := hlength other hsize
    rwa [hsum, chunksOf_sum_take] at hlen

/-- A cut that a lack of room breaks off is continued by the cut of the rest. -/
theorem chunkPlan_continues {room later : Nat} {whole : List Nat} (hc : capacity ≠ 0) (hl : later ≠ 0)
    (hw : chunkPlan bytes room pageSize maxLog = .ok whole) (hmore : capacity < whole.length) :
    ∃ first rest, chunkPlan bytes capacity pageSize maxLog = .ok first ∧
      chunkPlan (bytes - first.sum) later pageSize maxLog = .ok rest ∧
      chunkPlan bytes (capacity + later) pageSize maxLog = .ok (first ++ rest) := by
  have hlt : bytes < pageSize := by
    rw [chunkPlan] at hw
    split at hw
    · cases hw
    · next h => exact Nat.lt_of_not_le h
  rw [chunkPlan_of_lt hlt] at hw
  split at hw
  · cases hw
  next hroom =>
  obtain rfl := Except.ok.inj hw
  have hdrop := chunksOf_sub_sum_take (maxLog + 1 - minChunkLog) bytes capacity
  have hrest : wordBytes ≤
      bytes - ((chunksOf (maxLog + 1 - minChunkLog) bytes).take capacity).sum := by
    apply Nat.le_of_not_lt
    intro hshort
    have hnil : chunksOf (maxLog + 1 - minChunkLog) _ = [] := chunksOf_eq_nil_iff.mpr (.inr hshort)
    rw [hdrop, List.drop_eq_nil_iff] at hnil
    exact absurd (Nat.le_trans (List.length_take_le' _ _) hnil) (Nat.not_le_of_lt hmore)
  refine ⟨(chunksOf (maxLog + 1 - minChunkLog) bytes).take capacity,
    ((chunksOf (maxLog + 1 - minChunkLog) bytes).drop capacity).take later, ?_, ?_, ?_⟩
  · rw [chunkPlan_of_lt hlt, if_neg (by omega)]
  · rw [chunkPlan_of_lt (by omega), if_neg (by omega), hdrop]
  · rw [chunkPlan_of_lt hlt, if_neg (by omega), List.take_add]

/-- How a slice below a page is cut: to the last word or until the room is used, by the best cut there
is, and a cut that the room broke off goes on where it ended. -/
theorem chunkPlan_exact (bytes capacity pageSize maxLog : Nat) :
    (chunkPlan bytes capacity pageSize maxLog = .error .sliceTooLarge ↔ pageSize ≤ bytes) ∧
    (bytes < pageSize →
      (chunkPlan bytes capacity pageSize maxLog = .error .noChunkSize ↔
        bytes < wordBytes ∨ capacity = 0 ∨ maxLog < minChunkLog) ∧
      (¬ (bytes < wordBytes ∨ capacity = 0 ∨ maxLog < minChunkLog) →
        ∃ sizes, chunkPlan bytes capacity pageSize maxLog = .ok sizes ∧
          BestCut bytes capacity maxLog sizes)) ∧
    (∀ later room whole, capacity ≠ 0 → later ≠ 0 →
      chunkPlan bytes room pageSize maxLog = .ok whole → capacity < whole.length →
      ∃ first rest, chunkPlan bytes capacity pageSize maxLog = .ok first ∧
        chunkPlan (bytes - first.sum) later pageSize maxLog = .ok rest ∧
        chunkPlan bytes (capacity + later) pageSize maxLog = .ok (first ++ rest)) := by
  refine ⟨⟨fun h => ?_, fun h => ?_⟩, fun hlt => ⟨?_, fun hroom => ?_⟩, ?_⟩
  · refine Nat.le_of_not_lt fun hlt => ?_
    rw [chunkPlan_of_lt hlt] at h
    split at h <;> cases h
  · rw [chunkPlan, if_pos h]
  · rw [chunkPlan_of_lt hlt]
    split
    · next h => exact iff_of_true rfl h
    · next h => exact iff_of_false nofun h
  · exact ⟨_, by rw [chunkPlan_of_lt hlt, if_neg hroom], bestCut_chunksOf (by omega)⟩
  · intro later room whole hc hl hw hmore
    exact chunkPlan_continues hc hl hw hmore

/-- Room for three chunks leaves the smaller ones of a page less a word to the next batch. -/
theorem chunkPlan_exact_4092 :
    (∃ sizes, chunkPlan 4092 3 4096 11 = .ok sizes ∧ BestCut 4092 3 11 sizes) ∧
    ∃ first rest, chunkPlan 4092 3 4096 11 = .ok first ∧
      chunkPlan (4092 - first.sum) 2 4096 11 = .ok rest ∧
      chunkPlan 4092 (3 + 2) 4096 11 = .ok (first ++ rest) := by
  obtain ⟨-, hbelow, hcontinues⟩ := chunkPlan_exact 4092 3 4096 11
  have hwhole : chunkPlan 4092 128 4096 11 = .ok [2048, 1024, 512, 256, 128, 64, 32, 16, 8, 4] := by
    decide
  exact ⟨(hbelow (by decide)).2 (by decide),
    hcontinues 2 128 _ (by decide) (by decide) hwhole (by decide)⟩

end Plans
end ScatterGather
