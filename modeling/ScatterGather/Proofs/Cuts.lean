import ScatterGather.Channel.Basic
import ScatterGather.Descriptor.Chunks
import ScatterGather.Proofs.Validity

/-! # Where a request is cut

The pieces of a request without regard to rings and batches: it is cut where a window ends and where
a host page ends, and what is less than a page is cut further into chunks, the largest first. From
any byte on the pieces depend on nothing but that byte, so a batch that ends inside a page is
continued by the rest of the same pieces.
-/
namespace ScatterGather

/-- The chunks of `left` bytes: the size `2 ^ (steps + 1)` as often as it fits, then each smaller
size down to one word. -/
def chunksOf : (steps left : Nat) → List Nat
  | 0, _ => []
  | steps + 1, left =>
    let size := 2 ^ (steps + minChunkLog)
    List.replicate (left / size) size ++ chunksOf steps (left % size)

theorem sum_chunksOf (steps left : Nat) : (chunksOf steps left).sum ≤ left := by
  induction steps generalizing left with
  | zero => exact Nat.zero_le _
  | succ steps ih =>
    have hrest := ih (left % 2 ^ (steps + minChunkLog))
    have hdiv := Nat.div_add_mod left (2 ^ (steps + minChunkLog))
    simp only [chunksOf, List.sum_append, List.sum_replicate_nat]
    rw [Nat.mul_comm] at hdiv
    omega

theorem chunksOf_zero (steps : Nat) : chunksOf steps 0 = [] := by
  induction steps with
  | zero => rfl
  | succ steps ih => simp [chunksOf, ih]

theorem mem_chunksOf {steps left size : Nat} (h : size ∈ chunksOf steps left) :
    wordBytes ∣ size ∧ 0 < size ∧ size ≤ left := by
  induction steps generalizing left with
  | zero => simp [chunksOf] at h
  | succ steps ih =>
    simp only [chunksOf, List.mem_append, List.mem_replicate] at h
    rcases h with ⟨hne, rfl⟩ | h
    · refine ⟨⟨2 ^ steps, by rw [wordBytes, minChunkLog, Nat.pow_add, Nat.mul_comm]⟩,
        Nat.two_pow_pos _, Nat.le_of_not_lt fun hlt => hne (Nat.div_eq_of_lt hlt)⟩
    · obtain ⟨hdvd, hpos, hle⟩ := ih h
      exact ⟨hdvd, hpos, Nat.le_trans hle (Nat.mod_le _ _)⟩

theorem chunksOf_sub_sum_take (steps left count : Nat) :
    chunksOf steps (left - ((chunksOf steps left).take count).sum) =
      (chunksOf steps left).drop count := by
  induction steps generalizing left count with
  | zero => simp [chunksOf]
  | succ steps ih =>
    have hpos : 0 < 2 ^ (steps + minChunkLog) := Nat.two_pow_pos _
    simp only [chunksOf]
    generalize hs : 2 ^ (steps + minChunkLog) = size at hpos ⊢
    have hdiv := Nat.div_add_mod left size
    have hmod := Nat.mod_lt left hpos
    generalize hq : left / size = q at hdiv ⊢
    generalize hr : left % size = r at hdiv hmod ⊢
    -- the cut falls among the copies of the largest size, or behind them
    by_cases hc : count ≤ q
    · have hleft : left - count * size = (q - count) * size + r := by
        rw [Nat.sub_mul, Nat.mul_comm q]
        have := Nat.mul_le_mul_right size hc
        rw [Nat.mul_comm q] at this
        omega
      simp only [List.take_append, List.take_replicate, List.drop_append, List.drop_replicate,
        List.length_replicate, Nat.min_eq_left hc, Nat.sub_eq_zero_of_le hc, List.take_zero,
        List.drop_zero, List.append_nil, List.sum_replicate_nat, hleft]
      rw [Nat.mul_comm, Nat.mul_add_div hpos, Nat.mul_add_mod, Nat.div_eq_of_lt hmod,
        Nat.mod_eq_of_lt hmod, Nat.add_zero]
    · have hsum := sum_chunksOf steps r
      have htake := congrArg List.sum (List.take_append_drop (count - q) (chunksOf steps r))
      rw [List.sum_append] at htake
      have hleft : left - (q * size + ((chunksOf steps r).take (count - q)).sum) =
          r - ((chunksOf steps r).take (count - q)).sum := by
        rw [Nat.mul_comm q]
        omega
      have hlt : r - ((chunksOf steps r).take (count - q)).sum < size := by omega
      have hq0 : q - count = 0 := by omega
      simp only [List.take_append, List.take_replicate, List.drop_append, List.drop_replicate,
        List.length_replicate, Nat.min_eq_right (Nat.le_of_not_le hc), List.sum_append,
        List.sum_replicate_nat, hleft, Nat.div_eq_of_lt hlt, Nat.mod_eq_of_lt hlt, hq0,
        List.replicate_zero, List.nil_append]
      exact ih r (count - q)

/-- What the worker cuts off is as many of the chunks as there is room for. -/
theorem cutChunks_eq {once : Bool} {steps left free : Nat} {sizes : List Nat}
    (h : cutChunks once steps left free = .ok sizes) : sizes = (chunksOf steps left).take free := by
  induction steps generalizing left free sizes with
  | zero => simpa [cutChunks, chunksOf, eq_comm] using h
  | succ steps ih =>
    rw [cutChunks] at h
    dsimp only at h
    rw [Nat.one_shiftLeft] at h
    split at h
    · next hfree =>
      simp only [Except.ok.injEq] at h
      simp [hfree, ← h]
    · split at h
      · cases h
      · split at h
        · next rest hrest =>
          simp only [Except.ok.injEq] at h
          have hcut := ih hrest
          have hdiv := Nat.div_add_mod left (2 ^ (steps + minChunkLog))
          have hmod : 2 ^ (steps + minChunkLog) * (left / 2 ^ (steps + minChunkLog)) ≤ left :=
            Nat.mul_div_le _ _
          rw [← h, hcut, chunksOf]
          simp only [List.take_append, List.take_replicate, List.length_replicate]
          rcases Nat.le_total (left / 2 ^ (steps + minChunkLog)) free with hle | hle
          · rw [Nat.min_eq_left hle, Nat.min_eq_right hle, Nat.mul_comm]
            congr 3
            omega
          · rw [Nat.min_eq_right hle, Nat.min_eq_left hle, Nat.sub_self, Nat.sub_eq_zero_of_le hle]
            simp
        · cases h

theorem cutChunks_ok {once : Bool} {steps left free : Nat}
    (h : once = true → left < 2 ^ (steps + minChunkLog)) :
    cutChunks once steps left free = .ok ((chunksOf steps left).take free) := by
  suffices hok : ∃ sizes, cutChunks once steps left free = .ok sizes by
    obtain ⟨sizes, hs⟩ := hok
    rw [hs, cutChunks_eq hs]
  induction steps generalizing left free with
  | zero => exact ⟨_, rfl⟩
  | succ steps ih =>
    have hpos : 0 < 2 ^ (steps + minChunkLog) := Nat.two_pow_pos _
    rw [cutChunks]
    dsimp only
    rw [Nat.one_shiftLeft]
    split
    · exact ⟨_, rfl⟩
    · next hfree =>
      have hfits : ¬ ((once && decide (1 < left / 2 ^ (steps + minChunkLog))) = true) := by
        intro hc
        simp only [Bool.and_eq_true, decide_eq_true_eq] at hc
        have hlt := h hc.1
        rw [Nat.add_right_comm, Nat.pow_succ] at hlt
        have := (Nat.div_lt_iff_lt_mul hpos).mpr (Nat.mul_comm _ 2 ▸ hlt)
        omega
      rw [if_neg hfits]
      obtain ⟨rest, hrest⟩ : ∃ rest, cutChunks once steps
          (left - min (left / 2 ^ (steps + minChunkLog)) free * 2 ^ (steps + minChunkLog))
          (free - min (left / 2 ^ (steps + minChunkLog)) free) = .ok rest := by
        by_cases hle : left / 2 ^ (steps + minChunkLog) ≤ free
        · apply ih
          intro _
          have hdiv := Nat.div_add_mod left (2 ^ (steps + minChunkLog))
          have hmod := Nat.mod_lt left hpos
          rw [Nat.min_eq_left hle, Nat.mul_comm]
          omega
        · -- no slot is left, so nothing more is cut
          refine ⟨[], ?_⟩
          rw [Nat.min_eq_right (Nat.le_of_not_le hle), Nat.sub_self]
          cases steps <;> simp [cutChunks]
      rw [hrest]
      exact ⟨_, rfl⟩

structure Move where
  source : Nat
  target : Nat
  words : Nat
deriving DecidableEq, Repr

def Entry.toMove (e : Entry) : Move := ⟨e.src.toNat, e.dst.toNat, e.length.toNat⟩

theorem Entry.total_eq (entries : List Entry) : total entries = (entries.map size).sum := by
  induction entries with
  | nil => rfl
  | cons e entries ih => rw [total_cons, List.map_cons, List.sum_cons, ih]

namespace Settings

def chunks (s : Settings) (bytes : Nat) : List Nat := chunksOf (s.chunkLog + 1 - minChunkLog) bytes

/-- The pieces of a stretch that lies within one page: a whole page is moved at once. -/
def expand (s : Settings) (bytes : Nat) : List Nat :=
  if bytes = s.pageSize then [s.pageSize] else s.chunks bytes

end Settings

namespace Request
variable (r : Request) (s : Settings)

/-- Where the window ends that byte `x` belongs to, or the request. -/
def windowEnd (x : Nat) : Nat := min r.len ((x / s.fullWindow + 1) * s.fullWindow)

/-- The first cut behind byte `x`: the end of its window or that of its page. -/
def cutAfter (x : Nat) : Nat := min (r.windowEnd s x) (x + (s.pageSize - (r.host + x) % s.pageSize))

def lengthsFrom (x : Nat) : List Nat :=
  if x < r.cutAfter s x then s.expand (r.cutAfter s x - x) ++ lengthsFrom (r.cutAfter s x) else []
termination_by r.len - x
decreasing_by
  have : r.cutAfter s x ≤ r.len := Nat.le_trans (Nat.min_le_left _ _) (Nat.min_le_left _ _)
  omega

/-- The move of `len` bytes from byte `x` on. The page at host address `a` lies at `bus a`. -/
def move (bus : Nat → Nat) (pageSize x len : Nat) : Move :=
  let host := r.host + x
  let onBus := bus (host - host % pageSize) + host % pageSize
  match r.direction with
  | .hostToDevice => ⟨onBus, r.device + x, len / wordBytes⟩
  | .deviceToHost => ⟨r.device + x, onBus, len / wordBytes⟩

def moves (bus : Nat → Nat) (pageSize : Nat) : (x : Nat) → List Nat → List Move
  | _, [] => []
  | x, len :: rest => r.move bus pageSize x len :: moves bus pageSize (x + len) rest

def allMoves (bus : Nat → Nat) : List Move := r.moves bus s.pageSize 0 (r.lengthsFrom s 0)

theorem moves_append (bus : Nat → Nat) (pageSize x : Nat) (lens rest : List Nat) :
    r.moves bus pageSize x (lens ++ rest) =
      r.moves bus pageSize x lens ++ r.moves bus pageSize (x + lens.sum) rest := by
  induction lens generalizing x with
  | nil => rfl
  | cons len lens ih => simp [moves, ih, Nat.add_assoc]

theorem length_moves (bus : Nat → Nat) (pageSize x : Nat) (lens : List Nat) :
    (r.moves bus pageSize x lens).length = lens.length := by
  induction lens generalizing x with
  | nil => rfl
  | cons len lens ih => rw [moves, List.length_cons, List.length_cons, ih]

variable {r s} {x : Nat}

/-- Descriptors that begin a list of whole words are the moves of their own sizes. -/
theorem moves_of_prefix {bus : Nat → Nat} {pageSize : Nat} {entries : List Entry} {lens : List Nat}
    (h : entries.map Entry.toMove <+: r.moves bus pageSize x lens) (hd : ∀ n ∈ lens, wordBytes ∣ n) :
    entries.map Entry.toMove = r.moves bus pageSize x (entries.map Entry.size) := by
  induction entries generalizing x lens with
  | nil => rfl
  | cons e entries ih =>
    cases lens with
    | nil =>
      obtain ⟨rest, hrest⟩ := h
      cases hrest
    | cons n lens =>
      rw [List.map_cons, moves, List.cons_prefix_cons] at h
      obtain ⟨hmove, hprefix⟩ := h
      have hwords : e.length.toNat = n / wordBytes := by
        have hlast := congrArg Move.words hmove
        rw [move] at hlast
        cases hdir : r.direction <;> rw [hdir] at hlast <;> exact hlast
      have hsize : e.size = n := by
        rw [Entry.size, hwords, Nat.div_mul_cancel (hd n List.mem_cons_self)]
      rw [List.map_cons, List.map_cons, moves, hsize, hmove,
        ih hprefix fun m hm => hd m (List.mem_cons_of_mem _ hm)]

theorem windowEnd_le_len : r.windowEnd s x ≤ r.len := Nat.min_le_left _ _

theorem cutAfter_le_windowEnd : r.cutAfter s x ≤ r.windowEnd s x := Nat.min_le_left _ _

theorem lengthsFrom_of_lt (h : x < r.cutAfter s x) :
    r.lengthsFrom s x = s.expand (r.cutAfter s x - x) ++ r.lengthsFrom s (r.cutAfter s x) := by
  rw [lengthsFrom, if_pos h]

theorem lengthsFrom_of_len_le (h : r.len ≤ x) : r.lengthsFrom s x = [] := by
  have := Nat.le_trans (cutAfter_le_windowEnd (s := s)) (windowEnd_le_len (r := r) (x := x))
  rw [lengthsFrom, if_neg (by omega)]

theorem dvd_of_mem_lengthsFrom (hs : s.Valid) {n : Nat} (h : n ∈ r.lengthsFrom s x) :
    wordBytes ∣ n := by
  induction x using lengthsFrom.induct r s with
  | case1 x hlt ih =>
    rw [lengthsFrom_of_lt hlt, List.mem_append] at h
    rcases h with h | h
    · rw [Settings.expand] at h
      split at h
      · rw [List.mem_singleton.mp h]
        exact hs.word_dvd_pageSize
      · exact (mem_chunksOf h).1
    · exact ih h
  | case2 x hlt =>
    rw [lengthsFrom, if_neg hlt] at h
    cases h

theorem windowEnd_of_lt {y : Nat} (hxy : x ≤ y) (hy : y < r.windowEnd s x) :
    r.windowEnd s y = r.windowEnd s x := by
  have hlt : y < (x / s.fullWindow + 1) * s.fullWindow := Nat.lt_of_lt_of_le hy (Nat.min_le_right _ _)
  have hle := Nat.div_le_div_right (c := s.fullWindow) hxy
  have hlt' : y / s.fullWindow < x / s.fullWindow + 1 := Nat.div_lt_of_lt_mul (Nat.mul_comm _ _ ▸ hlt)
  rw [windowEnd, windowEnd, show y / s.fullWindow = x / s.fullWindow by omega]

theorem lengthsFrom_pages (hs : s.Valid) (count : Nat) (hx : (r.host + x) % s.pageSize = 0)
    (h : count ≠ 0 → x + count * s.pageSize ≤ r.windowEnd s x) :
    r.lengthsFrom s x =
      List.replicate count s.pageSize ++ r.lengthsFrom s (x + count * s.pageSize) := by
  induction count generalizing x with
  | zero => simp
  | succ count ih =>
    have hpage := hs.pageSize_pos
    have hend := h (Nat.succ_ne_zero _)
    rw [Nat.succ_mul] at hend
    have hcut : r.cutAfter s x = x + s.pageSize := by
      rw [cutAfter, hx, Nat.sub_zero]
      exact Nat.min_eq_right (by omega)
    have hnext : (r.host + (x + s.pageSize)) % s.pageSize = 0 := by
      rw [← Nat.add_assoc, Nat.add_mod_right, hx]
    have hinside : count ≠ 0 → x + s.pageSize + count * s.pageSize ≤ r.windowEnd s (x + s.pageSize) := by
      intro hcount
      have := Nat.mul_le_mul_right s.pageSize (Nat.pos_of_ne_zero hcount)
      rw [windowEnd_of_lt (x := x) (by omega) (by omega)]
      omega
    have hrest := ih hnext hinside
    rw [lengthsFrom_of_lt (by omega), hcut, Nat.add_sub_cancel_left, Settings.expand, if_pos rfl,
      hrest, List.replicate_succ, Nat.succ_mul]
    simp [Nat.add_assoc, Nat.add_comm s.pageSize]

theorem lengthsFrom_chunks (count : Nat) (hlt : x < r.cutAfter s x)
    (hsmall : r.cutAfter s x - x < s.pageSize) :
    r.lengthsFrom s x = (s.chunks (r.cutAfter s x - x)).take count ++
      r.lengthsFrom s (x + ((s.chunks (r.cutAfter s x - x)).take count).sum) := by
  have hwhole : ∀ n < s.pageSize, s.expand n = s.chunks n := fun n hn => if_neg (Nat.ne_of_lt hn)
  rw [lengthsFrom_of_lt hlt, hwhole _ hsmall]
  generalize hn : r.cutAfter s x - x = n at hsmall
  have hcut : r.cutAfter s x = x + n := by omega
  have hdrop : s.chunks (n - ((s.chunks n).take count).sum) = (s.chunks n).drop count :=
    chunksOf_sub_sum_take _ n count
  have hsum : ((s.chunks n).take count).sum ≤ n := by
    have htake := congrArg List.sum (List.take_append_drop count (s.chunks n))
    have hall : (s.chunks n).sum ≤ n := sum_chunksOf _ n
    rw [List.sum_append] at htake
    omega
  generalize ht : ((s.chunks n).take count).sum = t at hdrop hsum ⊢
  rcases Nat.lt_or_eq_of_le hsum with hlt' | rfl
  · -- the byte behind the chunks lies in the same page and the same window
    have hcut' : r.cutAfter s (x + t) = x + n := by
      have hpage : x + n ≤ x + (s.pageSize - (r.host + x) % s.pageSize) :=
        hcut ▸ Nat.min_le_right _ _
      have hin : (r.host + (x + t)) % s.pageSize = (r.host + x) % s.pageSize + t := by
        rw [← Nat.add_assoc, Nat.add_mod, Nat.mod_eq_of_lt (by omega : t < s.pageSize)]
        exact Nat.mod_eq_of_lt (by omega)
      have hend := windowEnd_of_lt (r := r) (s := s) (x := x) (y := x + t) (by omega)
        (Nat.lt_of_lt_of_le (by omega) cutAfter_le_windowEnd)
      rw [cutAfter, hin, hend, ← hcut, cutAfter]
      omega
    rw [lengthsFrom_of_lt (x := x + t) (by omega), hcut, hcut', Nat.add_sub_add_left,
      hwhole _ (by omega), hdrop, ← List.append_assoc, List.take_append_drop]
  · have hnil : (s.chunks t).drop count = [] := by
      rw [← hdrop, Nat.sub_self]
      exact chunksOf_zero _
    have hall : (s.chunks t).take count = s.chunks t := by
      have := List.take_append_drop count (s.chunks t)
      rwa [hnil, List.append_nil] at this
    rw [hall, hcut]

end Request
end ScatterGather
