import ScatterGather.Bench.Memory

/-! # Reading and writing bytes

Device memory and host memory as functions from addresses to bytes. A slice that lies in memory can
be read and written, and writing it changes its own bytes only.
-/
namespace ScatterGather.Bench

/-- The bytes of `old`, with `n` bytes of `new` from `source` on laid over those from `target` on. -/
def overlaid (old new : Nat → Option UInt8) (target source n : Nat) (a : Nat) : Option UInt8 :=
  if target ≤ a ∧ a < target + n then new (source + (a - target)) else old a

theorem overlaid_zero (old new : Nat → Option UInt8) (target source : Nat) :
    overlaid old new target source 0 = old := by
  funext a
  rw [overlaid, if_neg (by omega)]

theorem overlaid_congr {old new new' : Nat → Option UInt8} {target source source' n : Nat}
    (h : ∀ i < n, new (source + i) = new' (source' + i)) :
    overlaid old new target source n = overlaid old new' target source' n := by
  funext a
  simp only [overlaid]
  split
  · exact h _ (by omega)
  · rfl

theorem overlaid_add (old new : Nat → Option UInt8) (target source x n : Nat) :
    overlaid (overlaid old new target source x) new (target + x) (source + x) n =
      overlaid old new target source (x + n) := by
  funext a
  simp only [overlaid]
  by_cases hlater : target + x ≤ a ∧ a < target + x + n
  · rw [if_pos hlater, if_pos (by omega), show source + x + (a - (target + x)) = source + (a - target) by omega]
  · rw [if_neg hlater]
    by_cases hfirst : target ≤ a ∧ a < target + x
    · rw [if_pos hfirst, if_pos (by omega)]
    · rw [if_neg hfirst, if_neg (by omega)]

namespace Bytes

def byte? (b : Bytes) (a : Nat) : Option UInt8 := b[a]?

theorem size_store (b : Bytes) (start : Nat) (xs : List UInt8) : (b.store start xs).size = b.size := by
  induction xs generalizing b start with
  | nil => rfl
  | cons x xs ih => rw [store, ih, Array.size_setIfInBounds]

theorem byte?_store {b : Bytes} {start : Nat} {xs : List UInt8} (h : start + xs.length ≤ b.size) :
    (b.store start xs).byte? = overlaid b.byte? (xs[·]?) start 0 xs.length := by
  induction xs generalizing b start with
  | nil => rw [store, List.length_nil, overlaid_zero]
  | cons x xs ih =>
    rw [List.length_cons] at h
    funext a
    rw [store, ih (by rw [Array.size_setIfInBounds]; omega)]
    simp only [overlaid, List.length_cons]
    by_cases hlater : start + 1 ≤ a ∧ a < start + 1 + xs.length
    · rw [if_pos hlater, if_pos (by omega), show 0 + (a - start) = 0 + (a - (start + 1)) + 1 by omega,
        List.getElem?_cons_succ]
    · rw [if_neg hlater, byte?, Array.getElem?_setIfInBounds]
      by_cases hfirst : start = a
      · subst hfirst
        rw [if_pos rfl, if_pos (by omega), if_pos (by omega), Nat.sub_self]
        rfl
      · rw [if_neg hfirst, if_neg (by omega)]
        rfl

theorem slice?_ok {b : Bytes} {start len : Nat} (h : start + len ≤ b.size) :
    ∃ xs, b.slice? start len = some xs ∧ xs.length = len ∧ ∀ i < len, xs[i]? = b.byte? (start + i) := by
  refine ⟨_, if_pos h, ?_, ?_⟩
  · rw [Array.length_toList, Array.size_extract]
    omega
  · intro i hi
    rw [Array.getElem?_toList, Array.getElem?_extract, if_pos (by omega)]
    rfl

end Bytes

namespace HostMemory
variable {m m' : HostMemory}

def byte? (m : HostMemory) (address : Nat) : Option UInt8 := do
  let (i, start) ← m.locate? address
  let b ← m.buffers[i]?
  b.storage[start]?

def Apart (m : HostMemory) : Prop :=
  ∀ (i j : Nat) (b c : Buffer), m.buffers[i]? = some b → m.buffers[j]? = some c →
    ∀ a, b.Holds a → c.Holds a → i = j

/-- The bytes from `address` on lie in one buffer, `len` of them. -/
def Spans (m : HostMemory) (address len : Nat) : Prop :=
  len ≠ 0 → ∃ (i : Nat) (b : Buffer), m.buffers[i]? = some b ∧ b.base ≤ address ∧
    address + len ≤ b.limit

theorem Spans.part {a len start n : Nat} (h : m.Spans a len) (hle : start + n ≤ len) :
    m.Spans (a + start) n := by
  intro hn
  obtain ⟨i, b, hb, hbase, hlimit⟩ := h (by omega)
  exact ⟨i, b, hb, by omega, by omega⟩

theorem locate?_eq (hm : m.Apart) {i a : Nat} {b : Buffer} (hb : m.buffers[i]? = some b)
    (ha : b.Holds a) : m.locate? a = some (i, a - b.base) := by
  have hfind : m.buffers.findIdx? (fun b => decide (b.Holds a)) = some i := by
    obtain ⟨hi, heq⟩ := Array.getElem?_eq_some_iff.mp hb
    have hsome : (m.buffers.findIdx? fun b => decide (b.Holds a)).isSome = true := by
      rw [Array.findIdx?_isSome, Array.any_eq_true]
      exact ⟨i, hi, by simp [heq, ha]⟩
    obtain ⟨j, hj⟩ := Option.isSome_iff_exists.mp hsome
    obtain ⟨hjlt, hholds, -⟩ := Array.findIdx?_eq_some_iff_getElem.mp hj
    have hsame := hm j i _ b (Array.getElem?_eq_getElem hjlt) hb a (of_decide_eq_true hholds) ha
    rw [hj, hsame]
  simp [locate?, hfind, hb]

theorem byte?_eq (hm : m.Apart) {i a : Nat} {b : Buffer} (hb : m.buffers[i]? = some b)
    (ha : b.Holds a) : m.byte? a = b.storage.byte? (a - b.base) := by
  simp [byte?, locate?_eq hm hb ha, hb, Bytes.byte?]

theorem byte?_none {a : Nat} (h : ∀ (i : Nat) (b : Buffer), m.buffers[i]? = some b → ¬ b.Holds a) :
    m.byte? a = none := by
  have hfind : m.buffers.findIdx? (fun b => decide (b.Holds a)) = none := by
    rw [Array.findIdx?_eq_none_iff]
    intro b hb
    obtain ⟨i, hi, rfl⟩ := Array.mem_iff_getElem.mp hb
    simpa using h i _ (Array.getElem?_eq_getElem hi)
  simp [byte?, locate?, hfind]

theorem load?_ok (hm : m.Apart) {a n : Nat} (h : m.Spans a n) :
    ∃ xs, m.load? a n = some xs ∧ xs.length = n ∧ ∀ i < n, xs[i]? = m.byte? (a + i) := by
  by_cases hn : n = 0
  · subst hn
    exact ⟨[], rfl, rfl, nofun⟩
  · obtain ⟨i, b, hb, hbase, hlimit⟩ := h hn
    rw [Buffer.limit] at hlimit
    obtain ⟨xs, hxs, hlen, hbytes⟩ := Bytes.slice?_ok (show a - b.base + n ≤ b.storage.size by omega)
    have hholds {k : Nat} (hk : k < n) : b.Holds (a + k) := ⟨by omega, by rw [Buffer.limit]; omega⟩
    refine ⟨xs, ?_, hlen, ?_⟩
    · have hloc := locate?_eq hm hb (hholds (Nat.pos_of_ne_zero hn))
      rw [Nat.add_zero] at hloc
      simp [load?, hn, hloc, hb, hxs]
    · intro k hk
      rw [hbytes k hk, byte?_eq hm hb (hholds hk), show a + k - b.base = a - b.base + k by omega]

def Alike (m m' : HostMemory) : Prop :=
  ∀ (i : Nat) (b' : Buffer), m'.buffers[i]? = some b' →
    ∃ b, m.buffers[i]? = some b ∧ b.base = b'.base ∧ b.limit = b'.limit

theorem Apart.alike (h : m.Apart) (hm : m.Alike m') : m'.Apart := by
  intro i j b' c' hb hc a hba hca
  obtain ⟨b, hb, hbase, hlimit⟩ := hm i b' hb
  obtain ⟨c, hc, hbase', hlimit'⟩ := hm j c' hc
  rw [Buffer.Holds] at hba hca
  exact h i j b c hb hc a ⟨by omega, by omega⟩ ⟨by omega, by omega⟩

theorem Spans.alike {a n : Nat} (h : m.Spans a n) (hm : m'.Alike m) : m'.Spans a n := by
  intro hn
  obtain ⟨i, b, hb, hle, hlim⟩ := h hn
  obtain ⟨b', hb', hbase, hlimit⟩ := hm i b hb
  exact ⟨i, b', hb', by omega, by omega⟩

theorem Alike.refl (m : HostMemory) : m.Alike m := fun _ b hb => ⟨b, hb, rfl, rfl⟩

theorem Alike.byte?_eq (hm : m.Apart) (h : m.Alike m') {a : Nat}
    (hsame : ∀ (k : Nat) (c : Buffer), m.buffers[k]? = some c → c.Holds a →
      m'.buffers[k]? = some c) : m'.byte? a = m.byte? a := by
  by_cases hsome : ∃ (k : Nat) (c : Buffer), m.buffers[k]? = some c ∧ c.Holds a
  · obtain ⟨k, c, hc, hholds⟩ := hsome
    rw [HostMemory.byte?_eq hm hc hholds, HostMemory.byte?_eq (hm.alike h) (hsame k c hc hholds) hholds]
  · have hnone : ∀ (k : Nat) (c : Buffer), m.buffers[k]? = some c → ¬ c.Holds a :=
      fun k c hc hholds => hsome ⟨k, c, hc, hholds⟩
    rw [byte?_none hnone, byte?_none]
    intro k c' hc' hholds
    obtain ⟨c, hc, hbase, hlimit⟩ := h k c' hc'
    rw [Buffer.Holds] at hholds
    exact hnone k c hc ⟨by omega, by omega⟩

def refill (m : HostMemory) (i : Nat) (b : Buffer) (storage : Bytes) : HostMemory :=
  ⟨m.buffers.setIfInBounds i { b with storage }⟩

section Refill
variable {i : Nat} {b : Buffer} {storage : Bytes}

theorem refill_self (hb : m.buffers[i]? = some b) :
    (m.refill i b storage).buffers[i]? = some { b with storage } :=
  Array.getElem?_setIfInBounds_self_of_lt (Array.getElem?_eq_some_iff.mp hb).1

theorem refill_of_ne {k : Nat} (hk : i ≠ k) : (m.refill i b storage).buffers[k]? = m.buffers[k]? :=
  Array.getElem?_setIfInBounds_ne hk

theorem refill_alike (hb : m.buffers[i]? = some b) (hs : storage.size = b.storage.size) :
    m.Alike (m.refill i b storage) ∧ (m.refill i b storage).Alike m := by
  have hlimit : ({ b with storage } : Buffer).limit = b.limit := by rw [Buffer.limit, Buffer.limit, hs]
  constructor
  · intro k c hc
    by_cases hk : i = k
    · subst hk
      obtain rfl := Option.some.inj ((refill_self hb).symm.trans hc)
      exact ⟨b, hb, rfl, hlimit.symm⟩
    · exact ⟨c, refill_of_ne hk ▸ hc, rfl, rfl⟩
  · intro k c hc
    by_cases hk : i = k
    · subst hk
      obtain rfl := Option.some.inj (hb.symm.trans hc)
      exact ⟨_, refill_self hb, rfl, hlimit⟩
    · exact ⟨c, (refill_of_ne hk).trans hc, rfl, rfl⟩

theorem byte?_refill (hm : m.Apart) (hb : m.buffers[i]? = some b)
    (hs : storage.size = b.storage.size) (a : Nat) :
    (m.refill i b storage).byte? a =
      if b.Holds a then storage.byte? (a - b.base) else m.byte? a := by
  have halike := (refill_alike hb hs).1
  split
  · next ha =>
    apply HostMemory.byte?_eq (hm.alike halike) (refill_self hb)
    rw [Buffer.Holds, Buffer.limit, hs]
    exact ha
  · next ha =>
    apply halike.byte?_eq hm
    intro k c hc hholds
    have hk : i ≠ k := by
      rintro rfl
      obtain rfl := Option.some.inj (hb.symm.trans hc)
      exact ha hholds
    exact (refill_of_ne hk).trans hc

end Refill

/-- Bytes that lie in one buffer are stored there, and all others stay. -/
theorem store?_ok (hm : m.Apart) {a : Nat} {xs : List UInt8} (h : m.Spans a xs.length) :
    ∃ m', m.store? a xs = some m' ∧ m'.byte? = overlaid m.byte? (xs[·]?) a 0 xs.length ∧
      m.Alike m' ∧ m'.Alike m := by
  by_cases hn : xs.length = 0
  · obtain rfl := List.eq_nil_of_length_eq_zero hn
    exact ⟨m, rfl, (overlaid_zero ..).symm, .refl m, .refl m⟩
  · obtain ⟨i, b, hb, hbase, hlimit⟩ := h hn
    have hlim : b.limit = b.base + b.storage.size := rfl
    have hfit : a - b.base + xs.length ≤ b.storage.size := by omega
    have hloc : m.locate? a = some (i, a - b.base) := locate?_eq hm hb ⟨hbase, by omega⟩
    have hempty : xs.isEmpty = false := by
      cases xs with
      | nil => exact absurd rfl hn
      | cons => rfl
    let storage := b.storage.store (a - b.base) xs
    have hsize : storage.size = b.storage.size := Bytes.size_store ..
    obtain ⟨hto, hfrom⟩ := refill_alike hb hsize
    refine ⟨m.refill i b storage, ?_, ?_, hto, hfrom⟩
    · simp [store?, hempty, hloc, hb, Bytes.store?, hfit, refill, storage]
    · funext x
      rw [byte?_refill hm hb hsize]
      split
      · next hx =>
        obtain ⟨hlow, -⟩ := id hx
        rw [Bytes.byte?_store hfit, overlaid, overlaid, HostMemory.byte?_eq hm hb hx]
        by_cases hin : a ≤ x ∧ x < a + xs.length
        · rw [if_pos (by omega), if_pos hin, show x - b.base - (a - b.base) = x - a by omega]
        · rw [if_neg (by omega), if_neg hin]
      · next hx => rw [overlaid, if_neg fun hin => hx ⟨by omega, by omega⟩]

/-- Whatever is stored, the buffers stay where they are. -/
theorem store?_alike {a : Nat} {xs : List UInt8} (h : m.store? a xs = some m') :
    m.Alike m' ∧ m'.Alike m := by
  unfold store? at h
  split at h
  · cases h
    exact ⟨.refl m, .refl m⟩
  · simp only [Option.bind_eq_bind, Option.bind_eq_some_iff] at h
    obtain ⟨⟨i, start⟩, -, b, hb, storage, hstorage, h⟩ := h
    cases h
    apply refill_alike hb
    unfold Bytes.store? at hstorage
    split at hstorage
    · cases hstorage
      exact Bytes.size_store ..
    · cases hstorage

def Ordered (m : HostMemory) : Prop :=
  ∀ (i j : Nat) (b c : Buffer), m.buffers[i]? = some b → m.buffers[j]? = some c → i < j →
    b.limit ≤ c.base

theorem Ordered.apart (h : m.Ordered) : m.Apart := by
  intro i j b c hb hc a hba hca
  rcases Nat.lt_trichotomy i j with hlt | heq | hgt
  · have := h i j b c hb hc hlt
    rw [Buffer.Holds] at hba hca
    omega
  · exact heq
  · have := h j i c b hc hb hgt
    rw [Buffer.Holds] at hba hca
    omega

theorem ordered_empty : Ordered {} := by
  intro i j b c hb
  simp at hb

theorem Ordered.limit_le (h : m.Ordered) {i : Nat} {b : Buffer} (hb : m.buffers[i]? = some b) :
    b.limit ≤ m.nextBase := by
  obtain ⟨hi, -⟩ := Array.getElem?_eq_some_iff.mp hb
  obtain ⟨last, hlast⟩ : ∃ last, m.buffers[m.buffers.size - 1]? = some last :=
    ⟨_, Array.getElem?_eq_getElem (by omega)⟩
  have hbase : m.nextBase = (last.limit / Buffer.pageBytes + 1) * Buffer.pageBytes := by
    rw [nextBase, Array.back?, hlast]
  have hover : last.limit ≤ m.nextBase := by
    have hdiv := Nat.div_add_mod last.limit Buffer.pageBytes
    have hmod := Nat.mod_lt last.limit (show 0 < Buffer.pageBytes by decide)
    rw [hbase, Nat.succ_mul, Nat.mul_comm]
    omega
  rcases Nat.lt_or_eq_of_le (Nat.le_sub_one_of_lt hi) with hlt | rfl
  · have hle := h i _ b last hb hlast hlt
    have hlimit : last.limit = last.base + last.storage.size := rfl
    omega
  · obtain rfl := Option.some.inj (hb.symm.trans hlast)
    exact hover

theorem Ordered.add (h : m.Ordered) (offsetInPage len : Nat) (byte : Nat → UInt8) :
    (m.add offsetInPage len byte).Ordered := by
  intro i j b c hb hc hij
  simp only [HostMemory.add, Array.getElem?_push] at hb hc
  split at hc
  · obtain rfl := Option.some.inj hc
    rw [if_neg (by omega)] at hb
    exact h.limit_le hb
  · split at hb
    · obtain ⟨hj, -⟩ := Array.getElem?_eq_some_iff.mp hc
      omega
    · exact h i j b c hb hc hij

theorem spans_add (m : HostMemory) (offsetInPage len : Nat) (byte : Nat → UInt8) :
    (m.add offsetInPage len byte).Spans (m.nextBase + offsetInPage) len := by
  intro _
  have hlimit : (Buffer.place m.nextBase offsetInPage len byte).limit =
      m.nextBase + (offsetInPage + len + Buffer.pageBytes) := by
    rw [Buffer.limit, Buffer.place, Array.size_ofFn]
  refine ⟨m.buffers.size, _, Array.getElem?_push_size, Nat.le_add_right _ _, ?_⟩
  rw [hlimit]
  omega

end HostMemory
end ScatterGather.Bench
