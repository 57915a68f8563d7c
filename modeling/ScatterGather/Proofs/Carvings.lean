import ScatterGather.Proofs.Cuts
import ScatterGather.Proofs.Tables
import ScatterGather.Ring
import ScatterGather.Worker.Carving

/-! # Batches follow the cuts of the request

A window that stands at a byte of a request yields a batch whose pieces are the next ones of the
request, as many as the ring has room for. Its descriptors lead into the pages of the window.
-/
namespace ScatterGather

theorem chunkPlan_eq {bytes capacity pageSize maxLog : Nat} {sizes : List Nat}
    (h : chunkPlan bytes capacity pageSize maxLog = .ok sizes) :
    bytes < pageSize ∧ sizes ≠ [] ∧ sizes = (chunksOf (maxLog + 1 - minChunkLog) bytes).take capacity := by
  unfold chunkPlan at h
  split at h
  · cases h
  · next hbytes =>
    dsimp only at h
    split at h
    · cases h
    · next hne =>
      refine ⟨Nat.lt_of_not_le hbytes, ?_, cutChunks_eq h⟩
      rintro rfl
      exact hne h

namespace Window
variable {w : Window} {s : Settings} {capacity : Nat} {lens : List Nat}

/-- The next byte that the window describes is byte `x` of the request. -/
structure Stands (w : Window) (r : Request) (s : Settings) (x : Nat) : Prop where
  position : w.position = r.host + x
  left : w.left = r.windowEnd s x - x

theorem pieces_cases (h : w.pieces s capacity = .ok lens) :
    (∃ bytes, bytes = min (s.pageSize - w.offsetInPage s.pageSize) w.left ∧ bytes < s.pageSize ∧
      lens ≠ [] ∧ lens = (s.chunks bytes).take capacity) ∨
    w.offsetInPage s.pageSize = 0 ∧ s.pageSize ≤ w.left ∧
      lens = List.replicate (min (w.left / s.pageSize) capacity) s.pageSize := by
  unfold pieces at h
  dsimp only at h
  split at h
  · obtain ⟨hlt, hne, heq⟩ := chunkPlan_eq h
    exact .inl ⟨_, rfl, hlt, hne, heq⟩
  · next hwhole =>
    simp only [Except.ok.injEq] at h
    exact .inr ⟨by omega, by omega, h.symm⟩

theorem pieces_bounds (hs : s.Valid) (hc : capacity ≠ 0) (h : w.pieces s capacity = .ok lens) :
    lens ≠ [] ∧ lens.length ≤ capacity ∧ lens.sum ≤ w.left ∧
      ∀ n ∈ lens, wordBytes ∣ n ∧ 0 < n ∧ n ≤ s.pageSize := by
  rcases pieces_cases h with ⟨bytes, hbytes, hlt, hne, heq⟩ | ⟨-, hleft, heq⟩
  · have htake := congrArg List.sum (List.take_append_drop capacity (s.chunks bytes))
    have hsum : (s.chunks bytes).sum ≤ bytes := sum_chunksOf _ _
    rw [List.sum_append, ← heq] at htake
    have hlen : lens.length ≤ capacity := by
      rw [heq, List.length_take]
      exact Nat.min_le_left _ _
    refine ⟨hne, hlen, by omega, ?_⟩
    intro n hn
    obtain ⟨hdvd, hpos, hle⟩ := mem_chunksOf (List.mem_of_mem_take (heq ▸ hn))
    exact ⟨hdvd, hpos, by omega⟩
  · have hpos : 0 < w.left / s.pageSize := Nat.div_pos hleft hs.pageSize_pos
    refine ⟨?_, ?_, ?_, ?_⟩
    · rw [heq, ne_eq, List.replicate_eq_nil_iff]
      omega
    · rw [heq, List.length_replicate]
      exact Nat.min_le_right _ _
    · have hle := Nat.mul_le_mul_right s.pageSize (Nat.min_le_left (w.left / s.pageSize) capacity)
      rw [heq, List.sum_replicate_nat]
      exact Nat.le_trans hle (Nat.div_mul_le_self _ _)
    · intro n hn
      rw [heq] at hn
      obtain rfl := (List.mem_replicate.mp hn).2
      exact ⟨hs.word_dvd_pageSize, hs.pageSize_pos, Nat.le_refl _⟩

/-- The pieces of a batch are the next pieces of the request. -/
theorem pieces_lengths {r : Request} {x : Nat} (hs : s.Valid) (hw : w.Stands r s x)
    (h : w.pieces s capacity = .ok lens) :
    r.lengthsFrom s x = lens ++ r.lengthsFrom s (x + lens.sum) := by
  have hpage := hs.pageSize_pos
  have hin : w.offsetInPage s.pageSize = (r.host + x) % s.pageSize := by
    rw [offsetInPage, hw.position]
  have hmod := Nat.mod_lt (r.host + x) hpage
  rcases pieces_cases h with ⟨bytes, hbytes, hlt, hne, heq⟩ | ⟨hzero, hleft, heq⟩
  · have hcut : r.cutAfter s x - x = bytes := by
      rw [hbytes, hw.left, hin, Request.cutAfter]
      omega
    have hpos : bytes ≠ 0 := by
      rintro rfl
      exact hne (by rw [heq, Settings.chunks, chunksOf_zero, List.take_nil])
    have hlen := Request.lengthsFrom_chunks (r := r) (s := s) (x := x) capacity (by omega) (by omega)
    rwa [hcut, ← heq] at hlen
  · rw [heq, List.sum_replicate_nat]
    apply Request.lengthsFrom_pages hs _ (hin ▸ hzero)
    intro hcount
    have hle := Nat.mul_le_mul_right s.pageSize (Nat.min_le_left (w.left / s.pageSize) capacity)
    have hdiv := Nat.div_mul_le_self w.left s.pageSize
    have hstands := hw.left
    omega

/-- No piece reaches over the end of its page. -/
theorem pieces_in_page (hs : s.Valid) (h : w.pieces s capacity = .ok lens) {i len : Nat}
    (hi : lens[i]? = some len) :
    (w.position + (lens.take i).sum) % s.pageSize + len ≤ s.pageSize := by
  have hpage := hs.pageSize_pos
  rcases pieces_cases h with ⟨bytes, hbytes, hlt, hne, heq⟩ | ⟨hzero, hleft, heq⟩
  · have htake := congrArg List.sum (List.take_append_drop (i + 1) lens)
    rw [List.sum_append, List.take_add_one, hi, List.sum_append] at htake
    have hall := congrArg List.sum (List.take_append_drop capacity (s.chunks bytes))
    have hsum : (s.chunks bytes).sum ≤ bytes := sum_chunksOf _ _
    rw [List.sum_append, ← heq] at hall
    have hpos : 0 < len :=
      (mem_chunksOf (List.mem_of_mem_take (heq ▸ List.mem_of_getElem? hi))).2.1
    simp only [Option.toList_some, List.sum_singleton] at htake
    have hin : w.position % s.pageSize = w.offsetInPage s.pageSize := rfl
    rw [Nat.add_mod, hin, Nat.mod_eq_of_lt (by omega : (lens.take i).sum < s.pageSize),
      Nat.mod_eq_of_lt (by omega)]
    omega
  · obtain rfl : len = s.pageSize := by
      rw [heq] at hi
      exact (List.mem_replicate.mp (List.mem_of_getElem? hi)).2
    rw [heq, List.take_replicate, List.sum_replicate_nat, Nat.add_mul_mod_self_right]
    rw [offsetInPage] at hzero
    omega

end Window

theorem BatchPlace.capacity_ne_zero {start : BatchPlace} (h : start.id ≤ lastSlot) :
    start.capacity ≠ 0 := by
  have : lastSlot < slotCount := by decide
  rw [capacity]
  omega

namespace Region

def base (r : Region) : Nat := r.start - r.start % r.pageSize

def Ordered (r : Region) : Prop :=
  ∀ i page, r.pages[i]? = some page → page.host = r.base + i * r.pageSize

theorem busAt?_eq {r : Region} {offset bus : Nat} (hr : r.Ordered) (h : r.busAt? offset = some bus) :
    ∃ page ∈ r.pages, page.host = r.start + offset - (r.start + offset) % r.pageSize ∧
      bus = page.bus + (r.start + offset) % r.pageSize := by
  unfold busAt? at h
  split at h
  · simp only [Option.map_eq_some_iff] at h
    obtain ⟨page, hpage, hbus⟩ := h
    refine ⟨page, List.mem_of_getElem? hpage, ?_⟩
    -- the offset counted from the first page
    generalize hplace : r.headOffset + offset = place at hpage hbus
    have hbase : r.base = r.pageSize * (r.start / r.pageSize) := by
      have := Nat.div_add_mod r.start r.pageSize
      rw [base]
      omega
    have hhost : r.start + offset = r.pageSize * (r.start / r.pageSize) + place := by
      have := Nat.div_add_mod r.start r.pageSize
      rw [← hplace, headOffset]
      omega
    have hmod : (r.start + offset) % r.pageSize = place % r.pageSize := by
      rw [hhost, Nat.mul_add_mod]
    have hdiv := Nat.div_add_mod place r.pageSize
    refine ⟨?_, by rw [← hbus, hmod]⟩
    rw [hr _ _ hpage, hmod, hhost, hbase, Nat.mul_comm (place / r.pageSize)]
    omega
  · cases h

end Region

namespace Window
variable {w : Window} {dir : Direction} {device id offset : Nat} {lens : List Nat}
  {entries : List Entry}

theorem describe_cons {len : Nat} (h : w.describe dir device (len :: lens) id offset = .ok entries) :
    ∃ bus rest, w.busAt? offset = some bus ∧
      w.describe dir device lens (id + 1) (offset + len) = .ok rest ∧
      entries = .moving dir bus (device + offset) len id :: rest := by
  rw [describe] at h
  split at h
  · cases h
  · next bus hbus =>
    split at h
    · cases h
    · next rest hrest =>
      simp only [Except.ok.injEq] at h
      exact ⟨bus, rest, hbus, hrest, h.symm⟩

theorem describe_length (h : w.describe dir device lens id offset = .ok entries) :
    entries.length = lens.length := by
  induction lens generalizing id offset entries with
  | nil =>
    simp only [describe, Except.ok.injEq] at h
    simp [← h]
  | cons len lens ih =>
    obtain ⟨bus, rest, -, hrest, rfl⟩ := describe_cons h
    simp [ih hrest]

theorem describe_size (h : w.describe dir device lens id offset = .ok entries)
    (hlens : ∀ n ∈ lens, wordBytes ∣ n ∧ n < 2 ^ 34) : entries.map Entry.size = lens := by
  induction lens generalizing id offset entries with
  | nil =>
    simp only [describe, Except.ok.injEq] at h
    simp [← h]
  | cons len lens ih =>
    obtain ⟨bus, rest, -, hrest, rfl⟩ := describe_cons h
    have hlen := hlens len List.mem_cons_self
    rw [List.map_cons, Entry.size_moving hlen.1 hlen.2,
      ih hrest fun n hn => hlens n (List.mem_cons_of_mem _ hn)]

theorem describe_total_le (h : w.describe dir device lens id offset = .ok entries) :
    Entry.total entries ≤ lens.sum := by
  induction lens generalizing id offset entries with
  | nil =>
    simp only [describe, Except.ok.injEq] at h
    simp [← h]
  | cons len lens ih =>
    obtain ⟨bus, rest, -, hrest, rfl⟩ := describe_cons h
    rw [Entry.total_cons, List.sum_cons]
    exact Nat.add_le_add Entry.size_moving_le (ih hrest)

theorem describe_page (hr : w.region.Ordered)
    (h : w.describe dir device lens id offset = .ok entries) {i : Nat} {e : Entry}
    (he : entries[i]? = some e) :
    ∃ len, lens[i]? = some len ∧ ∃ page ∈ w.region.pages,
      let at_ := offset + (lens.take i).sum
      let host := w.position + at_
      page.host = host - host % w.region.pageSize ∧
        e = .moving dir (page.bus + host % w.region.pageSize) (device + at_) len (id + i) := by
  induction lens generalizing id offset entries i with
  | nil =>
    simp only [describe, Except.ok.injEq] at h
    simp [← h] at he
  | cons len lens ih =>
    obtain ⟨bus, rest, hbus, hrest, rfl⟩ := describe_cons h
    cases i with
    | zero =>
      obtain ⟨page, hp, hhost, hb⟩ := Region.busAt?_eq hr hbus
      simp only [List.getElem?_cons_zero, Option.some.injEq] at he
      refine ⟨len, rfl, page, hp, ?_⟩
      simp only [List.take_zero, List.sum_nil, Nat.add_zero, position, Nat.add_assoc] at hhost hb ⊢
      exact ⟨hhost, by rw [← he, hb]⟩
    | succ i =>
      obtain ⟨n, hn, page, hp, hpage, hentry⟩ := ih hrest he
      refine ⟨n, hn, page, hp, ?_⟩
      simp only [List.take_succ_cons, List.sum_cons]
      rw [Nat.add_assoc] at hpage hentry
      exact ⟨hpage, by rw [hentry, Nat.add_assoc id, Nat.add_comm 1]⟩

/-- The page that an address lies in is a whole part of the address space. -/
theorem page_le_addressLimit {size a : Nat} (hdvd : size ∣ addressLimit)
    (ha : a < addressLimit) : a - a % size + size ≤ addressLimit := by
  obtain ⟨count, hcount⟩ := hdvd
  have hlt : a / size < count := Nat.div_lt_of_lt_mul (hcount ▸ ha)
  have hle := Nat.mul_le_mul_left size hlt
  have hdiv := Nat.div_add_mod a size
  rw [Nat.mul_succ] at hle
  omega

/-- The descriptor of one piece says its move, if none of the numbers is too large for it. -/
theorem toMove_moving {r : Request} {bus : Nat → Nat} {pageSize x at_ len id : Nat}
    (hat : at_ = bus (r.host + x - (r.host + x) % pageSize) + (r.host + x) % pageSize)
    (hbus : at_ < addressLimit) (hdevice : r.device + x < addressLimit) (hlen : len ≤ 2 ^ 19) :
    (Entry.moving r.direction at_ (r.device + x) len id).toMove = r.move bus pageSize x len := by
  have hwords : (UInt32.ofNat (len / wordBytes)).toNat = len / wordBytes :=
    UInt32.toNat_ofNat_of_lt'
      (Nat.lt_of_le_of_lt (Nat.div_le_self _ _) (Nat.lt_of_le_of_lt hlen (by decide)))
  rw [Request.move]
  simp only [← hat]
  cases r.direction <;>
    simp only [Entry.moving, Entry.toMove, hwords, UInt64.toNat_ofNat_of_lt' hbus,
      UInt64.toNat_ofNat_of_lt' hdevice]

/-- On a bus that places each page by its host address, the descriptors are the next moves of the
request. -/
theorem describe_moves {r : Request} {bus : Nat → Nat} {x : Nat} (hr : w.region.Ordered)
    (hbus : ∀ page ∈ w.region.pages, page.bus = bus page.host)
    (hlimit : ∀ a, a + w.region.pageSize ≤ addressLimit → bus a + w.region.pageSize ≤ addressLimit)
    (hpage : 0 < w.region.pageSize) (hdvd : w.region.pageSize ∣ addressLimit)
    (hhost : w.position + offset = r.host + x) (hdev : device + offset = r.device + x)
    (hfits : r.device + x + lens.sum ≤ addressLimit) (hbelow : r.host + x + lens.sum ≤ addressLimit)
    (hlens : ∀ n ∈ lens, 0 < n ∧ n ≤ 2 ^ 19)
    (h : w.describe r.direction device lens id offset = .ok entries) :
    entries.map Entry.toMove = r.moves bus w.region.pageSize x lens := by
  induction lens generalizing id offset x entries with
  | nil =>
    simp only [describe, Except.ok.injEq] at h
    simp [← h, Request.moves]
  | cons len lens ih =>
    obtain ⟨at_, rest, hat, hrest, rfl⟩ := describe_cons h
    have hlen := hlens len List.mem_cons_self
    rw [List.sum_cons] at hfits hbelow
    have hmoves := ih (x := x + len) (by omega) (by omega) (by omega) (by omega)
      (fun n hn => hlens n (List.mem_cons_of_mem _ hn)) hrest
    obtain ⟨page, hp, hphost, hb⟩ := Region.busAt?_eq hr hat
    have hplace : w.region.start + (w.cursor + offset) = r.host + x := by
      rw [← Nat.add_assoc, ← hhost, position]
    rw [hplace] at hphost hb
    have hmod := Nat.mod_lt (r.host + x) hpage
    have hlim := hlimit page.host (hphost ▸ page_le_addressLimit hdvd (by omega))
    have hplaced := hbus page hp
    have hmove : (Entry.moving r.direction at_ (r.device + x) len id).toMove =
        r.move bus w.region.pageSize x len :=
      toMove_moving (by rw [hb, hplaced, hphost]) (by omega) (by omega) hlen.2
    rw [List.map_cons, hmoves, Request.moves, hdev, hmove]

variable {s : Settings} {start : BatchPlace}

theorem carve_ok (h : w.carve s dir device start = .ok entries) :
    ∃ lens, w.pieces s start.capacity = .ok lens ∧ w.describe dir device lens start.id 0 = .ok entries := by
  unfold carve at h
  split at h
  · cases h
  · next lens hlens =>
    split at h
    · cases h
    · next entries' hentries =>
      simp only [Except.ok.injEq] at h
      exact ⟨lens, hlens, h ▸ hentries⟩

/-- A batch takes no more than the window has left, however large its pieces are. -/
theorem carve_total_le (hs : s.Valid) (hid : start.id ≤ lastSlot)
    (h : w.carve s dir device start = .ok entries) : Entry.total entries ≤ w.left := by
  obtain ⟨lens, hlens, hentries⟩ := carve_ok h
  obtain ⟨-, -, hsum, -⟩ := pieces_bounds hs (BatchPlace.capacity_ne_zero hid) hlens
  exact Nat.le_trans (describe_total_le hentries) hsum

/-- The sizes of the descriptors are the pieces they were made of. -/
theorem carve_pieces (hs : s.Valid) (hsmall : s.pageSize < 2 ^ 34) (hid : start.id ≤ lastSlot)
    (h : w.carve s dir device start = .ok entries) :
    w.pieces s start.capacity = .ok (entries.map Entry.size) ∧
      w.describe dir device (entries.map Entry.size) start.id 0 = .ok entries ∧
      Entry.total entries ≤ w.left ∧
      ∀ n ∈ entries.map Entry.size, wordBytes ∣ n ∧ 0 < n ∧ n ≤ s.pageSize := by
  obtain ⟨lens, hlens, hentries⟩ := carve_ok h
  obtain ⟨-, -, hsum, hbounds⟩ := pieces_bounds hs (BatchPlace.capacity_ne_zero hid) hlens
  have hsize : entries.map Entry.size = lens := by
    apply describe_size hentries
    intro n hn
    exact ⟨(hbounds n hn).1, Nat.lt_of_le_of_lt (hbounds n hn).2.2 hsmall⟩
  rw [Entry.total_eq, hsize]
  exact ⟨hlens, hentries, hsum, hbounds⟩

/-- A batch moves at least a word. -/
theorem carve_advances (hs : s.Valid) (hsmall : s.pageSize < 2 ^ 34) (hid : start.id ≤ lastSlot)
    (h : w.carve s dir device start = .ok entries) : wordBytes ≤ Entry.total entries := by
  obtain ⟨hlens, -, -, hbounds⟩ := carve_pieces hs hsmall hid h
  obtain ⟨hne, -, -, -⟩ := pieces_bounds hs (BatchPlace.capacity_ne_zero hid) hlens
  cases entries with
  | nil => exact absurd rfl hne
  | cons e rest =>
    obtain ⟨hdvd, hpos, -⟩ := hbounds e.size (by simp)
    rw [Entry.total_cons]
    exact Nat.le_trans (Nat.le_of_dvd hpos hdvd) (Nat.le_add_right _ _)

theorem carve_fits (hs : s.Valid) (hid : start.id ≤ lastSlot)
    (h : w.carve s dir device start = .ok entries) :
    entries ≠ [] ∧ Ring.lastIdOf start entries ≤ lastSlot := by
  obtain ⟨lens, hlens, hentries⟩ := carve_ok h
  have hcap : start.capacity = slotCount - start.id := rfl
  have hslot : lastSlot = slotCount - 1 := rfl
  have hcount : slotCount = 128 := rfl
  obtain ⟨hne, hlen, -, -⟩ := pieces_bounds hs (BatchPlace.capacity_ne_zero hid) hlens
  rw [← describe_length hentries] at hlen
  constructor
  · rintro rfl
    exact hne (List.eq_nil_of_length_eq_zero (describe_length hentries).symm)
  · rw [Ring.lastIdOf]
    omega

theorem describe_numbered (h : w.describe dir device lens id offset = .ok entries)
    (hfit : id + lens.length ≤ slotCount) : Table.Numbered id entries := by
  induction lens generalizing id offset entries with
  | nil =>
    simp only [describe, Except.ok.injEq] at h
    intro i e he
    simp [← h] at he
  | cons len lens ih =>
    obtain ⟨bus, rest, -, hrest, rfl⟩ := describe_cons h
    rw [List.length_cons] at hfit
    intro i e he
    cases i with
    | zero =>
      simp only [List.getElem?_cons_zero, Option.some.injEq] at he
      have hlt : id < 2 ^ 32 := Nat.lt_of_lt_of_le (by omega) (show slotCount ≤ 2 ^ 32 by decide)
      rw [← he]
      exact UInt32.toNat_ofNat_of_lt' hlt
    | succ i =>
      have hnumber := ih hrest (by omega) i e he
      omega

/-- The descriptors have the ids from that of the start on, and the ring has a slot for each. -/
theorem carve_numbered (hs : s.Valid) (hid : start.id ≤ lastSlot)
    (h : w.carve s dir device start = .ok entries) :
    Table.Numbered start.id entries ∧ start.id + entries.length ≤ slotCount := by
  obtain ⟨lens, -, hentries⟩ := carve_ok h
  obtain ⟨hne, hlast⟩ := carve_fits hs hid h
  have hlen := List.length_pos_iff.mpr hne
  have hslot : slotCount = lastSlot + 1 := rfl
  rw [Ring.lastIdOf] at hlast
  have hfit : start.id + entries.length ≤ slotCount := by omega
  exact ⟨describe_numbered hentries (describe_length hentries ▸ hfit), hfit⟩

end Window
end ScatterGather
