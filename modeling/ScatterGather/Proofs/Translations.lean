import Mathlib.Data.Set.Card
import Mathlib.Order.Interval.Finset.Nat
import ScatterGather.Bench.ScriptedHost
import ScatterGather.Proofs.Demands
import ScatterGather.Proofs.Moments

/-! # From host addresses to the bus

The pages that a stretch of memory meets are asked for in one call, each of them once and in ascending
order. In the region that is pinned with them each byte is found on the page that it lies on, at the
place that it has in this page.
-/
namespace ScatterGather

/-- A page and the `len` bytes from `start` on have a byte in common. -/
def MeetsPage (start len pageSize page : Nat) : Prop :=
  ∃ b, start ≤ b ∧ b < start + len ∧ page * pageSize ≤ b ∧ b < (page + 1) * pageSize

/-- The run consists of the pages that the bytes meet. -/
structure PageRun.Meets (range : PageRun) (start len pageSize : Nat) : Prop where
  counted : Set.encard {page | MeetsPage start len pageSize page} = range.pages
  complete : ∀ a, a ∈ range.addresses ↔ ∃ page, MeetsPage start len pageSize page ∧ a = page * pageSize
  ascending : range.addresses.Pairwise (· < ·)
  first : range.addresses.head? = some range.base

/-- The bytes of the region, and no others, have an address on the bus: that of the page in `range` on
which they lie, plus their place in this page. -/
structure Region.Translates (r : Region) (range : PageRun) : Prop where
  own : ∀ offset, (r.busAt? offset).isSome = true ↔ offset < r.len
  located : ∀ offset < r.len, ∃ (j : Nat) (page : Page),
    range.addresses[j]? = some ((r.start + offset) / r.pageSize * r.pageSize) ∧
    r.pages[j]? = some page ∧
    r.busAt? offset = some (page.bus + (r.start + offset) % r.pageSize)
  consecutive : ∀ offset bus, offset + 1 < r.len →
    (r.start + offset) / r.pageSize = (r.start + (offset + 1)) / r.pageSize →
    r.busAt? offset = some bus → r.busAt? (offset + 1) = some (bus + 1)
  below : (∀ page ∈ r.pages, page.bus + r.pageSize ≤ addressLimit) →
    ∀ offset bus, r.busAt? offset = some bus → bus < addressLimit

section Pages
variable {start len size page offset : Nat}

theorem lt_div_iff_of_round_up (hsize : 0 < size) (page n : Nat) :
    page < (n + size - 1) / size ↔ page * size < n := by
  rw [← Nat.succ_le_iff, Nat.le_div_iff_mul_le hsize, Nat.succ_mul]
  omega

/-- The pages that are met follow one another. -/
theorem meetsPage_iff (hsize : 0 < size) :
    MeetsPage start len size page ↔
      start / size ≤ page ∧ page < start / size + pagesMet start len size := by
  have hfirst : start / size ≤ page ↔ start < (page + 1) * size := by
    rw [← Nat.lt_succ_iff, Nat.div_lt_iff_lt_mul hsize]
  by_cases hlen : len = 0
  · rw [pagesMet, if_pos hlen]
    constructor
    · rintro ⟨b, hlow, hhigh, -⟩
      omega
    · omega
  · have hlast := lt_div_iff_of_round_up hsize page (start + len)
    rw [hfirst, pagesMet, if_neg hlen]
    constructor
    · rintro ⟨b, hlow, hhigh, hpage, hnext⟩
      have hstop := hlast.mpr (Nat.lt_of_le_of_lt hpage hhigh)
      omega
    · rintro ⟨hstart, hstop⟩
      have hbegins : page * size < start + len := hlast.mp (by omega)
      refine ⟨max start (page * size), ?_⟩
      rw [Nat.succ_mul] at hstart ⊢
      omega

theorem covering_addresses (start len size : Nat) :
    (PageRun.covering start len size).addresses =
      (List.range (pagesMet start len size)).map fun i => (start / size + i) * size := by
  have hbase : start - start % size = start / size * size := by
    rw [Nat.sub_eq_iff_eq_add (Nat.mod_le _ _), Nat.mul_comm, Nat.div_add_mod]
  unfold PageRun.addresses PageRun.covering
  simp only [hbase, Nat.add_mul]

theorem pagesMet_pos (hsize : 0 < size) (hlen : 0 < len) (start : Nat) : 0 < pagesMet start len size :=
  Nat.lt_of_le_of_lt (Nat.zero_le _) (lt_pagesMet hsize hlen)

theorem covering_meets (hsize : 0 < size) (hlen : 0 < len) :
    (PageRun.covering start len size).Meets start len size where
  counted := by
    have hpages : {page | MeetsPage start len size page} =
        ↑(Finset.Ico (start / size) (start / size + pagesMet start len size)) := by
      ext page
      rw [Finset.coe_Ico]
      exact meetsPage_iff hsize
    rw [hpages, Set.encard_coe_eq_coe_finsetCard, Nat.card_Ico, Nat.add_sub_cancel_left]
    rfl
  complete a := by
    rw [covering_addresses, List.mem_map]
    constructor
    · rintro ⟨i, hi, rfl⟩
      rw [List.mem_range] at hi
      exact ⟨start / size + i, (meetsPage_iff hsize).mpr ⟨Nat.le_add_right _ _, by omega⟩, rfl⟩
    · rintro ⟨page, hmeets, rfl⟩
      obtain ⟨hlow, hhigh⟩ := (meetsPage_iff hsize).mp hmeets
      refine ⟨page - start / size, List.mem_range.mpr (by omega), ?_⟩
      rw [Nat.add_sub_cancel' hlow]
  ascending := by
    rw [covering_addresses, List.pairwise_map]
    apply List.pairwise_lt_range.imp
    intro i j hij
    exact Nat.mul_lt_mul_of_pos_right (Nat.add_lt_add_left hij _) hsize
  first := by
    obtain ⟨n, hn⟩ := Nat.exists_eq_add_of_lt (pagesMet_pos hsize hlen start)
    rw [Nat.zero_add] at hn
    unfold PageRun.addresses
    rw [show (PageRun.covering start len size).pages = n + 1 from hn, List.range_succ_eq_map]
    simp

end Pages

namespace Region
variable {r : Region} {offset : Nat}

theorem busAt?_invalid (h : r.valid = false) : r.busAt? offset = none := by
  rw [busAt?, if_neg (by simp [h])]

theorem busAt?_of_not_lt (h : ¬ offset < r.len) : r.busAt? offset = none := by
  rw [busAt?, if_neg fun hc => h hc.2]

/-- The page of a byte is as far from the first page as the two are apart in host memory. -/
theorem busAt?_of_lt (hv : r.valid = true) (hsize : 0 < r.pageSize) (h : offset < r.len) :
    r.busAt? offset = r.pages[(r.start + offset) / r.pageSize - r.start / r.pageSize]?.map
      fun page => page.bus + (r.start + offset) % r.pageSize := by
  obtain ⟨hdiv, hmod⟩ := place_eq hsize r.start offset
  rw [busAt?, if_pos ⟨hv, h⟩, hdiv, hmod, Nat.add_sub_cancel_left]
  rfl

theorem locate (hv : r.valid = true) (hsize : 0 < r.pageSize)
    (hpages : pagesMet r.start r.len r.pageSize ≤ r.pages.length) (h : offset < r.len) :
    ∃ (j : Nat) (page : Page),
      (PageRun.covering r.start r.len r.pageSize).addresses[j]? =
        some ((r.start + offset) / r.pageSize * r.pageSize) ∧
      r.pages[j]? = some page ∧
      r.busAt? offset = some (page.bus + (r.start + offset) % r.pageSize) := by
  have hdiv := (place_eq hsize r.start offset).1
  have hmet : (r.start + offset) / r.pageSize - r.start / r.pageSize <
      pagesMet r.start r.len r.pageSize := by
    rw [hdiv, Nat.add_sub_cancel_left]
    exact lt_pagesMet hsize h
  have hget := List.getElem?_eq_getElem (Nat.lt_of_lt_of_le hmet hpages)
  refine ⟨_, _, ?_, hget, ?_⟩
  · rw [covering_addresses, List.getElem?_map, List.getElem?_range hmet, Option.map_some,
      Nat.add_sub_cancel' (hdiv ▸ Nat.le_add_right _ _)]
  · rw [busAt?_of_lt hv hsize h, hget, Option.map_some]

theorem translates (hv : r.valid = true) (hsize : 0 < r.pageSize)
    (hpages : pagesMet r.start r.len r.pageSize ≤ r.pages.length) :
    r.Translates (.covering r.start r.len r.pageSize) where
  own offset := by
    constructor
    · intro h
      by_contra hlen
      rw [busAt?_of_not_lt hlen] at h
      cases h
    · intro h
      obtain ⟨bus, hbus⟩ := busAt?_ok hv hsize hpages h
      rw [hbus]
      rfl
  located _ h := locate hv hsize hpages h
  consecutive offset bus hnext hsame hbus := by
    have hplace : (r.start + (offset + 1)) % r.pageSize = (r.start + offset) % r.pageSize + 1 := by
      have hhere := Nat.div_add_mod (r.start + offset) r.pageSize
      have hthere := Nat.div_add_mod (r.start + (offset + 1)) r.pageSize
      rw [← hsame] at hthere
      omega
    rw [busAt?_of_lt hv hsize (Nat.lt_of_succ_lt hnext)] at hbus
    obtain ⟨page, hpage, rfl⟩ := Option.map_eq_some_iff.mp hbus
    rw [busAt?_of_lt hv hsize hnext, ← hsame, hpage, hplace]
    rfl
  below hlimit offset bus hbus := by
    have hlt : offset < r.len := by
      by_contra hlen
      rw [busAt?_of_not_lt hlen] at hbus
      cases hbus
    obtain ⟨j, page, -, hpage, hfound⟩ := locate hv hsize hpages hlt
    have hpagelimit := hlimit page (List.mem_of_getElem? hpage)
    have hmod := Nat.mod_lt (r.start + offset) hsize
    have hsame := Option.some.inj (hbus.symm.trans hfound)
    omega

end Region

namespace Machine
variable {σ : Type} [Platform σ] {pageSize start len : Nat} {dir : Direction}

theorem pin?_eq (hsize : 0 < pageSize) (m : Machine σ) (start len : Nat) (dir : Direction) :
    m.pin? pageSize start len dir = some (m.pin pageSize start len dir) :=
  if_neg fun h => Nat.ne_of_gt hsize h.1

theorem lock_incidental (m : Machine σ) (range : PageRun) (writable : Bool) :
    ∃ struck, (m.lock range writable).2.history =
        struck ++ .lock range writable (m.lock range writable).1 :: m.history ∧
      ∀ e ∈ struck, e.Incidental :=
  (m.asked range writable).incurAll_incidental _

theorem pin_of_not (h : ¬ Pinnable start len) (m : Machine σ) :
    m.pin pageSize start len dir = (.error .invalidRange, m) := if_neg h

theorem pin_of_short {m : Machine σ} (h : Pinnable start len)
    (hshort : (m.lock (.covering start len pageSize) dir.writesHost).1.length <
      (PageRun.covering start len pageSize).pages) :
    let range := PageRun.covering start len pageSize
    let answer := m.lock range dir.writesHost
    m.pin pageSize start len dir =
      (.error (.partialLock range.pages answer.1.length), answer.2.unlock answer.1 false) := by
  dsimp only
  rw [pin, if_pos h]
  exact if_pos hshort

theorem pin_of_full {m : Machine σ} (h : Pinnable start len)
    (hfull : (PageRun.covering start len pageSize).pages ≤
      (m.lock (.covering start len pageSize) dir.writesHost).1.length) :
    let range := PageRun.covering start len pageSize
    let answer := m.lock range dir.writesHost
    m.pin pageSize start len dir =
      (.ok { start, len, direction := dir, pageSize, pages := answer.1, valid := true },
        answer.2.countLocked range.pages) := by
  dsimp only
  rw [pin, if_pos h]
  exact if_neg (Nat.not_lt.mpr hfull)

theorem unpin_busAt? (m : Machine σ) (r : Region) (offset : Nat) :
    (m.unpin r).1.busAt? offset = none := by
  apply Region.busAt?_invalid
  unfold unpin
  split
  · rfl
  · next hv => exact Bool.not_eq_true _ ▸ hv

/-- Of the events of a pin only the first one asks for pages. -/
theorem pin_asks_once (m : Machine σ) (pageSize : Nat) (dir : Direction) (h : Pinnable start len) :
    let range := PageRun.covering start len pageSize
    ∃ newer, (m.pin pageSize start len dir).2.history =
        newer ++ .lock range dir.writesHost (m.lock range dir.writesHost).1 :: m.history ∧
      ∀ e ∈ newer, ∀ range writable pages, e ≠ .lock range writable pages := by
  intro range
  let locked := m.lock range dir.writesHost
  obtain ⟨struck, hhistory, hstruck⟩ := m.lock_incidental range dir.writesHost
  have hothers : ∀ e ∈ struck, ∀ range writable pages, e ≠ .lock range writable pages := by
    rintro e he range writable pages rfl
    exact hstruck _ he
  by_cases hshort : locked.1.length < range.pages
  · rw [pin_of_short h hshort]
    refine ⟨.unlock locked.1 false :: struck, congrArg _ hhistory, ?_⟩
    exact List.forall_mem_cons.mpr ⟨nofun, hothers⟩
  · rw [pin_of_full h (Nat.le_of_not_lt hshort)]
    exact ⟨struck, hhistory, hothers⟩

end Machine

/-- A stretch of memory that ends inside the address space is pinned with the pages that it meets, if
the platform locks all of them, and the region translates its own bytes until it is unpinned. -/
theorem pin_translates {σ : Type} [Platform σ] {pageSize start len : Nat} (hsize : 0 < pageSize)
    (hlen : 0 < len) (hfit : start + len < addressLimit) (m : Machine σ) (dir : Direction) :
    let range := PageRun.covering start len pageSize
    let pages := (Platform.lock m.platform range dir.writesHost).pages
    pagesMet? start len pageSize = some range.pages ∧ range.Meets start len pageSize ∧
    ∃ answer t newer, m.pin? pageSize start len dir = some (answer, t) ∧
      t.history = newer ++ .lock range dir.writesHost pages :: m.history ∧
      (∀ e ∈ newer, ∀ range writable pages, e ≠ .lock range writable pages) ∧
      (range.pages ≤ pages.length → ∃ r : Region, answer = .ok r ∧ r.valid = true ∧
        r.start = start ∧ r.len = len ∧ r.pageSize = pageSize ∧ r.pages = pages ∧
        r.Translates range ∧
        ∀ (later : Machine σ) offset, (later.unpin r).1.busAt? offset = none) := by
  intro range pages
  have hpinnable : Machine.Pinnable start len := ⟨Nat.ne_of_gt hlen, hfit⟩
  have hmet : pagesMet? start len pageSize = some range.pages :=
    if_neg fun h => Nat.ne_of_gt hsize h.2
  obtain ⟨newer, hhistory, honce⟩ := m.pin_asks_once pageSize dir hpinnable
  let pinned := m.pin pageSize start len dir
  refine ⟨hmet, covering_meets hsize hlen, pinned.1, pinned.2, newer,
    Machine.pin?_eq hsize m start len dir, hhistory, honce, ?_⟩
  intro hfull
  let r : Region := { start, len, direction := dir, pageSize, pages, valid := true }
  have hanswer : pinned.1 = .ok r := congrArg Prod.fst (Machine.pin_of_full hpinnable hfull)
  exact ⟨r, hanswer, rfl, rfl, rfl, rfl, rfl, Region.translates rfl hsize hfull,
    fun later _ => later.unpin_busAt? _ _⟩

/-- Pages of twelve bytes, scattered over the bus: the fifth byte is the first of the second page. -/
theorem pin_translates_scattered :
    let m := Machine.initial {} ({ busScale := 3, busOffset := 7 } : Bench.ScriptedHost)
    pagesMet? 20 30 12 = some 4 ∧
    ∃ r t, m.pin? 12 20 30 .deviceToHost = some (.ok r, t) ∧
      r.Translates (.covering 20 30 12) ∧ r.busAt? 4 = some 79 := by
  intro m
  obtain ⟨hmet, -, answer, t, newer, hpin, -, -, hregion⟩ :=
    pin_translates (show 0 < 12 by decide) (show 0 < 30 by decide)
      (show 20 + 30 < addressLimit by decide) m .deviceToHost
  obtain ⟨r, rfl, hv, hstart, hlen, hsize, hpages, htranslates, -⟩ := hregion (by decide)
  refine ⟨hmet, r, t, hpin, htranslates, ?_⟩
  rw [Region.busAt?, if_pos ⟨hv, by omega⟩, Region.headOffset, hstart, hsize, hpages]
  decide

end ScatterGather
