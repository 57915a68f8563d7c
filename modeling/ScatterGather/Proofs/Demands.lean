import ScatterGather.Proofs.Plans
import ScatterGather.Proofs.Services
import ScatterGather.Proofs.Windows

/-! # When the next batch can be had

A transfer goes on as long as its request lies in the address space, the controller holds an id that
it can hold, and the platform locks every page of a window that the worker cannot do without.
-/
namespace ScatterGather

/-- Whole words that are less than a page can be cut into chunks. -/
theorem chunkPlan_ok {bytes capacity pageSize maxLog : Nat} (hlt : bytes < pageSize)
    (hne : bytes ≠ 0) (hwords : wordBytes ∣ bytes) (hc : capacity ≠ 0) (hlog : minChunkLog ≤ maxLog) :
    ∃ sizes, chunkPlan bytes capacity pageSize maxLog = .ok sizes := by
  have hword := Nat.le_of_dvd (Nat.pos_of_ne_zero hne) hwords
  exact ⟨_, by rw [chunkPlan_of_lt hlt, if_neg (by omega)]⟩

/-- A byte lies as many pages after the page of the first byte as its offset tells. -/
theorem place_eq {size : Nat} (hsize : 0 < size) (start offset : Nat) :
    (start + offset) / size = start / size + (start % size + offset) / size ∧
      (start + offset) % size = (start % size + offset) % size := by
  have hstart := Nat.div_add_mod start size
  have hsplit : start + offset = size * (start / size) + (start % size + offset) := by omega
  rw [hsplit, Nat.mul_add_div hsize, Nat.mul_add_mod]
  exact ⟨rfl, rfl⟩

theorem lt_pagesMet {start len size offset : Nat} (hsize : 0 < size) (h : offset < len) :
    (start % size + offset) / size < pagesMet start len size := by
  have hplace := (place_eq hsize start offset).1
  have hend : (start + offset) / size + 1 ≤ (start + len + size - 1) / size := by
    rw [← Nat.add_div_right _ hsize]
    exact Nat.div_le_div_right (by omega)
  rw [pagesMet, if_neg (by omega)]
  omega

/-- In a region that has all its pages every byte is found. -/
theorem Region.busAt?_ok {r : Region} {offset : Nat} (hvalid : r.valid = true)
    (hsize : 0 < r.pageSize) (hpages : pagesMet r.start r.len r.pageSize ≤ r.pages.length)
    (h : offset < r.len) : ∃ bus, r.busAt? offset = some bus := by
  have hmet : (r.headOffset + offset) / r.pageSize < r.pages.length :=
    Nat.lt_of_lt_of_le (lt_pagesMet hsize h) hpages
  rw [busAt?, if_pos ⟨hvalid, h⟩]
  simp [hmet]

namespace Window
variable {w : Window} {s : Settings} {capacity : Nat} {lens : List Nat}

theorem pieces_ok (hs : s.Valid) (hc : capacity ≠ 0) (hleft : w.left ≠ 0)
    (hposition : wordBytes ∣ w.position) (hwords : wordBytes ∣ w.left) :
    ∃ lens, w.pieces s capacity = .ok lens := by
  have hpage := hs.pageSize_pos
  have hword := hs.word_dvd_pageSize
  have hlog := hs.minChunkLog_le
  have hmod : w.offsetInPage s.pageSize < s.pageSize := Nat.mod_lt _ hpage
  unfold pieces
  dsimp only
  split
  · next hpartial =>
    have hdvd : wordBytes ∣ min (s.pageSize - w.offsetInPage s.pageSize) w.left := by
      rcases Nat.le_total (s.pageSize - w.offsetInPage s.pageSize) w.left with hle | hle
      · rw [Nat.min_eq_left hle]
        exact Nat.dvd_sub hword ((Nat.dvd_mod_iff hword).mpr hposition)
      · rwa [Nat.min_eq_right hle]
    exact chunkPlan_ok (by omega) (by omega) hdvd hc hlog
  · exact ⟨_, rfl⟩

theorem describe_ok (hbus : ∀ x < w.left, ∃ bus, w.busAt? x = some bus) (hlens : ∀ n ∈ lens, 0 < n)
    {dir : Direction} {device id offset : Nat} (hsum : offset + lens.sum ≤ w.left) :
    ∃ entries, w.describe dir device lens id offset = .ok entries := by
  induction lens generalizing id offset with
  | nil => exact ⟨[], rfl⟩
  | cons len lens ih =>
    have hlen := hlens len List.mem_cons_self
    rw [List.sum_cons] at hsum
    obtain ⟨bus, hfound⟩ := hbus offset (by omega)
    obtain ⟨rest, hrest⟩ : ∃ rest, w.describe dir device lens (id + 1) (offset + len) = .ok rest :=
      ih (fun n hn => hlens n (List.mem_cons_of_mem _ hn)) (by omega)
    simp only [describe, hfound, hrest]
    exact ⟨_, rfl⟩

end Window

theorem Ring.start?_ok {ring : Ring} {dir : Direction}
    (h : ring.lastId.get dir = noId ∨ ring.lastId.get dir ≤ lastSlot) :
    ∃ start, ring.start? dir = .ok start := by
  unfold start?
  dsimp only
  split
  · exact ⟨_, rfl⟩
  · next hfull =>
    have hlt : ring.lastId.get dir < lastSlot := by omega
    rw [if_pos hlt]
    exact ⟨_, rfl⟩

theorem Region.Covers.word_dvd {Q : PageRun → List Page → Prop} {g : Region} {r : Request}
    {s : Settings} {b : Nat} (hs : s.Valid) (h : g.Covers Q r s b) (hr : wordBytes ∣ r.len) :
    wordBytes ∣ b ∧ wordBytes ∣ g.len := by
  have hfull : wordBytes ∣ s.fullWindow := Nat.dvd_mul_left_of_dvd hs.word_dvd_pageSize _
  have hbase : wordBytes ∣ b := Nat.dvd_trans hfull (Nat.dvd_of_mod_eq_zero h.whole)
  refine ⟨hbase, ?_⟩
  rw [h.len, Request.windowLen]
  rcases Nat.le_total (r.len - b) s.fullWindow with hle | hle
  · rw [Nat.min_eq_left hle]
    exact Nat.dvd_sub hr hbase
  · rwa [Nat.min_eq_right hle]

theorem Region.Covers.busAt?_ok {Q : PageRun → List Page → Prop} {g : Region} {r : Request}
    {s : Settings} {b : Nat} (hs : s.Valid) (h : g.Covers Q r s b) {offset : Nat} (hlt : offset < g.len) :
    ∃ bus, g.busAt? offset = some bus := by
  apply Region.busAt?_ok
  · rw [h.region]
    rfl
  · rw [h.pageSize]
    exact hs.pageSize_pos
  · rw [h.start, h.len, h.pageSize]
    exact h.enough
  · exact hlt

section Demands
variable {σ : Type} [Platform σ] {Q : PageRun → List Page → Prop} {st : Settings} {s : Station σ}
  {k : Errand} {p : Progress} {w : Window} {start : BatchPlace}

omit [Platform σ] in
/-- Every byte that a supplied window has left is found. -/
theorem Windows.busAt?_ok (hs : st.Valid) (hw : Windows Q st s.worker (.supplied k p start w)) :
    ∀ offset < w.left, ∃ bus, w.busAt? offset = some bus := by
  intro offset hlt
  obtain ⟨⟨v, b, hv, hcovers, -⟩, hactive, -⟩ := hw
  obtain rfl : w = v := Option.some.inj (hactive.symm.trans hv)
  rw [Window.left] at hlt
  exact hcovers.busAt?_ok hs (by omega)

omit [Platform σ] in
/-- A window from which bytes of the request are to be described yields a batch. -/
theorem Window.carve_succeeds (hs : st.Valid) (hc : s.view.Poised k p)
    (hid : start.id ≤ lastSlot) (hw : Windows Q st s.worker (.supplied k p start w)) :
    ∃ entries, w.carve st p.request.direction (p.request.device + p.sent) start = .ok entries := by
  have hbus := Windows.busAt?_ok hs hw
  obtain ⟨⟨v, b, hv, hcovers, hcursor, hx, -⟩, hactive, hleft⟩ := hw
  obtain rfl : w = v := Option.some.inj (hactive.symm.trans hv)
  have hcap := BatchPlace.capacity_ne_zero hid
  have hsent : wordBytes ∣ p.sent := hc.sent ▸ Account.wordBytes_dvd_bytes _
  obtain ⟨hlen, hhost⟩ := hc.aligned
  obtain ⟨hbase, hregion⟩ := hcovers.word_dvd hs (Nat.dvd_of_mod_eq_zero hlen)
  have hposition : wordBytes ∣ w.position := by
    rw [Window.position, hcovers.start, Nat.add_assoc, ← hx]
    exact Nat.dvd_add (Nat.dvd_of_mod_eq_zero hhost) hsent
  have hwords : wordBytes ∣ w.left := by
    apply Nat.dvd_sub hregion
    rw [show w.cursor = p.sent - b by omega]
    exact Nat.dvd_sub hsent hbase
  obtain ⟨lens, hlens⟩ := Window.pieces_ok hs hcap hleft hposition hwords
  obtain ⟨-, -, hsum, hbounds⟩ := Window.pieces_bounds hs hcap hlens
  obtain ⟨entries, hentries⟩ : ∃ entries, w.describe p.request.direction
      (p.request.device + p.sent) lens start.id 0 = .ok entries :=
    Window.describe_ok hbus (fun n hn => (hbounds n hn).2.1) (by omega)
  refine ⟨entries, ?_⟩
  rw [Window.carve, hlens]
  simp only [hentries]

/-- If the worker cannot do without a fresh window, the platform locks all its pages. -/
def Station.Supplied (s : Station σ) (p : Progress) : Prop :=
  p.remaining ≠ 0 → s.worker.pipeline.needsFresh = true →
    (p.request.windowRun s.settings p.sent).pages ≤ (s.turn.answer p.request p.sent).pages.length

theorem Station.windowFor_ok (hs : s.settings.Valid) (hr : p.remaining ≠ 0)
    (hlimit : p.request.host + p.request.len < addressLimit) (hsupplied : s.Supplied p) :
    ∃ w, (s.windowFor p).1 = .ok w := by
  have hfull := hs.fullWindow_pos
  unfold windowFor
  dsimp only
  by_cases hd : s.worker.pipeline.drained = true
  · rw [supply_of_drained hd]
    unfold Pipeline.rotate
    dsimp only
    split
    · exact ⟨_, rfl⟩
    · next hn =>
      have hneeds : s.worker.pipeline.needsFresh = true := by simp [Pipeline.needsFresh, hd, hn]
      have hpages := hsupplied hr hneeds
      have hpin := pin_cases s.turn p.request p.sent
      dsimp only at hpin
      rw [s.turn_settings] at hpin
      rw [Progress.remaining] at hr
      have hpinnable : Machine.Pinnable (p.request.host + p.sent)
          (p.request.windowLen s.settings p.sent) := by
        rw [Machine.Pinnable, Request.windowLen]
        omega
      rcases hpin with ⟨hb, -⟩ | ⟨-, hlt, -⟩ | ⟨-, -, heq⟩
      · exact absurd hpinnable hb
      · omega
      · have heq' : s.turn.machine.pin s.settings.pageSize (p.request.host + p.sent)
            (min p.remaining s.settings.fullWindow) p.request.direction = _ := heq
        rw [show (s.worker.pipeline.unpinDone s.machine).2 = s.turn.machine from rfl, heq']
        exact ⟨_, rfl⟩
  · obtain ⟨w, hw, hl⟩ : ∃ w, s.worker.pipeline.active = some w ∧ w.left ≠ 0 := by
      cases hw : s.worker.pipeline.active <;> simp_all [Pipeline.drained]
    rw [supply_of_left hw hl]
    exact ⟨w, rfl⟩

theorem Station.nextBatch_ok (hstill : Platform.Still σ) (hq : Platform.Answers σ Q) (hs : st.Valid)
    (hst : s.settings = st) (hc : s.view.Poised k p)
    (hw : Windows Q st s.worker (.due k p)) (hr : p.remaining ≠ 0)
    (hlimit : p.request.host + p.request.len < addressLimit)
    (hheld : s.view.held p.request.direction = noId ∨ s.view.held p.request.direction ≤ lastSlot)
    (hsupplied : s.Supplied p) : (s.nextBatch p).1 = none := by
  obtain ⟨start, hstart⟩ : ∃ start, s.worker.ring.start? p.request.direction = .ok start :=
    Ring.start?_ok (hc.ring_held ▸ hheld)
  obtain ⟨w, hfound⟩ := windowFor_ok (hst ▸ hs) hr hlimit hsupplied
  have hpath := Path.windowFor (H := fun _ _ => False) (k := k) hstill hr hstart
  rcases hf : s.windowFor p with ⟨found, s'⟩
  rw [hf] at hpath hfound
  subst hfound
  obtain ⟨hcontrol, hsame⟩ := Path.control (x := (.due k p, s)) (hst ▸ hs) hc hpath
  have hwindows := Path.windows (x := (.due k p, s)) hs hq hst hc hw hpath
  obtain ⟨entries, hcarve⟩ := Window.carve_succeeds (s := s') hs hcontrol.1 (Ring.start?_le hstart) hwindows
  have hsettings : s'.settings = st := hsame.trans hst
  unfold nextBatch
  rw [hstart, hf]
  simp only [hsettings, hcarve]

end Demands
end ScatterGather
