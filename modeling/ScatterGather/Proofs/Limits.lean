import ScatterGather.Proofs.Docket
import ScatterGather.Proofs.Items
import ScatterGather.Proofs.Tallies
import ScatterGather.Proofs.Widths

/-! # No arithmetic of a run leaves its width

The calls of the worker, computed with sums, differences and products that have no value if they do not
fit into their width. They always have one: each sum that leads to an address is formed only where
the window before it was found to end below the limit.
-/
namespace ScatterGather

/-- The pages of a range of addresses lie on the bus. -/
def OnBus (range : PageRun) (pages : List Page) : Prop :=
  range.base + range.pages * range.pageSize ≤ addressLimit →
    ∀ page ∈ pages, page.bus + range.pageSize ≤ addressLimit

/-- The request is made of numbers that have the width of an address, and ends inside the device. -/
structure Request.InRange (r : Request) : Prop where
  host : r.host < addressLimit
  len : r.len < addressLimit
  device : r.device + r.len ≤ addressLimit

instance (r : Request) : Decidable r.InRange :=
  decidable_of_iff (r.host < addressLimit ∧ r.len < addressLimit ∧ r.device + r.len ≤ addressLimit)
    ⟨fun ⟨hhost, hlen, hdevice⟩ => ⟨hhost, hlen, hdevice⟩, fun h => ⟨h.host, h.len, h.device⟩⟩

namespace Checked
variable {σ : Type} [Platform σ]

/-! ## Pages -/

def pagesMet (start len pageSize : Nat) : Option Nat :=
  if len = 0 then some 0
  else do
    let stop ← add start len
    let last ← if stop % pageSize = 0 then some (stop / pageSize) else add (stop / pageSize) 1
    sub last (start / pageSize)

def covering (start len pageSize : Nat) : Option PageRun := do
  let pages ← pagesMet start len pageSize
  let base ← sub start (start % pageSize)
  some { base, pages, pageSize }

theorem div_add_pred {n size : Nat} (hsize : 0 < size) :
    (n + size - 1) / size = if n % size = 0 then n / size else n / size + 1 := by
  have hn := Nat.div_add_mod n size
  split
  · next hzero =>
    rw [show n + size - 1 = size * (n / size) + (size - 1) by omega, Nat.mul_add_div hsize,
      Nat.div_eq_of_lt (show size - 1 < size by omega), Nat.add_zero]
  · next hpos =>
    have hmod := Nat.mod_lt n hsize
    rw [show n + size - 1 = size * (n / size + 1) + (n % size - 1) by rw [Nat.mul_succ]; omega,
      Nat.mul_add_div hsize, Nat.div_eq_of_lt (show n % size - 1 < size by omega), Nat.add_zero]

/-- The last page that is met ends where the addresses end, or before. -/
theorem covering_below {start len size : Nat} (hsize : 0 < size) (hdvd : size ∣ addressLimit)
    (h : start + len < addressLimit) :
    (PageRun.covering start len size).base + (PageRun.covering start len size).pages * size ≤
      addressLimit := by
  have hstart := Nat.div_add_mod start size
  rw [PageRun.covering]
  dsimp only
  unfold ScatterGather.pagesMet
  split
  · omega
  · obtain ⟨count, hcount⟩ := hdvd
    have hlast : (start + len + size - 1) / size < count + 1 := by
      apply Nat.div_lt_of_lt_mul
      rw [Nat.mul_succ, ← hcount]
      omega
    have hle : start / size ≤ (start + len + size - 1) / size := Nat.div_le_div_right (by omega)
    have hend := Nat.mul_le_mul_left size (Nat.le_of_lt_succ hlast)
    have hback := Nat.mul_le_mul_left size hle
    rw [Nat.sub_mul, Nat.mul_comm _ size, Nat.mul_comm (start / size) size]
    omega

theorem pagesMet_eq {start len pageSize : Nat} (hsize : 0 < pageSize) (h : start + len < addressLimit) :
    pagesMet start len pageSize = some (ScatterGather.pagesMet start len pageSize) := by
  unfold pagesMet ScatterGather.pagesMet
  split
  · rfl
  · have hstart : start / pageSize ≤ (start + len) / pageSize := Nat.div_le_div_right (Nat.le_add_right _ _)
    have hstop := Nat.div_add_mod (start + len) pageSize
    rw [add_eq h, div_add_pred hsize]
    simp only [Option.bind_eq_bind, Option.bind_some]
    split
    · exact sub_eq hstart
    · have hle : (start + len) / pageSize ≤ pageSize * ((start + len) / pageSize) :=
        Nat.le_mul_of_pos_left _ hsize
      rw [add_eq (by omega), Option.bind_some, sub_eq (by omega)]

theorem covering_eq {start len pageSize : Nat} (hsize : 0 < pageSize) (h : start + len < addressLimit) :
    covering start len pageSize = some (.covering start len pageSize) := by
  rw [covering, pagesMet_eq hsize h, sub_eq (Nat.mod_le _ _)]
  rfl

/-- The count of locked pages is kept by an addition that may wrap. If `counting` is set, it must not. -/
def count (counting : Bool) (m : Machine σ) (pages : Nat) : Option (Machine σ) :=
  if counting then (add m.channel.pagesLocked.toNat pages).map fun _ => m.countLocked pages
  else some (m.countLocked pages)

def pin (counting : Bool) (m : Machine σ) (pageSize start len : Nat) (dir : Direction) :
    Option (Except MemoryFault Region × Machine σ) :=
  if Machine.Pinnable start len then do
    let range ← covering start len pageSize
    let answer := m.lock range dir.writesHost
    if answer.1.length < range.pages then
      some (.error (.partialLock range.pages answer.1.length), answer.2.unlock answer.1 false)
    else do
      let counted ← count counting answer.2 range.pages
      some (.ok { start, len, direction := dir, pageSize, pages := answer.1, valid := true }, counted)
  else some (.error .invalidRange, m)

theorem pin_eq {counting : Bool} {m : Machine σ} {pageSize start len : Nat} {dir : Direction}
    (hsize : 0 < pageSize) (hcount : counting = true →
      m.channel.pagesLocked.toNat + (PageRun.covering start len pageSize).pages < addressLimit) :
    pin counting m pageSize start len dir = some (m.pin pageSize start len dir) := by
  unfold pin Machine.pin
  split
  · next hpinnable =>
    have hlocked : ∀ range writable, (m.lock range writable).2.channel.pagesLocked = m.channel.pagesLocked :=
      fun _ _ => Machine.incurAll_pagesLocked _ _
    rw [covering_eq hsize hpinnable.2]
    simp only [Option.bind_eq_bind, Option.bind_some]
    split
    · rfl
    · cases counting with
      | false => rfl
      | true =>
        rw [count, if_pos rfl, hlocked, add_eq (hcount rfl)]
        rfl
  · rfl

/-! ## Windows -/

def rotate (q : Pipeline) (m : Machine σ)
    (fresh : Machine σ → Option (Except MemoryFault Region × Machine σ)) :
    Option (Except MemoryFault Window × Pipeline × Machine σ) :=
  let m := (q.unpinDone m).2
  let q := { q with done := q.active.map Window.region, active := none }
  match q.next with
  | some r => some (.ok { region := r }, { q with active := some { region := r }, next := none }, m)
  | none => do
    match ← fresh m with
    | (.ok r, m) => some (.ok { region := r }, { q with active := some { region := r } }, m)
    | (.error e, m) => some (.error e, q, m)

def supply (q : Pipeline) (m : Machine σ)
    (fresh : Machine σ → Option (Except MemoryFault Region × Machine σ)) :
    Option (Except MemoryFault Window × Pipeline × Machine σ) :=
  match q.active with
  | some w => do if (← left w) = 0 then rotate q m fresh else some (.ok w, q, m)
  | none => rotate q m fresh

def windowFor (counting : Bool) (s : Station σ) (p : Progress) :
    Option (Except MemoryFault Window × Station σ) := do
  let settings := s.settings
  let fresh (m : Machine σ) := do
    let start ← add p.request.host p.sent
    let rest ← sub p.request.len p.sent
    let window ← mul settings.windowPages settings.pageSize
    pin counting m settings.pageSize start (min rest window) p.request.direction
  let found ← supply s.worker.pipeline s.machine fresh
  some (found.1, { worker := { s.worker with pipeline := found.2.1 }, machine := found.2.2 })

section Windows
variable {q : Pipeline} {m : Machine σ}
  {fresh : Machine σ → Option (Except MemoryFault Region × Machine σ)}
  {fresh' : Machine σ → Except MemoryFault Region × Machine σ}

theorem rotate_eq (h : q.next = none → fresh (q.unpinDone m).2 = some (fresh' (q.unpinDone m).2)) :
    rotate q m fresh = some (q.rotate m fresh') := by
  unfold rotate Pipeline.rotate
  dsimp only
  cases hn : q.next with
  | some r => rfl
  | none =>
    simp only [h hn, Option.bind_eq_bind, Option.bind_some]
    rcases fresh' (q.unpinDone m).2 with ⟨_ | r, m'⟩ <;> rfl

theorem supply_eq (hw : ∀ w, q.active = some w → w.cursor ≤ w.region.len)
    (h : q.drained = true → q.next = none →
      fresh (q.unpinDone m).2 = some (fresh' (q.unpinDone m).2)) :
    supply q m fresh = some (q.supply m fresh') := by
  unfold supply Pipeline.supply
  cases hactive : q.active with
  | none => exact rotate_eq (h (by simp [Pipeline.drained, hactive]))
  | some w =>
    simp only [left_eq (hw w hactive), Option.bind_eq_bind, Option.bind_some]
    by_cases hl : w.left = 0
    · rw [if_pos hl, if_pos hl]
      exact rotate_eq (h (by simp [Pipeline.drained, hactive, hl]))
    · rw [if_neg hl, if_neg hl]

end Windows

/-! ## Batches -/

def addSize (sum : Nat) (e : Entry) : Option Nat := do add sum (← mul e.length.toNat wordBytes)

def total (entries : List Entry) : Option Nat := entries.foldlM addSize 0

theorem addSize_eq {sum : Nat} {e : Entry} (h : sum + e.size < addressLimit) :
    addSize sum e = some (sum + e.size) := by
  rw [Entry.size] at h
  rw [addSize, mul_eq (by omega)]
  exact add_eq h

theorem total_eq {entries : List Entry} (h : Entry.total entries < addressLimit) :
    total entries = some (Entry.total entries) := by
  suffices hsum : ∀ sum, sum + Entry.total entries < addressLimit →
      entries.foldlM addSize sum = some (sum + Entry.total entries) by
    rw [total, hsum 0 (by rwa [Nat.zero_add]), Nat.zero_add]
  clear h
  induction entries with
  | nil => exact fun _ _ => rfl
  | cons e entries ih =>
    intro sum hlt
    rw [Entry.total_cons, ← Nat.add_assoc] at hlt ⊢
    rw [List.foldlM_cons, addSize_eq (Nat.lt_of_le_of_lt (Nat.le_add_right _ _) hlt)]
    exact ih _ hlt

def lastIdOf (start : BatchPlace) (entries : List Entry) : Option Nat := do
  sub (← addId start.id entries.length) 1

/-- The pipeline after a batch, and the bytes that its active window has left. -/
def consumeActive (q : Pipeline) (bytes : Nat) : Option (Pipeline × Nat) :=
  match q.active with
  | none => some (q, 0)
  | some w => do
    let w ← consume w bytes
    some ({ q with active := some w }, ← left w)

def pinAhead (counting : Bool) (s : Station σ) (request : Request) (next : Nat) : Option (Station σ) :=
  if s.worker.pipeline.next.isSome ∨ request.len ≤ next then some s
  else do
    let rest ← sub request.len next
    let window ← mul s.settings.windowPages s.settings.pageSize
    let start ← add request.host next
    match ← pin counting s.machine s.settings.pageSize start (min rest window) request.direction with
    | (.ok region, machine) =>
      some { worker := { s.worker with pipeline := s.worker.pipeline.keepNext region }, machine }
    | (.error _, machine) => some { s with machine }

def hand (counting : Bool) (s : Station σ) (p : Progress) (start : BatchPlace) (entries : List Entry) :
    Option (Station σ) := do
  let bytes ← total entries
  let consumed ← consumeActive s.worker.pipeline bytes
  let _ ← lastIdOf start entries
  let handed := s.worker.ring.publish s.machine p.request.direction start entries
  let sent ← add p.sent bytes
  let released := consumed.1.unpinDone handed.2
  let worker := { s.worker with
    ring := handed.1, pipeline := released.1, transfer := some { p with sent } }
  pinAhead counting { worker, machine := released.2 } p.request (← add sent consumed.2)

def start (ring : Ring) (dir : Direction) : Option (Except BatchFault BatchPlace) :=
  let last := ring.lastId.get dir
  if last = noId ∨ last = lastSlot then some (.ok { id := 0, announce := true })
  else if last < lastSlot then (addId last 1).map fun id => .ok { id, announce := false }
  else some (.error (.unrecognizedLastId last))

def nextBatch (counting : Bool) (s : Station σ) (p : Progress) : Option (Option Failure × Station σ) := do
  match ← start s.worker.ring p.request.direction with
  | .error e => some (some (.batch e), s)
  | .ok start =>
    match ← windowFor counting s p with
    | (.error e, s) => some (some (.memory e), s)
    | (.ok w, s) =>
      let device ← add p.request.device p.sent
      match ← carve w s.settings p.request.direction device start with
      | .error e => some (some e, s)
      | .ok entries => (hand counting s p start entries).map (none, ·)

/-! ## Runs -/

def advance (counting : Bool) (s : Station σ) : Option (Station σ) :=
  match s.worker.transfer with
  | none => some s
  | some p => do
    if (← sub p.request.len p.sent) = 0 then some (s.complete p)
    else
      match ← nextBatch counting s p with
      | (some cause, s) => some (s.fail cause)
      | (none, s) => some s

def handle (counting : Bool) (s : Station σ) : Job → Option (Station σ)
  | .start request => advance counting (s.begin request)
  | .advance => (advance counting s).map (·.mapChannel Channel.closeAdvance)

def serveUpTo (counting : Bool) : (limit : Nat) → Station σ → Option (Nat × Station σ)
  | 0, s => some (0, s)
  | limit + 1, s =>
    match s.takeWork with
    | (none, s) => some (0, s)
    | (some job, s) => do
      let rest ← serveUpTo counting limit (← handle counting s job)
      some (rest.1 + 1, rest.2)

def act (counting : Bool) (s : Station σ) : Act → Option (Station σ)
  | .serve => (serveUpTo counting s.workload s).map Prod.snd
  | a => some (s.act a)

def run (counting : Bool) (s : Station σ) (acts : List Act) : Option (Station σ) :=
  acts.foldlM (act counting) s

end Checked

/-! ## Every number fits -/

/-- What is known at a juncture of the numbers with which the worker goes on. -/
structure Ranged {σ : Type} (counting : Bool) (st : Settings) (x : Juncture × Station σ) : Prop where
  settings : x.2.settings = st
  control : Control x.2.view x.1
  windows : Windows OnBus st x.2.worker x.1
  room : x.2.worker.pipeline.HasRoom x.1
  inventory : Inventory x.2 x.1
  tally : counting = true → Tally st x.2 x.1

/-- The window under the cursor ends inside the request, and below the limit. -/
theorem Pipeline.Carries.ends {Q : PageRun → List Page → Prop} {q : Pipeline} {r : Request} {s : Settings}
    {x : Nat} (h : q.Carries Q r s x) : ∃ w, q.active = some w ∧ w.cursor ≤ w.region.len ∧
      x + w.left ≤ r.len ∧ r.host + (x + w.left) < addressLimit := by
  obtain ⟨w, b, hw, hcovers, hcursor, hx, -⟩ := h
  have hlen := hcovers.len
  have hinside := hcovers.inside
  have hbelow := hcovers.below
  have hend : x + w.left = b + w.region.len := by
    rw [Window.left]
    omega
  rw [Request.windowLen] at hlen hbelow
  exact ⟨w, hw, hcursor, by omega, by omega⟩

section Steps
variable {σ : Type} {counting : Bool} {st : Settings} {s : Station σ} {j : Juncture} {k : Errand}
  {p : Progress} {w : Window} {start : BatchPlace} {entries : List Entry} {x y : Juncture × Station σ}

/-- Beside one region there is room for another in the count. -/
theorem Ranged.countable (h : Ranged counting st (j, s)) (hs : st.Valid) (hfit : st.fullWindow < addressLimit)
    (hone : s.worker.pipeline.regions.length ≤ 1) (hcounting : counting = true) (r : Request) (next : Nat) :
    s.machine.channel.pagesLocked.toNat + (r.windowRun st next).pages < addressLimit := by
  have htally := h.tally hcounting
  have hheld : s.machine.channel.pagesLocked.toNat ≤ st.windowPages + 1 :=
    calc
      s.machine.channel.pagesLocked.toNat = pageCount s.worker.pipeline.regions := htally.count
      _ ≤ s.worker.pipeline.regions.length * (st.windowPages + 1) := pageCount_le htally.small
      _ ≤ 1 * (st.windowPages + 1) := Nat.mul_le_mul_right _ hone
      _ = st.windowPages + 1 := Nat.one_mul _
  have hpages := Request.windowRun_pages_le hs r next
  have hwindows := hs.windows_fit hfit
  omega

variable [Platform σ] {A : Incident → Prop} {H : Act → Worker → Prop}

theorem Path.ranged (hs : st.Valid) (hfit : st.fullWindow < addressLimit)
    (hbus : Platform.Answers σ OnBus) (hcount : counting = true → Platform.Answers σ AtMost)
    (h : Ranged counting st x) (hpath : Path A H x y) : Ranged counting st y := by
  have hvalid : x.2.settings.Valid := h.settings ▸ hs
  obtain ⟨hcontrol, hsettings⟩ := Path.control hvalid h.control hpath
  obtain ⟨hroom, hinventory⟩ := Path.inventory hvalid h.control h.room h.inventory hpath
  constructor
  case settings => exact hsettings.trans h.settings
  case control => exact hcontrol
  case windows => exact Path.windows hs hbus h.settings h.control h.windows hpath
  case room => exact hroom
  case inventory => exact hinventory
  case tally =>
    intro hcounting
    exact Path.tally hs hfit (hcount hcounting) h.settings h.control h.room h.inventory
      (h.tally hcounting) hpath

namespace Checked

omit [Platform σ] in
/-- A window of a request is placed where its bytes have addresses. -/
theorem Placed.of_windows (hs : st.Valid) (hfit : st.fullWindow < addressLimit) (h : Windows OnBus st s.worker (.supplied k p start w)) :
    Placed w := by
  obtain ⟨⟨v, b, hv, hcovers, hcursor, -⟩, hactive, -⟩ := h
  obtain rfl : w = v := Option.some.inj (hactive.symm.trans hv)
  constructor
  case cursor => exact hcursor
  case below =>
    rw [hcovers.start, hcovers.len]
    exact hcovers.below
  case pageSize =>
    rw [hcovers.pageSize]
    exact hs.pageSize_pos
  case bus =>
    have hpage : st.pageSize ≤ st.fullWindow := Nat.le_mul_of_pos_left _ hs.windowPages_pos
    rw [hcovers.pageSize]
    exact hcovers.pages (covering_below hs.pageSize_pos (hs.pageSize_dvd_addressLimit (by omega))
      hcovers.below)

theorem windowFor_eq (hs : st.Valid) (hfit : st.fullWindow < addressLimit)
    (hbus : Platform.Answers σ OnBus) (hcount : counting = true → Platform.Answers σ AtMost)
    (h : Ranged counting st (.due k p, s)) (hin : p.request.InRange) (hr : p.remaining ≠ 0)
    (hstart : s.worker.ring.start? p.request.direction = .ok start) :
    windowFor counting s p = some (s.windowFor p) := by
  have hset : s.settings = st := h.settings
  have hsent : p.sent < p.request.len := by
    rw [Progress.remaining] at hr
    omega
  unfold windowFor Station.windowFor
  dsimp only
  rw [supply_eq ?_ ?_]
  · rfl
  · intro w hw
    rcases h.windows with hcarries | ⟨hnone, -⟩
    · obtain ⟨v, hv, hcursor, -⟩ := hcarries.ends
      obtain rfl : w = v := Option.some.inj (hw.symm.trans hv)
      exact hcursor
    · cases hw.symm.trans hnone
  · intro hd hn
    -- the window before ends below the limit
    have hhost : p.request.host + p.sent < addressLimit := by
      rcases h.windows with hcarries | ⟨-, -, hzero⟩
      · obtain ⟨v, -, -, -, hbelow⟩ := hcarries.ends
        omega
      · have := hin.host
        omega
    have hturned : Ranged counting st (.turned k p start, s.turn) :=
      Path.ranged (A := fun _ => True) (H := fun _ _ => True) hs hfit hbus hcount h
        (.single (.turn hr hstart hd))
    have hone : s.turn.worker.pipeline.regions.length ≤ 1 := by
      rw [Station.turn, Pipeline.regions, hn]
      cases s.worker.pipeline.active <;> simp
    rw [add_eq hhost, sub_eq (Nat.le_of_lt hsent), mul_eq (hset ▸ hfit)]
    simp only [Option.bind_eq_bind, Option.bind_some]
    apply pin_eq (hset ▸ hs.pageSize_pos)
    intro hcounting
    have hroom := hturned.countable hs hfit hone hcounting p.request p.sent
    rw [← hset] at hroom
    exact hroom

theorem pinAhead_eq {next : Nat} (hs : st.Valid) (hfit : st.fullWindow < addressLimit)
    (h : Ranged counting st (.released k p, s))
    (hhost : next < p.request.len → p.request.host + next < addressLimit) :
    pinAhead counting s p.request next = some (s.pinAhead p.request next) := by
  have hset : s.settings = st := h.settings
  subst hset
  unfold pinAhead Station.pinAhead
  split
  · rfl
  · next hahead =>
    obtain ⟨hn, hlt⟩ : s.worker.pipeline.next = none ∧ next < p.request.len := by simpa using hahead
    have hdone : s.worker.pipeline.done = none := h.room
    have hone : s.worker.pipeline.regions.length ≤ 1 := by
      rw [Pipeline.regions, hdone, hn]
      cases s.worker.pipeline.active <;> simp
    have hpin : pin counting s.machine s.settings.pageSize (p.request.host + next)
        (min (p.request.len - next) s.settings.fullWindow) p.request.direction =
          some (s.machine.pin s.settings.pageSize (p.request.host + next)
            (min (p.request.len - next) s.settings.fullWindow) p.request.direction) :=
      pin_eq hs.pageSize_pos fun hcounting => h.countable hs hfit hone hcounting p.request next
    rw [sub_eq (Nat.le_of_lt hlt), mul_eq hfit, add_eq (hhost hlt)]
    simp only [Option.bind_eq_bind, Option.bind_some]
    rw [show s.settings.windowPages * s.settings.pageSize = s.settings.fullWindow from rfl, hpin]
    dsimp only [Option.bind_some]
    rcases s.machine.pin s.settings.pageSize (p.request.host + next)
      (min (p.request.len - next) s.settings.fullWindow) p.request.direction with ⟨_ | region, machine⟩ <;>
      rfl

omit [Platform σ] in
theorem consumeActive_eq {q : Pipeline} {bytes : Nat} (hw : q.active = some w) (h : Placed w)
    (hb : bytes ≤ w.left) : consumeActive q bytes = some (q.consume bytes, (w.consume bytes).left) := by
  rw [consumeActive, hw]
  simp only [h.consume_eq hb, left_eq (h.consumed bytes).cursor, Option.bind_eq_bind, Option.bind_some,
    Pipeline.consume, hw, Option.map_some]

omit [Platform σ] in
theorem lastIdOf_eq (hne : entries ≠ []) (hfit : start.id + entries.length ≤ slotCount) :
    lastIdOf start entries = some (Ring.lastIdOf start entries) := by
  have hlen := List.length_pos_iff.mpr hne
  have hslots : slotCount < 2 ^ 32 := by decide
  rw [lastIdOf, addId_eq (by omega)]
  exact sub_eq (by omega)

theorem hand_eq (hs : st.Valid) (hfit : st.fullWindow < addressLimit)
    (hbus : Platform.Answers σ OnBus) (hcount : counting = true → Platform.Answers σ AtMost)
    (h : Ranged counting st (.supplied k p start w, s)) (hin : p.request.InRange)
    (hcarve : w.carve s.settings p.request.direction (p.request.device + p.sent) start = .ok entries) :
    hand counting s p start entries = some (s.hand p start entries) := by
  have hset : s.settings = st := h.settings
  have hid := Ring.start?_le h.control.2
  obtain ⟨hcarries, hactive, -⟩ := h.windows
  obtain ⟨v, hv, -, hinside, hbelow⟩ := hcarries.ends
  obtain rfl : w = v := Option.some.inj (hactive.symm.trans hv)
  have hplaced : Placed w := .of_windows hs hfit h.windows
  have hbytes : Entry.total entries ≤ w.left := Window.carve_total_le (hset ▸ hs) hid hcarve
  obtain ⟨hne, -⟩ := Window.carve_fits (hset ▸ hs) hid hcarve
  obtain ⟨-, hslots⟩ := Window.carve_numbered (hset ▸ hs) hid hcarve
  have hleft : Entry.total entries + (w.consume (Entry.total entries)).left = w.left := by
    simp only [Window.left, Window.consume] at hbytes ⊢
    omega
  have hwide := hin.len
  have hreleased : Ranged counting st (.released k (p.past entries), (s.handed p start entries).release) :=
    Path.ranged (A := fun _ => True) (H := fun _ _ => True) hs hfit hbus hcount h
      ((Path.handed Platform.within_true hcarve).tail .release)
  have hahead : pinAhead counting (s.handed p start entries).release p.request
      (p.sent + Entry.total entries + (w.consume (Entry.total entries)).left) =
        some ((s.handed p start entries).release.pinAhead p.request
          (p.sent + Entry.total entries + (w.consume (Entry.total entries)).left)) :=
    pinAhead_eq (p := p.past entries) hs hfit hreleased fun _ =>
      show p.request.host + _ < addressLimit by omega
  have hstands : ((s.worker.pipeline.consume (Entry.total entries)).active.map Window.left).getD 0 =
      (w.consume (Entry.total entries)).left := by
    rw [Pipeline.consume, show s.worker.pipeline.active = some w from hactive]
    rfl
  rw [Station.hand]
  simp only [hand, total_eq (Nat.lt_of_le_of_lt hbytes hplaced.left_lt),
    consumeActive_eq (show s.worker.pipeline.active = some w from hactive) hplaced hbytes,
    lastIdOf_eq hne hslots, add_eq (show p.sent + Entry.total entries < addressLimit by omega),
    add_eq (show p.sent + Entry.total entries + (w.consume (Entry.total entries)).left < addressLimit by
      omega), Option.bind_eq_bind, Option.bind_some, hstands]
  exact hahead

omit [Platform σ] in
theorem start_eq (ring : Ring) (dir : Direction) : Checked.start ring dir = some (ring.start? dir) := by
  unfold Checked.start Ring.start?
  dsimp only
  split
  · rfl
  · split
    · next hlt =>
      have hwidth : lastSlot < 2 ^ 32 := by decide
      rw [addId_eq (by omega)]
      rfl
    · rfl

theorem nextBatch_eq (hs : st.Valid) (hfit : st.fullWindow < addressLimit)
    (hbus : Platform.Answers σ OnBus) (hcount : counting = true → Platform.Answers σ AtMost)
    (h : Ranged counting st (.due k p, s)) (hin : p.request.InRange) (hr : p.remaining ≠ 0) :
    nextBatch counting s p = some (s.nextBatch p) := by
  have hdevice := hin.device
  rw [Progress.remaining] at hr
  unfold nextBatch Station.nextBatch
  rw [start_eq]
  simp only [Option.bind_eq_bind, Option.bind_some]
  cases hstart : s.worker.ring.start? p.request.direction with
  | error e => rfl
  | ok start =>
    have hpath := Path.windowFor (A := fun _ => True) (H := fun _ _ => True) (k := k)
      Platform.within_true hr hstart
    simp only [windowFor_eq hs hfit hbus hcount h hin hr hstart, Option.bind_some]
    rcases hf : s.windowFor p with ⟨_ | w, s'⟩
    · rfl
    · rw [hf] at hpath
      have hsupplied := Path.ranged hs hfit hbus hcount h hpath
      have hset : s'.settings = st := hsupplied.settings
      have hid := Ring.start?_le hstart
      have hplaced : Placed w := .of_windows hs hfit hsupplied.windows
      obtain ⟨hcarries, hactive, -⟩ := hsupplied.windows
      obtain ⟨v, hv, -, hinside, -⟩ := hcarries.ends
      obtain rfl : w = v := Option.some.inj (hactive.symm.trans hv)
      simp only [add_eq (show p.request.device + p.sent < addressLimit by omega), Option.bind_some,
        hplaced.carve_eq (hset ▸ hs) hid (show p.request.device + p.sent + w.left ≤ addressLimit by omega)]
      cases hcarve : w.carve s'.settings p.request.direction (p.request.device + p.sent) start with
      | error e => rfl
      | ok entries =>
        simp only [hand_eq hs hfit hbus hcount hsupplied hin hcarve, Option.map_some]

theorem advance_eq (hs : st.Valid) (hfit : st.fullWindow < addressLimit)
    (hbus : Platform.Answers σ OnBus) (hcount : counting = true → Platform.Answers σ AtMost)
    (h : Ranged counting st (.due k p, s)) (hin : p.request.InRange) :
    advance counting s = some s.advance := by
  have htransfer : s.worker.transfer = some p := (View.Poised.toEngaged h.control).transfer
  have hsent : p.sent ≤ p.request.len := by
    rcases h.windows with hcarries | ⟨-, -, hzero⟩
    · obtain ⟨w, -, -, hinside, -⟩ := hcarries.ends
      omega
    · omega
  unfold advance Station.advance
  simp only [htransfer, sub_eq hsent, Option.bind_eq_bind, Option.bind_some]
  by_cases hr : p.remaining = 0
  · rw [if_pos hr]
    exact if_pos hr
  · rw [if_neg hr, nextBatch_eq hs hfit hbus hcount h hin hr]
    refine (if_neg hr).trans ?_
    rcases s.nextBatch p with ⟨_ | cause, s'⟩ <;> rfl

theorem handle_eq {job : Job} (hs : st.Valid) (hfit : st.fullWindow < addressLimit)
    (hbus : Platform.Answers σ OnBus) (hcount : counting = true → Platform.Answers σ AtMost)
    (h : Ranged counting st (.ready, s)) (hj : s.takeWork.1 = some job)
    (hin : ∀ r ∈ accepted (s.takeWork.2.handle job).machine.history, r.InRange) :
    handle counting s.takeWork.2 job = some (s.takeWork.2.handle job) := by
  obtain ⟨p, hp, hpoised⟩ := h.control.due hj
  have hdue : Ranged counting st (.due job.errand p, s.due job) :=
    Path.ranged hs hfit hbus hcount h (Path.due hj hp)
  have hpath : Path (fun _ => True) (fun _ _ => True) (.due job.errand p, s.due job)
      (.closing job.errand, (s.due job).advance) :=
    Path.advance Platform.within_true (fun _ _ _ _ => trivial) (View.Poised.toEngaged hpoised).transfer
  have hhandled : (s.takeWork.2.handle job).machine.history = (s.due job).advance.machine.history := by
    cases job <;> rfl
  have hrequest : p.request.InRange := by
    apply hin
    rw [hhandled]
    exact accepted_of_suffix (Path.grows hpath) _ (Account.accepted hpoised.request)
  have hadvance := advance_eq hs hfit hbus hcount hdue hrequest
  cases job with
  | start r => exact hadvance
  | advance => exact congrArg (Option.map (·.mapChannel Channel.closeAdvance)) hadvance

end Checked

end Steps

end ScatterGather
