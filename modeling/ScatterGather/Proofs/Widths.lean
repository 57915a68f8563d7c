import ScatterGather.Proofs.Demands

/-! # Arithmetic of a batch

Sums, differences and products that have no value if they do not fit into their width, and the
functions that plan and describe a batch, computed with them. On a window of a request they all
have the value of the functions that compute with numbers of any size.
-/
namespace ScatterGather.Checked

def add (a b : Nat) : Option Nat := if a + b < addressLimit then some (a + b) else none

def sub (a b : Nat) : Option Nat := if b ≤ a then some (a - b) else none

def mul (a b : Nat) : Option Nat := if a * b < addressLimit then some (a * b) else none

/-- The power of two, whose exponent must be less than the width. -/
def pow (log : Nat) : Option Nat := if log < 64 then some (1 <<< log) else none

/-- The sum of ids, which have 32 bits. -/
def addId (a b : Nat) : Option Nat := if a + b < 2 ^ 32 then some (a + b) else none

section Arithmetic
variable {a b : Nat}

@[simp] theorem add_eq (h : a + b < addressLimit) : add a b = some (a + b) := if_pos h

@[simp] theorem sub_eq (h : b ≤ a) : sub a b = some (a - b) := if_pos h

@[simp] theorem mul_eq (h : a * b < addressLimit) : mul a b = some (a * b) := if_pos h

@[simp] theorem pow_eq (h : a < 64) : pow a = some (1 <<< a) := if_pos h

@[simp] theorem addId_eq (h : a + b < 2 ^ 32) : addId a b = some (a + b) := if_pos h

end Arithmetic

/-! ## Plans -/

def capacity (start : BatchPlace) : Option Nat := sub slotCount start.id

theorem capacity_eq {start : BatchPlace} (h : start.id ≤ lastSlot) :
    capacity start = some start.capacity :=
  sub_eq (Nat.le_trans h (by decide))

def cut (once : Bool) : (steps left free : Nat) → Option (Except BatchFault (List Nat))
  | 0, _, _ => some (.ok [])
  | steps + 1, left, free =>
    if free = 0 then some (.ok [])
    else do
      let size ← pow (steps + minChunkLog)
      let count := left / size
      if once && 1 < count then some (.error .chunkOverflow)
      else
        let take := min count free
        let taken ← mul take size
        let rest ← cut once steps (← sub left taken) (← sub free take)
        some (rest.map (List.replicate take size ++ ·))

/-- What is taken off the rest is never more than the rest. -/
theorem cut_eq {once : Bool} {steps left free : Nat} (hsteps : steps + minChunkLog ≤ 64)
    (hleft : left < addressLimit) :
    cut once steps left free = some (cutChunks once steps left free) := by
  induction steps generalizing left free with
  | zero => rfl
  | succ steps ih =>
    have htake : min (left / 1 <<< (steps + minChunkLog)) free * 1 <<< (steps + minChunkLog) ≤ left :=
      Nat.le_trans (Nat.mul_le_mul_right _ (Nat.min_le_left _ _)) (Nat.div_mul_le_self _ _)
    have hrest (taken free : Nat) : cut once steps (left - taken) free =
        some (cutChunks once steps (left - taken) free) :=
      ih (by omega) (Nat.lt_of_le_of_lt (Nat.sub_le left taken) hleft)
    rw [cut, cutChunks]
    split
    · rfl
    · rw [pow_eq (by omega)]
      simp only [Option.bind_eq_bind, Option.bind_some]
      split
      · rfl
      · rw [mul_eq (Nat.lt_of_le_of_lt htake hleft), Option.bind_some, sub_eq htake, Option.bind_some,
          sub_eq (Nat.min_le_right _ _), Option.bind_some, hrest, Option.bind_some]
        cases cutChunks once steps _ _ <;> rfl

def plan (bytes capacity pageSize maxLog : Nat) : Option (Except BatchFault (List Nat)) :=
  if pageSize ≤ bytes then some (.error .sliceTooLarge)
  else do
    let once := decide (pageSize ≤ 4096) && decide (11 ≤ maxLog)
    match ← cut once (maxLog + 1 - minChunkLog) bytes capacity with
    | .ok [] => some (.error .noChunkSize)
    | result => some result

theorem plan_eq {bytes capacity pageSize maxLog : Nat} (hlog : maxLog < 64)
    (hbytes : bytes < addressLimit) :
    plan bytes capacity pageSize maxLog = some (chunkPlan bytes capacity pageSize maxLog) := by
  have hsteps : maxLog + 1 - minChunkLog + minChunkLog ≤ 64 := by
    have hmin : minChunkLog = 2 := rfl
    omega
  unfold plan chunkPlan
  split
  · rfl
  · dsimp only
    rw [cut_eq hsteps hbytes]
    rcases cutChunks _ _ _ _ with e | (_ | _) <;> rfl

/-! ## Windows -/

def left (w : Window) : Option Nat := sub w.region.len w.cursor

theorem left_eq {w : Window} (h : w.cursor ≤ w.region.len) : left w = some w.left := sub_eq h

def position (w : Window) : Option Nat := add w.region.start w.cursor

def offsetInPage (w : Window) (pageSize : Nat) : Option Nat := (position w).map (· % pageSize)

def regionBusAt? (r : Region) (offset : Nat) : Option (Option Nat) :=
  if r.valid ∧ offset < r.len then do
    let place ← add r.headOffset offset
    match r.pages[place / r.pageSize]? with
    | none => some none
    | some page => (add page.bus (place % r.pageSize)).map some
  else some none

def busAt? (w : Window) (offset : Nat) : Option (Option Nat) := do
  regionBusAt? w.region (← add w.cursor offset)

def consume (w : Window) (bytes : Nat) : Option Window := do
  let cursor ← add w.cursor bytes
  some { w with cursor := min cursor w.region.len }

/-- The window lies in the address space, and its pages on the bus. -/
structure Placed (w : Window) : Prop where
  cursor : w.cursor ≤ w.region.len
  below : w.region.start + w.region.len < addressLimit
  pageSize : 0 < w.region.pageSize
  bus : ∀ page ∈ w.region.pages, page.bus + w.region.pageSize ≤ addressLimit

namespace Placed
variable {w : Window} {offset bytes : Nat} {dir : Direction} {device : Nat}

theorem left_lt (h : Placed w) : w.left < addressLimit := by
  have := h.below
  rw [Window.left]
  omega

theorem offsetInPage_eq (h : Placed w) (pageSize : Nat) :
    offsetInPage w pageSize = some (w.offsetInPage pageSize) := by
  have := h.below
  have := h.cursor
  rw [offsetInPage, position, add_eq (by omega)]
  rfl

theorem busAt?_eq (h : Placed w) (hlt : offset < w.left) :
    busAt? w offset = some (w.busAt? offset) := by
  have hbelow := h.below
  rw [Window.left] at hlt
  have hhead : w.region.headOffset ≤ w.region.start := Nat.mod_le _ _
  rw [busAt?, add_eq (by omega), Window.busAt?, Region.busAt?]
  simp only [Option.bind_eq_bind, Option.bind_some, regionBusAt?]
  split
  · rw [add_eq (by omega), Option.bind_some]
    cases hpage : w.region.pages[(w.region.headOffset + (w.cursor + offset)) / w.region.pageSize]? with
    | none => rfl
    | some page =>
      have hmod := Nat.mod_lt (w.region.headOffset + (w.cursor + offset)) h.pageSize
      have hbus := h.bus page (List.mem_of_getElem? hpage)
      simp only [add_eq (show page.bus + (w.region.headOffset + (w.cursor + offset)) % w.region.pageSize <
        addressLimit by omega), Option.map_some]
  · rfl

theorem consume_eq (h : Placed w) (hb : bytes ≤ w.left) : consume w bytes = some (w.consume bytes) := by
  have hbelow := h.below
  have hcursor := h.cursor
  rw [Window.left] at hb
  rw [consume, add_eq (by omega)]
  rfl

theorem consumed (h : Placed w) (bytes : Nat) : Placed (w.consume bytes) where
  cursor := Nat.min_le_right _ _
  below := h.below
  pageSize := h.pageSize
  bus := h.bus

end Placed

/-! ## Descriptors -/

/-- An id is drawn for each chunk, and one more before it is seen that there is none. -/
def describe (w : Window) (dir : Direction) (device : Nat) :
    List Nat → (id offset : Nat) → Option (Except MemoryFault (List Entry))
  | [], id, _ => (addId id 1).map fun _ => .ok []
  | len :: rest, id, offset => do
    let following ← addId id 1
    match ← busAt? w offset with
    | none => some (.error .invalidRange)
    | some bus =>
      let target ← add device offset
      let later ← describe w dir device rest following (← add offset len)
      some (later.map (.moving dir bus target len id :: ·))

def describePages (w : Window) (dir : Direction) (device pageSize : Nat) :
    (count page id : Nat) → Option (Except MemoryFault (List Entry))
  | 0, _, id => (addId id 1).map fun _ => .ok []
  | count + 1, page, id => do
    let following ← addId id 1
    let offset ← mul page pageSize
    match ← busAt? w offset with
    | none => some (.error .invalidRange)
    | some bus =>
      let target ← add device offset
      let later ← describePages w dir device pageSize count (page + 1) following
      some (later.map (.moving dir bus target pageSize id :: ·))

def carveChunks (w : Window) (s : Settings) (dir : Direction) (device : Nat) (start : BatchPlace) :
    Option (Except Failure (List Entry)) := do
  let inPage ← sub s.pageSize (← offsetInPage w s.pageSize)
  let slice := min inPage (← left w)
  match ← plan slice (← capacity start) s.pageSize s.chunkLog with
  | .error e => some (.error (.batch e))
  | .ok lens => (describe w dir device lens start.id 0).map (Except.mapError .memory)

def carvePages (w : Window) (s : Settings) (dir : Direction) (device : Nat) (start : BatchPlace) :
    Option (Except Failure (List Entry)) := do
  let count := min ((← left w) / s.pageSize) (← capacity start)
  (describePages w dir device s.pageSize count 0 start.id).map (Except.mapError .memory)

def carve (w : Window) (s : Settings) (dir : Direction) (device : Nat) (start : BatchPlace) :
    Option (Except Failure (List Entry)) := do
  let inPage ← offsetInPage w s.pageSize
  if inPage ≠ 0 ∨ (← left w) < s.pageSize then carveChunks w s dir device start
  else carvePages w s dir device start

namespace Placed
variable {w : Window} {s : Settings} {offset id : Nat} {dir : Direction} {device : Nat} {lens : List Nat}
  {start : BatchPlace}

theorem describe_eq (h : Placed w) (hlens : ∀ n ∈ lens, 0 < n) (hsum : offset + lens.sum ≤ w.left)
    (hid : id + lens.length + 1 < 2 ^ 32) (hdevice : device + w.left ≤ addressLimit) :
    describe w dir device lens id offset = some (w.describe dir device lens id offset) := by
  have hleft := h.left_lt
  induction lens generalizing id offset with
  | nil =>
    rw [List.length_nil] at hid
    rw [describe, addId_eq (by omega)]
    rfl
  | cons len lens ih =>
    have hlen := hlens len List.mem_cons_self
    rw [List.sum_cons] at hsum
    rw [List.length_cons] at hid
    have hlater : describe w dir device lens (id + 1) (offset + len) =
        some (w.describe dir device lens (id + 1) (offset + len)) :=
      ih (fun n hn => hlens n (List.mem_cons_of_mem _ hn)) (by omega) (by omega)
    rw [describe, addId_eq (by omega), h.busAt?_eq (by omega), Window.describe]
    simp only [Option.bind_eq_bind, Option.bind_some]
    cases w.busAt? offset with
    | none => rfl
    | some bus =>
      simp only [add_eq (show device + offset < addressLimit by omega),
        add_eq (show offset + len < addressLimit by omega), Option.bind_some, hlater]
      cases w.describe dir device lens (id + 1) (offset + len) <;> rfl

/-- Page by page is piece by piece, with pieces of a page each. -/
theorem describePages_eq (h : Placed w) (hs : 0 < s.pageSize) {count page : Nat}
    (hsum : (page + count) * s.pageSize ≤ w.left) (hid : id + count + 1 < 2 ^ 32)
    (hdevice : device + w.left ≤ addressLimit) :
    describePages w dir device s.pageSize count page id =
      some (w.describe dir device (List.replicate count s.pageSize) id (page * s.pageSize)) := by
  have hleft := h.left_lt
  induction count generalizing page id with
  | zero =>
    rw [describePages, addId_eq (by omega)]
    rfl
  | succ count ih =>
    have hoffset : page * s.pageSize + s.pageSize ≤ w.left := by
      rw [← Nat.succ_mul]
      exact Nat.le_trans (Nat.mul_le_mul_right _ (by omega)) hsum
    have hlater : describePages w dir device s.pageSize count (page + 1) (id + 1) =
        some (w.describe dir device (List.replicate count s.pageSize) (id + 1) ((page + 1) * s.pageSize)) :=
      ih (by rwa [Nat.add_assoc, Nat.add_comm 1]) (by omega)
    rw [Nat.succ_mul] at hlater
    rw [describePages, addId_eq (by omega), mul_eq (by omega), List.replicate_succ, Window.describe]
    simp only [Option.bind_eq_bind, Option.bind_some, h.busAt?_eq (show page * s.pageSize < w.left by omega)]
    cases w.busAt? (page * s.pageSize) with
    | none => rfl
    | some bus =>
      simp only [add_eq (show device + page * s.pageSize < addressLimit by omega), Option.bind_some, hlater]
      cases w.describe dir device _ (id + 1) (page * s.pageSize + s.pageSize) <;> rfl

theorem carveChunks_eq (h : Placed w) (hs : s.Valid) (hid : start.id ≤ lastSlot)
    (hdevice : device + w.left ≤ addressLimit) (hpartial : w.offsetInPage s.pageSize ≠ 0 ∨ w.left < s.pageSize) :
    carveChunks w s dir device start = some (w.carve s dir device start) := by
  have hleft := h.left_lt
  have hpieces : w.pieces s start.capacity = chunkPlan
      (min (s.pageSize - w.offsetInPage s.pageSize) w.left) start.capacity s.pageSize s.chunkLog :=
    if_pos hpartial
  have hcount : lastSlot + 2 < 2 ^ 32 := by decide
  rw [carveChunks, h.offsetInPage_eq, left_eq h.cursor, capacity_eq hid, Window.carve, hpieces]
  simp only [Option.bind_eq_bind, Option.bind_some,
    sub_eq (Nat.le_of_lt (Nat.mod_lt w.position hs.pageSize_pos) : w.offsetInPage s.pageSize ≤ s.pageSize),
    plan_eq hs.chunkLog_lt (show min (s.pageSize - w.offsetInPage s.pageSize) w.left < addressLimit by omega)]
  cases hlens : chunkPlan (min (s.pageSize - w.offsetInPage s.pageSize) w.left) start.capacity
    s.pageSize s.chunkLog with
  | error e => rfl
  | ok lens =>
    obtain ⟨-, hlength, hsum, hbounds⟩ :=
      Window.pieces_bounds hs (BatchPlace.capacity_ne_zero hid) (hpieces.trans hlens)
    rw [BatchPlace.capacity, show slotCount = lastSlot + 1 from rfl] at hlength
    simp only [h.describe_eq (fun n hn => (hbounds n hn).2.1) (show 0 + lens.sum ≤ w.left by omega)
      (show start.id + lens.length + 1 < 2 ^ 32 by omega) hdevice, Option.map_some]
    cases w.describe dir device lens start.id 0 <;> rfl

theorem carvePages_eq (h : Placed w) (hs : s.Valid) (hid : start.id ≤ lastSlot)
    (hdevice : device + w.left ≤ addressLimit)
    (hwhole : ¬ (w.offsetInPage s.pageSize ≠ 0 ∨ w.left < s.pageSize)) :
    carvePages w s dir device start = some (w.carve s dir device start) := by
  have hpieces : w.pieces s start.capacity =
      .ok (List.replicate (min (w.left / s.pageSize) start.capacity) s.pageSize) := if_neg hwhole
  obtain ⟨-, hlength, hsum, -⟩ := Window.pieces_bounds hs (BatchPlace.capacity_ne_zero hid) hpieces
  have hcount : lastSlot + 2 < 2 ^ 32 := by decide
  have hcap : start.capacity = lastSlot + 1 - start.id := rfl
  rw [List.sum_replicate_nat] at hsum
  rw [List.length_replicate] at hlength
  have hpages : describePages w dir device s.pageSize (min (w.left / s.pageSize) start.capacity) 0
      start.id = some (w.describe dir device
        (List.replicate (min (w.left / s.pageSize) start.capacity) s.pageSize) start.id (0 * s.pageSize)) :=
    h.describePages_eq hs.pageSize_pos (by rwa [Nat.zero_add]) (by omega) hdevice
  rw [Nat.zero_mul] at hpages
  rw [carvePages, left_eq h.cursor, capacity_eq hid, Window.carve, hpieces]
  simp only [Option.bind_eq_bind, Option.bind_some, hpages, Option.map_some]
  cases w.describe dir device _ start.id 0 <;> rfl

/-- Every number that comes up in a batch of a placed window fits into its width. -/
theorem carve_eq (h : Placed w) (hs : s.Valid) (hid : start.id ≤ lastSlot)
    (hdevice : device + w.left ≤ addressLimit) :
    carve w s dir device start = some (w.carve s dir device start) := by
  rw [carve, h.offsetInPage_eq, left_eq h.cursor]
  simp only [Option.bind_eq_bind, Option.bind_some]
  split
  · next hpartial => exact h.carveChunks_eq hs hid hdevice hpartial
  · next hwhole => exact h.carvePages_eq hs hid hdevice hwhole

end Placed

end ScatterGather.Checked
