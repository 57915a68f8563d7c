import ScatterGather.Bench.Device
import ScatterGather.Proofs.Bytes
import ScatterGather.Proofs.Cuts
import ScatterGather.Proofs.Tables
import ScatterGather.Ring

/-! # What the simulated device does

The device finds the batch that was offered last, or nothing, and it moves the bytes that the
descriptors of the batch say.
-/
namespace ScatterGather

theorem Request.move_id (r : Request) (pageSize x len : Nat) : r.move id pageSize x len =
    match r.direction with
    | .hostToDevice => ⟨r.host + x, r.device + x, len / wordBytes⟩
    | .deviceToHost => ⟨r.device + x, r.host + x, len / wordBytes⟩ := by
  have hplace : id (r.host + x - (r.host + x) % pageSize) + (r.host + x) % pageSize = r.host + x :=
    Nat.sub_add_cancel (Nat.mod_le _ _)
  cases hdir : r.direction <;> simp only [move, hdir, hplace]

namespace Bench

namespace MemoryDevice
variable {d d' d'' : MemoryDevice} {r : Request} {dir : Direction} {host device x n : Nat}

/-- From `d` to `d'` the device has moved `n` bytes, and nothing else has changed. -/
def Copied (dir : Direction) (host device n : Nat) (d d' : MemoryDevice) : Prop :=
  match dir with
  | .hostToDevice => d'.host = d.host ∧
    d'.memory.byte? = overlaid d.memory.byte? d.host.byte? device host n
  | .deviceToHost => d'.memory = d.memory ∧
    d'.host.byte? = overlaid d.host.byte? d.memory.byte? host device n

theorem Copied.refl (dir : Direction) (host device : Nat) (d : MemoryDevice) :
    Copied dir host device 0 d d := by
  cases dir
  · exact ⟨rfl, (overlaid_zero ..).symm⟩
  · exact ⟨rfl, (overlaid_zero ..).symm⟩

theorem Copied.trans (h : Copied dir host device x d d')
    (h' : Copied dir (host + x) (device + x) n d' d'') : Copied dir host device (x + n) d d'' := by
  cases dir
  all_goals
    obtain ⟨hfixed, hbytes⟩ := h
    obtain ⟨hfixed', hbytes'⟩ := h'
    refine ⟨hfixed'.trans hfixed, ?_⟩
    rw [hbytes', hbytes, hfixed, overlaid_add]

structure Reaches (d : MemoryDevice) (r : Request) : Prop where
  apart : d.host.Apart
  spans : d.host.Spans r.host r.len
  inside : r.device + r.len ≤ d.memory.size

theorem execute?_reader {e : Entry} (h : d.execute? dir e = some d') : d'.reader = d.reader := by
  cases dir with
  | deviceToHost =>
    simp only [execute?, Option.bind_eq_bind, Option.bind_eq_some_iff] at h
    obtain ⟨bytes, -, host, -, h⟩ := h
    cases h
    rfl
  | hostToDevice =>
    simp only [execute?, Option.bind_eq_bind, Option.bind_eq_some_iff] at h
    obtain ⟨bytes, -, memory, -, h⟩ := h
    cases h
    rfl

/-- What the device reached it still reaches after a descriptor was executed. -/
theorem execute?_reaches {e : Entry} (h : d.execute? dir e = some d') (hr : d.Reaches r) :
    d'.Reaches r := by
  cases dir with
  | deviceToHost =>
    simp only [execute?, Option.bind_eq_bind, Option.bind_eq_some_iff] at h
    obtain ⟨bytes, -, host, hhost, h⟩ := h
    cases h
    obtain ⟨hto, hfrom⟩ := HostMemory.store?_alike hhost
    exact ⟨hr.apart.alike hto, hr.spans.alike hfrom, hr.inside⟩
  | hostToDevice =>
    simp only [execute?, Option.bind_eq_bind, Option.bind_eq_some_iff] at h
    obtain ⟨bytes, -, memory, hmemory, h⟩ := h
    cases h
    refine ⟨hr.apart, hr.spans, ?_⟩
    unfold Bytes.store? at hmemory
    split at hmemory
    · cases hmemory
      rw [Bytes.size_store]
      exact hr.inside
    · cases hmemory

theorem executeAll?_reader {table : Table} {ids : List Nat} {entries : List Entry}
    (h : executeAll? table dir ids d = some (entries, d')) : d'.reader = d.reader := by
  induction ids generalizing d entries with
  | nil =>
    cases h
    rfl
  | cons id ids ih =>
    rw [executeAll?] at h
    dsimp only at h
    split at h
    · cases h
    · simp only [Option.bind_eq_bind, Option.bind_eq_some_iff] at h
      obtain ⟨d₁, hone, ⟨rest, d₂⟩, hrest, h⟩ := h
      cases h
      exact (ih hrest).trans (execute?_reader hone)

theorem execute?_ok (h : d.Reaches r) {e : Entry} {pageSize : Nat}
    (hmove : e.toMove = r.move id pageSize x e.size) (hx : x + e.size ≤ r.len) :
    ∃ d', d.execute? r.direction e = some d' ∧
      Copied r.direction (r.host + x) (r.device + x) e.size d d' ∧ d'.Reaches r := by
  have hspans := h.spans.part hx
  have hinside := h.inside
  rw [Request.move_id, Entry.toMove] at hmove
  cases hdir : r.direction with
  | hostToDevice =>
    simp only [hdir, Move.mk.injEq] at hmove
    obtain ⟨hsrc, hdst, -⟩ := hmove
    obtain ⟨xs, hxs, hlen, hbytes⟩ := HostMemory.load?_ok h.apart hspans
    have hfit : r.device + x + xs.length ≤ d.memory.size := by omega
    refine ⟨{ d with memory := d.memory.store (r.device + x) xs }, ?_, ⟨rfl, ?_⟩, ?_⟩
    · simp [execute?, hsrc, hdst, hxs, Bytes.store?, hfit]
    · rw [Bytes.byte?_store hfit, hlen]
      apply overlaid_congr
      intro i hi
      rw [Nat.zero_add, hbytes i hi]
    · refine ⟨h.apart, h.spans, ?_⟩
      rw [Bytes.size_store]
      exact hinside
  | deviceToHost =>
    simp only [hdir, Move.mk.injEq] at hmove
    obtain ⟨hsrc, hdst, -⟩ := hmove
    obtain ⟨xs, hxs, hlen, hbytes⟩ := Bytes.slice?_ok
      (show r.device + x + e.size ≤ d.memory.size by omega)
    rw [← hlen] at hspans
    obtain ⟨m', hm', hstored, hto, hfrom⟩ := HostMemory.store?_ok h.apart hspans
    refine ⟨{ d with host := m' }, ?_, ⟨rfl, ?_⟩, ⟨h.apart.alike hto, h.spans.alike hfrom, hinside⟩⟩
    · simp [execute?, hsrc, hdst, hxs, hm']
    · rw [hstored, hlen]
      apply overlaid_congr
      intro i hi
      rw [Nat.zero_add, hbytes i hi]

theorem executeAll?_ok (h : d.Reaches r) {table : Table} {first pageSize : Nat}
    {entries : List Entry} (hn : Table.Numbered first entries)
    (hslots : ∀ i e, entries[i]? = some e → table.entry (first + i) = e)
    (hmoves : entries.map Entry.toMove = r.moves id pageSize x (entries.map Entry.size))
    (hx : x + Entry.total entries ≤ r.len) :
    ∃ d', executeAll? table r.direction (List.range' first entries.length) d = some (entries, d') ∧
      Copied r.direction (r.host + x) (r.device + x) (Entry.total entries) d d' ∧
      d'.Reaches r := by
  induction entries generalizing first x d with
  | nil => exact ⟨d, rfl, Copied.refl .., h⟩
  | cons e entries ih =>
    simp only [List.map_cons, Entry.total_cons, Request.moves, List.cons.injEq] at hmoves hx
    obtain ⟨hid, hlater⟩ := hn.of_cons
    have hslot : table.entry first = e := hslots 0 e rfl
    have hrests : ∀ i x, entries[i]? = some x → table.entry (first + 1 + i) = x := by
      intro i x hx
      rw [← hslots (i + 1) x hx, Nat.add_assoc, Nat.add_comm 1]
    obtain ⟨d₁, hone, hcopied, hreaches⟩ := execute?_ok h hmoves.1 (by omega)
    obtain ⟨d', hrest, hcopied', hreaches'⟩ := ih hreaches hlater hrests hmoves.2 (by omega)
    refine ⟨d', ?_, ?_, hreaches'⟩
    · simp [List.length_cons, List.range'_succ, executeAll?, hslot, hid, hone, hrest]
    · rw [Entry.total_cons]
      rw [← Nat.add_assoc, ← Nat.add_assoc] at hcopied'
      exact hcopied.trans hcopied'

end MemoryDevice

/-- The device has taken every descriptor that the registers offer. -/
structure RingPosition.Level (p : RingPosition) (registers : RegisterFile) (dir : Direction) :
    Prop where
  announces : p.announces = registers.writeCount (Register.address dir .tableSize)
  consumed : p.consumed = some (registers.lastId dir) ∧ registers.lastId dir ≤ lastSlot ∨
    p.consumed = none ∧ registers.lastId dir = noId

/-- The registers offer a batch that the device has not taken. -/
structure RingPosition.Offered (p : RingPosition) (registers : RegisterFile) (dir : Direction)
    (start : BatchPlace) (entries : List Entry) : Prop where
  first : p.first? (registers.writeCount (Register.address dir .tableSize)) (registers.lastId dir) =
    some start.id
  last : registers.lastId dir = Ring.lastIdOf start entries
  le : Ring.lastIdOf start entries ≤ lastSlot
  nonempty : entries ≠ []

namespace RingReader
variable {reader : RingReader} {registers : RegisterFile} {dir : Direction} {start : BatchPlace}
  {entries : List Entry}

theorem take?_level (h : (reader.positions.get dir).Level registers dir) :
    reader.take? registers dir = none := by
  unfold take?
  rcases h.consumed with ⟨hconsumed, hle⟩ | ⟨-, hnone⟩
  · simp [Nat.not_lt.mpr hle, RingPosition.first?, h.announces, hconsumed]
  · rw [hnone]
    rfl

def caughtUp (reader : RingReader) (registers : RegisterFile) (dir : Direction) : RingReader :=
  ⟨reader.positions.set dir
    { announces := registers.writeCount (Register.address dir .tableSize)
      consumed := some (registers.lastId dir) }⟩

theorem take?_offered (h : (reader.positions.get dir).Offered registers dir start entries) :
    reader.take? registers dir =
      some (List.range' start.id entries.length, reader.caughtUp registers dir) := by
  have hlen := List.length_pos_iff.mpr h.nonempty
  have hcount : registers.lastId dir + 1 - start.id = entries.length := by
    rw [h.last, Ring.lastIdOf]
    omega
  have hle : ¬ lastSlot < registers.lastId dir := Nat.not_lt.mpr (h.last ▸ h.le)
  simp only [take?, if_neg hle, h.first, Option.map_some, hcount]
  rfl

theorem caughtUp_level (h : (reader.positions.get dir).Offered registers dir start entries)
    (hothers : ∀ d, d ≠ dir → (reader.positions.get d).Level registers d) (d : Direction) :
    ((reader.caughtUp registers dir).positions.get d).Level registers d := by
  rw [caughtUp, Sides.get_set]
  split
  · next hd =>
    rw [hd]
    exact ⟨rfl, .inl ⟨rfl, h.last ▸ h.le⟩⟩
  · next hd => exact hothers d hd

end RingReader

/-- A batch that was placed behind the last id, or at the beginning of a ring announced anew, is
what the device finds. -/
theorem RingPosition.Level.offered {p : RingPosition} {registers registers' : RegisterFile}
    {dir : Direction} {ring : Ring} {start : BatchPlace} {entries : List Entry}
    (h : p.Level registers dir) (hring : ring.lastId.get dir = registers.lastId dir)
    (hstart : ring.start? dir = .ok start)
    (hcount : registers'.writeCount (Register.address dir .tableSize) =
      registers.writeCount (Register.address dir .tableSize) + if start.announce then 1 else 0)
    (hlast : registers'.lastId dir = Ring.lastIdOf start entries)
    (hle : Ring.lastIdOf start entries ≤ lastSlot) (hne : entries ≠ []) :
    p.Offered registers' dir start entries := by
  refine ⟨?_, hlast, hle, hne⟩
  have hlen := List.length_pos_iff.mpr hne
  unfold Ring.start? at hstart
  rw [hring] at hstart
  dsimp only at hstart
  rw [first?, hcount, h.announces]
  -- either the table is announced anew and read from its first slot, or the ids go on
  split at hstart
  · simp only [Except.ok.injEq] at hstart
    rw [← hstart]
    simp
  · next hfull =>
    split at hstart
    · simp only [Except.ok.injEq] at hstart
      rcases h.consumed with ⟨hconsumed, -⟩ | ⟨-, hnone⟩
      · have hlt : registers.lastId dir < registers'.lastId dir := by
          rw [hlast, ← hstart, Ring.lastIdOf]
          dsimp only
          omega
        rw [← hstart, hconsumed]
        simp [hlt]
      · exact absurd (.inl hnone) hfull
    · cases hstart

end Bench
end ScatterGather
