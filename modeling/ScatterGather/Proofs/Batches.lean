import ScatterGather.Proofs.Devices
import ScatterGather.Proofs.Rounds

/-! # The batch that is with the device

A batch that was handed over stands in the slots of its ids, and its descriptors are the moves of the
bytes that were described last.
-/
namespace ScatterGather
open Bench

namespace Window
variable {w : Window} {s : Settings} {dir : Direction} {device : Nat} {start : BatchPlace}
  {entries : List Entry}

theorem carve_written (hs : s.Valid) (hsmall : s.pageSize ≤ 2 ^ 19) (hid : start.id ≤ lastSlot)
    (h : w.carve s dir device start = .ok entries) :
    Table.Numbered start.id entries ∧ start.id + entries.length ≤ slotCount ∧
      ∀ e ∈ entries, wordBytes ≤ e.size ∧ e.length.toNat < 2 ^ 18 := by
  obtain ⟨-, -, -, hbounds⟩ := carve_pieces hs (Nat.lt_of_le_of_lt hsmall (by decide)) hid h
  obtain ⟨hnumbered, hfit⟩ := carve_numbered hs hid h
  refine ⟨hnumbered, hfit, ?_⟩
  intro e he
  obtain ⟨hdvd, hpos, hle⟩ := hbounds e.size (List.mem_map_of_mem he)
  refine ⟨Nat.le_of_dvd hpos hdvd, ?_⟩
  rw [Entry.size, wordBytes] at hle
  omega

end Window

section Batches
variable {σ : Type} {st : Settings} {s t : Station σ} {j : Juncture} {p : Progress}
  {start : BatchPlace} {entries : List Entry} {older : List (List Entry)}

/-- The device finds the descriptors where they belong. -/
structure Table.Written (t : Table) (first : Nat) (entries : List Entry) : Prop where
  numbered : Table.Numbered first entries
  slots : ∀ i e, entries[i]? = some e → t.entry (first + i) = e

theorem Station.Handed.written (h : s.Handed t p start entries) (hs : s.settings.Valid)
    (hsmall : s.settings.pageSize ≤ 2 ^ 19) :
    (t.machine.channel.table p.request.direction).Written start.id entries ∧
      wordBytes ≤ Entry.total entries := by
  obtain ⟨ring, hstart, -⟩ := h.place
  obtain ⟨w, hcarve⟩ := h.carved
  have hid := Ring.start?_le hstart
  obtain ⟨hnumbered, hfit, hentries⟩ := Window.carve_written hs hsmall hid hcarve
  refine ⟨⟨hnumbered, ?_⟩, ?_⟩
  · intro i e he
    have hlt : i < entries.length := (List.getElem?_eq_some_iff.mp he).1
    have hslot : slotCount = lastSlot + 1 := rfl
    have hnumber := hnumbered i e he
    rw [h.table, Table.staged, Table.entry_writeAll _ hnumbered hfit he]
    have hslotted : e.id.toNat < slotCount := by omega
    exact Entry.ofWords_words_eq_iff.mpr ⟨(hentries e (List.mem_of_getElem? he)).2, hslotted⟩
  · cases entries with
    | nil => exact absurd rfl (Window.carve_fits hs hid hcarve).1
    | cons e entries =>
      rw [Entry.total_cons]
      exact Nat.le_trans (hentries e List.mem_cons_self).1 (Nat.le_add_right _ _)

theorem Station.Sound.sent_le (h : s.Sound st .rest) (hp : s.worker.transfer = some p) :
    p.sent ≤ p.request.len := by
  have hwindows : ∀ p, s.worker.transfer = some p →
      s.worker.pipeline.Carries (InOrder id) p.request st p.sent := h.windows
  obtain ⟨w, b, -, hcovers, hcursor, hx, -⟩ := hwindows p hp
  have hlen := hcovers.len
  have hinside := hcovers.inside
  rw [Request.windowLen] at hlen
  omega

/-- The last batch moves the bytes that were described last. -/
theorem Station.Sound.last_moves (h : s.Sound st .rest) (hs : st.Valid)
    (hp : s.worker.transfer = some p) (hfits : p.request.Fits)
    (hbatches : s.view.account.batches = older ++ [entries]) :
    ∃ x, x + Entry.total entries = p.sent ∧
      entries.map Entry.toMove = p.request.moves id st.pageSize x (entries.map Entry.size) := by
  have hall : s.view.account.entries = older.flatten ++ entries := by
    simp [Account.entries, hbatches]
  have hmoves := Request.moves_of_prefix (r := p.request) (x := 0) ⟨_, h.coverage.moves p hp hfits⟩
    fun n hn => Request.dvd_of_mem_lengthsFrom hs hn
  rw [hall, List.map_append, List.map_append, Request.moves_append, Nat.zero_add,
    ← Entry.total_eq] at hmoves
  have hsent : p.sent = s.view.account.bytes := (Control.engaged h.control hp).sent
  refine ⟨Entry.total older.flatten, ?_, ?_⟩
  · rw [hsent, Account.bytes, hall, Entry.total_append]
  · refine (List.append_inj hmoves ?_).2
    rw [Request.length_moves, List.length_map, List.length_map]

end Batches
end ScatterGather
