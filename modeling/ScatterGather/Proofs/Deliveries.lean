import ScatterGather.Proofs.Lockers

/-! # Every request is delivered

Wherever earlier transfers have left the rings, a request that is accepted is carried out byte for
byte, as long as the platform locks the windows that the worker cannot do without.
-/
namespace ScatterGather
open Bench

/-- A request that was accepted is driven to its end: in as many rounds as it has words at most, all
its bytes are moved and no others change, the end is heard once, and the device never finds nothing to
do before. -/
theorem drive_delivers (settings : Settings) (hs : settings.Valid) (hsmall : settings.pageSize ≤ 2 ^ 19)
    (tableBus : Sides Nat) (b : Setup PageTally MemoryDevice) (hb : b.Reached settings tableBus)
    (r : Request) (haccepted : (b.station.machine.channel.submit r).1 = none)
    (hhost : r.host + r.len < addressLimit) (hreaches : b.device.Reaches r)
    (hmemory : b.device.memory.size ≤ addressLimit) (hsupplied : (b.submit r).Supplied r) :
    (∀ rounds, r.len ≤ rounds * wordBytes →
      ∃ log c, (b.submit r).drive? rounds = some (log, c) ∧ b.Delivered r c) ∧
    ∀ c, (b.submit r).Visits c → c.serve.2.station.machine.channel.idle = false →
      ∃ entries d, c.serve.2.batch? c.serve.2.station.machine.channel.direction = some (entries, d) ∧
        entries ≠ [] := by
  have hstill : Platform.Still PageTally := PageTally.within _
  have hready := hb.ready hs hsmall hstill PageTally.in_order haccepted hreaches
  have hfits : r.Fits := Nat.le_trans hreaches.inside hmemory
  constructor
  · intro rounds hrounds
    have hleft : ({ request := r } : Progress).remaining ≤ rounds * wordBytes := hrounds
    obtain ⟨log, c, hdrive, hdone⟩ :=
      hready.rounds hs hsmall hstill PageTally.in_order hhost hfits hsupplied hleft
    refine ⟨{ log with handled := (b.submit r).serve.1 :: log.handled }, c, ?_, hdone⟩
    rw [Setup.drive?, hdrive]
    rfl
  · intro c hv hbusy
    exact hready.batches hs hsmall hstill PageTally.in_order hhost hfits hsupplied hv hbusy

/-- A transfer that crosses a page takes two batches. -/
theorem drive_delivers_crossing :
    let r : Request := { direction := .hostToDevice, host := 0x100ffc, device := 8, len := 8 }
    let b : Setup PageTally MemoryDevice :=
      ⟨Station.initial {} (.both 0) .reset {} [],
        { memory := Array.replicate 16 0, host := HostMemory.add {} 0xffc 8 bufferPattern }⟩
    ∃ log c, (b.submit r).drive? 2 = some (log, c) ∧ b.Delivered r c := by
  intro r b
  have hapart : b.device.host.Apart := (HostMemory.ordered_empty.add _ _ _).apart
  have hspans : b.device.host.Spans r.host r.len := HostMemory.spans_add {} 0xffc 8 bufferPattern
  have hinside : r.device + r.len ≤ b.device.memory.size := by simp [r, b]
  have haccepted : (b.station.machine.channel.submit r).1 = none := by decide
  have hmemory : b.device.memory.size ≤ addressLimit := by simp [b, addressLimit]
  exact (drive_delivers {} (by decide) (by decide) (.both 0) b (.fresh _ _ _) r haccepted (by decide)
    ⟨hapart, hspans, hinside⟩ hmemory (.of_lavish ⟨rfl, rfl⟩ r)).1 2 (by decide)

end ScatterGather
