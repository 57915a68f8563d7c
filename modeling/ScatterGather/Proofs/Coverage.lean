import ScatterGather.Proofs.Hosts
import ScatterGather.Proofs.Windows

/-! # The descriptors of a transfer are the moves of its request

Whatever the ring, the platform and the schedule cut a transfer into, its batches put together are a
beginning of one list that is read off the request alone, and the whole of it once the transfer is
reported as completed.
-/
namespace ScatterGather

/-- The pages of an answer follow each other from the first page of the range on, and each page lies
on the bus where `bus` says. -/
def InOrder (bus : Nat → Nat) (range : PageRun) (pages : List Page) : Prop :=
  ∃ count, pages = (List.range count).map fun i =>
    { host := range.base + i * range.pageSize, bus := bus (range.base + i * range.pageSize) }

def Request.Fits (r : Request) : Prop := r.device + r.len ≤ addressLimit

/-- At every instant the batches of the transfer are a beginning of the moves of its request, and
all of them when it is reported as completed. -/
def Faithful (s : Settings) (bus : Nat → Nat) : List Event → Prop := Throughout fun history =>
  (∀ r, (Account.ofHistory history).request = some r → r.Fits →
    (Account.ofHistory history).entries.map Entry.toMove <+: r.allMoves s bus) ∧
  ∀ payload bytes older, history = .notify payload (.completed bytes) :: older →
    ∃ r, (Account.ofHistory older).request = some r ∧ bytes = r.len ∧
      (r.Fits → (Account.ofHistory older).entries.map Entry.toMove = r.allMoves s bus)

theorem Faithful.append {s : Settings} {bus : Nat → Nat} {l history : List Event}
    (he : ∀ e ∈ l, e.Passive) (h : Faithful s bus history) :
    Faithful s bus (l ++ history) := by
  apply Throughout.append _ h
  intro e hmem older hrest
  constructor
  · rw [Account.ofHistory_cons, (he e hmem).neutral]
    exact hrest.now.1
  · intro payload bytes older' heq
    simp only [List.cons.injEq] at heq
    have hpassive := he e hmem
    rw [heq.1] at hpassive
    exact hpassive.elim

section Batches
variable {s : Settings} {bus : Nat → Nat} {r : Request} {w : Window} {g : Region} {b x : Nat}
  {start : BatchPlace} {entries : List Entry}

theorem Region.Covers.in_order (h : g.Covers (InOrder bus) r s b) :
    g.Ordered ∧ ∀ page ∈ g.pages, page.bus = bus page.host := by
  obtain ⟨count, hpages⟩ := h.pages
  have hbase : g.base = (r.windowRun s b).base := by
    rw [Region.base, h.start, h.pageSize]
    rfl
  have hsize : (r.windowRun s b).pageSize = g.pageSize := h.pageSize.symm
  constructor
  · intro i page hi
    rw [hpages, List.getElem?_map, Option.map_eq_some_iff] at hi
    obtain ⟨j, hj, rfl⟩ := hi
    obtain rfl : i = j := by
      have := (List.getElem?_eq_some_iff.mp hj).2
      simpa using this
    rw [hbase, hsize]
  · intro page hp
    rw [hpages] at hp
    obtain ⟨i, -, rfl⟩ := List.mem_map.mp hp
    rfl

/-- The descriptors of a batch are the next moves of the request. -/
theorem Window.carve_moves (hs : s.Valid) (hsmall : s.pageSize ≤ 2 ^ 19)
    (hbus : ∀ a, a + s.pageSize ≤ addressLimit → bus a + s.pageSize ≤ addressLimit)
    (hid : start.id ≤ lastSlot)
    (hcovers : w.region.Covers (InOrder bus) r s b) (hx : x = b + w.cursor) (hl : w.left ≠ 0)
    (hfits : r.Fits) (h : w.carve s r.direction (r.device + x) start = .ok entries) :
    entries.map Entry.toMove ++
        r.moves bus s.pageSize (x + Entry.total entries)
          (r.lengthsFrom s (x + Entry.total entries)) =
      r.moves bus s.pageSize x (r.lengthsFrom s x) := by
  obtain ⟨hlens, hentries, hsum, hbounds⟩ :=
    carve_pieces hs (Nat.lt_of_le_of_lt hsmall (by decide)) hid h
  rw [Entry.total_eq] at hsum
  have hstands := hcovers.stands hs hx hl
  obtain ⟨hordered, hplaced⟩ := hcovers.in_order
  have hpage : w.region.pageSize = s.pageSize := hcovers.pageSize
  have hend : x + (entries.map Entry.size).sum ≤ r.len := by
    have hwindow := Request.windowEnd_le_len (r := r) (s := s) (x := x)
    have hleft := hstands.left
    omega
  have hbelow : r.host + x + (entries.map Entry.size).sum ≤ addressLimit := by
    have hlimit := hcovers.below
    have hleft : w.left = w.region.len - w.cursor := rfl
    rw [← hcovers.len] at hlimit
    omega
  have hmoves := describe_moves (x := x) hordered hplaced (hpage ▸ hbus)
    (hpage ▸ hs.pageSize_pos)
    (hpage ▸ hs.pageSize_dvd_addressLimit (Nat.le_trans hsmall (by decide)))
    (by rw [Nat.add_zero, hstands.position]) (Nat.add_zero _)
    (by rw [Request.Fits] at hfits; omega) hbelow
    (fun n hn => ⟨(hbounds n hn).2.1, Nat.le_trans (hbounds n hn).2.2 hsmall⟩) hentries
  rw [Entry.total_eq, hmoves, hpage, pieces_lengths hs hstands hlens, Request.moves_append]

end Batches

/-- What was issued for the transfer in hand, and what is still to come. -/
structure Coverage {σ : Type} (st : Settings) (bus : Nat → Nat) (s : Station σ) : Prop where
  moves : ∀ p, s.worker.transfer = some p → p.request.Fits →
    s.view.account.entries.map Entry.toMove ++
      p.request.moves bus st.pageSize p.sent (p.request.lengthsFrom st p.sent) =
        p.request.allMoves st bus
  faithful : Faithful st bus s.machine.history

section Steps
variable {σ : Type} {st : Settings} {bus : Nat → Nat} {s s' : Station σ} {events : List Event}
  {j : Juncture} {k : Errand} {p : Progress}

theorem Coverage.append (h : Coverage st bus s) (hh : s'.machine.history = events ++ s.machine.history)
    (he : ∀ e ∈ events, e.Passive) (ht : s'.worker.transfer = s.worker.transfer) :
    Coverage st bus s' where
  moves p hp hfits := by
    rw [Station.view, hh, Account.ofHistory_passive he]
    exact h.moves p (ht ▸ hp) hfits
  faithful := hh ▸ h.faithful.append he

theorem Coverage.strike (h : Coverage st bus s) (hc : Control s.view j) (i : Incident) :
    Coverage st bus (s.strike i) := by
  obtain ⟨events, hh, hsilent | ⟨hidle, r, rfl⟩⟩ := s.machine.incur_history i
  · exact h.append hh (fun e he => (hsilent e he).passive) rfl
  · constructor
    · intro p hp _
      have hbusy := (hc.engaged hp).idle
      cases hidle.symm.trans hbusy
    · have hnil : (Account.ofHistory (.submit r none :: s.machine.history)).entries = [] := rfl
      rw [Station.strike, hh, List.singleton_append]
      refine Throughout.cons h.faithful ⟨?_, by simp⟩
      intro r' _ _
      rw [hnil]
      exact List.nil_prefix

variable [Platform σ]

theorem Coverage.tell {phase : Phase} {outcome : Outcome} (h : Coverage st bus s)
    (hcomplete : ∀ bytes, outcome = .completed bytes →
      ∃ r, s.view.account.request = some r ∧ bytes = r.len ∧
        (r.Fits → s.view.account.entries.map Entry.toMove = r.allMoves st bus)) :
    Coverage st bus (s.tell phase outcome) where
  moves _ hp := by cases hp
  faithful := by
    have hsees := s.worker.pipeline.unpinAll_sees s.machine
    have hpassive : ∀ e ∈ s.worker.pipeline.unlocks, e.Passive := passive_unlocks _
    have hunlocked := h.faithful.append hpassive
    have hsame : Account.ofHistory (s.worker.pipeline.unlocks ++ s.machine.history) =
        s.view.account := Account.ofHistory_passive hpassive
    have hhistory : (s.tell phase outcome).machine.history =
        .notify (s.reset phase).machine.channel.payloadForTransfer outcome ::
          (s.worker.pipeline.unlocks ++ s.machine.history) := by
      rw [← hsees.history]
      rfl
    rw [hhistory]
    refine Throughout.cons hunlocked ⟨hunlocked.now.1, ?_⟩
    intro payload bytes older heq
    simp only [List.cons.injEq, Event.notify.injEq] at heq
    rw [← heq.2, hsame]
    exact hcomplete bytes heq.1.2

theorem Coverage.issue {start : BatchPlace} {w : Window} {entries : List Entry} (hs : st.Valid)
    (hsmall : st.pageSize ≤ 2 ^ 19)
    (hbus : ∀ a, a + st.pageSize ≤ addressLimit → bus a + st.pageSize ≤ addressLimit)
    (hc : s.view.Poised k p) (hid : start.id ≤ lastSlot)
    (hw : Windows (InOrder bus) st s.worker (.supplied k p start w)) (h : Coverage st bus s)
    (hcarve : w.carve st p.request.direction (p.request.device + p.sent) start = .ok entries) :
    Coverage st bus (s.issue p start entries) := by
  obtain ⟨⟨v, b, hv, hcovers, -, hx, -⟩, hactive, hleft⟩ := hw
  obtain rfl : w = v := Option.some.inj (hactive.symm.trans hv)
  obtain ⟨events, hsilent, hh⟩ := Station.issue_history hc.busy p start entries
  have hpassive : ∀ e ∈ events, e.Passive := fun e he => (hsilent e he).passive
  have hentries : (s.issue p start entries).view.account.entries =
      s.view.account.entries ++ entries := by
    rw [Station.issue_account hc.busy]
    simp [Account.entries]
  have hmoves : p.request.Fits → (s.view.account.entries ++ entries).map Entry.toMove ++
      p.request.moves bus st.pageSize (p.sent + Entry.total entries)
        (p.request.lengthsFrom st (p.sent + Entry.total entries)) =
      p.request.allMoves st bus := by
    intro hfits
    rw [List.map_append, List.append_assoc,
      Window.carve_moves hs hsmall hbus hid hcovers hx hleft hfits hcarve]
    exact h.moves p hc.transfer hfits
  constructor
  · intro q hq hfits
    obtain rfl : p.past entries = q := Option.some.inj hq
    rw [hentries]
    exact hmoves hfits
  · rw [hh]
    refine Faithful.append (l := [_]) (by simp [Event.Passive]) (.append hpassive ?_)
    refine Throughout.cons h.faithful ⟨?_, by simp⟩
    intro r hr hfits
    obtain rfl : p.request = r := Option.some.inj (hc.request.symm.trans hr)
    have hbatch : (Account.ofHistory (.issue p.request.direction start entries ::
        s.machine.history)).entries = s.view.account.entries ++ entries := by
      simp [Account.entries, Account.after, Station.view]
    rw [hbatch, ← hmoves hfits]
    exact List.prefix_append _ _

variable {A : Incident → Prop} {H : Act → Worker → Prop} {x y : Juncture × Station σ}

theorem Coverage.step (hs : st.Valid) (hsmall : st.pageSize ≤ 2 ^ 19)
    (hbus : ∀ a, a + st.pageSize ≤ addressLimit → bus a + st.pageSize ≤ addressLimit) (hst : x.2.settings = st)
    (hstep : Step A H x y) (hc : Control x.2.view x.1)
    (hw : Windows (InOrder bus) st x.2.worker x.1) (h : Coverage st bus x.2) :
    Coverage st bus y.2 := by
  cases hstep with
  | strike => exact h.strike hc _
  | @stop s =>
    exact ⟨nofun, (s.worker.pipeline.unpinAll_sees s.machine).history ▸
      h.faithful.append (passive_unlocks _)⟩
  | @finish s =>
    refine ⟨nofun, ?_⟩
    have hsees := s.worker.pipeline.unpinAll_sees (s.mapChannel ({ · with finished := true })).machine
    have hfaithful := h.faithful.append (l := s.worker.pipeline.unlocks) (passive_unlocks _)
    exact hsees.history ▸ hfaithful
  | @begin s r hj =>
    obtain ⟨-, ⟨r', hr, hqueued⟩ | ⟨p, hr, -⟩⟩ := hc.taken hj <;> cases hr
    refine ⟨?_, h.faithful.append (l := [_]) (by simp [Event.Passive])⟩
    intro p hp _
    obtain rfl : { request := r } = p := Option.some.inj hp
    have haccount : (s.takeWork.2.begin r).view.account = { request := some r } := hqueued.account
    rw [haccount]
    rfl
  | @complete k p s hr =>
    apply h.tell
    intro bytes hb
    simp only [Outcome.completed.injEq] at hb
    refine ⟨p.request, hc.request, hb.symm, ?_⟩
    intro hfits
    -- with no byte left there are no moves to come
    have hmoves := h.moves p hc.transfer hfits
    rw [Request.lengthsFrom_of_len_le (by rw [Progress.remaining] at hr; omega)] at hmoves
    simpa [Request.moves] using hmoves
  | fail => exact h.tell (by simp)
  | issue hcarve =>
    exact h.issue hs hsmall hbus hc.1 (Ring.start?_le hc.2) hw (by rwa [hst] at hcarve)
  | @turn k p s =>
    exact h.append (s.worker.pipeline.unpinDone_sees s.machine).history (passive_unlocks _) rfl
  | @release k p s =>
    exact h.append (s.worker.pipeline.unpinDone_sees s.machine).history (passive_unlocks _) rfl
  | ask => exact h.append (Machine.asked_sees _ _ _).history (by simp [Event.Passive]) rfl
  | askAhead => exact h.append (Machine.asked_sees _ _ _).history (by simp [Event.Passive]) rfl
  | short => exact h.append (Machine.unlock_sees _ _ _).history (by simp [Event.Passive]) rfl
  | shortAhead => exact h.append (Machine.unlock_sees _ _ _).history (by simp [Event.Passive]) rfl
  | _ => exact ⟨h.moves, h.faithful⟩

theorem Path.coverage (hs : st.Valid) (hsmall : st.pageSize ≤ 2 ^ 19)
    (hbus : ∀ a, a + st.pageSize ≤ addressLimit → bus a + st.pageSize ≤ addressLimit)
    (hq : Platform.Answers σ (InOrder bus)) (hst : x.2.settings = st) (hc : Control x.2.view x.1)
    (hw : Windows (InOrder bus) st x.2.worker x.1) (h : Coverage st bus x.2) (hpath : Path A H x y) :
    Coverage st bus y.2 := by
  induction hpath with
  | refl => exact h
  | tail hpath hstep ih =>
    obtain ⟨hcontrol, hsame⟩ := Path.control (hst ▸ hs) hc hpath
    have hwindows := Path.windows hs hq hst hc hw hpath
    exact ih.step hs hsmall hbus (hsame.trans hst) hstep hcontrol hwindows

/-- In every run of a worker, whatever the registers hold at first, whoever stores flags, and
however many pages the platform locks each time, the descriptors of a transfer are a beginning of the
moves of its request, and all of them when the transfer is reported as completed. -/
theorem run_faithful (settings : Settings) (hs : settings.Valid) (hsmall : settings.pageSize ≤ 2 ^ 19)
    (bus : Nat → Nat)
    (hbus : ∀ a, a + settings.pageSize ≤ addressLimit → bus a + settings.pageSize ≤ addressLimit)
    (hq : Platform.Answers σ (InOrder bus)) (tableBus : Sides Nat) (registers : RegisterFile)
    (platform : σ) (listener : List (List Incident)) (acts : List Act) :
    Faithful settings bus
      ((Station.initial settings tableBus registers platform listener).run acts).machine.history := by
  let s := Station.initial settings tableBus registers platform listener
  have hall : Platform.Within σ fun _ => True := ⟨fun _ _ _ _ _ => trivial, fun _ _ _ _ _ => trivial⟩
  have hacts : ∀ a ∈ acts, a.Within fun _ => True := fun a _ => by cases a <;> trivial
  have hpath := Path.run (s := s) hall (fun _ _ _ _ => trivial) hacts (s.haltsOnly_true acts)
  exact (Path.coverage (x := (.rest, s)) hs hsmall hbus hq rfl (Control.initial ..) nofun
    ⟨nofun, .nil ⟨nofun, nofun⟩⟩ hpath).faithful

end Steps

theorem Bench.PageTally.in_order : Platform.Answers Bench.PageTally (InOrder id) := by
  intro h range writable
  refine ⟨h.grant range.pages, ?_⟩
  simp [Platform.lock, Bench.PageTally.lock, PageRun.addresses, Function.comp_def]

/-- A transfer that begins inside a page and inside a lap of the ring. The first attempt to pin ahead
comes back short, and all is moved the same. -/
theorem run_faithful_tally :
    let settings : Settings := { pageSize := 16, windowPages := 1, chunkLog := 3 }
    let registers := RegisterFile.reset.write (Register.address .hostToDevice .lastId) 3
    let r : Request := { direction := .hostToDevice, host := 0x2008, device := 16, len := 24 }
    let answered (id : Nat) : List Act := [.strike (.flag .hostToDevice id 1), .interrupt 0, .serve]
    let acts := [.strike (.submit r), .serve] ++ answered 4 ++ answered 5 ++ answered 6
    let history := ((Station.initial settings (.both 0) registers
      ({ emptyCall := some 2 } : Bench.PageTally) []).run acts).machine.history
    Faithful settings id history ∧ ∃ older, history = .notify 1 (.completed 24) :: older ∧
      (Account.ofHistory older).entries.map Entry.toMove = r.allMoves settings id ∧
      (Account.ofHistory older).entries.length = 3 := by
  intro settings registers r answered acts history
  have hfaithful : Faithful settings id history := run_faithful settings (by decide) (by decide) id
    (fun _ h => h) Bench.PageTally.in_order (.both 0) registers { emptyCall := some 2 } [] acts
  have hlatest : history.head? = some (.notify 1 (.completed 24)) := by decide +kernel
  have haccepted : (Account.ofHistory history.tail).request = some r := by decide +kernel
  have hthree : (Account.ofHistory history.tail).entries.length = 3 := by decide +kernel
  have hfits : r.Fits := by simp [Request.Fits, r, addressLimit]
  clear_value history
  obtain ⟨older, rfl⟩ := List.head?_eq_some_iff.mp hlatest
  obtain ⟨r', hr', -, hmoves⟩ := hfaithful.now.2 1 24 older rfl
  obtain rfl : r = r' := Option.some.inj (haccepted.symm.trans hr')
  exact ⟨hfaithful, older, rfl, hmoves hfits, hthree⟩
end ScatterGather
