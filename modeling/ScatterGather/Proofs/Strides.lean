import ScatterGather.Bench.ScriptedHost
import ScatterGather.Proofs.Attention
import ScatterGather.Proofs.Demands
import ScatterGather.Proofs.Items
import ScatterGather.Proofs.Lengths
import ScatterGather.Proofs.Watches

/-! # Every job makes progress

A job that is handled ends its transfer or hands one more batch over, with a word of the request at
least and with no more than the active window has left. So no transfer takes more batches than it has
words, and a service comes to an end.
-/
namespace ScatterGather

theorem Event.MovesPages.not_decides {e : Event} (h : e.MovesPages) : ¬ e.Decides := h.passive.not_decides

/-- From `s` to `t` one thing was decided on, and that was `e`. -/
def Station.DecidesOnce {σ : Type} (s t : Station σ) (e : Event) : Prop :=
  e.Decides ∧ ∃ newer older, t.machine.history = newer ++ e :: (older ++ s.machine.history) ∧
    ∀ x ∈ newer ++ older, ¬ x.Decides

/-- The batch is not empty, it fits into the ring, and it takes a word at least from the window. -/
structure Window.Yields (w : Window) (entries : List Entry) : Prop where
  some : entries ≠ []
  fits : entries.length ≤ slotCount
  word : wordBytes ≤ Entry.total entries
  left : Entry.total entries ≤ w.left

/-- Why the next batch of a transfer cannot be had. -/
inductive Station.Lacks {σ : Type} [Platform σ] (s : Station σ) (p : Progress) : Failure → Prop
  | place {e} : s.worker.ring.start? p.request.direction = .error e → Lacks s p (.batch e)
  | window {start e} : s.worker.ring.start? p.request.direction = .ok start →
      (s.windowFor p).1 = .error e → Lacks s p (.memory e)

/-- Between `s` and `t` the transfer that had got to `p` was ended, or exactly one more batch was handed
over, carved from a window that stood at the byte to go on with. At `due` the batch was due. -/
inductive Station.Strides {σ : Type} [Platform σ] (s due : Station σ) (p : Progress) (t : Station σ) : Prop
  | completed {payload} : p.remaining = 0 → t.worker.transfer = none →
      s.DecidesOnce t (.notify payload (.completed p.request.len)) → Strides s due p t
  | failed {payload cause} : p.remaining ≠ 0 → due.Lacks p cause → t.worker.transfer = none →
      s.DecidesOnce t (.notify payload (.failed cause)) → Strides s due p t
  | issued {start entries} {w : Window} : p.remaining ≠ 0 →
      due.worker.ring.start? p.request.direction = .ok start →
      s.worker.pipeline.active = some w ∨ w.cursor = 0 →
      w.position = p.request.host + p.sent → p.sent + w.left ≤ p.request.len → w.Yields entries →
      s.DecidesOnce t (.issue p.request.direction start entries) →
      t.worker.pipeline.active = some (w.consume (Entry.total entries)) →
      t.worker.transfer = some (p.past entries) → Strides s due p t

/-- Every batch took a word at least, and no more than its transfer had left. -/
def Thrifty : List Event → Prop := Throughout fun
  | .issue _ _ entries :: older => entries ≠ [] ∧ entries.length ≤ slotCount ∧
      wordBytes ≤ Entry.total entries ∧
      ∃ r, (Account.ofHistory older).request = some r ∧
        (Account.ofHistory older).bytes + Entry.total entries ≤ r.len
  | _ => True

theorem Account.bytes_issue (a : Account) (dir : Direction) (start : BatchPlace) (entries : List Entry) :
    (a.after (.issue dir start entries)).bytes = a.bytes + Entry.total entries := by
  simp [after, bytes, Account.entries, Entry.total_append]

/-- The batches of a transfer are no more than its words. -/
theorem Thrifty.batches_le {history : List Event} (h : Thrifty history) {r : Request}
    (hr : (Account.ofHistory history).request = some r) :
    (Account.ofHistory history).batches.length * wordBytes ≤ (Account.ofHistory history).bytes ∧
      (Account.ofHistory history).bytes ≤ r.len := by
  induction history with
  | nil => cases hr
  | cons e older ih =>
    have holder := ih (Throughout.older [e] h)
    rw [Account.ofHistory_cons] at hr ⊢
    cases e with
    | issue dir start entries =>
      obtain ⟨-, -, hword, r', hr', hlen⟩ := Throughout.now h
      obtain rfl : r = r' := Option.some.inj (hr.symm.trans hr')
      obtain ⟨hmany, -⟩ := holder hr
      rw [Account.bytes_issue]
      refine ⟨?_, hlen⟩
      simp only [Account.after, List.length_append, List.length_singleton, Nat.add_mul]
      omega
    | submit request refusal =>
      cases refusal with
      | none => exact ⟨Nat.le_refl _, Nat.zero_le _⟩
      | some cause => exact holder hr
    | _ => exact holder hr

section Decisions
variable {σ : Type} {s s' t t' : Station σ} {e : Event} {l : List Event}

namespace Station.DecidesOnce

theorem before (h : s'.DecidesOnce t e) (hh : s'.machine.history = l ++ s.machine.history)
    (hl : ∀ x ∈ l, ¬ x.Decides) : s.DecidesOnce t e := by
  obtain ⟨he, newer, older, ht, hn⟩ := h
  refine ⟨he, newer, older ++ l, by rw [ht, hh, List.append_assoc], ?_⟩
  rw [← List.append_assoc]
  exact List.forall_mem_append.mpr ⟨hn, hl⟩

theorem after (h : s.DecidesOnce t e) (hh : t'.machine.history = l ++ t.machine.history)
    (hl : ∀ x ∈ l, ¬ x.Decides) : s.DecidesOnce t' e := by
  obtain ⟨he, newer, older, ht, hn⟩ := h
  refine ⟨he, l ++ newer, older, by rw [hh, ht, List.append_assoc], ?_⟩
  rw [List.append_assoc]
  exact List.forall_mem_append.mpr ⟨hl, hn⟩

theorem unique {e' : Event} (h : s.DecidesOnce t e) (h' : s.DecidesOnce t e') : e' = e := by
  obtain ⟨-, newer, older, ht, hn⟩ := h
  obtain ⟨he', newer', older', ht', -⟩ := h'
  have hsame : (newer ++ e :: older) ++ s.machine.history =
      (newer' ++ e' :: older') ++ s.machine.history := by
    simpa only [List.append_assoc, List.cons_append] using ht.symm.trans ht'
  have hmem : e' ∈ newer ++ e :: older := by
    rw [List.append_cancel_right hsame]
    simp
  simp only [List.mem_append, List.mem_cons] at hmem hn
  rcases hmem with hmem | rfl | hmem
  · exact absurd he' (hn e' (.inl hmem))
  · rfl
  · exact absurd he' (hn e' (.inr hmem))

end Station.DecidesOnce

theorem Machine.Watches.not_decides {m m' : Machine σ} (h : m.Watches l m') : ∀ x ∈ l, ¬ x.Decides :=
  fun x hx => (h.outer x hx).elim Event.MovesPages.not_decides Event.Incidental.not_decides

variable [Platform σ] {p : Progress} {start : BatchPlace} {entries : List Entry}

/-- Whatever ends a transfer is told to the listener once, and the listener decides nothing. -/
theorem Station.notified_once (s : Station σ) (phase : Phase) (outcome : Outcome) :
    s.DecidesOnce { s.reset phase with machine := (s.reset phase).machine.notify outcome }
      (.notify s.machine.channel.payloadForTransfer outcome) := by
  obtain ⟨events, hh, he⟩ := (s.tell_drops phase outcome).history
  obtain ⟨newer, hn, hincidental⟩ := ((s.reset phase).machine.told outcome).incurAll_incidental
    ((s.reset phase).machine.listener.headD [])
  refine ⟨trivial, newer, events, ?_, ?_⟩
  · rw [Machine.notify_eq, hn]
    exact congrArg (newer ++ ·) hh
  · exact List.forall_mem_append.mpr ⟨fun x hx => (hincidental x hx).not_decides,
      fun x hx => (he x hx).not_decides⟩

theorem Station.hand_once (hb : s.machine.channel.posture.Busy) (p : Progress) (start : BatchPlace)
    (entries : List Entry) :
    s.DecidesOnce (s.hand p start entries) (.issue p.request.direction start entries) := by
  obtain ⟨events, hsilent, hh⟩ := s.issue_history hb p start entries
  have hissue : s.DecidesOnce (s.issue p start entries) (.issue p.request.direction start entries) := by
    refine ⟨trivial, .write (Register.address p.request.direction .lastId)
      (UInt32.ofNat (Ring.lastIdOf start entries)) :: events, [], hh, ?_⟩
    rw [List.append_nil]
    refine List.forall_mem_cons.mpr ⟨id, fun x hx => (hsilent x hx).passive.not_decides⟩
  have hhanded : (s.issue p start entries).machine.Waits (s.handed p start entries).machine := by
    rw [handed_eq, strikeAll_eq]
    obtain ⟨events, hstruck, -⟩ := (s.issue p start entries).machine.incurAll_watches _
    exact ⟨events, hstruck⟩
  have hpinning : Machine.KeptByPinning (@Machine.Waits σ) := Machine.waits_pinning
  obtain ⟨later, hlater⟩ := (hhanded.trans (hpinning.release _)).trans (hpinning.pinAhead _ p.request
    ((s.handed p start entries).release.reach (p.past entries)))
  rw [hand_eq]
  exact hissue.after hlater.history hlater.not_decides

theorem Station.pinAhead_active (s : Station σ) (r : Request) (next : Nat) :
    (s.pinAhead r next).worker.pipeline.active = s.worker.pipeline.active := by
  unfold pinAhead
  split
  · rfl
  · dsimp only
    split <;> rfl

theorem Station.hand_active (s : Station σ) (p : Progress) (start : BatchPlace) (entries : List Entry) :
    (s.hand p start entries).worker.pipeline.active =
      s.worker.pipeline.active.map (·.consume (Entry.total entries)) := by
  rw [hand_eq, pinAhead_active, release, unpinDone_active]
  rfl

/-- A window is carved where the last batch has left it, or it is a fresh one. -/
theorem Station.windowFor_active {w : Window} (h : (s.windowFor p).1 = .ok w) :
    s.worker.pipeline.active = some w ∨ w.cursor = 0 := by
  by_cases hd : s.worker.pipeline.drained
  · right
    unfold windowFor at h
    dsimp only at h
    rw [supply_of_drained hd] at h
    unfold Pipeline.rotate at h
    dsimp only at h
    split at h
    · cases h
      rfl
    · split at h <;> cases h
      rfl
  · obtain ⟨v, hv, hl⟩ : ∃ v, s.worker.pipeline.active = some v ∧ v.left ≠ 0 := by
      cases hv : s.worker.pipeline.active <;> simp_all [Pipeline.drained]
    unfold windowFor at h
    dsimp only at h
    rw [supply_of_left hv hl] at h
    cases h
    exact .inl hv

omit [Platform σ] in
theorem Window.carve_yields {st : Settings} {w : Window} {dir : Direction} {device : Nat}
    (hs : st.Valid) (hsmall : st.pageSize < 2 ^ 34) (hid : start.id ≤ lastSlot)
    (h : w.carve st dir device start = .ok entries) : w.Yields entries := by
  obtain ⟨hne, hlast⟩ := carve_fits hs hid h
  refine ⟨hne, ?_, carve_advances hs hsmall hid h, (carve_pieces hs hsmall hid h).2.2.1⟩
  have hpos := List.length_pos_iff.mpr hne
  have hslots : lastSlot + 1 = slotCount := rfl
  rw [Ring.lastIdOf] at hlast
  omega

omit [Platform σ] in
/-- Where a supplied window stands, and that it does not reach past the request. -/
theorem Windows.supplied {Q : PageRun → List Page → Prop} {st : Settings} {k : Errand} {w : Window}
    (h : Windows Q st s.worker (.supplied k p start w)) :
    s.worker.pipeline.active = some w ∧ w.position = p.request.host + p.sent ∧
      p.sent + w.left ≤ p.request.len := by
  obtain ⟨⟨v, b, hv, hcovers, hcursor, hx, -⟩, hactive, -⟩ := h
  obtain rfl : w = v := Option.some.inj (hactive.symm.trans hv)
  have hlen := hcovers.len
  have hinside := hcovers.inside
  rw [Request.windowLen] at hlen
  refine ⟨hactive, ?_, ?_⟩
  · rw [Window.position, hcovers.start, hx, Nat.add_assoc]
  · rw [Window.left]
    omega

/-- Either something is lacking, and the worker has but waited to find that out, or the next batch
is handed over. -/
theorem Station.nextBatch_lacks_or_hands {st : Settings} {k : Errand} (hs : st.Valid)
    (hst : s.settings = st) (hc : s.view.Poised k p)
    (hw : Windows (fun _ _ => True) st s.worker (.due k p)) (hr : p.remaining ≠ 0) :
    (∃ cause s', s.nextBatch p = (some cause, s') ∧ s.Lacks p cause ∧ s.machine.Waits s'.machine) ∨
    ∃ start w s' entries, s.nextBatch p = (none, s'.hand p start entries) ∧
      s.worker.ring.start? p.request.direction = .ok start ∧ s.windowFor p = (.ok w, s') ∧
      Control s'.view (.supplied k p start w) ∧
      Windows (fun _ _ => True) st s'.worker (.supplied k p start w) ∧
      w.carve st p.request.direction (p.request.device + p.sent) start = .ok entries := by
  unfold nextBatch
  cases hstart : s.worker.ring.start? p.request.direction with
  | error e => exact .inl ⟨_, s, rfl, .place hstart, .refl _⟩
  | ok start =>
    have hpath := Path.windowFor (A := fun _ => True) (H := fun _ _ => True) (k := k)
      Platform.within_true hr hstart
    have hwaits := Machine.waits_pinning.windowFor s p
    rcases hf : s.windowFor p with ⟨_ | w, s'⟩ <;> rw [hf] at hpath hwaits
    · exact .inl ⟨_, s', rfl, .window hstart (by rw [hf]), hwaits⟩
    · right
      obtain ⟨hcontrol, hsame⟩ := Path.control (x := (.due k p, s)) (hst ▸ hs) hc hpath
      have hwindows := Path.windows (x := (.due k p, s)) hs (fun _ _ _ => trivial) hst hc hw hpath
      obtain ⟨entries, hcarve⟩ :=
        Window.carve_succeeds (s := s') hs hcontrol.1 (Ring.start?_le hstart) hwindows
      have hsettings : s'.settings = st := hsame.trans hst
      refine ⟨start, w, s', entries, ?_, rfl, rfl, hcontrol, hwindows, hcarve⟩
      simp only [hsettings, hcarve]

/-- A transfer that is due is ended, or one more batch of it is handed over. -/
theorem Station.advance_strides {st : Settings} {k : Errand} (hs : st.Valid) (hsmall : st.pageSize ≤ 2 ^ 19)
    (hst : s.settings = st) (hc : s.view.Poised k p)
    (hw : Windows (fun _ _ => True) st s.worker (.due k p)) : s.Strides s p s.advance := by
  have htransfer : s.worker.transfer = some p := hc.transfer
  unfold advance
  simp only [htransfer]
  split
  · next hr => exact .completed hr rfl (s.notified_once _ _)
  · next hr =>
    rcases nextBatch_lacks_or_hands hs hst hc hw hr with
      ⟨cause, s', hnext, hlacks, hwaits⟩ |
      ⟨start, w, s', entries, hnext, hstart, hfound, hcontrol, hwindows, hcarve⟩ <;>
      rw [hnext]
    · obtain ⟨events, he⟩ := hwaits
      exact .failed hr hlacks rfl ((s'.notified_once _ _).before he.history he.not_decides)
    · have hwaits := Machine.waits_pinning.windowFor s p
      rw [hfound] at hwaits
      obtain ⟨events, he⟩ := hwaits
      obtain ⟨hactive, hposition, hinside⟩ := Windows.supplied hwindows
      have hyields := Window.carve_yields hs (Nat.lt_of_le_of_lt hsmall (by decide))
        (Ring.start?_le hstart) hcarve
      refine .issued hr hstart (windowFor_active (by rw [hfound])) hposition hinside hyields
        ((s'.hand_once hcontrol.1.busy p start entries).before he.history he.not_decides) ?_
        (s'.hand_transfer p start entries)
      rw [hand_active, hactive]
      rfl

theorem Station.Strides.around {due : Station σ} (h : s'.Strides due p t)
    (hs : s'.worker.pipeline = s.worker.pipeline) (hh : s'.machine.history = l ++ s.machine.history)
    (hl : ∀ x ∈ l, ¬ x.Decides) (ht : t'.worker = t.worker)
    (ht' : t'.machine.history = t.machine.history) : s.Strides due p t' := by
  have hsame {e : Event} (h : s'.DecidesOnce t e) : s.DecidesOnce t' e :=
    (h.before hh hl).after (l := []) ht' (by simp)
  cases h with
  | completed hr htransfer honce => exact .completed hr (ht ▸ htransfer) (hsame honce)
  | failed hr hlacks htransfer honce => exact .failed hr hlacks (ht ▸ htransfer) (hsame honce)
  | issued hr hstart hactive hposition hinside hyields honce hconsumed htransfer =>
    exact .issued hr hstart (hs ▸ hactive) hposition hinside hyields (hsame honce) (ht ▸ hconsumed)
      (ht ▸ htransfer)

/-- A job that is found is about a transfer which goes on where its account ends, and which is ended
or gets one batch further. -/
theorem Station.handle_strides {st : Settings} {job : Job} (hs : st.Valid)
    (hsmall : st.pageSize ≤ 2 ^ 19) (h : s.Fit st) (hj : s.takeWork.1 = some job) :
    ∃ p, s.progressOf job = some p ∧ s.view.account.request = some p.request ∧
      p.sent = s.view.account.bytes ∧ s.Strides (s.due job) p (s.takeWork.2.handle job) := by
  obtain ⟨p, hp, hpoised, hwindows⟩ := h.due hs hj
  have hdue : ∃ l, (s.due job).machine.history = l ++ s.machine.history ∧ ∀ x ∈ l, x.Passive := by
    cases job with
    | start r => exact ⟨[_], rfl, by simp [Event.Passive]⟩
    | advance => exact ⟨[], rfl, by simp⟩
  obtain ⟨l, hh, hl⟩ := hdue
  have haccount : (s.due job).view.account = s.view.account := by
    rw [view, hh]
    exact Account.ofHistory_passive hl
  have hstrides := advance_strides hs hsmall ((s.due_settings job).trans h.settings) hpoised hwindows
  refine ⟨p, hp, haccount ▸ hpoised.request, haccount ▸ hpoised.sent, ?_⟩
  rw [handle_eq]
  cases job <;> exact hstrides.around (due_pipeline _ _) hh (fun x hx => (hl x hx).not_decides) rfl rfl

/-- In a history every batch is found where a window was carved. -/
theorem Path.thrifty {A : Incident → Prop} {H : Act → Worker → Prop} {x y : Juncture × Station σ}
    {st : Settings} (hs : st.Valid) (hsmall : st.pageSize ≤ 2 ^ 19) (hst : x.2.settings = st)
    (hc : Control x.2.view x.1) (hw : Windows (fun _ _ => True) st x.2.worker x.1)
    (hx : x.2.machine.history = []) (h : Path A H x y) : Thrifty y.2.machine.history := by
  intro newer history heq
  cases history with
  | nil => trivial
  | cons e older =>
    cases e with
    | issue dir start entries =>
      obtain ⟨⟨j, u⟩, v, hu, hstep, -, holder, hnow⟩ :=
        Path.crossing h (heq ▸ List.suffix_append newer _) (hx ▸ List.nil_suffix)
      obtain ⟨hcontrol, hsame⟩ := Path.control (hst.symm ▸ hs) hc hu
      obtain ⟨k, p, w, rfl, rfl, rfl, hcarve⟩ := hstep.issued hcontrol holder hnow
      obtain ⟨-, -, hinside⟩ := Windows.supplied
        (Path.windows hs (fun _ _ _ => trivial) hst hc hw hu)
      have hset : u.settings = st := hsame.trans hst
      rw [hset] at hcarve
      obtain ⟨hne, hfits, hword, hleft⟩ := Window.carve_yields hs (Nat.lt_of_le_of_lt hsmall (by decide))
        (Ring.start?_le hcontrol.2) hcarve
      refine ⟨hne, hfits, hword, p.request, hcontrol.1.request, ?_⟩
      calc
        (Account.ofHistory u.machine.history).bytes + Entry.total entries
        _ = p.sent + Entry.total entries := by rw [hcontrol.1.sent]; rfl
        _ ≤ p.sent + w.left := Nat.add_le_add_left hleft _
        _ ≤ p.request.len := hinside
    | _ => trivial

/-- What a service makes of the work it finds. -/
structure Station.Striding (s : Station σ) : Prop where
  served : s.Serves s.serve.1 s.serve.2
  emptied : s.serve.2.machine.channel.work.isEmpty = true
  bounded : ∀ n t, s.Serves n t → n ≤ s.serve.1
  /-- A service that were allowed more jobs would find no more. -/
  settled : ∀ more, s.serveUpTo (s.serve.1 + more) = s.serve
  strides : ∀ n t job, s.Serves n t → t.takeWork.1 = some job →
    ∃ p, t.progressOf job = some p ∧ t.view.account.request = some p.request ∧
      p.sent = t.view.account.bytes ∧ t.Strides (t.due job) p (t.takeWork.2.handle job)
  thrifty : Throughout (fun now => ∀ r, (Account.ofHistory now).request = some r →
    (Account.ofHistory now).batches.length ≤ r.len / wordBytes) s.machine.history

theorem Station.Fit.striding {st : Settings} (hs : st.Valid) (hsmall : st.pageSize ≤ 2 ^ 19) (h : s.Fit st)
    (hthrifty : Thrifty s.machine.history) : s.Striding := by
  have hvalid : s.settings.Valid := h.settings.symm ▸ hs
  have hshort : s.settings.pageSize < 2 ^ 34 := h.settings.symm ▸ Nat.lt_of_le_of_lt hsmall (by decide)
  have hserved : s.Serves s.serve.1 s.serve.2 := serveUpTo_serves hvalid h.control _
  have hemptied := serve_drains hvalid hshort h.control
  constructor
  case served => exact hserved
  case emptied => exact hemptied
  case bounded =>
    intro n t ht
    have hload := ht.workload hvalid hshort h.control
    have hmore := ht.serveUpTo (s.workload - n)
    rw [Nat.add_sub_cancel' (by omega)] at hmore
    rw [serve, hmore]
    exact Nat.le_add_left _ _
  case settled =>
    intro more
    have hnone := serveUpTo_of_empty (h.serves hs hserved).control hemptied more
    rw [hserved.serveUpTo, hnone, Nat.zero_add]
  case strides =>
    intro n t job ht hj
    exact handle_strides hs hsmall (h.serves hs ht) hj
  case thrifty =>
    intro newer now heq r hr
    obtain ⟨hmany, hlen⟩ := Thrifty.batches_le (Throughout.older newer (heq ▸ hthrifty)) hr
    exact (Nat.le_div_iff_mul_le (by decide)).mpr (Nat.le_trans hmany hlen)

/-- From wherever a run has led, a service comes to an end with an empty queue. Each job that it finds
is about a transfer, an advance about the one in hand, and ends that transfer or hands over one more
batch of it. So no transfer of the history has more batches than words. -/
theorem run_strides (settings : Settings) (hs : settings.Valid) (hsmall : settings.pageSize ≤ 2 ^ 19)
    (tableBus : Sides Nat) (registers : RegisterFile) (platform : σ) (listener : List (List Incident))
    (acts : List Act) :
    ((Station.initial settings tableBus registers platform listener).run acts).Striding := by
  let first := Station.initial settings tableBus registers platform listener
  have hthrifty : Thrifty (first.run acts).machine.history :=
    Path.thrifty (x := (.rest, first)) hs hsmall rfl (Control.initial ..) nofun rfl (Path.everyRun first acts)
  exact (Station.Fit.run hs ..).striding hs hsmall hthrifty

/-- The device flags every batch and interrupts at the very write that hands it over, and the listener
submits once more. -/
theorem run_strides_echo :
    let host : Bench.ScriptedHost := { echo := .interrupt, interruptOnLock := true }
    let first := Station.initial {} (.both 0) .reset host
      [[.submit { direction := .deviceToHost, host := 0x5000, device := 0, len := 0x40004 }]]
    (first.run [
      .strike (.submit { direction := .hostToDevice, host := 0x2004, device := 16, len := 0x200000 }),
      .serve, .stop,
      .strike (.submit { direction := .deviceToHost, host := 0x3000, device := 0, len := 8 })]).Striding :=
  run_strides {} (by decide) (by decide) _ _ _ _ _

end Decisions
end ScatterGather
