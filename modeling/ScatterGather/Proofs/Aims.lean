import ScatterGather.Proofs.Batches
import ScatterGather.Proofs.Coverage
import ScatterGather.Proofs.Images
import ScatterGather.Proofs.Moments

/-! # Descriptors are parts of requests

Every descriptor that was handed over fits into its slot and moves some of the bytes of a request that
was accepted, whatever was halted or failed before.
-/
namespace ScatterGather
open Relation

theorem Account.Neutral.not_issue {e : Event} (h : Account.Neutral e) (d : Direction)
    (start : BatchPlace) (entries : List Entry) : e ≠ .issue d start entries := by
  rintro rfl
  have hbatches := congrArg Account.batches (h {})
  cases hbatches

/-- The descriptor moves some of the bytes of the request, on a bus that is addressed like host
memory. -/
def Request.HasPart (r : Request) (pageSize : Nat) (e : Entry) : Prop :=
  ∃ x, e.toMove = r.move id pageSize x e.size ∧ x + e.size ≤ r.len

theorem Request.parts_of_moves {r : Request} {pageSize x : Nat} {entries : List Entry}
    (hmoves : entries.map Entry.toMove = r.moves id pageSize x (entries.map Entry.size))
    (hx : x + Entry.total entries ≤ r.len) : ∀ e ∈ entries, r.HasPart pageSize e := by
  induction entries generalizing x with
  | nil => exact nofun
  | cons e entries ih =>
    simp only [List.map_cons, Entry.total_cons, Request.moves, List.cons.injEq] at hmoves hx
    intro e' he'
    rcases List.mem_cons.mp he' with rfl | he'
    · exact ⟨x, hmoves.1, by omega⟩
    · exact ih hmoves.2 (by omega) e' he'

/-- Every descriptor that was handed over fits into its slot and is a part of a request of `P`. -/
structure Aimed {σ : Type} (P : Request → Prop) (pageSize : Nat) (s : Station σ) : Prop where
  request : ∀ r, s.view.account.request = some r → P r
  parts : ∀ dir, ∀ e ∈ handed dir s.machine.history, e.length.toNat < 2 ^ 18 ∧
    ∃ r, P r ∧ r.direction = dir ∧ r.HasPart pageSize e

section Stations
variable {σ : Type} {P : Request → Prop} {pageSize : Nat} {s t : Station σ} {l : List Event}

theorem Aimed.initial (settings : Settings) (tableBus : Sides Nat) (registers : RegisterFile)
    (platform : σ) (listener : List (List Incident)) :
    Aimed P pageSize (Station.initial settings tableBus registers platform listener) where
  request _ hr := by cases hr
  parts _ _ he := by cases he

theorem Aimed.frame (h : Aimed P pageSize s) (hh : t.machine.history = l ++ s.machine.history)
    (he : ∀ e ∈ l, Account.Neutral e) : Aimed P pageSize t where
  request r hr := by
    rw [Station.view, hh, Account.ofHistory_append he] at hr
    exact h.request r hr
  parts dir e hmem := by
    rw [hh, handed_append fun e he' => (he e he').not_issue] at hmem
    exact h.parts dir e hmem

theorem Aimed.drops {newest : List Event} (h : Aimed P pageSize s) (hd : s.Drops newest t)
    (hn : ∀ e ∈ newest, Account.Neutral e) : Aimed P pageSize t := by
  obtain ⟨l, hh, hl⟩ := hd.added hn fun _ hm => hm.passive.neutral
  exact h.frame hh hl

theorem Aimed.strike (h : Aimed P pageSize s) {i : Incident} (hi : ∀ r, i = .submit r → P r) :
    Aimed P pageSize (s.strike i) := by
  cases i with
  | complete dir =>
    simp only [Station.strike, Machine.incur]
    split
    · exact h.frame (l := [_]) rfl (by simp [Account.Neutral, Account.after])
    · exact h
  | flag | interrupt => exact h.frame (l := [_]) rfl (by simp [Account.Neutral, Account.after])
  | submit r =>
    refine ⟨?_, fun dir e hmem => h.parts dir e hmem⟩
    intro r' hr'
    simp only [Station.strike, Station.view, Machine.incur, Machine.record, Account.ofHistory_cons] at hr'
    cases hrefusal : (s.machine.channel.submit r).1 with
    | none =>
      rw [hrefusal] at hr'
      obtain rfl := Option.some.inj hr'
      exact hi _ rfl
    | some cause =>
      rw [hrefusal] at hr'
      exact h.request r' hr'

variable [Platform σ] {A : Incident → Prop} {H : Act → Worker → Prop} {x y : Juncture × Station σ}
  {k : Errand} {p : Progress} {start : BatchPlace} {w : Window} {entries : List Entry}
  {st : Settings}

theorem Aimed.issue (hs : st.Valid) (hsmall : st.pageSize ≤ 2 ^ 19) (hc : s.view.Poised k p)
    (hid : start.id ≤ lastSlot) (hfits : ∀ r, P r → r.Fits)
    (hw : Windows (InOrder id) st s.worker (.supplied k p start w))
    (hcarve : w.carve st p.request.direction (p.request.device + p.sent) start = .ok entries)
    (h : Aimed P st.pageSize s) : Aimed P st.pageSize (s.issue p start entries) := by
  obtain ⟨⟨v, b, hv, hcovers, -, hx, -⟩, hactive, hleft⟩ := hw
  obtain rfl : w = v := Option.some.inj (hactive.symm.trans hv)
  have hsize : st.pageSize < 2 ^ 34 := Nat.lt_of_le_of_lt hsmall (by decide)
  obtain ⟨-, -, hsum, hbounds⟩ := Window.carve_pieces hs hsize hid hcarve
  have hrequest : P p.request := h.request _ hc.request
  have hmoves := Window.carve_moves hs hsmall (fun _ h => h) hid hcovers hx hleft (hfits _ hrequest) hcarve
  have hown := Request.moves_of_prefix ⟨_, hmoves⟩ fun n hn => Request.dvd_of_mem_lengthsFrom hs hn
  have hend : p.sent + Entry.total entries ≤ p.request.len := by
    have hstands := (hcovers.stands hs hx hleft).left
    have hwindow := Request.windowEnd_le_len (r := p.request) (s := st) (x := p.sent)
    omega
  have hparts := Request.parts_of_moves hown hend
  constructor
  case request =>
    intro r hr
    rw [Station.issue_account hc.busy] at hr
    exact h.request r hr
  case parts =>
    intro dir e hmem
    rw [handed_issue hc.busy] at hmem
    split at hmem
    · next hd =>
      rcases List.mem_append.mp hmem with hmem | hmem
      · exact h.parts dir e hmem
      · have hle := (hbounds e.size (List.mem_map_of_mem hmem)).2.2
        rw [Entry.size, wordBytes] at hle
        exact ⟨by omega, p.request, hrequest, hd, hparts e hmem⟩
    · exact h.parts dir e hmem

theorem Aimed.step (hs : st.Valid) (hsmall : st.pageSize ≤ 2 ^ 19) (hfits : ∀ r, P r → r.Fits)
    (hA : ∀ r, A (.submit r) → P r) (hst : x.2.settings = st) (hstep : Step A H x y)
    (hc : Control x.2.view x.1) (hw : Windows (InOrder id) st x.2.worker x.1)
    (h : Aimed P st.pageSize x.2) : Aimed P st.pageSize y.2 := by
  cases hstep.deed with
  | tend htends =>
    obtain ⟨events, hh, he⟩ := htends.history
    exact h.frame hh fun e hmem => (he e hmem).passive.neutral
  | strike _ hi =>
    apply h.strike
    rintro r rfl
    exact hA r hi
  | interrupt | setPayload | close => exact h.frame (l := []) rfl (by simp)
  | @halt s a ha => exact h.drops (s.halt_drops ha) (by simp)
  | begin => exact h.frame (l := [_]) rfl (by simp [Account.Neutral, Account.after])
  | @complete k p s => exact h.drops (s.tell_drops _ _) (by simp [Account.Neutral, Account.after])
  | @fail k cause s => exact h.drops (s.tell_drops _ _) (by simp [Account.Neutral, Account.after])
  | issue hcarve =>
    exact h.issue hs hsmall hc.1 (Ring.start?_le hc.2) hfits hw (by rwa [hst] at hcarve)

theorem Path.aimed (hs : st.Valid) (hsmall : st.pageSize ≤ 2 ^ 19) (hfits : ∀ r, P r → r.Fits)
    (hA : ∀ r, A (.submit r) → P r) (hq : Platform.Answers σ (InOrder id)) (hst : x.2.settings = st)
    (hc : Control x.2.view x.1) (hw : Windows (InOrder id) st x.2.worker x.1)
    (h : Aimed P st.pageSize x.2) (hpath : Path A H x y) : Aimed P st.pageSize y.2 := by
  induction hpath with
  | refl => exact h
  | tail hpath hstep ih =>
    obtain ⟨hcontrol, hsame⟩ := Path.control (hst ▸ hs) hc hpath
    exact ih.step hs hsmall hfits hA (hsame.trans hst) hstep hcontrol
      (Path.windows hs hq hst hc hw hpath)

end Stations
end ScatterGather
