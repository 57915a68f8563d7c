import ScatterGather.Ring
import ScatterGather.Worker.Account

/-! # Acknowledged batches

What a history must show of a batch before the transfer may go on: its last id was written, and after
that the device flagged that id.
-/
namespace ScatterGather

/-- The last id of the batch issued last was written, and the device has not answered yet. -/
def HandedOver (dir : Direction) (last : Nat) (history : List Event) : Prop :=
  ∃ newer staged start entries older,
    history = newer ++ .write (Register.address dir .lastId) (UInt32.ofNat last) ::
      (staged ++ .issue dir start entries :: older) ∧
    Ring.lastIdOf start entries = last ∧ ∀ e ∈ newer ++ staged, Account.Neutral e

/-- The last id of the batch issued last was written, and then it was flagged. Neither a batch nor a
transfer came after that batch. -/
def Acknowledged (history : List Event) : Prop :=
  ∃ newer between staged dir start entries older,
    history = newer ++ .complete dir (Ring.lastIdOf start entries) ::
      (between ++ .write (Register.address dir .lastId) (UInt32.ofNat (Ring.lastIdOf start entries)) ::
        (staged ++ .issue dir start entries :: older)) ∧
    ∀ e ∈ newer ++ between ++ staged, Account.Neutral e

/-- A transfer goes on only when its last batch was acknowledged: before the next batch is issued, and
before the transfer is reported as completed, unless it moved nothing. -/
def Paced : List Event → Prop := Throughout fun
  | .issue _ _ _ :: older => (Account.ofHistory older).batches ≠ [] → Acknowledged older
  | .notify _ (.completed bytes) :: older => bytes ≠ 0 → Acknowledged older
  | _ => True

section Append
variable {dir : Direction} {last : Nat} {l history : List Event} {e : Event}

theorem HandedOver.append (he : ∀ e ∈ l, e.Passive) (h : HandedOver dir last history) :
    HandedOver dir last (l ++ history) := by
  obtain ⟨newer, staged, start, entries, older, rfl, hlast, hn⟩ := h
  refine ⟨l ++ newer, staged, start, entries, older, by simp, hlast, ?_⟩
  intro e hmem
  rw [List.append_assoc, List.mem_append] at hmem
  rcases hmem with hmem | hmem
  · exact (he e hmem).neutral
  · exact hn e hmem

theorem HandedOver.acknowledged (h : HandedOver dir last history) :
    Acknowledged (.complete dir last :: history) := by
  obtain ⟨newer, staged, start, entries, older, rfl, rfl, hn⟩ := h
  exact ⟨[], newer, staged, dir, start, entries, older, rfl, hn⟩

theorem Acknowledged.append (he : ∀ e ∈ l, e.Passive) (h : Acknowledged history) :
    Acknowledged (l ++ history) := by
  obtain ⟨newer, between, staged, dir, start, entries, older, rfl, hn⟩ := h
  refine ⟨l ++ newer, between, staged, dir, start, entries, older, by simp, ?_⟩
  intro e hmem
  rw [List.append_assoc, List.append_assoc, List.mem_append] at hmem
  rcases hmem with hmem | hmem
  · exact (he e hmem).neutral
  · exact hn e (by rwa [List.append_assoc])

theorem Paced.append (he : ∀ e ∈ l, e.Passive) (h : Paced history) :
    Paced (l ++ history) := by
  apply Throughout.append _ h
  intro e hmem older _
  have hpassive := he e hmem
  cases e with
  | issue | notify => exact hpassive.elim
  | _ => trivial

end Append
end ScatterGather
