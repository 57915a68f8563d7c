import ScatterGather.Bench.PageTally
import ScatterGather.Bench.ScriptedHost
import ScatterGather.Worker.Run

/-! # The platforms of the bench

What the theorems about runs ask of a platform, for the platforms that experiments use.
-/
namespace ScatterGather

theorem Platform.Within.mono {σ : Type} [Platform σ] {A B : Incident → Prop} (h : Platform.Within σ A)
    (hAB : ∀ i, A i → B i) : Platform.Within σ B where
  lock x range writable i hi := hAB i (h.lock x range writable i hi)
  written x offset value i hi := hAB i (h.written x offset value i hi)

namespace Bench

theorem PageTally.within (A : Incident → Prop) : Platform.Within PageTally A where
  lock _ _ _ _ hi := by cases hi
  written _ _ _ _ hi := by cases hi

theorem PageTally.quiet : Platform.Quiet PageTally := fun _ _ _ _ => rfl

theorem PageTally.grant_le (h : PageTally) (pages : Nat) : h.grant pages ≤ pages := by
  unfold grant
  split
  · exact Nat.zero_le _
  · split
    · exact Nat.le_refl _
    · exact Nat.min_le_left _ _

namespace ScriptedHost

theorem echo_honest (e : Echo) (dir : Direction) : ∀ i ∈ e.incidents dir, i.Honest := by
  cases e <;> simp [Echo.incidents, Incident.Honest]

theorem honest : Platform.Within ScriptedHost Incident.Honest where
  lock h range writable i hi := by
    simp only [Platform.lock] at hi
    split at hi
    · obtain rfl := List.mem_singleton.mp hi
      trivial
    · cases hi
  written h offset value i hi := by
    simp only [Platform.written] at hi
    split at hi
    · split at hi
      · exact echo_honest _ _ i hi
      · split at hi
        · exact echo_honest _ _ i hi
        · cases hi
    · cases hi

theorem quiet : Platform.Quiet ScriptedHost := by
  intro h offset value hne
  simp only [Platform.written, if_neg (hne _), ite_self]

end ScriptedHost
end Bench
end ScatterGather
