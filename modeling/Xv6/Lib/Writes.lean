import Mathlib.Logic.Function.Basic
import Mathlib.Tactic.Common

/-!
# Lists of writes to a store

`applyWrites m ws` performs the writes `ws` in order.  A location the list writes ends
with a value that does not depend on what it held before; that is what makes replaying
a prefix harmless.
-/

variable {κ β : Type} [DecidableEq κ]

def applyWrites (m : κ → β) : List (κ × β) → κ → β
  | [] => m
  | (a, v) :: ws => applyWrites (Function.update m a v) ws

/-- Where the list writes, the old contents do not matter. -/
theorem applyWrites_congr {ws : List (κ × β)} {m n : κ → β} {a : κ}
    (agree : m a = n a ∨ ∃ w ∈ ws, w.1 = a) : applyWrites m ws a = applyWrites n ws a := by
  induction ws generalizing m n with
  | nil =>
    rcases agree with same | ⟨w, member, _⟩
    · exact same
    · cases member
  | cons w ws ih =>
    obtain ⟨b, v⟩ := w
    apply ih
    by_cases eq : a = b
    · subst eq
      simp
    · rcases agree with same | ⟨w, member, at_w⟩
      · left
        rwa [Function.update_of_ne eq, Function.update_of_ne eq]
      · rcases List.mem_cons.mp member with rfl | later
        · exact absurd at_w.symm eq
        · exact .inr ⟨w, later, at_w⟩

/-- Performing one of the writes early changes nothing. -/
theorem applyWrites_update_of_mem {ws : List (κ × β)} {a : κ} {v : β} (member : (a, v) ∈ ws)
    (m : κ → β) (b : κ) : applyWrites (Function.update m a v) ws b = applyWrites m ws b := by
  apply applyWrites_congr
  by_cases eq : b = a
  · subst eq
    exact .inr ⟨_, member, rfl⟩
  · exact .inl (Function.update_of_ne eq _ _)
