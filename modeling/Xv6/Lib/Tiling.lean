import Mathlib.Data.List.Count
import Mathlib.Data.List.Perm.Basic
import Mathlib.Tactic.Common

/-!
# Tilings of a line

Blocks of numbers, each given by its start and its length.  `cover bs x` is how many of the blocks
contain `x`.  Two families of blocks that cover every number equally often are different ways to
cut up the same set; when nothing is covered twice, blocks are disjoint (`pairwise_disjoint`).
-/

namespace Tiling

def Contains (b : Nat × Nat) (x : Nat) : Prop := b.1 ≤ x ∧ x < b.1 + b.2

instance (b : Nat × Nat) (x : Nat) : Decidable (Contains b x) := inferInstanceAs (Decidable (_ ∧ _))

def cover (bs : List (Nat × Nat)) (x : Nat) : Nat := bs.countP fun b => Contains b x

def Apart (b c : Nat × Nat) : Prop := b.1 + b.2 ≤ c.1 ∨ c.1 + c.2 ≤ b.1

variable {b : Nat × Nat} {bs cs : List (Nat × Nat)} {x : Nat}

theorem cover_cons : cover (b :: bs) x = (if Contains b x then 1 else 0) + cover bs x := by
  rw [cover, List.countP_cons, Nat.add_comm]
  simp [cover]

theorem cover_perm (perm : bs.Perm cs) : cover bs x = cover cs x := perm.countP_eq _

theorem cover_append : cover (bs ++ cs) x = cover bs x + cover cs x := List.countP_append

theorem cover_split (a m n : Nat) :
    cover ((a, m + n) :: bs) x = cover ((a, m) :: (a + m, n) :: bs) x := by
  have whole : Contains (a, m + n) x ↔ Contains (a, m) x ∨ Contains (a + m, n) x := by
    unfold Contains
    dsimp only
    omega
  have apart : ¬ (Contains (a, m) x ∧ Contains (a + m, n) x) := by
    unfold Contains
    dsimp only
    omega
  rw [cover_cons, cover_cons, cover_cons, ← Nat.add_assoc]
  congr 1
  by_cases left : Contains (a, m) x
  · rw [if_pos left, if_pos (whole.mpr (.inl left)), if_neg fun right => apart ⟨left, right⟩]
  · by_cases right : Contains (a + m, n) x
    · rw [if_neg left, if_pos right, if_pos (whole.mpr (.inr right))]
    · rw [if_neg left, if_neg right, if_neg fun both => (whole.mp both).elim left right]

theorem exists_of_cover_pos (pos : 0 < cover bs x) : ∃ b ∈ bs, Contains b x := by
  obtain ⟨b, mem, has⟩ := List.countP_pos_iff.mp pos
  exact ⟨b, mem, of_decide_eq_true has⟩

theorem cover_pos (mem : b ∈ bs) (has : Contains b x) : 0 < cover bs x :=
  List.countP_pos_iff.mpr ⟨b, mem, decide_eq_true has⟩

theorem disjoint_of_not_contains {b c : Nat × Nat} (pos : 0 < b.2) (pos' : 0 < c.2)
    (apart : ∀ x, ¬ (Contains b x ∧ Contains c x)) : Apart b c := by
  by_contra meet
  unfold Apart at meet
  refine apart (max b.1 c.1) ?_
  unfold Contains
  omega

theorem disjoint_of_append (once : ∀ x, cover (bs ++ cs) x ≤ 1) {c : Nat × Nat} (mem : b ∈ bs)
    (mem' : c ∈ cs) (pos : 0 < b.2) (pos' : 0 < c.2) : Apart b c := by
  refine disjoint_of_not_contains pos pos' fun x both => ?_
  have := once x
  rw [cover_append] at this
  have := cover_pos mem both.1
  have := cover_pos mem' both.2
  omega

theorem pairwise_disjoint (once : ∀ x, cover bs x ≤ 1) (pos : ∀ b ∈ bs, 0 < b.2) :
    bs.Pairwise Apart := by
  induction bs with
  | nil => exact .nil
  | cons b bs ih =>
    refine .cons (fun c mem => ?_)
      (ih (fun x => ?_) fun c mem => pos c (List.mem_cons_of_mem b mem))
    · have joined : ∀ x, cover ([b] ++ bs) x ≤ 1 := once
      exact disjoint_of_append joined List.mem_cons_self mem (pos b List.mem_cons_self)
        (pos c (List.mem_cons_of_mem b mem))
    · have := once x
      rw [cover_cons] at this
      omega

end Tiling
