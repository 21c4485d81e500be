import Mathlib.Algebra.BigOperators.Ring.Finset
import Mathlib.Algebra.Order.BigOperators.Group.Finset
import Mathlib.Data.Fintype.BigOperators

/-!
# Weighted tallies over a finite family

`tally w g` adds the weight `w` of every component of a finite family `g`.  The
counters a program keeps (how many clients are inside, how much they reserved)
are such sums; `tally_update` says what changing one component does to them.
-/

variable {P α : Type} [Fintype P]

def tally (w : α → ℤ) (g : P → α) : ℤ := ∑ p, w (g p)

variable {w : α → ℤ} {g : P → α}

theorem tally_congr {h : P → α} (same : ∀ p, w (g p) = w (h p)) : tally w g = tally w h :=
  Finset.sum_congr rfl fun p _ => same p

theorem tally_update [DecidableEq P] (w : α → ℤ) (g : P → α) (p : P) (a : α) :
    tally w (Function.update g p a) = tally w g - w (g p) + w a := by
  have moved : tally w (Function.update g p a) =
      ∑ q, Function.update (fun q => w (g q)) p (w a) q :=
    Finset.sum_congr rfl fun q _ => Function.apply_update (fun _ => w) g p a q
  have kept := Finset.sum_eq_add_sum_sdiff_singleton_of_mem (Finset.mem_univ p) fun q => w (g q)
  rw [moved, Finset.sum_update_of_mem (Finset.mem_univ p), tally, kept]
  omega

theorem tally_nonneg (pos : ∀ p, 0 ≤ w (g p)) : 0 ≤ tally w g :=
  Finset.sum_nonneg fun p _ => pos p

theorem tally_eq_zero (zero : ∀ p, w (g p) = 0) : tally w g = 0 :=
  Finset.sum_eq_zero fun p _ => zero p

theorem le_tally (pos : ∀ p, 0 ≤ w (g p)) (p : P) : w (g p) ≤ tally w g :=
  Finset.single_le_sum (f := fun p => w (g p)) (fun q _ => pos q) (Finset.mem_univ p)

theorem add_le_tally [DecidableEq P] (pos : ∀ p, 0 ≤ w (g p)) {p q : P} (ne : p ≠ q) :
    w (g p) + w (g q) ≤ tally w g := by
  rw [← Finset.sum_pair (f := fun r => w (g r)) ne]
  exact Finset.sum_le_sum_of_subset_of_nonneg (Finset.subset_univ _) fun r _ _ => pos r

theorem tally_mono {β : Type} {v : α → ℤ} {w : β → ℤ} {h : P → β} (le : ∀ p, v (g p) ≤ w (h p)) :
    tally v g ≤ tally w h :=
  Finset.sum_le_sum fun p _ => le p

theorem tally_le_mul {v : α → ℤ} {c : ℤ} (le : ∀ p, v (g p) ≤ c * w (g p)) :
    tally v g ≤ c * tally w g := by
  unfold tally
  rw [Finset.mul_sum]
  exact Finset.sum_le_sum fun p _ => le p
