import Mathlib.Data.BitVec
import Mathlib.Logic.Function.Basic
import Mathlib.Tactic.Common

/-!
# Copying within one memory

`memmove` of `string.c`, over the bytes of a 32-bit address space.  Both loops overwrite their own
source when the ranges overlap.  `Copied` says which bytes of the destination have been written so
far; an address is placed by its distance from `d`, which wraps around as the pointers do, so that
the invariant needs no bounds.  The direction is right when the next byte to be read has not been
written yet, and only that step looks at where the two ranges lie.
-/

namespace Xv6.Kern

open Function

abbrev Memory := BitVec 32 → BitVec 8

/-- `while(n-- > 0) *--d = *--s;` -/
def copyDown (m : Memory) (d s : BitVec 32) : Nat → Memory
  | 0 => m
  | n + 1 => copyDown (update m (d - 1) (m (s - 1))) (d - 1) (s - 1) n

/-- `while(n-- > 0) *d++ = *s++;` -/
def copyUp (m : Memory) (d s : BitVec 32) : Nat → Memory
  | 0 => m
  | n + 1 => copyUp (update m d (m s)) (d + 1) (s + 1) n

def memmove (m : Memory) (dst src n : BitVec 32) : BitVec 32 × Memory :=
  if src < dst ∧ src + n > dst then (dst, copyDown m (dst + n) (src + n) n.toNat)
  else (dst, copyUp m dst src n.toNat)

/-- The bytes `lo` to `hi` of the range at `d` are those that the range at `s` held in `m`. -/
def Copied (m : Memory) (d s : BitVec 32) (lo hi : Nat) (m' : Memory) : Prop :=
  ∀ a, m' a = if lo ≤ (a - d).toNat ∧ (a - d).toNat < hi then m (s + (a - d)) else m a

section Copied

variable {m m' : Memory} {d s : BitVec 32} {lo hi : Nat}

theorem copied_refl (m : Memory) (d s : BitVec 32) (lo : Nat) : Copied m d s lo lo m :=
  fun a => (if_neg (by omega)).symm

theorem Copied.update (copied : Copied m d s lo hi m') (k lo' hi' : Nat)
    (unread : ¬ (lo ≤ (s + BitVec.ofNat 32 k - d).toNat ∧ (s + BitVec.ofNat 32 k - d).toNat < hi))
    (lt : k < 2 ^ 32) (adds : ∀ i, lo' ≤ i ∧ i < hi' ↔ i = k ∨ lo ≤ i ∧ i < hi) :
    Copied m d s lo' hi' (update m' (d + BitVec.ofNat 32 k) (m' (s + BitVec.ofNat 32 k))) := by
  intro a
  have read : m' (s + BitVec.ofNat 32 k) = m (s + BitVec.ofNat 32 k) := by
    rw [copied, if_neg unread]
  by_cases eq : a = d + BitVec.ofNat 32 k
  · have offset : a - d = BitVec.ofNat 32 k := by
      rw [eq, BitVec.add_comm, BitVec.add_sub_cancel]
    have here : (a - d).toNat = k := by
      rw [offset, BitVec.toNat_ofNat, Nat.mod_eq_of_lt lt]
    rw [if_pos ((adds _).mpr (.inl here)), offset, eq, update_self, read]
  · have there : (a - d).toNat ≠ k := by bv_omega
    rw [update_of_ne eq, copied a]
    simp only [adds, there, false_or]

theorem Copied.copyUp {k n : Nat} (copied : Copied m d s 0 k m') (lt : k + n ≤ 2 ^ 32)
    (ahead : ∀ j, k ≤ j → j < k + n → j ≤ (s + BitVec.ofNat 32 j - d).toNat) :
    Copied m d s 0 (k + n) (copyUp m' (d + BitVec.ofNat 32 k) (s + BitVec.ofNat 32 k) n) := by
  induction n generalizing k m' with
  | zero => exact copied
  | succ n ih =>
    have fresh := ahead k (Nat.le_refl k) (by omega)
    have next := copied.update k 0 (k + 1) (by omega) (by omega) (by omega)
    have done := ih next (by omega) fun j ge lt => ahead j (by omega) (by omega)
    rwa [BitVec.ofNat_add, ← BitVec.add_assoc, ← BitVec.add_assoc, Nat.add_right_comm] at done

theorem Copied.copyDown {k n : Nat} (copied : Copied m d s k n m') (le : k ≤ n) (lt : n ≤ 2 ^ 32)
    (behind : ∀ j, j < k → (s + BitVec.ofNat 32 j - d).toNat ≤ j ∨
      n ≤ (s + BitVec.ofNat 32 j - d).toNat) :
    Copied m d s 0 n (copyDown m' (d + BitVec.ofNat 32 k) (s + BitVec.ofNat 32 k) k) := by
  induction k generalizing m' with
  | zero => exact copied
  | succ k ih =>
    have back : ∀ x : BitVec 32, x + BitVec.ofNat 32 (k + 1) - 1 = x + BitVec.ofNat 32 k := by
      intro x
      rw [BitVec.ofNat_add, ← BitVec.add_assoc]
      exact BitVec.add_sub_cancel _ _
    have fresh := behind k (Nat.lt_succ_self k)
    have next := copied.update k k n (by omega) (by omega) (by omega)
    rw [Kern.copyDown, back, back]
    exact ih next (by omega) fun j lt => behind j (by omega)

end Copied

/-- `memmove` is correct for every position of the two ranges: the destination holds what the
source held, and nothing else changes. -/
theorem memmove_correct (m : Memory) (dst src n : BitVec 32)
    (dst_fits : dst.toNat + n.toNat ≤ 2 ^ 32) (src_fits : src.toNat + n.toNat ≤ 2 ^ 32) :
    (memmove m dst src n).1 = dst ∧
    (∀ i < n.toNat, (memmove m dst src n).2 (dst + BitVec.ofNat 32 i) =
      m (src + BitVec.ofNat 32 i)) ∧
    ∀ a, (∀ i < n.toNat, a ≠ dst + BitVec.ofNat 32 i) → (memmove m dst src n).2 a = m a := by
  have done : Copied m dst src 0 n.toNat (memmove m dst src n).2 := by
    have whole : BitVec.ofNat 32 n.toNat = n := BitVec.ofNat_toNat ..
    unfold memmove
    split
    · rename_i below
      have down := (copied_refl m dst src n.toNat).copyDown (Nat.le_refl _)
        n.isLt.le fun j lt => by bv_omega
      rwa [whole] at down
    · rename_i apart
      have up := (copied_refl m dst src 0).copyUp (n := n.toNat) (by omega)
        fun j _ lt => by bv_omega
      simpa using up
  refine ⟨?_, fun i lt => ?_, fun a out => ?_⟩
  · unfold memmove
    split <;> rfl
  · have offset : dst + BitVec.ofNat 32 i - dst = BitVec.ofNat 32 i := by
      rw [BitVec.add_comm, BitVec.add_sub_cancel]
    rw [done, offset, if_pos (by bv_omega)]
  · rw [done, if_neg]
    rintro ⟨-, inside⟩
    exact out _ inside (by bv_omega)

theorem memmove_correct_overlap : (memmove (fun a => a.setWidth 8) 5 3 4).1 = 5 ∧
    ∀ i < 4, (memmove (fun a => a.setWidth 8) 5 3 4).2 (5 + BitVec.ofNat 32 i) =
      (3 + BitVec.ofNat 32 i).setWidth 8 := by
  have both := memmove_correct (fun a => a.setWidth 8) 5 3 4 (by decide) (by decide)
  exact ⟨both.1, both.2.1⟩

end Xv6.Kern
