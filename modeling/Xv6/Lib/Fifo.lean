import Mathlib.Algebra.Group.Nat.Defs
import Mathlib.Data.List.Basic
import Mathlib.Data.Nat.ModEq
import Mathlib.Logic.Function.Basic
import Mathlib.Tactic.Common

/-!
# A ring of cells with free-running counters

`N` cells are filled and emptied in turn.  The two counters are `w`-bit words that only ever
increase and wrap around; a counter picks a cell by its remainder modulo `N`.  As long as `N`
divides `2 ^ w` the remainder survives the wrap-around, and the ring is a queue for ever:
`contents_push` and `contents_pop` say so.  A counter may also be taken back one step
(`contents_unpush`, `unpop_pop`).
-/

structure Fifo (w N : Nat) (α : Type) where
  data : Fin N → α
  nread : BitVec w
  nwrite : BitVec w

namespace Fifo

variable {w N : Nat} [NeZero N] {α : Type}

/-- The cell that the counter `x` picks. -/
def cell (x : BitVec w) : Fin N := Fin.ofNat N x.toNat

def count (f : Fifo w N α) : Nat := (f.nwrite - f.nread).toNat

def contents (f : Fifo w N α) : List α :=
  (List.range f.count).map fun j => f.data (cell (f.nread + BitVec.ofNat w j))

def Empty (f : Fifo w N α) : Prop := f.nread = f.nwrite

def Full (f : Fifo w N α) : Prop := f.nwrite = f.nread + BitVec.ofNat w N

instance (f : Fifo w N α) : Decidable f.Empty := inferInstanceAs (Decidable (_ = _))

instance (f : Fifo w N α) : Decidable f.Full := inferInstanceAs (Decidable (_ = _))

def push (f : Fifo w N α) (a : α) : Fifo w N α :=
  { f with data := Function.update f.data (cell f.nwrite) a, nwrite := f.nwrite + 1 }

def head (f : Fifo w N α) : α := f.data (cell f.nread)

def pop (f : Fifo w N α) : Fifo w N α := { f with nread := f.nread + 1 }

def last (f : Fifo w N α) : α := f.data (cell (f.nwrite - 1))

def unpush (f : Fifo w N α) : Fifo w N α := { f with nwrite := f.nwrite - 1 }

def unpop (f : Fifo w N α) : Fifo w N α := { f with nread := f.nread - 1 }

/-! ## Counting -/

section Count

variable {f : Fifo w N α}

omit [NeZero N] in
theorem nwrite_eq (f : Fifo w N α) : f.nwrite = f.nread + BitVec.ofNat w f.count := by
  unfold count
  rw [BitVec.ofNat_toNat, BitVec.setWidth_eq, BitVec.add_comm, BitVec.sub_add_cancel]

omit [NeZero N] in
theorem count_of_nwrite {n : Nat} (lt : n < 2 ^ w) (eq : f.nwrite = f.nread + BitVec.ofNat w n) :
    f.count = n := by
  unfold count
  rw [eq, BitVec.add_comm, BitVec.add_sub_cancel, BitVec.toNat_ofNat, Nat.mod_eq_of_lt lt]

omit [NeZero N] in
theorem count_eq_zero : f.count = 0 ↔ f.Empty := by
  constructor
  · intro zero
    have eq := f.nwrite_eq
    rw [zero, BitVec.add_zero] at eq
    exact eq.symm
  · intro empty
    refine count_of_nwrite (Nat.two_pow_pos w) ?_
    rw [BitVec.add_zero]
    exact empty.symm

omit [NeZero N] in
theorem count_eq_size (lt : N < 2 ^ w) : f.count = N ↔ f.Full := by
  constructor
  · intro eq
    have next := f.nwrite_eq
    rwa [eq] at next
  · exact count_of_nwrite lt

theorem cell_add (dvd : N ∣ 2 ^ w) (x : BitVec w) (j : Nat) :
    (cell (x + BitVec.ofNat w j) : Fin N) = Fin.ofNat N (x.toNat + j) := by
  apply Fin.ext
  simp only [cell, Fin.val_ofNat, BitVec.toNat_add, BitVec.toNat_ofNat, Nat.add_mod_mod]
  exact Nat.mod_mod_of_dvd _ dvd

theorem cell_ne {x j k : Nat} (lt : j < k) (near : k < N) :
    Fin.ofNat N (x + j) ≠ Fin.ofNat N (x + k) := by
  intro eq
  have eq := congrArg Fin.val eq
  simp only [Fin.val_ofNat] at eq
  have mod : Nat.ModEq N j k := Nat.ModEq.add_left_cancel' x eq
  have := mod.eq_of_lt_of_lt (by omega) near
  omega

end Count

/-! ## A queue -/

section Queue

variable {f : Fifo w N α}

theorem contents_length (f : Fifo w N α) : f.contents.length = f.count := by
  simp [contents]

theorem count_push (a : α) (lt : f.count + 1 < 2 ^ w) : (f.push a).count = f.count + 1 := by
  refine count_of_nwrite lt ?_
  change f.nwrite + 1 = f.nread + BitVec.ofNat w (f.count + 1)
  rw [BitVec.ofNat_add, ← BitVec.add_assoc, ← nwrite_eq]
  rfl

omit [NeZero N] in
theorem count_pop (some : ¬ f.Empty) : f.pop.count + 1 = f.count := by
  have lt : f.count < 2 ^ w := (f.nwrite - f.nread).isLt
  obtain ⟨n, eq⟩ := Nat.exists_eq_succ_of_ne_zero fun zero => some (count_eq_zero.mp zero)
  suffices fewer : f.pop.count = n by omega
  refine count_of_nwrite (by omega) ?_
  have next := f.nwrite_eq
  rw [eq, Nat.succ_eq_add_one, Nat.add_comm, BitVec.ofNat_add, ← BitVec.add_assoc] at next
  exact next

theorem contents_push (dvd : N ∣ 2 ^ w) (lt : N < 2 ^ w) (room : f.count < N) (a : α) :
    (f.push a).contents = f.contents ++ [a] := by
  have more := count_push (f := f) a (by omega)
  have last : (cell f.nwrite : Fin N) = Fin.ofNat N (f.nread.toNat + f.count) := by
    rw [← cell_add dvd, ← nwrite_eq]
  unfold contents
  rw [more, List.range_succ, List.map_append]
  congr 1
  · refine List.map_congr_left fun j member => ?_
    have before : j < f.count := List.mem_range.mp member
    change Function.update f.data (cell f.nwrite) a (cell (f.nread + BitVec.ofNat w j)) = _
    rw [Function.update_of_ne]
    rw [cell_add dvd, last]
    exact cell_ne before room
  · change [Function.update f.data (cell f.nwrite) a (cell (f.nread + BitVec.ofNat w f.count))] = _
    rw [← nwrite_eq, Function.update_self]

theorem contents_pop (some : ¬ f.Empty) : f.contents = f.head :: f.pop.contents := by
  unfold contents head
  rw [← count_pop some, List.range_succ_eq_map, List.map_cons, List.map_map, BitVec.add_zero]
  congr 1
  refine List.map_congr_left fun j _ => ?_
  simp only [Function.comp, Nat.succ_eq_add_one, pop]
  rw [Nat.add_comm j 1, BitVec.ofNat_add, ← BitVec.add_assoc]
  rfl

omit [NeZero N] in
@[simp] theorem unpop_pop (f : Fifo w N α) : f.pop.unpop = f := by
  change ({ f with nread := f.nread + 1 - 1 } : Fifo w N α) = f
  rw [BitVec.add_sub_cancel]

theorem contents_unpush (some : ¬ f.Empty) : f.contents = f.unpush.contents ++ [f.last] := by
  have lt : f.count < 2 ^ w := (f.nwrite - f.nread).isLt
  obtain ⟨n, eq⟩ := Nat.exists_eq_succ_of_ne_zero fun zero => some (count_eq_zero.mp zero)
  have last_eq : f.nwrite - 1 = f.nread + BitVec.ofNat w n := by
    have next := f.nwrite_eq
    rw [eq, Nat.succ_eq_add_one, BitVec.ofNat_add, ← BitVec.add_assoc] at next
    rw [next]
    exact BitVec.add_sub_cancel ..
  have fewer : f.unpush.count = n := count_of_nwrite (f := f.unpush) (by omega) last_eq
  unfold contents
  rw [fewer, eq, Nat.succ_eq_add_one, List.range_succ, List.map_append, List.map_singleton, last,
    last_eq]
  rfl

end Queue

end Fifo
