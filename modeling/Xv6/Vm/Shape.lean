import Xv6.Vm.Copy

/-!
# The shape of a process's address space

`Shape` is what the rest of the kernel believes about a page table: the user pages are those
from page 1 up to the size of the process, all of them for the user except the guard page, all
of them writable except those that `mprotect` has closed, and nothing in the kernel's half is for
the user.  Each change of a page table that the lemmas about `vm.c` describe keeps it.

`Tables` adds, for the address space that `exec` builds, where there are page-table pages.
-/

namespace Xv6.Vm

/-- The pages below page `hi` except page 0 are mapped; `guard` is the page that the user has no
access to and `ro` tells the read-only pages. -/
structure Shape (sp : Space) (hi : Nat) (guard : Option Nat) (ro : Nat → Bool) : Prop where
  present : ∀ v, v < 2 ^ 19 → (Has pteP (sp.pte v) ↔ 1 ≤ v ∧ v < hi)
  user : ∀ v, v < 2 ^ 19 → 1 ≤ v → v < hi → (Has pteU (sp.pte v) ↔ guard ≠ some v)
  write : ∀ v, v < 2 ^ 19 → 1 ≤ v → v < hi → (Has pteW (sp.pte v) ↔ ro v = false)
  kernel : ∀ v, 2 ^ 19 ≤ v → v < 2 ^ 20 → ¬ Has pteU (sp.pte v)
  marks : ∀ v, hi ≤ v → guard ≠ some v ∧ ro v = false

def Tables (sp : Space) (hi : Nat) : Prop :=
  ∀ i, (sp.tab i).isSome ↔ (∃ u, kernelPages u ∧ u / 1024 = i) ∨ ∃ u, 1 ≤ u ∧ u < hi ∧ u / 1024 = i

variable {L : Layout} {m m' : Mem} {g g' : Ghost} {d : Frame} {sp sp' : Space} {hi : Nat}
  {guard : Option Nat} {ro : Nat → Bool}

theorem Shape.absent (shape : Shape sp hi guard ro) (v : Nat) (low : v < 2 ^ 19) (above : hi ≤ v) :
    ¬ Has pteP (sp.pte v) := by
  rw [shape.present v low]
  omega

theorem KernelOnly.shape (kernel : KernelOnly kernelPages sp) {hi : Nat} (le : hi ≤ 1) :
    Shape sp hi none fun _ => false where
  present v low := by
    rw [kernel.rest v (by unfold kernelPages; omega)]
    exact ⟨fun h => absurd h (not_has_zero _), fun h => by omega⟩
  user v _ _ _ := by omega
  write v _ _ _ := by omega
  kernel v _ _ := by
    by_cases mapped : kernelPages v
    · exact (kernel.entry v mapped).2
    · rw [kernel.rest v mapped]
      exact not_has_zero _
  marks _ _ := ⟨by simp, rfl⟩

theorem KernelOnly.tables (kernel : KernelOnly kernelPages sp) : Tables sp 1 := by
  intro i
  rw [kernel.tab, or_iff_left]
  rintro ⟨u, _, _, _⟩
  omega

theorem Shape.congr (shape : Shape sp hi guard ro) (same : ∀ v, v < 2 ^ 20 → sp'.pte v = sp.pte v) :
    Shape sp' hi guard ro where
  present v low := by
    rw [same v (by omega)]
    exact shape.present v low
  user v low := by
    rw [same v (by omega)]
    exact shape.user v low
  write v low := by
    rw [same v (by omega)]
    exact shape.write v low
  kernel v high lt := by
    rw [same v lt]
    exact shape.kernel v high lt
  marks := shape.marks

variable {hi' : Nat}

theorem Shape.grow (shape : Shape sp hi guard ro) (filled : Filled ZeroPage sp m' sp' hi hi')
    (from_one : 1 ≤ hi) (le : hi ≤ hi') (low : hi' ≤ 2 ^ 19) : Shape sp' hi' guard ro where
  present v lt := by
    rcases Nat.lt_or_ge v hi with old | new
    · rw [filled.old v (.inl old), shape.present v lt]
      omega
    · rcases Nat.lt_or_ge v hi' with inside | above
      · exact ⟨fun _ => by omega, fun _ => (filled.new v new inside).1⟩
      · rw [filled.old v (.inr above), shape.present v lt]
        omega
  user v lt pos below := by
    rcases Nat.lt_or_ge v hi with old | new
    · rw [filled.old v (.inl old)]
      exact shape.user v lt pos old
    · exact iff_of_true (filled.new v new below).2.2.1 (shape.marks v new).1
  write v lt pos below := by
    rcases Nat.lt_or_ge v hi with old | new
    · rw [filled.old v (.inl old)]
      exact shape.write v lt pos old
    · exact iff_of_true (filled.new v new below).2.1 (shape.marks v new).2
  kernel v high lt := by
    rw [filled.old v (.inr (by omega))]
    exact shape.kernel v high lt
  marks v above := shape.marks v (by omega)

theorem Tables.grow {P : Nat → Addr → Page → Prop} (tables : Tables sp hi)
    (filled : Filled P sp m' sp' hi hi') (from_one : 1 ≤ hi) (le : hi ≤ hi') : Tables sp' hi' := by
  intro i
  rw [filled.tab, tables i, or_assoc]
  refine or_congr_right ⟨?_, ?_⟩
  · rintro (⟨u, pos, below, eq⟩ | ⟨u, above, below, eq⟩)
    · exact ⟨u, pos, by omega, eq⟩
    · exact ⟨u, by omega, below, eq⟩
  · rintro ⟨u, pos, below, eq⟩
    rcases Nat.lt_or_ge u hi with old | new
    · exact .inl ⟨u, pos, old, eq⟩
    · exact .inr ⟨u, new, below, eq⟩

theorem Shape.unfilled (shape : Shape sp hi guard ro)
    (unfilled : Unfilled L m g d sp hi hi' m' g' sp') (low : hi' ≤ 2 ^ 19) :
    Shape sp' hi guard ro where
  present v lt := by
    by_cases new : hi ≤ v ∧ v < hi'
    · exact ⟨fun here => absurd here (unfilled.gone v new.1 new.2), fun _ => by omega⟩
    · rw [unfilled.old v (by omega)]
      exact shape.present v lt
  user v lt pos below := by
    rw [unfilled.old v (.inl below)]
    exact shape.user v lt pos below
  write v lt pos below := by
    rw [unfilled.old v (.inl below)]
    exact shape.write v lt pos below
  kernel v high lt := by
    rw [unfilled.old v (.inr (by omega))]
    exact shape.kernel v high lt
  marks := shape.marks

/-- The guard page, if it is below page `lo`. -/
def cutGuard (guard : Option Nat) (lo : Nat) : Option Nat := guard.filter fun v => v < lo

def cutRo (ro : Nat → Bool) (lo v : Nat) : Bool := ro v && decide (v < lo)

theorem cutGuard_ne {lo v : Nat} (below : v < lo) :
    cutGuard guard lo ≠ some v ↔ guard ≠ some v := by
  simp [cutGuard, below]

theorem Shape.cut (shape : Shape sp hi guard ro) :
    Shape sp hi (cutGuard guard hi) (cutRo ro hi) where
  present := shape.present
  user v lt pos below := by
    rw [cutGuard_ne below]
    exact shape.user v lt pos below
  write v lt pos below := by
    rw [shape.write v lt pos below]
    simp [cutRo, below]
  kernel := shape.kernel
  marks v above := by
    simp [cutGuard, cutRo, Nat.not_lt.mpr above]

theorem Shape.shrink {lo : Nat} {oldsz : Addr} (shape : Shape sp (pages oldsz) guard ro)
    (limit : oldsz.toNat ≤ 2 ^ 31) (unmapped : Unmapped sp sp' lo oldsz) (le : lo ≤ pages oldsz) :
    Shape sp' lo (cutGuard guard lo) (cutRo ro lo) where
  present v lt := by
    have size := lt_pages oldsz v
    rcases Nat.lt_or_ge v lo with old | gone
    · rw [unmapped.stays v (.inl old), shape.present v lt]
      omega
    · refine ⟨fun here => ?_, fun h => by omega⟩
      by_cases below : v < pages oldsz
      · exact absurd here (unmapped.gone v gone (size.mp below))
      · rw [unmapped.stays v (.inr (by omega)), shape.present v lt] at here
        omega
  user v lt pos below := by
    rw [unmapped.stays v (.inl below), cutGuard_ne below]
    exact shape.user v lt pos (by omega)
  write v lt pos below := by
    rw [unmapped.stays v (.inl below), shape.write v lt pos (by omega)]
    simp [cutRo, below]
  kernel v high lt := by
    rw [unmapped.stays v (.inr (by omega))]
    exact shape.kernel v high lt
  marks v above := by
    simp [cutGuard, cutRo, Nat.not_lt.mpr above]

theorem Shape.copy {parent : Space} (shape : Shape parent hi guard ro)
    (kernel : KernelOnly kernelPages sp) (filled : Filled (CopyOf m parent) sp m' sp' 1 (max 1 hi))
    (low : hi ≤ 2 ^ 19) : Shape sp' hi guard ro where
  present v lt := by
    by_cases copied : 1 ≤ v ∧ v < hi
    · exact iff_of_true (filled.new v copied.1 (by omega)).present copied
    · rw [filled.old v (by omega), kernel.rest v (by unfold kernelPages; omega)]
      exact iff_of_false (not_has_zero _) copied
  user v lt pos below := by
    rw [(filled.new v pos (by omega)).flag (by decide) (by decide)]
    exact shape.user v lt pos below
  write v lt pos below := by
    rw [(filled.new v pos (by omega)).flag (by decide) (by decide)]
    exact shape.write v lt pos below
  kernel v high lt := by
    rw [filled.old v (by omega)]
    exact (kernel.shape (Nat.zero_le 1)).kernel v high lt
  marks := shape.marks

theorem Shape.setPte {v : Nat} {x : Addr} {guard' : Option Nat} {ro' : Nat → Bool}
    (shape : Shape sp hi guard ro) (low : v < 2 ^ 19) (pos : 1 ≤ v) (below : v < hi)
    (present : Has pteP x) (user : Has pteU x ↔ guard' ≠ some v)
      (write : Has pteW x ↔ ro' v = false)
    (others : ∀ u, u ≠ v → (guard' ≠ some u ↔ guard ≠ some u) ∧ ro' u = ro u) :
    Shape (sp.setPte v x) hi guard' ro' where
  present u lt := by
    rcases eq_or_ne u v with rfl | ne
    · rw [Space.setPte_self]
      exact iff_of_true present ⟨pos, below⟩
    · rw [sp.setPte_ne ne]
      exact shape.present u lt
  user u lt pos' below' := by
    rcases eq_or_ne u v with rfl | ne
    · rw [Space.setPte_self]
      exact user
    · rw [sp.setPte_ne ne, (others u ne).1]
      exact shape.user u lt pos' below'
  write u lt pos' below' := by
    rcases eq_or_ne u v with rfl | ne
    · rw [Space.setPte_self]
      exact write
    · rw [sp.setPte_ne ne, (others u ne).2]
      exact shape.write u lt pos' below'
  kernel u high lt := by
    rw [sp.setPte_ne (by omega)]
    exact shape.kernel u high lt
  marks u above := by
    have ne : u ≠ v := by omega
    rw [(others u ne).1, (others u ne).2]
    exact shape.marks u above

end Xv6.Vm
