import Xv6.Vm.Fetch

/-!
# What `copyout` promises

`copyout` is right about an address space whose user pages are `Separate` as long as it finds a page
table for every address that it looks up.  The page directory that `setupkvm` returns has none for
the user's half.
-/

namespace Xv6.Vm

open List

/-- `copyout` returns `0` if and only if all the pages are for the user, and has copied then. -/
def CopyoutExact (d : Frame) (va : Addr) (buf : List Byte) (m : Mem) : Prop :=
  Ends (copyout d va buf) m fun r m' =>
    (r = true ↔ AllOpen m d va buf.length) ∧ (r = true → Written d va buf m m')

variable {m : Mem} {d : Frame}

/-- `copyout` is total and exact if and only if the first page of the range that is not for the
user has a page table. -/
theorem copyout_exact_iff (sep : Separate m d) (va : Addr) (buf : List Byte)
    (short : buf.length < 2 ^ 32) :
    CopyoutExact d va buf m ↔ Guarded m d va buf.length := by
  have within := copyout_within sep va buf short
  constructor
  · intro exact_
    obtain ⟨r, m', ran, -⟩ := exact_.exists
    exact ((within_ok ran).mp within).1
  · intro guarded
    refine (within.ends fun e stop => stop.2 guarded).mono fun r m' post => ⟨post.2.1, post.2.2.1⟩

/-- A copy to the two pages of a program, across the boundary between them. -/
theorem copyout_exact_loaded : ∃ m d m', Separate m d ∧
    copyout d 0x1ffc [1, 2, 3, 4, 5, 6, 7, 8] m = .ok (true, m') ∧
      Written d 0x1ffc [1, 2, 3, 4, 5, 6, 7, 8] m m' := by
  obtain ⟨s, p, img, reach, at_0, size, -⟩ := loaded_exists
  obtain ⟨g, sound⟩ := reachable_sound reach
  obtain ⟨sp, at_p, fits⟩ := (sound.alive 0 _ at_0).space
  obtain ⟨-, -, shape⟩ := fits.loaded rfl
  have sep := sound.inv.separate at_p shape.kernel
  have all : AllOpen s.mem (p.load img).pgdir 0x1ffc 8 := by
    intro i lt
    rw [sound.user at_0 rfl, Proc.accessible_iff]
    change 1 ≤ vpn _ ∧ vpn _ < pages img.sz ∧ some (pages img.sz - 2) ≠ some (vpn _)
    rw [size]
    revert i
    decide
  obtain ⟨r, m', ran, open_iff, written⟩ :=
    ((copyout_exact_iff sep 0x1ffc [1, 2, 3, 4, 5, 6, 7, 8] (by decide)).mpr
      fun i lt _ => tabled_of_present (all i lt).1).exists
  rw [open_iff.mpr all] at ran
  exact ⟨s.mem, _, m', sep, ran, written (open_iff.mpr all)⟩

theorem setupkvm_untabled :
    ∃ m d m', setupkvm kernelLayout m = .ok (some d, m') ∧ ¬ m'.Tabled d pgSize := by
  obtain ⟨free, nodup, alloc, length⟩ := frames_exist
  have inv := boot_inv nodup alloc (fun _ _ => 0) [] []
  obtain ⟨r, m', ran, g, inv', ⟨rfl, _, few⟩ | ⟨d, sp, rfl, fresh, at_d, kernel⟩⟩ :=
    (setupkvm_ends inv).exists
  · change free.length ≤ 65 at few
    omega
  · refine ⟨_, d, m', ran, (inv'.space d sp at_d).absent 0 (by decide) ?_⟩
    rw [← Option.not_isSome_iff_eq_none, kernel.tab]
    rintro ⟨u, member, low⟩
    unfold kernelPages at member
    omega

/-- In such an address space `copyout` dereferences a null pointer. -/
theorem copyout_null : ∃ m d m', setupkvm kernelLayout m = .ok (some d, m') ∧
    copyout d pgSize [7] m' = .error .nullPointer ∧ ¬ CopyoutExact d pgSize [7] m' := by
  obtain ⟨m, d, m', ran, absent⟩ := setupkvm_untabled
  have null : copyout d pgSize [7] m' = .error .nullPointer := by
    have some : 0 < [(7 : Byte)].length := Nat.one_pos
    rw [copyout, copyoutLoop_step _ some, if_neg absent]
  refine ⟨m, d, m', ran, null, fun exact_ => ?_⟩
  obtain ⟨_, _, ran, -⟩ := exact_.exists
  rw [null] at ran
  cases ran

end Xv6.Vm
