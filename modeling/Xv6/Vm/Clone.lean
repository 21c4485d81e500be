import Xv6.Vm.Invariant

/-!
# The child has what the parent has

`copyuvm` seen from outside: what the page tables of the parent and of the child translate to,
before and after, and which pages the allocator has.
-/

namespace Xv6.Vm

/-- A page table of the kernel that maps the pages from `PGSIZE` up to the size `sz`. -/
structure WellShaped (L : Layout) (m : Mem) (pgdir : Frame) (sz : Addr) : Prop where
  limit : sz ≤ kernBase
  table : ∃ g sp, Inv L m g ∧ g.space pgdir = some sp
  present : ∀ va, pgSize ≤ va → va < pgRoundUp sz → Has pteP (m.pte pgdir va)

/-- Nothing has happened to the page table `pgdir` and to the pages that it maps for the user. -/
structure Untouched (pgdir : Frame) (m m' : Mem) : Prop where
  pte : ∀ va, m'.pte pgdir va = m.pte pgdir va
  page : ∀ va, va < kernBase → Has pteP (m.pte pgdir va) →
    m'.page (pteFrame (m.pte pgdir va)) = m.page (pteFrame (m.pte pgdir va))

/-- The page table `d` maps a copy of the pages of `pgdir` below the size `sz`. -/
structure Cloned (L : Layout) (pgdir d : Frame) (sz : Addr) (m m' : Mem) : Prop where
  copy : ∀ va, pgSize ≤ va → va < pgRoundUp sz → Has pteP (m'.pte d va) ∧
    pteFlags (m'.pte d va) = pteFlags (m.pte pgdir va) ∧
    m'.page (pteFrame (m'.pte d va)) = m.page (pteFrame (m.pte pgdir va))
  fresh : ∀ va, pgSize ≤ va → va < pgRoundUp sz →
    pteFrame (m'.pte d va) ∈ m.free ∧ pteFrame (m'.pte d va) ∉ m'.free
  own : ∀ va va', va < kernBase → va' < kernBase → Has pteP (m'.pte d va) →
    Has pteP (m'.pte d va') → pteFrame (m'.pte d va) = pteFrame (m'.pte d va') → vpn va = vpn va'
  apart : ∀ va va', va < kernBase → va' < kernBase → Has pteP (m'.pte d va) →
    Has pteP (m'.pte pgdir va') → pteFrame (m'.pte d va) ≠ pteFrame (m'.pte pgdir va')
  unmapped : ∀ va, va < kernBase → va < pgSize ∨ pgRoundUp sz ≤ va → ¬ Has pteP (m'.pte d va)
  kernel : ∃ m1, setupkvm L m = .ok (some d, m1) ∧
    ∀ va, kernBase ≤ va → m'.pte d va = m1.pte d va

variable {L : Layout} {m m' : Mem} {g g' : Ghost} {pgdir d : Frame} {sp sp' parent : Space}
    {sz : Addr}

theorem pgRoundUp_pages (limit : sz ≤ kernBase) : (pgRoundUp sz).toNat = 4096 * pages sz := by
  have : sz.toNat ≤ 2 ^ 31 := limit
  rw [pgRoundUp_toNat (by omega), pages]
  omega

theorem in_pages_iff (limit : sz ≤ kernBase) (va : Addr) :
    pgSize ≤ va ∧ va < pgRoundUp sz ↔ 1 ≤ vpn va ∧ vpn va < pages sz := by
  have size : pgSize.toNat = 4096 := rfl
  rw [BitVec.le_def, BitVec.lt_def, pgRoundUp_pages limit, size]
  unfold vpn
  omega

section Inv

variable (inv : Inv L m g)
include inv

theorem untouched_of_space (inv' : Inv L m' g') (at_p : g.space pgdir = some sp)
    (at_p' : g'.space pgdir = some sp)
    (kept : ∀ f v, g.own f = .user pgdir v → m'.page f = m.page f) : Untouched pgdir m m' := by
  have ok := inv.space pgdir sp at_p
  refine ⟨fun va => ?_, fun va low here => kept _ (vpn va) ((ok.user _ _).mpr ?_)⟩
  · rw [(inv'.space pgdir sp at_p').pte_eq, ok.pte_eq]
  · rw [ok.pte_eq] at here ⊢
    exact ⟨(low_iff va).mp low, here, rfl⟩

theorem free_perm (inv' : Inv L m' g') (own : g'.own = g.own) : m'.free.Perm m.free := by
  refine (List.perm_ext_iff_of_nodup inv'.books.nodup inv.books.nodup).mpr fun f => ?_
  rw [inv'.books.free_iff, inv.books.free_iff, own]

theorem Restores.untouched (inv' : Inv L m' g') (restores : Restores m g m' g')
    (at_p : g.space pgdir = some sp) : Untouched pgdir m m' :=
  untouched_of_space inv inv' at_p (by rw [restores.space, at_p]) fun f v user =>
    restores.kept f (by rw [user]; simp)

theorem Fresh.untouched (inv' : Inv L m' g') (fresh : Fresh d m g m' g')
    (at_p : g.space pgdir = some sp) : Untouched pgdir m m' := by
  have ne : pgdir ≠ d := by
    rintro rfl
    cases fresh.free.symm.trans (inv.space pgdir sp at_p).dir
  refine untouched_of_space inv inv' at_p ?_ fun f v user => ?_
  · rw [fresh.grows.space pgdir ne, at_p]
  · have other : f ≠ d := by
      rintro rfl
      cases fresh.free.symm.trans user
    exact fresh.grows.kept f other (by rw [user]; simp) other (by rw [user]; simp)

theorem Fresh.was_free (fresh : Fresh d m g m' g') {f : Frame} {v : Nat}
    (user : g'.own f = .user d v) : g.own f = .free := by
  rcases eq_or_ne f d with rfl | ne
  · exact fresh.free
  · by_contra taken
    rw [fresh.grows.own f ne taken] at user
    exact inv.not_in_of_free fresh.free f (by rw [user]; exact rfl)

theorem Filled.cloned (inv' : Inv L m' g') (at_p : g.space pgdir = some parent)
    (limit : sz ≤ kernBase) (present : ∀ u, 1 ≤ u → u < pages sz → Has pteP (parent.pte u))
    (fresh : Fresh d m g m' g') (at_d : g'.space d = some sp') (kernel : KernelOnly kernelPages sp)
    (filled : Filled (CopyOf m parent) sp m' sp' 1 (max 1 (pages sz))) {m1 : Mem} {g1 : Ghost}
    (ran : setupkvm L m = .ok (some d, m1)) (inv1 : Inv L m1 g1) (at_d1 : g1.space d = some sp) :
    Cloned L pgdir d sz m m' := by
  have ok := inv.space pgdir parent at_p
  have ok_d := inv'.space d sp' at_d
  have below : pages sz ≤ 2 ^ 19 := by
    have : sz.toNat ≤ 2 ^ 31 := limit
    unfold pages
    omega
  have user : ∀ va, va < kernBase → Has pteP (m'.pte d va) →
      g'.own (pteFrame (m'.pte d va)) = .user d (vpn va) := by
    intro va low here
    rw [ok_d.pte_eq] at here ⊢
    exact (ok_d.user _ _).mpr ⟨(low_iff va).mp low, here, rfl⟩
  have copied : ∀ va, pgSize ≤ va → va < pgRoundUp sz → va < kernBase ∧
      CopyOf m parent (vpn va) (m'.pte d va) (m'.page (pteFrame (m'.pte d va))) := by
    intro va from_page to_sz
    have inside := (in_pages_iff limit va).mp ⟨from_page, to_sz⟩
    rw [low_iff, ok_d.pte_eq]
    exact ⟨by omega, filled.new (vpn va) inside.1 (by omega)⟩
  have untouched := fresh.untouched inv inv' at_p
  constructor
  case copy =>
    intro va from_page to_sz
    have inside := (in_pages_iff limit va).mp ⟨from_page, to_sz⟩
    obtain ⟨-, ⟨f, entry⟩, page⟩ := copied va from_page to_sz
    rw [page, ok.pte_eq, entry]
    exact ⟨has_present _, pteFlags_entry f (present _ inside.1 inside.2), rfl⟩
  case fresh =>
    intro va from_page to_sz
    obtain ⟨low, copy⟩ := copied va from_page to_sz
    have mine := user va low copy.present
    rw [inv.books.free_iff, inv'.books.free_iff, mine]
    exact ⟨fresh.was_free inv mine, by simp⟩
  case own =>
    intro va va' low low' here here' eq
    have first := user va low here
    rw [eq, user va' low' here'] at first
    injection first with _ same
    exact same.symm
  case apart =>
    intro va va' low low' here here' eq
    have mine := fresh.was_free inv (user va low here)
    rw [untouched.pte, ok.pte_eq] at here'
    rw [eq, untouched.pte, ok.pte_eq] at mine
    cases mine.symm.trans ((ok.user _ _).mpr ⟨(low_iff va').mp low', here', rfl⟩)
  case unmapped =>
    intro va low out
    have low' := (low_iff va).mp low
    have size : pgSize.toNat = 4096 := rfl
    rw [BitVec.lt_def, BitVec.le_def, pgRoundUp_pages limit, size] at out
    have outside : vpn va < 1 ∨ max 1 (pages sz) ≤ vpn va := by
      unfold vpn
      omega
    rw [ok_d.pte_eq, filled.old _ outside, kernel.rest _ (by unfold kernelPages; omega)]
    exact not_has_zero _
  case kernel =>
    refine ⟨m1, ran, fun va high => ?_⟩
    have high' : ¬ vpn va < 2 ^ 19 := mt (low_iff va).mpr (BitVec.not_lt.mpr high)
    rw [ok_d.pte_eq, (inv1.space d sp at_d1).pte_eq, filled.old _ (by omega)]

end Inv

theorem WellShaped.pages (shaped : WellShaped L m pgdir sz) : ∃ g parent, Inv L m g ∧
    g.space pgdir = some parent ∧ ∀ u, 1 ≤ u → u < pages sz → Has pteP (parent.pte u) := by
  obtain ⟨g, parent, inv, at_p⟩ := shaped.table
  refine ⟨g, parent, inv, at_p, fun u from_one below => ?_⟩
  have limit : sz.toNat ≤ 2 ^ 31 := shaped.limit
  have page : vpn (BitVec.ofNat 32 (4096 * u)) = u := by
    have := (lt_pages sz u).mp below
    unfold vpn
    rw [BitVec.toNat_ofNat]
    omega
  have inside := (in_pages_iff shaped.limit (BitVec.ofNat 32 (4096 * u))).mpr (by rw [page]; omega)
  have here := shaped.present _ inside.1 inside.2
  rwa [(inv.space pgdir parent at_p).pte_eq, page] at here

/-- **`fork` copies the address space faithfully.**  `copyuvm` ends whatever memory there is, and
leaves the parent alone; it makes a faithful copy, or gives back every page it has taken. -/
theorem copyuvm_faithful (shaped : WellShaped L m pgdir sz) :
    Ends (copyuvm L pgdir sz) m fun r m' => Untouched pgdir m m' ∧
      match r with
      | none => m'.free.Perm m.free
      | some d => Cloned L pgdir d sz m m' := by
  obtain ⟨g, parent, inv, at_p, present⟩ := shaped.pages
  refine (copyuvm_ends inv at_p shaped.limit present).mono ?_
  rintro r m' ⟨g', inv', ⟨rfl, restores, -⟩ |
    ⟨d, sp, sp', rfl, fresh, at_d, kernel, filled, m1, g1, ran, inv1, at_d1⟩⟩
  · exact ⟨restores.untouched inv inv' at_p, free_perm inv inv' restores.own⟩
  · exact ⟨fresh.untouched inv inv' at_p,
      filled.cloned inv inv' at_p shaped.limit present fresh at_d
      kernel ran inv1 at_d1⟩

theorem Sound.wellShaped {s : System} {i : Fin nproc} {p : Proc} (sound : Sound L s g)
    (at_i : s.proc i = some p) (loaded : p.life = .loaded) :
    WellShaped L s.mem p.pgdir p.sz := by
  obtain ⟨sp, at_p, fits⟩ := (sound.alive i p at_i).space
  obtain ⟨-, limit, shape⟩ := fits.loaded loaded
  have low : p.sz ≤ kernBase := Nat.le_of_lt limit
  refine ⟨low, ⟨g, sp, sound.inv, at_p⟩, fun va from_page to_sz => ?_⟩
  have inside := (in_pages_iff low va).mp ⟨from_page, to_sz⟩
  have := pages_le limit
  rw [(sound.inv.space _ sp at_p).pte_eq]
  exact (shape.present _ (by omega)).mpr inside

/-- The copy of a process with a program, a guard page and a stack. -/
theorem copyuvm_faithful_loaded : ∃ m pgdir d m', WellShaped kernelLayout m pgdir 0x5000 ∧
    copyuvm kernelLayout pgdir 0x5000 m = .ok (some d, m') ∧ Untouched pgdir m m' ∧
      Cloned kernelLayout pgdir d 0x5000 m m' := by
  obtain ⟨s, p, img, reach, at_0, size, room⟩ := loaded_exists
  obtain ⟨g, sound⟩ := reachable_sound reach
  have shaped : WellShaped kernelLayout s.mem img.pgdir 0x5000 := size ▸ sound.wellShaped at_0 rfl
  obtain ⟨g, parent, inv, at_p, present⟩ := shaped.pages
  obtain ⟨r, m', ran, untouched, cloned⟩ := (copyuvm_faithful shaped).exists
  obtain ⟨g', -, ⟨rfl, -, few⟩ | ⟨d, sp, sp', rfl, -⟩⟩ :=
    (ends_of_eq ran).mp (copyuvm_ends inv at_p shaped.limit present)
  · change _ ≤ 2055 at few
    omega
  · exact ⟨s.mem, _, d, m', shaped, ran, untouched, cloned⟩

end Xv6.Vm
