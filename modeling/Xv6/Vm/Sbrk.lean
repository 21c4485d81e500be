import Xv6.Vm.Clone

/-!
# What `sbrk` tells its caller

`growproc` for any size and any increment.  It reports success with a size, and failure with -1;
two increments are reported wrongly.  One that takes more than the process has wraps around, above
the old size, and `deallocuvm` has nothing to do: a success that changes nothing.  One that takes
exactly what the process has leaves the size 0, which `growproc` takes for a failure.
-/

namespace Xv6.Vm

/-- The pages of a process are those from `PGSIZE` up to its size. -/
structure Proc.InShape (L : Layout) (m : Mem) (p : Proc) : Prop where
  limit : p.sz < kernBase
  table : ∃ g sp, Inv L m g ∧ g.space p.pgdir = some sp
  present : ∀ va, va < kernBase →
    (Has pteP (m.pte p.pgdir va) ↔ pgSize ≤ va ∧ va < pgRoundUp p.sz)

structure Resized (p : Proc) (n : Addr) (sz : Addr) (m m' : Mem) : Prop where
  exact : (sz.toNat : Int) = p.sz.toNat + n.toInt
  mapped : ∀ va, pgSize ≤ va → va < pgRoundUp sz → Has pteP (m'.pte p.pgdir va)
  new : ∀ va, va < kernBase → Has pteP (m'.pte p.pgdir va) → ¬ Has pteP (m.pte p.pgdir va) →
    Has pteW (m'.pte p.pgdir va) ∧ m'.page (pteFrame (m'.pte p.pgdir va)) = fun _ => 0

/-- The pages of the process are as they were, and the pages that the call has taken are free
again, unless they have become page-table pages. -/
structure Unchanged (p : Proc) (m m' : Mem) : Prop where
  present : ∀ va, va < kernBase → (Has pteP (m'.pte p.pgdir va) ↔ Has pteP (m.pte p.pgdir va))
  page : ∀ va, va < kernBase → Has pteP (m.pte p.pgdir va) → m'.pte p.pgdir va = m.pte p.pgdir va ∧
    m'.page (pteFrame (m.pte p.pgdir va)) = m.page (pteFrame (m.pte p.pgdir va))
  free : ∀ f ∈ m.free, f ∈ m'.free ∨ ∃ i, i < 1024 ∧ Has pteP ((m'.page p.pgdir).word i) ∧
    pteFrame ((m'.page p.pgdir).word i) = f

variable {L : Layout} {m m' : Mem} {g g' : Ghost} {p : Proc} {n sz : Addr} {sp sp' : Space}

theorem Proc.InShape.flat (shape : p.InShape L m) (inv : Inv L m g)
    (at_p : g.space p.pgdir = some sp) {u : Nat} (low : u < 2 ^ 19) :
    Has pteP (sp.pte u) ↔ 1 ≤ u ∧ u < pages p.sz := by
  have page : vpn (BitVec.ofNat 32 (4096 * u)) = u := by
    unfold vpn
    rw [BitVec.toNat_ofNat]
    omega
  have here := shape.present (BitVec.ofNat 32 (4096 * u)) ((low_iff _).mpr (by rwa [page]))
  have limit : p.sz ≤ kernBase := Nat.le_of_lt shape.limit
  rwa [(inv.space _ sp at_p).pte_eq, in_pages_iff limit, page] at here

/-! ## The sum of the size and the increment -/

theorem sum_of_more (low : p.sz < kernBase) (more : 0 < n.toInt) :
    (p.sz + n).toNat = p.sz.toNat + n.toNat ∧ n.toInt = n.toNat := by
  have : p.sz.toNat < 2 ^ 31 := low
  have := toInt_cases n
  rw [BitVec.toNat_add]
  omega

theorem sum_of_less (low : p.sz < kernBase) (less : n.toInt < 0) :
    0 ≤ p.sz.toNat + n.toInt ∧ ((p.sz + n).toNat : Int) = p.sz.toNat + n.toInt ∧
        (p.sz + n).toNat < p.sz.toNat ∨
      p.sz.toNat + n.toInt < 0 ∧ p.sz.toNat < (p.sz + n).toNat := by
  have : p.sz.toNat < 2 ^ 31 := low
  have := toInt_cases n
  have := n.isLt
  rw [BitVec.toNat_add]
  omega

/-! ## Growing -/

theorem Growing.resized (low : p.sz < kernBase) (at_p : g.space p.pgdir = some sp) (inv : Inv L m g)
    (shape : p.InShape L m) (more : 0 < n.toInt) (top : p.sz + n < kernBase)
    (growing : Growing ZeroPage L m g p.pgdir sp (pages p.sz) (pages (p.sz + n)) m' g' sp') :
    Resized p n (p.sz + n) m m' := by
  have ok := inv.space _ sp at_p
  have ok' := growing.inv.space _ sp' growing.at_d
  obtain ⟨sum, nat⟩ := sum_of_more low more
  have top_le : p.sz + n ≤ kernBase := Nat.le_of_lt top
  have below : pages (p.sz + n) ≤ 2 ^ 19 := pages_le top
  refine ⟨by rw [sum, nat]; rfl, fun va from_page to_sz => ?_, fun va low here new => ?_⟩
  · obtain ⟨from_one, to_top⟩ := (in_pages_iff top_le va).mp ⟨from_page, to_sz⟩
    rw [ok'.pte_eq]
    rcases Nat.lt_or_ge (vpn va) (pages p.sz) with old | new
    · rw [growing.filled.old _ (.inl old)]
      exact (shape.flat inv at_p (by omega)).mpr ⟨from_one, old⟩
    · exact (growing.filled.new _ new to_top).1
  · rw [ok'.pte_eq] at here ⊢
    rw [ok.pte_eq] at new
    by_cases inside : pages p.sz ≤ vpn va ∧ vpn va < pages (p.sz + n)
    · obtain ⟨-, write, -, zero⟩ := growing.filled.new _ inside.1 inside.2
      exact ⟨write, zero⟩
    · rw [growing.filled.old _ (by omega)] at here
      exact absurd here new

theorem Unfilled.unchanged (inv : Inv L m g) (at_p : g.space p.pgdir = some sp) {v w : Nat}
    (absent : ∀ u, v ≤ u → u < w → ¬ Has pteP (sp.pte u))
    (unfilled : Unfilled L m g p.pgdir sp v w m' g' sp') : Unchanged p m m' := by
  have ok := inv.space _ sp at_p
  have ok' := unfilled.inv.space _ sp' unfilled.at_d
  have entry : ∀ u, Has pteP (sp.pte u) → sp'.pte u = sp.pte u := fun u here =>
    unfilled.old u (by
      by_contra inside
      exact absent u (by omega) (by omega) here)
  have same : ∀ u, Has pteP (sp'.pte u) → sp'.pte u = sp.pte u := fun u here =>
    unfilled.old u (by
      by_contra inside
      exact unfilled.gone u (by omega) (by omega) here)
  refine ⟨fun va low => ?_, fun va low here => ?_, fun f free => ?_⟩
  · rw [ok'.pte_eq, ok.pte_eq]
    exact ⟨fun here => by rwa [← same _ here], fun here => by rwa [entry _ here]⟩
  · rw [ok.pte_eq] at here ⊢
    rw [ok'.pte_eq, entry _ here]
    exact ⟨rfl,
      unfilled.grows.user_page inv at_p ((ok.user _ _).mpr ⟨(low_iff va).mp low, here, rfl⟩)⟩
  · have was_free := (inv.books.free_iff f).mp free
    rcases unfilled.grows.new f id was_free with still | inside
    · exact .inl ((unfilled.inv.books.free_iff f).mpr still)
    · right
      cases role : g'.own f with
      | table e i =>
        rw [role] at inside
        obtain rfl : e = p.pgdir := inside
        obtain ⟨lt, tab⟩ := (ok'.table i f).mp role
        refine ⟨i, lt, ?_⟩
        rw [ok'.present i f lt tab, pteFrame_pdeOf]
        exact ⟨pdeOf_present f, rfl⟩
      | user e u =>
        -- a user page of the new table was one of the old table
        rw [role] at inside
        obtain rfl : e = p.pgdir := inside
        obtain ⟨low, here, frame⟩ := (ok'.user u f).mp role
        have old := same u here
        rw [old] at here frame
        cases was_free.symm.trans ((ok.user u f).mpr ⟨low, here, frame⟩)
      | _ =>
        rw [role] at inside
        exact inside.elim

theorem Unchanged.refl (p : Proc) (m : Mem) : Unchanged p m m :=
  ⟨fun _ _ => Iff.rfl, fun _ _ _ => ⟨rfl, rfl⟩, fun _ => .inl⟩

/-! ## Shrinking -/

theorem Unmapped.resized (inv : Inv L m g) (inv' : Inv L m' g') (at_p : g.space p.pgdir = some sp)
    (at_p' : g'.space p.pgdir = some sp') (shape : p.InShape L m)
    (less : (p.sz + n).toNat < p.sz.toNat)
    (sum : ((p.sz + n).toNat : Int) = p.sz.toNat + n.toInt)
    (unmapped : Unmapped sp sp' (pages (p.sz + n)) p.sz) : Resized p n (p.sz + n) m m' := by
  have ok := inv.space _ sp at_p
  have ok' := inv'.space _ sp' at_p'
  have low : p.sz.toNat < 2 ^ 31 := shape.limit
  have top : p.sz + n ≤ kernBase := by
    change (p.sz + n).toNat ≤ 2 ^ 31
    omega
  refine ⟨sum, fun va from_page to_sz => ?_, fun va low' here new => absurd ?_ new⟩
  · obtain ⟨from_one, below⟩ := (in_pages_iff top va).mp ⟨from_page, to_sz⟩
    have mono : pages (p.sz + n) ≤ pages p.sz := pages_mono (Nat.le_of_lt less)
    have := pages_le low
    rw [ok'.pte_eq, unmapped.stays _ (.inl below)]
    exact (shape.flat inv at_p (by omega)).mpr ⟨from_one, by omega⟩
  · rw [ok'.pte_eq] at here
    rw [ok.pte_eq]
    by_cases gone : pages (p.sz + n) ≤ vpn va ∧ 4096 * vpn va < p.sz.toNat
    · exact absurd here (unmapped.gone _ gone.1 gone.2)
    · rwa [unmapped.stays _ (by omega)] at here

theorem Unmapped.unchanged {v : Nat} (inv : Inv L m g) (inv' : Inv L m' g')
    (at_p : g.space p.pgdir = some sp) (at_p' : g'.space p.pgdir = some sp')
    (none : ∀ u, v ≤ u → 4096 * u < p.sz.toNat → ¬ Has pteP (sp.pte u))
    (unmapped : Unmapped sp sp' v p.sz)
    (shrinks : Shrinks p.pgdir (pagesBetween g p.pgdir v p.sz) m g m' g') : Unchanged p m m' := by
  have ok := inv.space _ sp at_p
  have ok' := inv'.space _ sp' at_p'
  have entry : ∀ u, Has pteP (sp.pte u) → sp'.pte u = sp.pte u := fun u here =>
    unmapped.stays u (by
      by_contra inside
      exact none u (by omega) (by omega) here)
  have same : ∀ u, Has pteP (sp'.pte u) → sp'.pte u = sp.pte u := fun u here =>
    unmapped.stays u (by
      by_contra inside
      exact unmapped.gone u (by omega) (by omega) here)
  refine ⟨fun va low => ?_, fun va low here => ?_, fun f free => .inl ?_⟩
  · rw [ok'.pte_eq, ok.pte_eq]
    exact ⟨fun here => by rwa [← same _ here], fun here => by rwa [entry _ here]⟩
  · rw [ok.pte_eq] at here ⊢
    have user := (ok.user _ _).mpr ⟨(low_iff va).mp low, here, rfl⟩
    rw [ok'.pte_eq, entry _ here]
    refine ⟨rfl, shrinks.kept _ ?_ (by rw [user]; simp)⟩
    rintro ⟨u, le, lt, other⟩
    exact none u le lt ((ok.user u _).mp other).2.1
  · have was_free := (inv.books.free_iff f).mp free
    rw [inv'.books.free_iff, shrinks.own f, was_free]
    rintro ⟨u, -, -, user⟩
    cases was_free.symm.trans user

/-! ## All increments -/

/-- What `growproc` leaves behind, and when it is what its result says. -/
def SbrkPost (p : Proc) (n : Addr) (m : Mem) (r : Option Addr) (m' : Mem) : Prop :=
  match r with
  | some sz => sz < kernBase ∧ (Resized p n sz m m' ↔ 0 ≤ p.sz.toNat + n.toInt)
  | none =>
    (0 < n.toInt → p.sz + n < kernBase → m.free.length ≤ 1025 + pages (p.sz + n)) ∧
      (Unchanged p m m' ↔ ¬ (n.toInt < 0 ∧ p.sz + n = 0 ∧ pgSize < p.sz))

theorem sbrk_same (shape : p.InShape L m) (same : n.toInt = 0) :
    Ends (growproc L p n) m (SbrkPost p n m) := by
  rw [growproc, if_neg (by omega), if_neg (by omega), ends_pure]
  refine ⟨shape.limit, iff_of_true ⟨by omega, fun va from_page to_sz => ?_,
    fun va _ here new => absurd here new⟩ (by omega)⟩
  have limit : p.sz ≤ kernBase := Nat.le_of_lt shape.limit
  have := pages_le shape.limit
  have inside := (in_pages_iff limit va).mp ⟨from_page, to_sz⟩
  exact (shape.present va ((low_iff va).mpr (by omega))).mpr ⟨from_page, to_sz⟩

section Growproc

variable (shape : p.InShape L m) (inv : Inv L m g) (at_p : g.space p.pgdir = some sp)
include shape inv at_p

theorem sbrk_more (more : 0 < n.toInt) : Ends (growproc L p n) m (SbrkPost p n m) := by
  obtain ⟨sum, nat⟩ := sum_of_more shape.limit more
  have absent : ∀ u, u < 2 ^ 19 → pages p.sz ≤ u → ¬ Has pteP (sp.pte u) := by
    intro u low above
    rw [shape.flat inv at_p low]
    omega
  have undone : ∀ m', (p.sz + n < kernBase → m.free.length ≤ 1025 + pages (p.sz + n)) →
      Unchanged p m m' → SbrkPost p n m none m' := fun m' few same =>
    ⟨fun _ => few, iff_of_true same (by omega)⟩
  rw [growproc, if_pos more, ends_bind]
  refine (allocuvm_ends inv at_p absent).mono ?_
  rintro r m' (⟨high, rfl, rfl⟩ | ⟨-, shrink, -⟩ | ⟨top, -, ⟨rfl, g', sp', growing⟩ | failed⟩)
  · rw [if_pos rfl, ends_pure]
    exact undone _ (fun low => absurd high (BitVec.not_le.mpr low)) (.refl ..)
  · have : (p.sz + n).toNat < p.sz.toNat := shrink
    omega
  · have pos : p.sz + n ≠ 0 := by
      intro zero
      have : (p.sz + n).toNat = 0 := congrArg BitVec.toNat zero
      omega
    rw [if_neg pos, ends_pure]
    exact ⟨top, iff_of_true (growing.resized shape.limit at_p inv shape more top) (by omega)⟩
  · obtain ⟨rfl, few, g', sp', unfilled⟩ := failed
    have below := pages_le top
    rw [if_pos rfl, ends_pure]
    refine undone _ (fun _ => few) (unfilled.unchanged inv at_p fun u above lt => ?_)
    exact absent u (by omega) above

theorem sbrk_less (less : n.toInt < 0) : Ends (growproc L p n) m (SbrkPost p n m) := by
  have low : p.sz.toNat < 2 ^ 31 := shape.limit
  rw [growproc, if_neg (by omega), if_pos less, ends_bind]
  refine (deallocuvm_ends inv at_p _ _ (Nat.le_of_lt low)).mono ?_
  rintro r m' ⟨rfl, g', sp', inv', at_p', unmapped, shrinks⟩
  rcases sum_of_less shape.limit less with ⟨pos, sum, lt⟩ | ⟨neg, gt⟩
  · have shrink : ¬ p.sz + n ≥ p.sz := Nat.not_le.mpr lt
    rw [if_neg shrink]
    by_cases zero : p.sz + n = 0
    · -- all memory is gone, and the caller is told that nothing has happened
      rw [if_pos zero, ends_pure]
      by_cases large : pgSize < p.sz
      · refine ⟨by omega, iff_of_false (fun same => ?_) fun h => h ⟨less, zero, large⟩⟩
        have size : 4096 < p.sz.toNat := large
        have page : vpn pgSize = 1 ∧ pgSize < kernBase := by decide
        have before : Has pteP (m.pte p.pgdir pgSize) := by
          rw [(inv.space _ sp at_p).pte_eq, page.1, shape.flat inv at_p (by decide), lt_pages]
          omega
        have after := (same.present pgSize page.2).mpr before
        rw [(inv'.space _ sp' at_p').pte_eq, page.1] at after
        refine unmapped.gone 1 ?_ (by omega) after
        rw [zero]
        decide
      · refine ⟨by omega, iff_of_true ?_ fun h => large h.2.2⟩
        have size : p.sz.toNat ≤ 4096 := Nat.not_lt.mp large
        refine unmapped.unchanged inv inv' at_p at_p' (fun u _ below => ?_) shrinks
        rw [shape.flat inv at_p (by omega)]
        omega
    · rw [if_neg zero, ends_pure]
      exact ⟨Nat.lt_trans lt low,
        iff_of_true (unmapped.resized inv inv' at_p at_p' shape lt sum) pos⟩
  · have wraps : p.sz + n ≥ p.sz := Nat.le_of_lt gt
    rw [if_pos wraps]
    by_cases zero : p.sz = 0
    · rw [if_pos zero, ends_pure]
      refine ⟨by omega,
        iff_of_true (unmapped.unchanged inv inv' at_p at_p' (fun u _ below => ?_) shrinks) ?_⟩
      · rw [zero] at below
        exact absurd below (Nat.not_lt_zero _)
      · rintro ⟨-, sum, -⟩
        rw [sum] at gt
        exact Nat.not_lt_zero _ gt
    · rw [if_neg zero, ends_pure]
      refine ⟨shape.limit, iff_of_false (fun resized => ?_) (by omega)⟩
      have := resized.exact
      omega

end Growproc

theorem sbrk_ends (shape : p.InShape L m) (n : Addr) :
    Ends (growproc L p n) m (SbrkPost p n m) := by
  obtain ⟨g, sp, inv, at_p⟩ := shape.table
  rcases Int.lt_trichotomy n.toInt 0 with less | same | more
  · exact sbrk_less shape inv at_p less
  · exact sbrk_same shape same
  · exact sbrk_more shape inv at_p more

/-- **`sbrk` changes the size by what it was asked**, or says that it has failed; but for an
increment that takes more than the process has, which is reported as a success and does nothing. -/
theorem growproc_exact_iff (shape : p.InShape L m) (n : Addr) :
    Ends (growproc L p n) m fun r m' => ∀ sz, r = some sz →
      (Resized p n sz m m' ↔ 0 ≤ p.sz.toNat + n.toInt) := by
  refine (sbrk_ends shape n).mono ?_
  rintro r m' post sz rfl
  exact post.2

/-- **A failed `sbrk` leaves the process intact**, but for one that takes all its memory. -/
theorem growproc_intact_iff (shape : p.InShape L m) (n : Addr) :
    Ends (growproc L p n) m fun r m' => r = none →
      ((p.grown n r).sz = p.sz ∧ Unchanged p m m' ↔
        ¬ (n.toInt < 0 ∧ p.sz + n = 0 ∧ pgSize < p.sz)) := by
  refine (sbrk_ends shape n).mono ?_
  rintro r m' post rfl
  have size : (p.grown n none).sz = p.sz := by
    rw [Proc.grown]
    split <;> rfl
  rw [and_iff_right size]
  exact post.2

/-! ## A process -/

theorem Sound.inShape {s : System} {i : Fin nproc} (sound : Sound L s g) (at_i : s.proc i = some p)
    (loaded : p.life = .loaded) : p.InShape L s.mem := by
  obtain ⟨sp, at_p, fits⟩ := (sound.alive i p at_i).space
  obtain ⟨-, limit, shape⟩ := fits.loaded loaded
  have low : p.sz ≤ kernBase := Nat.le_of_lt limit
  refine ⟨limit, ⟨g, sp, sound.inv, at_p⟩, fun va below => ?_⟩
  rw [(sound.inv.space _ sp at_p).pte_eq, in_pages_iff low]
  exact shape.present _ ((low_iff va).mp below)

theorem inShape_exists : ∃ m p, Proc.InShape kernelLayout m p ∧ p.sz = 0x5000 ∧
    6000 < m.free.length := by
  obtain ⟨s, p, img, reach, at_0, size⟩ := loaded_exists
  obtain ⟨g, sound⟩ := reachable_sound reach
  exact ⟨s.mem, _, sound.inShape at_0 rfl, size⟩

/-- `sbrk(-4096)` takes one page from a process. -/
theorem growproc_exact_page : ∃ m p m', Proc.InShape kernelLayout m p ∧
    growproc kernelLayout p (-pgSize) m = .ok (some (p.sz - pgSize), m') ∧
      Resized p (-pgSize) (p.sz - pgSize) m m' := by
  obtain ⟨m, p, shape, sz, -⟩ := inShape_exists
  obtain ⟨g, sp, inv, at_p⟩ := shape.table
  have low : p.sz.toNat < 2 ^ 31 := shape.limit
  have size : 4096 < p.sz.toNat := sz ▸ by decide
  have neg : (-pgSize).toInt = -4096 := by decide
  have sum : p.sz + -pgSize = p.sz - pgSize := (BitVec.sub_eq_add_neg ..).symm
  have rest : (p.sz - pgSize).toNat = p.sz.toNat - 4096 :=
    BitVec.toNat_sub_of_le (Nat.le_of_lt size)
  have less : ¬ p.sz - pgSize ≥ p.sz := Nat.not_le.mpr (by omega)
  have some : p.sz - pgSize ≠ 0 := by
    intro zero
    have : (p.sz - pgSize).toNat = 0 := congrArg BitVec.toNat zero
    omega
  obtain ⟨r, m', freed, rfl, -⟩ :=
    (deallocuvm_ends inv at_p p.sz (p.sz - pgSize) (Nat.le_of_lt low)).exists
  rw [if_neg less] at freed
  have ran : growproc kernelLayout p (-pgSize) m = .ok (Option.some (p.sz - pgSize), m') := by
    rw [growproc, if_neg (by omega), if_pos (by omega), sum, Prog.bind_ok freed, if_neg some]
    rfl
  obtain ⟨r, m₁, ran', exact_iff⟩ := (growproc_exact_iff shape (-pgSize)).exists
  cases ran.symm.trans ran'
  exact ⟨m, p, m', shape, ran, (exact_iff _ rfl).mpr (by omega)⟩

/-- `sbrk(-2147483648)` succeeds and does nothing. -/
theorem growproc_wraps : ∃ m p, Proc.InShape kernelLayout m p ∧
    growproc kernelLayout p 0x80000000 m = .ok (some p.sz, m) ∧
      ¬ Resized p 0x80000000 p.sz m m := by
  obtain ⟨m, p, shape, sz, -⟩ := inShape_exists
  have low : p.sz.toNat < 2 ^ 31 := shape.limit
  have size : 4096 < p.sz.toNat := sz ▸ by decide
  have neg : (0x80000000 : Addr).toInt = -2147483648 := by decide
  have wraps : p.sz + 0x80000000 ≥ p.sz := by
    change p.sz.toNat ≤ (p.sz + 0x80000000).toNat
    bv_omega
  have some : p.sz ≠ 0 := by
    intro zero
    rw [zero] at size
    exact absurd size (by decide)
  refine ⟨m, p, shape, ?_, fun resized => ?_⟩
  · rw [growproc, if_neg (by omega), if_pos (by omega), deallocuvm, if_pos wraps]
    rw [pure_bind, if_neg some]
    rfl
  · have := resized.exact
    omega

/-- `sbrk(0x7fffffff)` would take the process past `KERNBASE`; it fails and changes nothing. -/
theorem growproc_intact_large : ∃ m p n m', Proc.InShape kernelLayout m p ∧ n = 0x7fffffff ∧
    growproc kernelLayout p n m = .ok (none, m') ∧ (p.grown n none).sz = p.sz ∧
      Unchanged p m m' := by
  obtain ⟨m, p, shape, sz, -⟩ := inShape_exists
  obtain ⟨n, is⟩ : ∃ n : Addr, n = 0x7fffffff := ⟨_, rfl⟩
  have low : p.sz.toNat < 2 ^ 31 := shape.limit
  have size : 4096 < p.sz.toNat := sz ▸ by decide
  have pos : n.toInt = 2147483647 := by
    rw [is]
    decide
  have top : p.sz + n ≥ kernBase := by
    change 2 ^ 31 ≤ (p.sz + n).toNat
    bv_omega
  have ran : growproc kernelLayout p n m = .ok (none, m) := by
    rw [growproc, if_pos (by omega), allocuvm, if_pos top, pure_bind, if_pos rfl]
    rfl
  obtain ⟨r, m', ran', intact_iff⟩ := (growproc_intact_iff shape n).exists
  cases ran.symm.trans ran'
  obtain ⟨same, unchanged⟩ := (intact_iff rfl).mpr fun shrinks => by omega
  exact ⟨m, p, n, m, shape, is, ran, same, unchanged⟩

/-- `sbrk` of the whole memory of a process fails, and the memory is gone. -/
theorem growproc_empties : ∃ m p m', Proc.InShape kernelLayout m p ∧
    growproc kernelLayout p (-p.sz) m = .ok (none, m') ∧ Has pteP (m.pte p.pgdir pgSize) ∧
      ¬ Has pteP (m'.pte p.pgdir pgSize) := by
  obtain ⟨m, p, shape, sz, -⟩ := inShape_exists
  obtain ⟨g, sp, inv, at_p⟩ := shape.table
  have low : p.sz.toNat < 2 ^ 31 := shape.limit
  have size : 4096 < p.sz.toNat := sz ▸ by decide
  have page : vpn pgSize = 1 := by decide
  have neg : (-p.sz).toInt < 0 := by
    have nat : (-p.sz).toNat = 2 ^ 32 - p.sz.toNat := by
      rw [BitVec.toNat_neg]
      omega
    have := toInt_cases (-p.sz)
    omega
  have zero : p.sz + -p.sz = 0 := BitVec.add_right_neg p.sz
  have less : ¬ (0 : Addr) ≥ p.sz := Nat.not_le.mpr (Nat.lt_trans (by decide) size)
  obtain ⟨r, m', ran, rfl, g', sp', inv', at_p', unmapped, -⟩ :=
    (deallocuvm_ends inv at_p p.sz 0 (Nat.le_of_lt low)).exists
  rw [if_neg less] at ran
  refine ⟨m, p, m', shape, ?_, ?_, ?_⟩
  · rw [growproc, if_neg (by omega), if_pos neg, zero, Prog.bind_ok ran, if_pos rfl]
    rfl
  · rw [(inv.space _ sp at_p).pte_eq, page, shape.flat inv at_p (by decide), lt_pages]
    omega
  · rw [(inv'.space _ sp' at_p').pte_eq, page]
    exact unmapped.gone 1 (by decide) (by omega)

end Xv6.Vm
