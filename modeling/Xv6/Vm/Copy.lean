import Xv6.Vm.Alloc

/-!
# The address space of a child

`copyuvm` gives the child its own copy of every page of the parent, with the flags that the
page has in the parent, and takes everything back when memory runs out.  Its two panics wait
for a page that is missing below the size of the parent; with all pages in place it ends.
-/

namespace Xv6.Vm

variable {L : Layout} {m m' : Mem} {g g' : Ghost} {p d : Frame} {sp parent : Space}

/-- The child's page `u`: a frame of its own, with the flags and the bytes of the parent's. -/
def CopyOf (m : Mem) (parent : Space) (u : Nat) (pte : Addr) (page : Page) : Prop :=
  (∃ f, pte = frameAddr f ||| pteFlags (parent.pte u) ||| pteP) ∧
    page = m.page (pteFrame (parent.pte u))

theorem CopyOf.present {u : Nat} {pte : Addr} {page : Page} (copy : CopyOf m parent u pte page) :
    Has pteP pte := by
  obtain ⟨⟨f, rfl⟩, -⟩ := copy
  exact has_present _

theorem CopyOf.flag {u : Nat} {pte flag : Addr} {page : Page} (copy : CopyOf m parent u pte page)
    (low : 0xFFF &&& flag = flag) (other : ¬ Has flag pteP) :
    Has flag pte ↔ Has flag (parent.pte u) := by
  obtain ⟨⟨f, rfl⟩, -⟩ := copy
  rw [has_or, has_or, has_pteFlags low, or_iff_left other, or_iff_right (not_has_frameAddr low f)]

@[simp] theorem ends_copyPage (dst src : Frame) (m : Mem) (Q : Unit → Mem → Prop) :
    Ends (copyPage dst src) m Q ↔ Q () (m.setPage dst (m.page src)) := Iff.rfl

theorem SpaceOk.tab_of_present {own : Frame → Role} (ok : SpaceOk m own d sp) {v : Nat}
    (lt : v < 2 ^ 20) (present : Has pteP (sp.pte v)) : ∃ f, sp.tab (v / 1024) = some f := by
  cases tab : sp.tab (v / 1024) with
  | some f => exact ⟨f, rfl⟩
  | none =>
    rw [ok.zero v lt tab] at present
    exact absurd present (not_has_zero _)

/-- The copy that the loop of `copyuvm` works on, with the pages below `v` in place. -/
abbrev Copying (L : Layout) (m : Mem) (g : Ghost) (d : Frame) (sp parent : Space) (v : Nat)
    (m' : Mem) (g' : Ghost) (sp' : Space) : Prop :=
  Growing (CopyOf m parent) L m g d sp 1 v m' g' sp'

theorem copyLoop_ends (inv : Inv L m g) (at_d : g.space d = some sp)
    (at_p : g.space p = some parent) (ne : p ≠ d) {sz : Addr} (limit : sz.toNat ≤ 2 ^ 31)
    (present : ∀ u, 1 ≤ u → u < pages sz → Has pteP (parent.pte u))
    (absent : ∀ u, 1 ≤ u → u < pages sz → ¬ Has pteP (sp.pte u))
    (n : Nat) (i : Addr) (v : Nat) (m1 : Mem) (g1 : Ghost) (sp1 : Space)
    (page : i.toNat = 4096 * v) (from_one : 1 ≤ v) (to_sz : v ≤ max 1 (pages sz))
    (fuel : pages sz - v < n) (copying : Copying L m g d sp parent v m1 g1 sp1) :
    Ends (copyLoop L p d sz n i) m1 fun r m' =>
      r = true ∧ (∃ g' sp', Copying L m g d sp parent (max 1 (pages sz)) m' g' sp') ∨
      r = false ∧ m.free.length ≤ 1025 + pages sz ∧
        ∃ g' sp', Inv L m' g' ∧ g'.space d = some sp' ∧ Grows d nobody m g m' g' := by
  induction n generalizing i v m1 g1 sp1 with
  | zero => omega
  | succ n ih =>
    have in_range : i < sz ↔ v < pages sz := by
      rw [lt_pages, ← page]
      exact Iff.rfl
    rw [copyLoop]
    by_cases more : v < pages sz
    · have low : v < 2 ^ 19 := by
        have := (lt_pages sz v).mp more
        omega
      have at_p1 : g1.space p = some parent := (copying.grows.space p ne).trans at_p
      have ok := copying.inv.space p parent at_p1
      have here := present v from_one more
      obtain ⟨f, tab⟩ := ok.tab_of_present (by omega) here
      rw [if_pos (in_range.mpr more), ends_bind, ends_walk copying.inv at_p1, vpn_of_page page,
        tab]
      simp only [Option.map_some, ends_bind, ends_getWord, ok.entry v f (by omega) tab]
      rw [if_neg (not_not.mpr here), ends_bind, ends_kalloc]
      cases free : m1.free with
      | nil =>
        refine .inr ⟨rfl, ?_, g1, sp1, copying.inv, copying.at_d, copying.grows⟩
        exact alloc_count inv at_d copying.inv copying.at_d copying.grows copying.filled.old
          (by omega) d (fun _ => False.elim) free
      | cons y rest =>
        obtain ⟨was_free, inv2, taken⟩ := copying.inv.takePage free d
          (m1.page (pteFrame (parent.pte v)))
        have held := g1.setOwn_self y .held
        have absent1 : ¬ Has pteP (sp1.pte v) := by
          rw [copying.filled.old v (.inr (Nat.le_refl v))]
          exact absent v from_one more
        simp only [ends_bind, ends_copyPage]
        refine (mappages_user inv2 copying.at_d page low absent1 held
          (pteFrame_pteFlags _)).mono ?_
        rintro r m3 (⟨rfl, rfl, empty⟩ | ⟨g3, sp3, rfl, inv3, at_d3, grows3, user, same, mapped⟩)
        · have grown := (copying.grows.weaken fun _ => False.elim).trans taken
          obtain ⟨alloc, inv4, dropped⟩ := inv2.dropHeld d held
          have start_free : g.own y = .free := by
            refine Classical.byContradiction fun used => used ?_
            rw [← copying.grows.own y id used, was_free]
          rw [if_neg (by simp), ends_bind, ends_kfree alloc, ends_pure]
          refine .inr ⟨rfl, ?_, _, sp1, inv4, copying.at_d, ?_⟩
          · exact alloc_count inv at_d inv2 copying.at_d grown copying.filled.old
              (by omega) y (fun _ => id) empty
          · exact (grown.trans dropped).close start_free (.inl (Ghost.setOwn_self ..))
        · rw [if_pos rfl]
          refine ih (i + pgSize) (v + 1) m3 g3 sp3 (page_succ page (by omega)) (by omega)
            (by omega) (by omega) ?_
          refine copying.snoc (fun _ _ _ copy => copy.present) from_one low was_free taken inv3
            at_d3 grows3 user mapped (pteFrame_pteFlags _) ⟨⟨y, rfl⟩, ?_⟩
          rw [same, Mem.setPage_self]
          have page_user := ((inv.space p parent at_p).user v _).mpr ⟨low, here, rfl⟩
          exact copying.grows.user_page inv at_d page_user
    · rw [if_neg (mt in_range.mp more), ends_pure]
      obtain rfl : v = max 1 (pages sz) := by omega
      exact .inl ⟨rfl, g1, sp1, copying⟩

def CopyPost (L : Layout) (m : Mem) (g : Ghost) (parent : Space) (sz : Addr) (r : Option Frame)
    (m' : Mem) : Prop :=
  ∃ g', Inv L m' g' ∧ (r = none ∧ Restores m g m' g' ∧ m.free.length ≤ 2050 + pages sz ∨
    ∃ d sp sp', r = some d ∧ Fresh d m g m' g' ∧ g'.space d = some sp' ∧
      KernelOnly kernelPages sp ∧ Filled (CopyOf m parent) sp m' sp' 1 (max 1 (pages sz)) ∧
      ∃ m1 g1, setupkvm L m = .ok (some d, m1) ∧ Inv L m1 g1 ∧ g1.space d = some sp)

theorem copyuvm_ends (inv : Inv L m g) (at_p : g.space p = some parent) {sz : Addr}
    (limit : sz.toNat ≤ 2 ^ 31) (present : ∀ u, 1 ≤ u → u < pages sz → Has pteP (parent.pte u)) :
    Ends (copyuvm L p sz) m (CopyPost L m g parent sz) := by
  rw [copyuvm, ends_bind]
  refine (setupkvm_ends inv).ran.mono ?_
  rintro r m1 ⟨ran, g1, inv1, ⟨rfl, restores, few⟩ | ⟨d, sp, rfl, fresh, at_d, kernel⟩⟩
  · exact ⟨g1, inv1, .inl ⟨rfl, restores, by omega⟩⟩
  · have ne : p ≠ d := by
      rintro rfl
      cases fresh.free.symm.trans (inv.space p parent at_p).dir
    have at_p1 : g1.space p = some parent := (fresh.grows.space p ne).trans at_p
    have no_user : ∀ u, u < 2 ^ 19 → ¬ Has pteP (sp.pte u) := by
      intro u low
      rw [kernel.rest u (by unfold kernelPages; omega)]
      exact not_has_zero _
    have absent : ∀ u, 1 ≤ u → u < pages sz → ¬ Has pteP (sp.pte u) := by
      intro u _ lt
      have := (lt_pages sz u).mp lt
      exact no_user u (by omega)
    have fuel : pages sz - 1 < rounds + 1 := by
      unfold rounds pages
      omega
    simp only [ends_bind]
    refine (copyLoop_ends inv1 at_d at_p1 ne limit present absent (rounds + 1) pgSize 1 m1 g1 sp
      rfl (Nat.le_refl 1) (by omega) fuel ⟨inv1, at_d, .refl .., .refl ..⟩).mono ?_
    rintro r m2 (⟨rfl, g2, sp2, copying⟩ | ⟨rfl, few, g2, sp2, inv2, at_d2, grows⟩)
    · rw [if_pos rfl, ends_pure]
      refine ⟨g2, copying.inv,
        .inr ⟨d, sp, sp2, rfl, fresh.grow copying.grows, copying.at_d, kernel,
        copying.filled.mono fun u x page from_one to_sz copy => ⟨copy.1, ?_⟩, m1, g1, ran, inv1,
        at_d⟩⟩
      have low : u < pages sz := by omega
      have lt := (lt_pages sz u).mp low
      have user := ((inv.space p parent at_p).user u _).mpr ⟨by omega, present u from_one low, rfl⟩
      have other : pteFrame (parent.pte u) ≠ d := by
        intro eq
        rw [eq, fresh.free] at user
        cases user
      rw [copy.2, fresh.grows.kept _ other (by rw [user]; simp) other (by rw [user]; simp)]
    · have grown := fresh.grow grows
      rw [if_neg (by simp), ends_bind]
      refine (freevm_ends inv2 at_d2).mono ?_
      rintro _ m3 ⟨g3, inv3, gone, shrinks⟩
      refine ⟨g3, inv3, .inl ⟨rfl, grown.rollback inv shrinks gone, ?_⟩⟩
      have used :=
        inv.cost inv1 at_d fresh.grows.new (n := 0) fun v low here => (no_user v low here).elim
      omega

end Xv6.Vm
