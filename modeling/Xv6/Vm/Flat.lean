import Xv6.Vm.Protect

/-!
# Two-level page tables implement a flat map

`mappages` on any page directory whose page-table pages are frames of their own (`Apart`), in terms
of `Mem.pte`, the map from virtual pages to entries that the MMU sees.  A round of the loop changes
the entry of one page; whatever else it does, adding a page-table page on the way, the map does not
show.  The loop stops at `last` by equality, so it needs to know that it meets it.
-/

namespace Xv6.Vm

/-- The directory and the page-table pages are distinct frames, and none of them is free. -/
structure Apart (m : Mem) (d : Frame) : Prop extends m.Tree d where
  nodup : m.free.Nodup
  dir_used : d ∉ m.free
  used : ∀ i, i < 1024 → Has pteP ((m.page d).word i) → pteFrame ((m.page d).word i) ∉ m.free

/-- The entry for page `u` when the pages from `v` on are mapped to the frames from `f` on. -/
def entryOf (f : Frame) (perm : Addr) (v u : Nat) : Addr :=
  frameAddr (f + BitVec.ofNat 20 (u - v)) ||| perm ||| pteP

/-- The pages `v` to `k - 1` are mapped to the frames from `f` on, and no others are touched. -/
def MapsTo (m m' : Mem) (d f : Frame) (perm : Addr) (v k : Nat) : Prop :=
  ∀ va, m'.pte d va = if v ≤ vpn va ∧ vpn va < k then entryOf f perm v (vpn va) else m.pte d va

section Flat

variable {m m' : Mem} {d f : Frame} {a : Addr} {v w k : Nat} {perm last : Addr}

theorem Apart.table (apart : Apart m d) (absent : ¬ Has pteP ((m.page d).word (pdx a).toNat))
    {rest : List Frame} (free : m.free = f :: rest) (page : m'.page f = fun _ => 0)
    (others : ∀ x, x ≠ d → x ≠ f → m'.page x = m.page x) (left : m'.free = rest)
    (dir : m'.page d = (m.page d).setWord (pdx a).toNat (pdeOf f)) :
    Apart m' d ∧ m'.slot d a = some (f, (ptx a).toNat) ∧ ∀ va, m'.pte d va = m.pte d va := by
  obtain ⟨tree, nodup, dir_used, used⟩ := apart
  rw [free] at nodup dir_used used
  have word : ∀ j,
      (m'.page d).word j = if j = (pdx a).toNat then pdeOf f else (m.page d).word j := by
    intro j
    rw [dir, Words.Page.word_setWord _ (pdx_lt a)]
  have fresh : ∀ j, j < 1024 → Has pteP ((m.page d).word j) → pteFrame ((m.page d).word j) ≠ f :=
    fun j lt has eq => used j lt has (eq ▸ List.mem_cons_self)
  have ne_f : f ≠ d := fun eq => dir_used (eq ▸ List.mem_cons_self)
  -- an entry of the new directory is the new one or an old one
  have old : ∀ j, Has pteP ((m'.page d).word j) → j ≠ (pdx a).toNat →
      Has pteP ((m.page d).word j) ∧ (m'.page d).word j = (m.page d).word j := by
    intro j has ne
    rw [word, if_neg ne] at has ⊢
    exact ⟨has, rfl⟩
  have new : (m'.page d).word (pdx a).toNat = pdeOf f := by rw [word, if_pos rfl]
  refine ⟨⟨⟨fun i j lt lt' has has' same => ?_, fun i lt has => ?_⟩, ?_, ?_, fun i lt has => ?_⟩,
    ?_,
    fun va => ?_⟩
  · rcases eq_or_ne i (pdx a).toNat with rfl | ne <;> rcases eq_or_ne j (pdx a).toNat with eq | ne'
    · exact eq.symm
    · obtain ⟨before, eq⟩ := old j has' ne'
      rw [new, pteFrame_pdeOf, eq] at same
      exact absurd same.symm (fresh j lt' before)
    · obtain ⟨before, eq'⟩ := old i has ne
      rw [eq, new, pteFrame_pdeOf, eq'] at same
      exact absurd same (fresh i lt before)
    · obtain ⟨before, eq⟩ := old i has ne
      obtain ⟨before', eq'⟩ := old j has' ne'
      rw [eq, eq'] at same
      exact tree.once i j lt lt' before before' same
  · rcases eq_or_ne i (pdx a).toNat with rfl | ne
    · rwa [new, pteFrame_pdeOf]
    · obtain ⟨before, eq⟩ := old i has ne
      rw [eq]
      exact tree.dir i lt before
  · rw [left]
    exact (List.nodup_cons.mp nodup).2
  · rw [left]
    exact fun member => dir_used (List.mem_cons_of_mem _ member)
  · rw [left]
    rcases eq_or_ne i (pdx a).toNat with rfl | ne
    · rw [new, pteFrame_pdeOf]
      exact (List.nodup_cons.mp nodup).1
    · obtain ⟨before, eq⟩ := old i has ne
      rw [eq]
      exact fun member => used i lt before (List.mem_cons_of_mem _ member)
  · simp only [Mem.slot, new, if_pos (pdeOf_present f), pteFrame_pdeOf]
  · simp only [Mem.pte]
    rcases eq_or_ne (pdx va).toNat (pdx a).toNat with eq | ne
    · rw [eq, new, if_pos (pdeOf_present f), if_neg absent, pteFrame_pdeOf, page,
        Words.Page.word_zero]
    · rw [word, if_neg ne]
      split
      · rename_i has
        rw [others _ (tree.dir _ (pdx_lt va) has) (fresh _ (pdx_lt va) has)]
      · rfl

theorem Apart.walk (apart : Apart m d) (a : Addr) :
    Ends (walkpgdir d a true) m fun r m' => (r = none ∧ m' = m ∧ m.free = []) ∨
      ∃ f, r = some (f, (ptx a).toNat) ∧ Apart m' d ∧ m'.slot d a = some (f, (ptx a).toNat) ∧
        ∀ va, m'.pte d va = m.pte d va := by
  rw [walkpgdir, ends_bind, ends_getWord]
  by_cases has : Has pteP ((m.page d).word (pdx a).toNat)
  · rw [if_pos has]
    exact .inr ⟨_, rfl, apart, if_pos has, fun _ => rfl⟩
  · rw [if_neg has, if_pos rfl, ends_bind, ends_kalloc]
    cases free : m.free with
    | nil => exact .inl ⟨rfl, rfl, rfl⟩
    | cons f rest =>
      have ne : f ≠ d := fun eq => apart.dir_used (by rw [free, ← eq]; exact List.mem_cons_self)
      refine .inr ⟨f, rfl, apart.table has free ?_ (fun x ne_d ne_f => ?_) rfl ?_⟩
      · rw [Mem.setPage_ne _ ne, Mem.setPage_self]
      · rw [Mem.setPage_ne _ ne_d, Mem.setPage_ne _ ne_f]
      · rw [Mem.setPage_self, Mem.setPage_ne _ ne.symm]
        rfl

theorem Apart.store (apart : Apart m d) (at_a : m.slot d a = some (f, (ptx a).toNat)) (x : Addr) :
    Apart (m.setPage f ((m.page f).setWord (ptx a).toNat x)) d ∧ ∀ va,
      (m.setPage f ((m.page f).setWord (ptx a).toNat x)).pte d va =
        if vpn va = vpn a then x else m.pte d va := by
  obtain ⟨has, frame, -⟩ := slot_eq at_a
  have ne : d ≠ f := fun eq => apart.dir _ (pdx_lt a) has (frame.trans eq.symm)
  have dir : (m.setPage f ((m.page f).setWord (ptx a).toNat x)).page d = m.page d :=
    Mem.setPage_ne _ ne _
  have slots : ∀ va, (m.setPage f ((m.page f).setWord (ptx a).toNat x)).slot d va = m.slot d va :=
    fun va => by rw [Mem.slot, dir, Mem.slot]
  obtain ⟨⟨once, notDir⟩, nodup, dir_used, used⟩ := apart
  have tree : m.Tree d := ⟨once, notDir⟩
  refine ⟨⟨⟨by rwa [dir], by rwa [dir]⟩, nodup, dir_used, by rwa [dir]⟩, fun va => ?_⟩
  by_cases same : vpn va = vpn a
  · have at_va := (slot_of_vpn same).trans at_a
    rw [if_pos same, pte_of_slot ((slots va).trans at_va), Mem.setPage_self,
      Words.Page.word_setWord _ (ptx_lt a), if_pos rfl]
  · rw [if_neg same]
    cases at_va : m.slot d va with
    | none => rw [pte_of_no_slot ((slots va).trans at_va), pte_of_no_slot at_va]
    | some y =>
      obtain ⟨f', i⟩ := y
      rw [pte_of_slot ((slots va).trans at_va), pte_of_slot at_va]
      rcases eq_or_ne f' f with rfl | other
      · rw [Mem.setPage_self, Words.Page.word_setWord _ (ptx_lt a), if_neg]
        rintro rfl
        exact same (tree.vpn_of_slot at_va at_a)
      · rw [Mem.setPage_ne _ other]

theorem MapsTo.cons {m1 : Mem} (one : ∀ va, m1.pte d va =
    if vpn va = v then frameAddr f ||| perm ||| pteP else m.pte d va)
    (rest : MapsTo m1 m' d (f + 1) perm (v + 1) k) (le : v < k) : MapsTo m m' d f perm v k := by
  intro va
  rw [rest va, one va]
  rcases Nat.lt_trichotomy (vpn va) v with below | rfl | above
  · rw [if_neg (by omega), if_neg (by omega), if_neg (by omega)]
  · rw [if_neg (by omega), if_pos rfl, if_pos (by omega), entryOf, Nat.sub_self]
    simp
  · by_cases inside : vpn va < k
    · rw [if_pos (by omega), if_pos (by omega), entryOf, frame_shift f above, entryOf]
    · rw [if_neg (by omega), if_neg (by omega), if_neg (by omega)]

/-- What the loop of `mappages` does from page `v` on, when `w` is the last one: it stops in
`remap` at a page that was there already, runs out of memory after some of the pages, or maps them
all. -/
theorem mapLoop_flat (perm : Addr) (at_last : last.toNat = 4096 * w) (n : Nat) (m : Mem) (a : Addr)
    (v : Nat) (f : Frame) (apart : Apart m d) (page : a.toNat = 4096 * v) (le : v ≤ w)
    (fuel : w - v < n) :
    Within (fun e => e = .panic .remap ∧ ∃ va, v ≤ vpn va ∧ vpn va ≤ w ∧ Has pteP (m.pte d va))
      (mapLoop d perm last n a (frameAddr f)) m fun r m' => Apart m' d ∧ ∃ k, v ≤ k ∧
        MapsTo m m' d f perm v k ∧ (r = true ∧ k = w + 1 ∨ r = false ∧ k ≤ w ∧ m'.free = []) := by
  induction n generalizing m a v f with
  | zero => omega
  | succ n ih =>
    obtain rfl := vpn_of_page page
    rw [mapLoop]
    refine ((apart.walk a).mono fun r m1 post => ?_).bind_within
    rcases post with ⟨rfl, rfl, empty⟩ | ⟨x, rfl, apart1, at_a, same⟩
    · refine ⟨apart, vpn a, Nat.le_refl _, fun va => ?_, .inr ⟨rfl, le, empty⟩⟩
      rw [if_neg (by omega)]
    · refine Ends.bind_within ((ends_getWord ..).mpr ?_)
      rw [← pte_of_slot at_a, same]
      split
      · rename_i has
        exact ⟨rfl, a, Nat.le_refl _, le, has⟩
      · obtain ⟨apart2, stored⟩ := apart1.store at_a (frameAddr f ||| perm ||| pteP)
        refine Ends.bind_within ((ends_setWord ..).mpr ?_)
        have one : ∀ va, _ = if vpn va = vpn a then frameAddr f ||| perm ||| pteP else m.pte d va :=
          fun va => (stored va).trans (by rw [same])
        have w_lt : w < 2 ^ 20 := by
          have := last.isLt
          omega
        split
        · rename_i eq
          subst eq
          obtain rfl : vpn a = w := by omega
          refine ⟨apart2, vpn a + 1, by omega, .cons one (fun va => ?_) (by omega), .inl ⟨rfl, rfl⟩⟩
          rw [if_neg (by omega)]
        · rename_i ne
          have lt : vpn a < w := by
            refine Nat.lt_of_le_of_ne le fun eq => ne (BitVec.eq_of_toNat_eq ?_)
            omega
          rw [frameAddr_succ]
          refine (ih _ (a + pgSize) (vpn a + 1) (f + 1) apart2 (page_succ page (by omega)) lt
            (by omega)).mono ?_ ?_
          · rintro e ⟨remap, va, from_v, to_w, has⟩
            rw [one, if_neg (by omega)] at has
            exact ⟨remap, va, by omega, to_w, has⟩
          · rintro r m' ⟨apart', k, from_v, maps, outcome⟩
            exact ⟨apart', k, by omega, .cons one maps (by omega), outcome⟩

end Flat

/-- A call of `mappages` that maps its range page by page: all of it if it returns 0 (`true`), and
only the beginning of it, for want of memory, if it returns -1. -/
def Maps (m : Mem) (d : Frame) (va size pa perm : Addr) : Prop :=
  Within (fun e => e = .panic .remap ∧ ∃ a, vpn va ≤ vpn a ∧ vpn a ≤ vpn (va + size - 1) ∧
      Has pteP (m.pte d a)) (mappages d va size pa perm) m fun r m' =>
    Apart m' d ∧ ∃ k, vpn va ≤ k ∧ MapsTo m m' d (pteFrame pa) perm (vpn va) k ∧
      (r = true ∧ k = vpn (va + size - 1) + 1 ∨ r = false ∧ k ≤ vpn (va + size - 1) ∧ m'.free = [])

/-- The page table is a flat map: `walkpgdir` without `alloc` only reads it, `mappages` always comes
to an end and does to the map what its name says, and so it does for the last entry of `kmap`, which
ends at the top of the address space. -/
theorem mappages_flat (m : Mem) (d : Frame) (apart : Apart m d) :
    (∀ va, walkpgdir d va false m = .ok (m.slot d va, m)) ∧
    (∀ va size pa perm : Addr, 1 ≤ size.toNat → va.toNat + size.toNat - 1 < 2 ^ 32 →
      pa.toNat % 4096 = 0 → Maps m d va size pa perm) ∧
    ∀ L, ∀ k ∈ (kmap L).getLast?, k.virt + (k.physEnd - k.physStart) - 1 = 0xFFFFFFFF ∧
      Maps m d k.virt (k.physEnd - k.physStart) k.physStart k.perm := by
  have maps : ∀ va size pa perm : Addr, 1 ≤ size.toNat → va.toNat + size.toNat - 1 < 2 ^ 32 →
      pa.toNat % 4096 = 0 → Maps m d va size pa perm := by
    intro va size pa perm pos fits aligned
    have whole : frameAddr (pteFrame pa) = pa := by
      apply BitVec.eq_of_toNat_eq
      rw [frameAddr_toNat, pteFrame, BitVec.extractLsb'_toNat, Nat.shiftRight_eq_div_pow]
      omega
    have ends : (va + size - 1).toNat = va.toNat + size.toNat - 1 := by bv_omega
    have round : ∀ a, (pgRoundDown a).toNat = 4096 * vpn a := fun a => by
      rw [pgRoundDown_toNat, Nat.mul_comm, vpn]
    have lt := vpn_lt (va + size - 1)
    have run := mapLoop_flat perm (round (va + size - 1)) rounds m (pgRoundDown va) (vpn va)
      (pteFrame pa) apart (round va) (by unfold vpn; omega) (by unfold rounds; omega)
    rwa [whole] at run
  refine ⟨fun va => walk_slot, maps, fun L k last => ?_⟩
  obtain rfl : k = ⟨devSpace, devSpace, 0, pteW⟩ := by simpa [kmap] using last.symm
  exact ⟨by decide, maps _ _ _ _ (by decide) (by decide) (by decide)⟩

def blank : Mem := ⟨fun _ _ => 0, [2, 3], [], []⟩

/-- Three pages, the first of them in one page table and the others in the next. -/
theorem mappages_flat_blank : ∃ m', mappages 1 0x3ff000 0x3000 0x7000 pteW blank = .ok (true, m') ∧
    MapsTo blank m' 1 7 pteW 0x3ff 0x402 := by
  have absent : ∀ i, ¬ Has pteP ((blank.page 1).word i) := fun i => by
    rw [show blank.page 1 = fun _ => 0 from rfl, Words.Page.word_zero]
    exact not_has_zero _
  have maps := (mappages_flat blank 1 ⟨⟨fun i _ _ _ has => absurd has (absent i),
    fun i _ has => absurd has (absent i)⟩, by decide, by decide,
    fun i _ has => absurd has (absent i)⟩).2.1 0x3ff000 0x3000 0x7000 pteW (by decide)
      (by decide) rfl
  have done : (mappages 1 0x3ff000 0x3000 0x7000 pteW blank).map Prod.fst = .ok true := by
    decide +kernel
  rcases ran : mappages 1 0x3ff000 0x3000 0x7000 pteW blank with e | ⟨r, m'⟩ <;> rw [ran] at done
  · cases done
  · obtain rfl : r = true := Except.ok.inj done
    obtain ⟨-, k, -, mapped, ⟨-, rfl⟩ | ⟨failed, -⟩⟩ := (within_ok ran).mp maps
    · exact ⟨m', rfl, mapped⟩
    · cases failed

end Xv6.Vm
