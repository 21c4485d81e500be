import Xv6.Vm.Walk

/-!
# Freeing pages

`deallocuvm` gives the frames of a range of user pages back, and `freevm` those of a whole
address space.  Neither can stop in a panic: every frame that it gives to `kfree` is a user page
or a page-table page of the address space, and those are `Allocatable`.
-/

namespace Xv6.Vm

/-- The frames `F` go back to the free list, and nothing else changes but page tables of `d`. -/
structure Shrinks (d : Frame) (F : Frame → Prop) (m : Mem) (g : Ghost) (m' : Mem) (g' : Ghost) :
    Prop where
  freed : ∀ f, F f → g'.own f = .free
  own : ∀ f, ¬ F f → g'.own f = g.own f
  space : ∀ e, e ≠ d → g'.space e = g.space e
  kept : ∀ f, ¬ F f → (∀ i, g.own f ≠ .table d i) → m'.page f = m.page f
  loaded : m'.loaded = m.loaded
  refreed : m'.refreed = m.refreed

section Shrinks

variable {d : Frame} {F G H : Frame → Prop} {m m' m'' : Mem} {g g' g'' : Ghost}

theorem Shrinks.refl (d : Frame) (m : Mem) (g : Ghost) (none : ∀ f, ¬ F f) : Shrinks d F m g m g :=
  ⟨fun f h => (none f h).elim, fun _ _ => rfl, fun _ _ => rfl, fun _ _ _ => rfl, rfl, rfl⟩

theorem Shrinks.trans (first : Shrinks d F m g m' g') (second : Shrinks d G m' g' m'' g'')
    (all : ∀ f, H f ↔ F f ∨ G f) : Shrinks d H m g m'' g'' where
  freed f gone := by
    by_cases later : G f
    · exact second.freed f later
    · rw [second.own f later]
      exact first.freed f (((all f).mp gone).resolve_right later)
  own f stays := by
    rw [all, not_or] at stays
    rw [second.own f stays.2, first.own f stays.1]
  space e ne := (second.space e ne).trans (first.space e ne)
  kept f stays table := by
    rw [all, not_or] at stays
    rw [second.kept f stays.2 (by rwa [first.own f stays.1]), first.kept f stays.1 table]
  loaded := second.loaded.trans first.loaded
  refreed := second.refreed.trans first.refreed

theorem Shrinks.congr (shrinks : Shrinks d F m g m' g') (same : ∀ f, F f ↔ G f) :
    Shrinks d G m g m' g' := by
  have eq : F = G := funext fun f => propext (same f)
  rwa [← eq]

end Shrinks

theorem Mem.freed_setPage (m : Mem) {f y : Frame} (ne : f ≠ y) (p : Page) :
    (m.freed y).setPage f p = (m.setPage f p).freed y := by
  simp only [Mem.freed, Mem.setPage, Function.update_comm ne]
  rfl

section Dealloc

variable {L : Layout} {m : Mem} {g : Ghost} {d : Frame} {sp : Space}

theorem SpaceOk.table_ne {own : Frame → Role} (ok : SpaceOk m own d sp) {i v : Nat} {f : Frame}
    (lt : i < 1024) (tab : sp.tab i = some f) (low : v < 2 ^ 19) (present : Has pteP (sp.pte v)) :
    f ≠ pteFrame (sp.pte v) := by
  intro eq
  have table := (ok.table i f).mpr ⟨lt, tab⟩
  have user := (ok.user v f).mpr ⟨low, present, eq.symm⟩
  cases table.symm.trans user

theorem Inv.user_allocatable (inv : Inv L m g) (at_d : g.space d = some sp) {v : Nat}
    (low : v < 2 ^ 19) (present : Has pteP (sp.pte v)) : Allocatable L (pteFrame (sp.pte v)) := by
  have user := ((inv.space d sp at_d).user v _).mpr ⟨low, present, rfl⟩
  exact inv.books.managed _ (by rw [user]; simp)

theorem Allocatable.ne_zero {f : Frame} (alloc : Allocatable L f) : f ≠ 0 := by
  rintro rfl
  refine alloc (.inl ?_)
  have text := L.text
  have kend := L.kend_ge
  simp only [kernLink, kernBase, extMem] at text ⊢
  have zero : frameAddr 0 + 0x80000000 = 0x80000000 := by decide
  rw [zero]
  bv_omega

theorem Inv.dropPage (inv : Inv L m g) (at_d : g.space d = some sp) {v : Nat} {f : Frame}
    (low : v < 2 ^ 19) (tab : sp.tab (v / 1024) = some f) (present : Has pteP (sp.pte v)) :
    ∃ g', Inv L (((m.freed (pteFrame (sp.pte v))).setPage f
        (((m.freed (pteFrame (sp.pte v))).page f).setWord (v % 1024) 0))) g' ∧
      g'.space d = some (sp.setPte v 0) ∧
      Shrinks d (· = pteFrame (sp.pte v)) m g ((m.freed (pteFrame (sp.pte v))).setPage f
        (((m.freed (pteFrame (sp.pte v))).page f).setWord (v % 1024) 0)) g' := by
  have ok := inv.space d sp at_d
  have ne := ok.table_ne (by omega) tab low present
  have unmapped := inv.unmap at_d low tab present
  have user := (ok.user v _).mpr ⟨low, present, rfl⟩
  have table := (ok.table _ f).mpr ⟨by omega, tab⟩
  generalize pteFrame (sp.pte v) = y at *
  have held : ((g.setOwn y .held).setSpace d (some (sp.setPte v 0))).own y = .held :=
    g.setOwn_self y .held
  have given := unmapped.give (unmapped.loose_of_held held) (by rw [held]; simp)
    (by rw [held]; simp)
  rw [m.freed_page ne, m.freed_setPage ne]
  refine ⟨_, given, Ghost.setSpace_self .., ?_⟩
  constructor
  case freed =>
    intro x eq
    rw [eq]
    exact Ghost.setOwn_self ..
  case own =>
    intro x other
    rw [Ghost.setOwn_ne _ other, Ghost.setSpace_own, Ghost.setOwn_ne _ other]
  case space =>
    intro e other
    rw [Ghost.setOwn_space, Ghost.setSpace_ne _ other, Ghost.setOwn_space]
  case kept =>
    intro x other no_table
    rw [Mem.freed_page _ other]
    refine Mem.setPage_ne _ ?_ _
    rintro rfl
    exact no_table _ table
  case loaded => rfl
  case refreed => exact unmapped.freed_refreed (by rw [held]; simp)

theorem pgAddr_next {a : Addr} (low : vpn a < 2 ^ 19) :
    (pgAddr (pdx a + 1) 0 0 - pgSize + pgSize).toNat = 4096 * (1024 * (vpn a / 1024 + 1)) := by
  have index := pdx_eq a
  have shape : pgAddr (pdx a + 1) 0 0 - pgSize + pgSize = (pdx a + 1) <<< 22 := by
    simp only [pgAddr, BitVec.sub_add_cancel]
    simp
  rw [shape, BitVec.toNat_shiftLeft, Nat.shiftLeft_eq, BitVec.toNat_add, index]
  change (vpn a / 1024 + 1) % 2 ^ 32 * 2 ^ 22 % 2 ^ 32 = _
  omega

def pagesBetween (g : Ghost) (d : Frame) (v : Nat) (oldsz : Addr) (f : Frame) : Prop :=
  ∃ u, v ≤ u ∧ 4096 * u < oldsz.toNat ∧ g.own f = .user d u

structure Unmapped (sp sp' : Space) (v : Nat) (oldsz : Addr) : Prop where
  tab : sp'.tab = sp.tab
  gone : ∀ u, v ≤ u → 4096 * u < oldsz.toNat → ¬ Has pteP (sp'.pte u)
  stays : ∀ u, u < v ∨ oldsz.toNat ≤ 4096 * u → sp'.pte u = sp.pte u

variable {oldsz : Addr}

theorem Unmapped.widen {sp' : Space} {m' : Mem} {g' : Ghost} {v v' : Nat}
    (ok : SpaceOk m g.own d sp) (le : v ≤ v')
    (absent : ∀ u, v ≤ u → u < v' → ¬ Has pteP (sp.pte u)) (unmapped : Unmapped sp sp' v' oldsz)
    (shrinks : Shrinks d (pagesBetween g d v' oldsz) m g m' g') :
    Unmapped sp sp' v oldsz ∧ Shrinks d (pagesBetween g d v oldsz) m g m' g' := by
  refine ⟨⟨unmapped.tab, fun u from_v to_old => ?_, fun u out => unmapped.stays u ?_⟩,
    shrinks.congr fun f => ⟨?_, ?_⟩⟩
  · rcases Nat.lt_or_ge u v' with skipped | later
    · rw [unmapped.stays u (.inl skipped)]
      exact absent u from_v skipped
    · exact unmapped.gone u later to_old
  · omega
  · rintro ⟨u, from_v, to_old, user⟩
    exact ⟨u, by omega, to_old, user⟩
  · rintro ⟨u, from_v, to_old, user⟩
    refine ⟨u, Nat.le_of_not_lt fun skipped => ?_, to_old, user⟩
    exact absent u from_v skipped ((ok.user u f).mp user).2.1

theorem Unmapped.cons {sp' : Space} {m1 m' : Mem} {g1 g' : Ghost} {v : Nat}
    (ok : SpaceOk m g.own d sp) (low : v < 2 ^ 19) (lt : 4096 * v < oldsz.toNat)
    (present : Has pteP (sp.pte v)) (first : Shrinks d (· = pteFrame (sp.pte v)) m g m1 g1)
    (unmapped : Unmapped (sp.setPte v 0) sp' (v + 1) oldsz)
    (rest : Shrinks d (pagesBetween g1 d (v + 1) oldsz) m1 g1 m' g') :
    Unmapped sp sp' v oldsz ∧ Shrinks d (pagesBetween g d v oldsz) m g m' g' := by
  refine ⟨⟨unmapped.tab, fun u from_v to_old => ?_, fun u out => ?_⟩,
    first.trans rest fun f => ⟨?_, ?_⟩⟩
  · rcases eq_or_ne u v with rfl | ne
    · rw [unmapped.stays u (.inl (by omega)), Space.setPte_self]
      exact not_has_zero _
    · exact unmapped.gone u (by omega) to_old
  · rw [unmapped.stays u (by omega), sp.setPte_ne (by omega)]
  · rintro ⟨u, from_v, to_old, user⟩
    rcases eq_or_ne u v with rfl | ne
    · exact .inl ((ok.user u f).mp user).2.2.symm
    · refine .inr ⟨u, by omega, to_old, (first.own f ?_).trans user⟩
      rintro rfl
      injection user.symm.trans ((ok.user v _).mpr ⟨low, present, rfl⟩) with _ eq
      exact ne eq
  · rintro (rfl | ⟨u, from_v, to_old, user⟩)
    · exact ⟨v, Nat.le_refl v, lt, (ok.user v _).mpr ⟨low, present, rfl⟩⟩
    · refine ⟨u, by omega, to_old, (first.own f ?_).symm.trans user⟩
      rintro rfl
      cases (first.freed _ rfl).symm.trans user

theorem deallocLoop_ends (below : oldsz.toNat ≤ 2 ^ 31) (n : Nat) (m : Mem) (g : Ghost)
    (sp : Space) (a : Addr) (v : Nat) (inv : Inv L m g) (at_d : g.space d = some sp)
    (page : a.toNat = 4096 * v) (fuel : 2 ^ 20 - v < n) :
    Ends (deallocLoop L d oldsz n a) m fun _ m' =>
      ∃ g' sp', Inv L m' g' ∧ g'.space d = some sp' ∧ Unmapped sp sp' v oldsz ∧
        Shrinks d (pagesBetween g d v oldsz) m g m' g' := by
  induction n generalizing m g sp a v with
  | zero => omega
  | succ n ih =>
    have ok := inv.space d sp at_d
    obtain rfl := vpn_of_page page
    rw [deallocLoop]
    by_cases more : a < oldsz
    · have lt : a.toNat < oldsz.toNat := more
      have low : vpn a < 2 ^ 19 := by omega
      have next := page_succ page (by omega)
      rw [if_pos more, ends_bind, ends_walk inv at_d]
      cases tab : sp.tab (vpn a / 1024) with
      | none =>
        refine (ih m g sp _ _ inv at_d (pgAddr_next low) (by omega)).mono ?_
        rintro _ m' ⟨g', sp', inv', at_d', unmapped, shrinks⟩
        refine ⟨g', sp', inv', at_d', unmapped.widen ok (by omega) (fun u from_v skipped => ?_)
          shrinks⟩
        rw [ok.zero u (by omega) (by rwa [show u / 1024 = vpn a / 1024 by omega])]
        exact not_has_zero _
      | some f =>
        have entry := ok.entry (vpn a) f (vpn_lt a) tab
        simp only [Option.map_some, ends_bind, ends_getWord, entry]
        by_cases present : Has pteP (sp.pte (vpn a))
        · have alloc := inv.user_allocatable at_d low present
          rw [if_pos present, if_neg alloc.ne_zero, ends_bind, ends_kfree alloc, ends_bind,
            ends_setWord]
          obtain ⟨g1, inv1, at_d1, dropped⟩ := inv.dropPage at_d low tab present
          refine (ih _ g1 _ _ _ inv1 at_d1 next (by omega)).mono ?_
          rintro _ m' ⟨g', sp', inv', at_d', unmapped, shrinks⟩
          exact ⟨g', sp', inv', at_d', unmapped.cons ok low (by omega) present dropped shrinks⟩
        · rw [if_neg present]
          refine (ih m g sp _ _ inv at_d next (by omega)).mono ?_
          rintro _ m' ⟨g', sp', inv', at_d', unmapped, shrinks⟩
          refine ⟨g', sp', inv', at_d', unmapped.widen ok (by omega) (fun u from_v skipped => ?_)
            shrinks⟩
          rwa [show u = vpn a by omega]
    · rw [if_neg more, ends_pure]
      have ge : oldsz.toNat ≤ a.toNat := Nat.le_of_not_lt more
      refine ⟨g, sp, inv, at_d, ⟨rfl, fun u from_v to_old => ?_, fun _ _ => rfl⟩, .refl _ _ _ ?_⟩
      · omega
      · rintro f ⟨u, from_v, to_old, _⟩
        omega

/-- The number of pages of a process of size `sz`: the page number of `PGROUNDUP(sz)`. -/
def pages (sz : Addr) : Nat := (sz.toNat + 4095) / 4096

theorem lt_pages (sz : Addr) (v : Nat) : v < pages sz ↔ 4096 * v < sz.toNat := by
  unfold pages
  omega

theorem deallocuvm_ends (inv : Inv L m g) (at_d : g.space d = some sp) (oldsz newsz : Addr)
    (below : oldsz.toNat ≤ 2 ^ 31) :
    Ends (deallocuvm L d oldsz newsz) m fun r m' =>
      r = (if newsz ≥ oldsz then oldsz else newsz) ∧
      ∃ g' sp', Inv L m' g' ∧ g'.space d = some sp' ∧ Unmapped sp sp' (pages newsz) oldsz ∧
        Shrinks d (pagesBetween g d (pages newsz) oldsz) m g m' g' := by
  rw [deallocuvm]
  by_cases grow : newsz ≥ oldsz
  · have ge : oldsz.toNat ≤ newsz.toNat := grow
    have none : ∀ u, pages newsz ≤ u → ¬ 4096 * u < oldsz.toNat := by
      intro u le lt
      have := (lt_pages newsz u).mpr (by omega)
      omega
    rw [if_pos grow, if_pos grow, ends_pure]
    exact ⟨rfl, g, sp, inv, at_d, ⟨rfl, fun u le lt => (none u le lt).elim, fun _ _ => rfl⟩,
      .refl _ _ _ fun f ⟨u, le, lt, _⟩ => none u le lt⟩
  · have lt : newsz.toNat < oldsz.toNat := Nat.lt_of_not_le grow
    have page : (pgRoundUp newsz).toNat = 4096 * pages newsz := by
      rw [pgRoundUp_toNat (by omega), pages]
      omega
    rw [if_neg grow, if_neg grow, ends_bind]
    refine (deallocLoop_ends below _ m g sp _ _ inv at_d page ?_).mono ?_
    · unfold rounds
      omega
    · intro _ m' post
      exact ⟨rfl, post⟩

/-! ## `freevm` -/

/-- What the loop of `freevm` needs: the directory still lists the page-table pages from index
`i` on, and they are held by the kernel. -/
structure Listed (m : Mem) (g : Ghost) (d : Frame) (sp : Space) (i : Nat) : Prop where
  absent : ∀ j, j < 1024 → sp.tab j = none → ¬ Has pteP ((m.page d).word j)
  present : ∀ j f, j < 1024 → sp.tab j = some f → (m.page d).word j = pdeOf f
  held : ∀ j f, i ≤ j → j < 1024 → sp.tab j = some f → g.own f = .held
  ne : ∀ j f, j < 1024 → sp.tab j = some f → f ≠ d
  inj : ∀ j k f, j < 1024 → k < 1024 → sp.tab j = some f → sp.tab k = some f → j = k

theorem Listed.next {i : Nat} (listed : Listed m g d sp i) : Listed m g d sp (i + 1) :=
  ⟨listed.absent, listed.present, fun j f le => listed.held j f (by omega), listed.ne, listed.inj⟩

theorem Listed.free {i : Nat} {f : Frame} (listed : Listed m g d sp i) (lt : i < 1024)
    (tab : sp.tab i = some f) : Listed (m.freed f) (g.setOwn f .free) d sp (i + 1) := by
  have page := m.freed_page (Ne.symm (listed.ne i f lt tab))
  constructor
  case absent => rw [page]; exact listed.absent
  case present => rw [page]; exact listed.present
  case held =>
    intro j x le lt' at_j
    have other : x ≠ f := by
      rintro rfl
      have := listed.inj i j x lt lt' tab at_j
      omega
    rw [Ghost.setOwn_ne _ other]
    exact listed.held j x (by omega) lt' at_j
  case ne => exact listed.ne
  case inj => exact listed.inj

theorem freeTables_ends (n i : Nat) (count : i + n = 1024) (m : Mem) (g : Ghost)
    (inv : Inv L m g) (listed : Listed m g d sp i) :
    Ends (freeTables L d n i) m fun _ m' =>
      ∃ g', Inv L m' g' ∧ g'.space = g.space ∧
        Shrinks d (fun f => ∃ j, i ≤ j ∧ j < 1024 ∧ sp.tab j = some f) m g m' g' := by
  induction n generalizing i m g with
  | zero =>
    refine ⟨g, inv, rfl, .refl _ _ _ ?_⟩
    rintro f ⟨j, le, lt, _⟩
    omega
  | succ n ih =>
    have lt : i < 1024 := by omega
    rw [freeTables, ends_bind, ends_getWord]
    cases tab : sp.tab i with
    | none =>
      rw [if_neg (listed.absent i lt tab)]
      refine (ih (i + 1) (by omega) m g inv listed.next).mono ?_
      rintro _ m' ⟨g', inv', spaces, shrinks⟩
      refine ⟨g', inv', spaces, shrinks.congr fun f => ⟨?_, ?_⟩⟩
      · rintro ⟨j, le, rest⟩
        exact ⟨j, by omega, rest⟩
      · rintro ⟨j, le, lt', at_j⟩
        refine ⟨j, ?_, lt', at_j⟩
        rcases eq_or_ne j i with rfl | ne
        · cases tab.symm.trans at_j
        · omega
    | some f =>
      have held := listed.held i f (Nat.le_refl i) lt tab
      have alloc := inv.books.managed f (by rw [held]; simp)
      rw [listed.present i f lt tab, if_pos (pdeOf_present f), pteFrame_pdeOf, ends_bind,
        ends_kfree alloc]
      have given := inv.give (inv.loose_of_held held) (by rw [held]; simp)
        (by rw [held]; simp)
      refine (ih (i + 1) (by omega) _ _ given (listed.free lt tab)).mono ?_
      rintro _ m' ⟨g', inv', spaces, shrinks⟩
      have first : Shrinks d (· = f) m g (m.freed f) (g.setOwn f .free) :=
        ⟨fun x eq => by rw [eq, Ghost.setOwn_self], fun x ne => g.setOwn_ne ne _, fun _ _ => rfl,
          fun x ne _ => m.freed_page ne, rfl, inv.freed_refreed (by rw [held]; simp)⟩
      refine ⟨g', inv', spaces, first.trans shrinks fun x => ⟨?_, ?_⟩⟩
      · rintro ⟨j, le, lt', at_j⟩
        rcases eq_or_ne j i with rfl | ne
        · exact .inl (Option.some.inj (at_j.symm.trans tab))
        · exact .inr ⟨j, by omega, lt', at_j⟩
      · rintro (rfl | ⟨j, le, rest⟩)
        · exact ⟨i, Nat.le_refl i, lt, tab⟩
        · exact ⟨j, by omega, rest⟩

theorem SpaceOk.listed (ok : SpaceOk m g.own d sp) : Listed m (g.dissolve d) d sp 0 where
  absent := ok.absent
  present := ok.present
  held j f _ lt tab := by
    have table := (ok.table j f).mpr ⟨lt, tab⟩
    rcases g.dissolve_own d f with ⟨_, _, out⟩ | ⟨held, _⟩
    · rw [table] at out
      exact absurd rfl out
    · exact held
  ne j f lt tab := by
    rintro rfl
    cases ok.dir.symm.trans ((ok.table j f).mpr ⟨lt, tab⟩)
  inj j k f lt lt' at_j at_k := by
    injection ((ok.table j f).mpr ⟨lt, at_j⟩).symm.trans ((ok.table k f).mpr ⟨lt', at_k⟩)

theorem freeDir_ends (inv : Inv L m g) (at_d : g.space d = some sp)
    (no_user : ∀ f v, g.own f ≠ .user d v) :
    Ends (do freeTables L d 1024 0; kfree L d) m fun _ m' =>
      ∃ g', Inv L m' g' ∧ g'.space d = none ∧
        Shrinks d (fun f => f = d ∨ ∃ i, g.own f = .table d i) m g m' g' := by
  have ok := inv.space d sp at_d
  rw [ends_bind]
  refine (freeTables_ends 1024 0 rfl m (g.dissolve d) (inv.dissolve at_d) ok.listed).mono ?_
  rintro _ m1 ⟨g1, inv1, spaces, shrinks⟩
  replace shrinks : Shrinks d (fun f => ∃ i, g.own f = .table d i) m (g.dissolve d) m1 g1 := by
    refine shrinks.congr fun f => exists_congr fun i => ?_
    rw [ok.table]
    exact and_iff_right (Nat.zero_le i)
  have d_stays : ¬ ∃ i, g.own d = .table d i := by
    rintro ⟨i, table⟩
    cases ok.dir.symm.trans table
  have held : g1.own d = .held := by
    rw [shrinks.own d d_stays]
    simp [Ghost.dissolve]
  have stays : ∀ f, ¬ (f = d ∨ ∃ i, g.own f = .table d i) → (g.dissolve d).own f = g.own f := by
    intro f out
    rcases g.dissolve_own d f with ⟨same, _⟩ | ⟨_, eq | inside⟩
    · exact same
    · exact absurd (.inl eq) out
    · cases role : g.own f with
      | table e i =>
        rw [role] at inside
        obtain rfl : e = d := inside
        exact absurd (.inr ⟨i, role⟩) out
      | user e v =>
        rw [role] at inside
        obtain rfl : e = d := inside
        exact absurd role (no_user f v)
      | _ =>
        rw [role] at inside
        exact inside.elim
  rw [ends_kfree (inv1.books.managed d (by rw [held]; simp))]
  refine ⟨_, inv1.give (inv1.loose_of_held held) (by rw [held]; simp) (by rw [held]; simp), ?_, ?_⟩
  · rw [Ghost.setOwn_space, spaces]
    exact Function.update_self _ _ _
  constructor
  case freed =>
    rintro f (rfl | table)
    · exact Ghost.setOwn_self ..
    · rw [Ghost.setOwn_ne _ (by rintro rfl; exact d_stays table)]
      exact shrinks.freed f table
  case own =>
    intro f out
    rw [Ghost.setOwn_ne _ (fun eq => out (.inl eq)), shrinks.own f fun table => out (.inr table),
      stays f out]
  case space =>
    intro e ne
    rw [Ghost.setOwn_space, spaces]
    exact Function.update_of_ne ne _ _
  case kept =>
    intro f out no_table
    rw [Mem.freed_page _ (fun eq => out (.inl eq))]
    exact shrinks.kept f (fun table => out (.inr table)) (by rwa [stays f out])
  case loaded => exact shrinks.loaded
  case refreed =>
    rw [inv1.freed_refreed (by rw [held]; simp)]
    exact shrinks.refreed

def partOf (g : Ghost) (d f : Frame) : Prop := f = d ∨ (g.own f).In d

theorem freevm_ends (inv : Inv L m g) (at_d : g.space d = some sp) :
    Ends (freevm L d) m fun _ m' =>
      ∃ g', Inv L m' g' ∧ g'.space d = none ∧ Shrinks d (partOf g d) m g m' g' := by
  have ok := inv.space d sp at_d
  rw [freevm, ends_bind]
  refine (deallocuvm_ends inv at_d kernBase 0 (by decide)).mono ?_
  rintro _ m1 ⟨-, g1, sp1, inv1, at_d1, unmapped, shrinks1⟩
  have ok1 := inv1.space d sp1 at_d1
  have no_user : ∀ f v, g1.own f ≠ .user d v := by
    intro f v user
    obtain ⟨low, present, _⟩ := (ok1.user v f).mp user
    exact unmapped.gone v (Nat.zero_le v) (by change 4096 * v < 2 ^ 31; omega) present
  refine (freeDir_ends inv1 at_d1 no_user).mono ?_
  rintro _ m2 ⟨g2, inv2, none, shrinks2⟩
  refine ⟨g2, inv2, none, shrinks1.trans shrinks2 fun f => ⟨?_, ?_⟩⟩
  · rintro (eq | inside)
    · exact .inr (.inl eq)
    · cases role : g.own f with
      | user e v =>
        rw [role] at inside
        obtain rfl : e = d := inside
        have low := ((ok.user v f).mp role).1
        exact .inl ⟨v, Nat.zero_le v, by change 4096 * v < 2 ^ 31; omega, role⟩
      | table e i =>
        rw [role] at inside
        obtain rfl : e = d := inside
        refine .inr (.inr ⟨i, (shrinks1.own f ?_).trans role⟩)
        rintro ⟨u, _, _, user⟩
        cases role.symm.trans user
      | _ =>
        rw [role] at inside
        exact inside.elim
  · rintro (⟨u, _, _, user⟩ | eq | ⟨i, table⟩)
    · exact .inr (by rw [user]; exact rfl)
    · exact .inl eq
    · refine .inr ?_
      by_cases user : pagesBetween g d (pages 0) kernBase f
      · cases (shrinks1.freed f user).symm.trans table
      · rw [← shrinks1.own f user, table]
        exact rfl

end Dealloc

end Xv6.Vm
