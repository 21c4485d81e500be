import Xv6.Vm.Setup

/-!
# Growing and copying an address space

`allocuvm` maps new pages at the end of a process, and takes them back when memory runs out;
`copyuvm` builds the address space of a child.

Their loops take a page from `kalloc`, fill it and map it.  The page belongs to nobody while it
is being filled, which is what the second argument of `Grows` is for; `Grows.close` forgets it
once it is mapped or freed.
-/

namespace Xv6.Vm

variable {L : Layout} {m m' : Mem} {g g' : Ghost} {d y : Frame} {sp sp' : Space}

/-! ## A page in the caller's hands -/

theorem Grows.close (grows : Grows d (· = y) m g m' g') (free : g.own y = .free)
    (now : g'.own y = .free ∨ (g'.own y).In d) : Grows d nobody m g m' g' where
  own f _ taken := grows.own f (fun eq => taken (eq ▸ free)) taken
  new f _ was_free := by
    rcases eq_or_ne f y with rfl | ne
    · exact now
    · exact grows.new f ne was_free
  space := grows.space
  kept f _ taken := grows.kept f (fun eq => taken (eq ▸ free)) taken
  loaded := grows.loaded
  refreed := grows.refreed

theorem Inv.takePage (inv : Inv L m g) {rest : List Frame} (free : m.free = y :: rest)
    (d : Frame) (p : Page) :
    g.own y = .free ∧ Inv L (({ m with free := rest } : Mem).setPage y p) (g.setOwn y .held) ∧
      Grows d (· = y) m g (({ m with free := rest } : Mem).setPage y p) (g.setOwn y .held) := by
  obtain ⟨was_free, taken⟩ := inv.take free
  have held := g.setOwn_self y .held
  refine ⟨was_free, taken.fill p fun e sp' live =>
    ⟨(taken.loose_of_held held e sp' live).1, fun i => by rw [held]; simp⟩, ?_⟩
  constructor
  case own => exact fun f ne _ => g.setOwn_ne ne _
  case new => exact fun f ne free => .inl ((g.setOwn_ne ne _).trans free)
  case space => exact fun _ _ => rfl
  case kept => exact fun f ne _ _ _ => Mem.setPage_ne _ ne _
  case loaded => rfl
  case refreed => rfl

theorem Inv.dropHeld (inv : Inv L m g) (d : Frame) (held : g.own y = .held) :
    Allocatable L y ∧ Inv L (m.freed y) (g.setOwn y .free) ∧
      Grows d (· = y) m g (m.freed y) (g.setOwn y .free) := by
  refine ⟨inv.books.managed y (by rw [held]; simp),
    inv.give (inv.loose_of_held held) (by rw [held]; simp) (by rw [held]; simp), ?_⟩
  constructor
  case own => exact fun f ne _ => g.setOwn_ne ne _
  case new => exact fun f ne free => .inl ((g.setOwn_ne ne _).trans free)
  case space => exact fun _ _ => rfl
  case kept => exact fun f ne _ _ _ => m.freed_page ne
  case loaded => rfl
  case refreed => exact inv.freed_refreed (by rw [held]; simp)

variable {X : Frame → Prop} {m1 : Mem} {g1 : Ghost}

theorem Grows.shrink {F : Frame → Prop} (grows : Grows d X m g m1 g1)
    (shrinks : Shrinks d F m1 g1 m' g') (new : ∀ f, F f → X f ∨ g.own f = .free) :
    Grows d X m g m' g' where
  own f out taken := by
    rw [shrinks.own f fun gone => (new f gone).elim out taken, grows.own f out taken]
  new f out free := by
    by_cases gone : F f
    · exact .inl (shrinks.freed f gone)
    · rw [shrinks.own f gone]
      exact grows.new f out free
  space e ne := (shrinks.space e ne).trans (grows.space e ne)
  kept f out taken ne table := by
    have same := grows.own f out taken
    rw [shrinks.kept f (fun gone => (new f gone).elim out taken) (by rwa [same]),
      grows.kept f out taken ne table]
  loaded := shrinks.loaded.trans grows.loaded
  refreed := shrinks.refreed.trans grows.refreed

/-! ## `allocuvm` -/

/-- The pages from `v` up to `w` are new; the entry and the contents of page `u` satisfy `P u`. -/
structure Filled (P : Nat → Addr → Page → Prop) (sp : Space) (m' : Mem) (sp' : Space) (v w : Nat) :
    Prop where
  new : ∀ u, v ≤ u → u < w → P u (sp'.pte u) (m'.page (pteFrame (sp'.pte u)))
  old : ∀ u, u < v ∨ w ≤ u → sp'.pte u = sp.pte u
  tables : TablesGrow sp sp'
  tab : ∀ i, (sp'.tab i).isSome ↔ (sp.tab i).isSome ∨ ∃ u, v ≤ u ∧ u < w ∧ u / 1024 = i

theorem Filled.refl (P : Nat → Addr → Page → Prop) (sp : Space) (m : Mem) (v : Nat) :
    Filled P sp m sp v v where
  new u le lt := by omega
  old _ _ := rfl
  tables _ _ := id
  tab i := by
    rw [or_iff_left]
    rintro ⟨u, le, lt, _⟩
    omega

variable {P : Nat → Addr → Page → Prop} {v w : Nat}

theorem Filled.mono {Q : Nat → Addr → Page → Prop} (filled : Filled P sp m' sp' v w)
    (imp : ∀ u x page, v ≤ u → u < w → P u x page → Q u x page) : Filled Q sp m' sp' v w :=
  ⟨fun u le lt => imp u _ _ le lt (filled.new u le lt), filled.old, filled.tables, filled.tab⟩

variable {sp1 : Space}

theorem Filled.snoc {perm : Addr} (filled : Filled P sp m1 sp1 v w) (le : v ≤ w)
    (mapped : Mapped sp1 sp' w w y perm) (small : pteFrame perm = 0)
    (kept : ∀ u, v ≤ u → u < w → m'.page (pteFrame (sp1.pte u)) = m1.page (pteFrame (sp1.pte u)))
    (new : P w (frameAddr y ||| perm ||| pteP) (m'.page y)) : Filled P sp m' sp' v (w + 1) := by
  have here : sp'.pte w = frameAddr y ||| perm ||| pteP := by
    rw [mapped.pte, if_pos ⟨Nat.le_refl w, Nat.le_refl w⟩]
    simp
  have other : ∀ u, u ≠ w → sp'.pte u = sp1.pte u := by
    intro u ne
    rw [mapped.pte, if_neg (by omega)]
  constructor
  case new =>
    intro u from_v to_w
    rcases eq_or_ne u w with rfl | ne
    · rw [here, pteFrame_entry y small]
      exact new
    · rw [other u ne, kept u from_v (by omega)]
      exact filled.new u from_v (by omega)
  case old =>
    intro u out
    rw [other u (by omega)]
    exact filled.old u (by omega)
  case tables => exact fun i f at_i => mapped.tables i f (filled.tables i f at_i)
  case tab =>
    intro i
    rw [mapped.tab, filled.tab, or_assoc]
    refine or_congr_right ⟨?_, ?_⟩
    · rintro (⟨u, from_v, to_w, eq⟩ | same)
      · exact ⟨u, from_v, by omega, eq⟩
      · exact ⟨w, le, by omega, by omega⟩
    · rintro ⟨u, from_v, to_w, eq⟩
      rcases eq_or_ne u w with rfl | ne
      · exact .inr (by omega)
      · exact .inl ⟨u, from_v, by omega, eq⟩

def ZeroPage (_ : Nat) (pte : Addr) (p : Page) : Prop :=
  Has pteP pte ∧ Has pteW pte ∧ Has pteU pte ∧ p = fun _ => 0

theorem pteFrame_userFlags : pteFrame (pteW ||| pteU) = 0 := by decide

theorem zeroPage_entry (u : Nat) (y : Frame) :
    ZeroPage u (frameAddr y ||| (pteW ||| pteU) ||| pteP) fun _ => 0 := by
  refine ⟨has_present _, ?_, ?_, rfl⟩
  · rw [has_or, has_or]
    exact .inl (.inr (by decide))
  · rw [has_or, has_or]
    exact .inl (.inr (by decide))

/-- A loop that maps pages at work: those from `v` up to `w` are mapped. -/
structure Growing (P : Nat → Addr → Page → Prop) (L : Layout) (m : Mem) (g : Ghost) (d : Frame)
    (sp : Space) (v w : Nat) (m' : Mem) (g' : Ghost) (sp' : Space) : Prop where
  inv : Inv L m' g'
  at_d : g'.space d = some sp'
  grows : Grows d nobody m g m' g'
  filled : Filled P sp m' sp' v w

/-- A failed `allocuvm` leaves the pages as they were; page-table pages may have been added. -/
structure Unfilled (L : Layout) (m : Mem) (g : Ghost) (d : Frame) (sp : Space) (v w : Nat)
    (m' : Mem) (g' : Ghost) (sp' : Space) : Prop where
  inv : Inv L m' g'
  at_d : g'.space d = some sp'
  grows : Grows d nobody m g m' g'
  old : ∀ u, u < v ∨ w ≤ u → sp'.pte u = sp.pte u
  gone : ∀ u, v ≤ u → u < w → ¬ Has pteP (sp'.pte u)
  tables : TablesGrow sp sp'

variable {oldsz newsz : Addr}

theorem alloc_undo (inv : Inv L m g) (at_d : g.space d = some sp) (limit : newsz.toNat < 2 ^ 31)
    (absent : ∀ u, pages oldsz ≤ u → u < pages newsz → ¬ Has pteP (sp.pte u)) (inv1 : Inv L m1 g1)
    (at_d1 : g1.space d = some sp1) (grows : Grows d X m g m1 g1)
    (old : ∀ u, u < pages oldsz ∨ pages newsz ≤ u → sp1.pte u = sp.pte u)
    (tables : TablesGrow sp sp1) (held : ∀ f, X f → g1.own f = .held) :
    Ends (deallocuvm L d newsz oldsz) m1 fun _ m2 => ∃ g2 sp2, Inv L m2 g2 ∧
      g2.space d = some sp2 ∧ Grows d X m g m2 g2 ∧ (∀ f, X f → g2.own f = .held) ∧
      (∀ u, u < pages oldsz ∨ pages newsz ≤ u → sp2.pte u = sp.pte u) ∧
      (∀ u, pages oldsz ≤ u → u < pages newsz → ¬ Has pteP (sp2.pte u)) ∧ TablesGrow sp sp2 := by
  refine (deallocuvm_ends inv1 at_d1 _ _ (Nat.le_of_lt limit)).mono ?_
  rintro _ m2 ⟨-, g2, sp2, inv2, at_d2, unmapped, shrinks⟩
  have fresh : ∀ f, pagesBetween g1 d (pages oldsz) newsz f → X f ∨ g.own f = .free := by
    rintro f ⟨u, from_old, to_new, user⟩
    by_cases out : X f
    · exact .inl out
    · refine .inr (Classical.byContradiction fun taken => ?_)
      rw [grows.own f out taken] at user
      have present := (((inv.space d sp at_d).user u f).mp user).2.1
      exact absent u from_old ((lt_pages newsz u).mpr to_new) present
  refine ⟨g2, sp2, inv2, at_d2, grows.shrink shrinks fresh, fun f mine => ?_, fun u out => ?_,
    fun u from_old to_new => unmapped.gone u from_old ((lt_pages newsz u).mp to_new), ?_⟩
  · rw [shrinks.own f, held f mine]
    rintro ⟨u, _, _, user⟩
    cases (held f mine).symm.trans user
  · have := lt_pages newsz u
    rw [unmapped.stays u (by omega), old u out]
  · intro i f at_i
    rw [unmapped.tab]
    exact tables i f at_i

def AllocPost (L : Layout) (m : Mem) (g : Ghost) (d : Frame) (sp : Space) (oldsz newsz : Addr)
    (r : Bool) (m' : Mem) : Prop :=
  r = true ∧ (∃ g' sp', Growing ZeroPage L m g d sp (pages oldsz) (pages newsz) m' g' sp') ∨
  r = false ∧ m.free.length ≤ 1025 + pages newsz ∧
    ∃ g' sp', Unfilled L m g d sp (pages oldsz) (pages newsz) m' g' sp'

/-- Memory has run out while the pages below `w` were being mapped. -/
theorem alloc_count {n : Nat} (inv : Inv L m g) (at_d : g.space d = some sp) (inv1 : Inv L m1 g1)
    (at_d1 : g1.space d = some sp1) (grows : Grows d X m g m1 g1)
    (old : ∀ u, u < v ∨ w ≤ u → sp1.pte u = sp.pte u) (le : w ≤ n) (x : Frame)
    (only : ∀ f, X f → f = x) (empty : m1.free = []) : m.free.length ≤ 1025 + n := by
  have bound :=
    inv1.count_le at_d1 x n inv.books.nodup (fun f member => ?_) fun f member u user => ?_
  · have tables := sp1.tables_le
    rw [empty, List.length_nil] at bound
    omega
  · by_cases mine : X f
    · exact .inr (.inl (only f mine))
    · rcases grows.new f mine ((inv.books.free_iff f).mp member) with free | inside
      · exact .inl free
      · exact .inr (.inr inside)
  · refine Classical.byContradiction fun high => ?_
    have now := ((inv1.space d sp1 at_d1).user u f).mp user
    rw [old u (by omega)] at now
    have before := ((inv.space d sp at_d).user u f).mpr now
    cases before.symm.trans ((inv.books.free_iff f).mp member)

theorem Grows.user_page (grows : Grows d nobody m g m' g') (inv : Inv L m g)
    (at_d : g.space d = some sp) {e f : Frame} {u : Nat} (user : g.own f = .user e u) :
    m'.page f = m.page f := by
  refine grows.kept f id (by rw [user]; simp) ?_ (by rw [user]; simp)
  rintro rfl
  cases (inv.space f sp at_d).dir.symm.trans user

theorem Growing.snoc {m2 m3 : Mem} {g2 g3 : Ghost} {sp3 : Space} {perm : Addr}
    (growing : Growing P L m g d sp v w m1 g1 sp1) (present : ∀ u x p, P u x p → Has pteP x)
    (le : v ≤ w) (low : w < 2 ^ 19) (free : g1.own y = .free)
    (taken : Grows d (· = y) m1 g1 m2 g2) (inv3 : Inv L m3 g3) (at_d3 : g3.space d = some sp3)
    (grows : Grows d (· = y) m2 g2 m3 g3) (user : g3.own y = .user d w)
    (mapped : Mapped sp1 sp3 w w y perm) (small : pteFrame perm = 0)
    (new : P w (frameAddr y ||| perm ||| pteP) (m3.page y)) :
    Growing P L m g d sp v (w + 1) m3 g3 sp3 := by
  have round := (taken.trans grows).close free (.inr (by rw [user]; exact rfl))
  refine ⟨inv3, at_d3, growing.grows.trans round, growing.filled.snoc le mapped small ?_ new⟩
  intro u from_v to_w
  have here := present u _ _ (growing.filled.new u from_v to_w)
  have ok := growing.inv.space d sp1 growing.at_d
  exact round.user_page growing.inv growing.at_d ((ok.user u _).mpr ⟨by omega, here, rfl⟩)

theorem allocLoop_ends (inv : Inv L m g) (at_d : g.space d = some sp)
    (limit : newsz.toNat < 2 ^ 31)
    (absent : ∀ u, pages oldsz ≤ u → u < pages newsz → ¬ Has pteP (sp.pte u)) (n : Nat) (a : Addr)
    (v : Nat) (m1 : Mem) (g1 : Ghost) (sp1 : Space) (page : a.toNat = 4096 * v)
    (from_old : pages oldsz ≤ v) (to_new : v ≤ pages newsz) (fuel : pages newsz - v < n)
    (growing : Growing ZeroPage L m g d sp (pages oldsz) v m1 g1 sp1) :
    Ends (allocLoop L d oldsz newsz n a) m1 (AllocPost L m g d sp oldsz newsz) := by
  induction n generalizing a v m1 g1 sp1 with
  | zero => omega
  | succ n ih =>
    have in_range : a < newsz ↔ v < pages newsz := by
      rw [lt_pages, ← page]
      exact Iff.rfl
    rw [allocLoop]
    by_cases more : v < pages newsz
    · have low : v < 2 ^ 19 := by
        have := (lt_pages newsz v).mp more
        omega
      have old : ∀ u, u < pages oldsz ∨ pages newsz ≤ u → sp1.pte u = sp.pte u :=
        fun u out => growing.filled.old u (by omega)
      rw [if_pos (in_range.mpr more), ends_bind, ends_kalloc]
      cases free : m1.free with
      | nil =>
        rw [ends_bind]
        refine (alloc_undo inv at_d limit absent growing.inv growing.at_d growing.grows old
          growing.filled.tables fun _ => False.elim).mono ?_
        rintro _ m2 ⟨g2, sp2, inv2, at_d2, grows2, -, old2, gone2, tables2⟩
        refine .inr ⟨rfl, ?_, g2, sp2, inv2, at_d2, grows2, old2, gone2, tables2⟩
        exact alloc_count inv at_d growing.inv growing.at_d growing.grows growing.filled.old
          to_new d (fun _ => False.elim) free
      | cons y rest =>
        obtain ⟨was_free, inv2, taken⟩ := growing.inv.takePage free d fun _ => 0
        have held := g1.setOwn_self y .held
        have absent1 : ¬ Has pteP (sp1.pte v) := by
          rw [growing.filled.old v (.inr (Nat.le_refl v))]
          exact absent v from_old more
        simp only [ends_bind, ends_zeroPage]
        refine (mappages_user inv2 growing.at_d page low absent1 held pteFrame_userFlags).mono ?_
        rintro r m3 (⟨rfl, rfl, empty⟩ | ⟨g3, sp3, rfl, inv3, at_d3, grows3, user, same, mapped⟩)
        · rw [if_neg (by simp), ends_bind]
          have grown := (growing.grows.weaken fun _ => False.elim).trans taken
          refine (alloc_undo inv at_d limit absent inv2 growing.at_d grown old
            growing.filled.tables fun f eq => by rw [eq]; exact held).mono ?_
          rintro _ m4 ⟨g4, sp4, inv4, at_d4, grows4, held4, old4, gone4, tables4⟩
          obtain ⟨alloc, inv5, dropped⟩ := inv4.dropHeld d (held4 y rfl)
          have start_free : g.own y = .free := by
            refine Classical.byContradiction fun used => used ?_
            rw [← growing.grows.own y id used, was_free]
          rw [ends_bind, ends_kfree alloc, ends_pure]
          refine .inr ⟨rfl, ?_, _, sp4, inv5, at_d4, ?_, old4, gone4, tables4⟩
          · exact alloc_count inv at_d inv2 growing.at_d grown growing.filled.old
              to_new y (fun _ => id) empty
          · exact (grows4.trans dropped).close start_free (.inl (Ghost.setOwn_self ..))
        · rw [if_pos rfl]
          refine ih (a + pgSize) (v + 1) m3 g3 sp3 (page_succ page (by omega)) (by omega) more
            (by omega) ?_
          refine growing.snoc (fun _ _ _ zero => zero.1) from_old low was_free taken inv3 at_d3
            grows3 user mapped pteFrame_userFlags ?_
          rw [same, Mem.setPage_self]
          exact zeroPage_entry v y
    · rw [if_neg (mt in_range.mp more), ends_pure]
      obtain rfl : v = pages newsz := by omega
      exact .inl ⟨rfl, g1, sp1, growing⟩

theorem pages_mono {sz sz' : Addr} (le : sz.toNat ≤ sz'.toNat) : pages sz ≤ pages sz' := by
  unfold pages
  omega

theorem allocuvm_ends (inv : Inv L m g) (at_d : g.space d = some sp)
    (absent : ∀ u, u < 2 ^ 19 → pages oldsz ≤ u → ¬ Has pteP (sp.pte u)) :
    Ends (allocuvm L d oldsz newsz) m fun r m' =>
      newsz ≥ kernBase ∧ r = 0 ∧ m' = m ∨
      newsz < kernBase ∧ newsz < oldsz ∧ r = oldsz ∧ m' = m ∨
      newsz < kernBase ∧ oldsz ≤ newsz ∧
        (r = newsz ∧ (∃ g' sp', Growing ZeroPage L m g d sp (pages oldsz) (pages newsz) m' g' sp') ∨
          r = 0 ∧ m.free.length ≤ 1025 + pages newsz ∧
            ∃ g' sp', Unfilled L m g d sp (pages oldsz) (pages newsz) m' g' sp') := by
  rw [allocuvm]
  by_cases high : newsz ≥ kernBase
  · rw [if_pos high, ends_pure]
    exact .inl ⟨high, rfl, rfl⟩
  · have low : newsz < kernBase := BitVec.not_le.mp high
    rw [if_neg high]
    by_cases shrink : newsz < oldsz
    · rw [if_pos shrink, ends_pure]
      exact .inr (.inl ⟨low, shrink, rfl, rfl⟩)
    · have le : oldsz ≤ newsz := BitVec.not_lt.mp shrink
      have limit : newsz.toNat < 2 ^ 31 := low
      have mono : pages oldsz ≤ pages newsz := pages_mono le
      have le' : oldsz.toNat ≤ newsz.toNat := le
      have page : (pgRoundUp oldsz).toNat = 4096 * pages oldsz := by
        rw [pgRoundUp_toNat (by omega), pages]
        omega
      have fuel : pages newsz - pages oldsz < rounds + 1 := by
        unfold rounds pages
        omega
      have above : ∀ u, pages oldsz ≤ u → u < pages newsz → ¬ Has pteP (sp.pte u) := by
        intro u from_old to_new
        have := (lt_pages newsz u).mp to_new
        exact absent u (by omega) from_old
      rw [if_neg shrink, ends_bind]
      refine (allocLoop_ends inv at_d limit above (rounds + 1) _ _ m g sp page (Nat.le_refl _)
        mono fuel ⟨inv, at_d, .refl .., .refl ..⟩).mono ?_
      rintro r m' (⟨rfl, grown⟩ | ⟨rfl, failed⟩)
      · exact .inr (.inr ⟨low, le, .inl ⟨rfl, grown⟩⟩)
      · exact .inr (.inr ⟨low, le, .inr ⟨rfl, failed⟩⟩)

end Xv6.Vm
