import Xv6.Vm.Ownership

/-!
# Walking and extending a page table

What `kalloc`, `kfree`, `walkpgdir` and `mappages` do to the flat map of a page directory.
`Grows` is what every function that only adds to an address space leaves alone.
-/

namespace Xv6.Vm

open Function

def vpn (va : Addr) : Nat := va.toNat / 4096

theorem vpn_lt (va : Addr) : vpn va < 2 ^ 20 := by
  unfold vpn
  omega

theorem pdx_eq (va : Addr) : (pdx va).toNat = vpn va / 1024 := pdx_toNat va

theorem ptx_eq (va : Addr) : (ptx va).toNat = vpn va % 1024 := ptx_toNat va

/-! ## Primitive steps -/

@[simp] theorem ends_getWord (f : Frame) (i : Nat) (m : Mem) (Q : Addr → Mem → Prop) :
    Ends (getWord f i) m Q ↔ Q ((m.page f).word i) m := Iff.rfl

@[simp] theorem ends_setWord (f : Frame) (i : Nat) (w : Addr) (m : Mem) (Q : Unit → Mem → Prop) :
    Ends (setWord f i w) m Q ↔ Q () (m.setPage f ((m.page f).setWord i w)) := Iff.rfl

@[simp] theorem ends_zeroPage (f : Frame) (m : Mem) (Q : Unit → Mem → Prop) :
    Ends (zeroPage f) m Q ↔ Q () (m.setPage f fun _ => 0) := Iff.rfl

/-- `kalloc` takes the head of the free list, if there is one. -/
theorem ends_kalloc (m : Mem) (Q : Option Frame → Mem → Prop) :
    Ends kalloc m Q ↔ match m.free with
      | [] => Q none m
      | f :: rest => Q (some f) { m with free := rest } := by
  unfold Ends kalloc
  cases m.free <;> rfl

theorem ends_kfree {L : Layout} {f : Frame} (alloc : Allocatable L f) (m : Mem)
    (Q : Unit → Mem → Prop) : Ends (kfree L f) m Q ↔ Q () (m.freed f) :=
  ends_of_eq (if_neg alloc)

section Walk

variable {L : Layout} {m : Mem} {g : Ghost} {d : Frame} {sp : Space}

/-- Without `alloc`, `walkpgdir` finds the entry of `va` where there is a page table for it. -/
theorem ends_walk (inv : Inv L m g) (at_d : g.space d = some sp) (va : Addr)
    (Q : Option PtePtr → Mem → Prop) :
    Ends (walkpgdir d va false) m Q ↔
      Q ((sp.tab (vpn va / 1024)).map fun f => (f, vpn va % 1024)) m := by
  have ok := inv.space d sp at_d
  have lt : vpn va / 1024 < 1024 := by
    have := vpn_lt va
    omega
  rw [walkpgdir, ends_bind, ends_getWord, pdx_eq, ptx_eq]
  cases tab : sp.tab (vpn va / 1024) with
  | none =>
    rw [if_neg (ok.absent _ lt tab)]
    exact Iff.rfl
  | some f =>
    rw [ok.present _ f lt tab, if_pos (pdeOf_present f), pteFrame_pdeOf]
    exact Iff.rfl

/-- What is left alone when pages are added to the address space `d`.  Frames that satisfy `X`
are in the hands of the caller. -/
structure Grows (d : Frame) (X : Frame → Prop) (m : Mem) (g : Ghost) (m' : Mem) (g' : Ghost) :
    Prop where
  own : ∀ f, ¬ X f → g.own f ≠ .free → g'.own f = g.own f
  new : ∀ f, ¬ X f → g.own f = .free → g'.own f = .free ∨ (g'.own f).In d
  space : ∀ e, e ≠ d → g'.space e = g.space e
  kept : ∀ f, ¬ X f → g.own f ≠ .free → f ≠ d → (∀ i, g.own f ≠ .table d i) →
    m'.page f = m.page f
  loaded : m'.loaded = m.loaded
  refreed : m'.refreed = m.refreed

theorem Grows.refl (d : Frame) (X : Frame → Prop) (m : Mem) (g : Ghost) : Grows d X m g m g :=
  ⟨fun _ _ _ => rfl, fun _ _ free => .inl free, fun _ _ => rfl, fun _ _ _ _ _ => rfl, rfl, rfl⟩

variable {m' : Mem} {g' : Ghost}

theorem Grows.trans {X : Frame → Prop} {m'' : Mem} {g'' : Ghost} (first : Grows d X m g m' g')
    (second : Grows d X m' g' m'' g'') : Grows d X m g m'' g'' where
  own f out taken := by
    have same := first.own f out taken
    rw [second.own f out (by rwa [same]), same]
  new f out free := by
    rcases first.new f out free with still | inside
    · exact second.new f out still
    · have taken : g'.own f ≠ .free := by
        intro h
        rw [h] at inside
        exact inside
      rw [second.own f out taken]
      exact .inr inside
  space e ne := (second.space e ne).trans (first.space e ne)
  kept f out taken ne table := by
    have same := first.own f out taken
    rw [second.kept f out (by rwa [same]) ne (by rwa [same]), first.kept f out taken ne table]
  loaded := second.loaded.trans first.loaded
  refreed := second.refreed.trans first.refreed

theorem Grows.weaken {X Y : Frame → Prop} (grows : Grows d X m g m' g') (sub : ∀ f, X f → Y f) :
    Grows d Y m g m' g' where
  own f out := grows.own f fun x => out (sub f x)
  new f out := grows.new f fun x => out (sub f x)
  space := grows.space
  kept f out := grows.kept f fun x => out (sub f x)
  loaded := grows.loaded
  refreed := grows.refreed

def nobody : Frame → Prop := fun _ => False

variable {f : Frame}

theorem Grows.of_free (free : g.own f = .free) (own : ∀ x, x ≠ f → g'.own x = g.own x)
    (role : (g'.own f).In d) (space : ∀ e, e ≠ d → g'.space e = g.space e)
    (page : ∀ x, x ≠ f → x ≠ d → m'.page x = m.page x) (loaded : m'.loaded = m.loaded)
    (refreed : m'.refreed = m.refreed) : Grows d nobody m g m' g' where
  own x _ taken := own x fun eq => taken (eq ▸ free)
  new x _ was_free := by
    rcases eq_or_ne x f with rfl | ne
    · exact .inr role
    · exact .inl ((own x ne).trans was_free)
  space := space
  kept x _ taken ne _ := page x (fun eq => taken (eq ▸ free)) ne
  loaded := loaded
  refreed := refreed

/-- The page-table pages of `sp'` are those of `sp`, and some more. -/
def TablesGrow (sp sp' : Space) : Prop := ∀ i f, sp.tab i = some f → sp'.tab i = some f

/-- With `alloc`, `walkpgdir` fails only if no page is free; it adds a table at most, and changes no
entry. -/
theorem walk_alloc (inv : Inv L m g) (at_d : g.space d = some sp) (va : Addr) :
    Ends (walkpgdir d va true) m fun r m' =>
      (r = none ∧ m' = m ∧ m.free = []) ∨
      ∃ f g' sp', r = some (f, vpn va % 1024) ∧ Inv L m' g' ∧ g'.space d = some sp' ∧
        Grows d nobody m g m' g' ∧ sp'.tab (vpn va / 1024) = some f ∧ sp'.pte = sp.pte ∧
        TablesGrow sp sp' ∧ ∀ i, i ≠ vpn va / 1024 → sp'.tab i = sp.tab i := by
  have ok := inv.space d sp at_d
  have lt : vpn va / 1024 < 1024 := by
    have := vpn_lt va
    omega
  rw [walkpgdir, ends_bind, ends_getWord, pdx_eq, ptx_eq]
  cases tab : sp.tab (vpn va / 1024) with
  | some f =>
    rw [ok.present _ f lt tab, if_pos (pdeOf_present f), pteFrame_pdeOf]
    exact .inr ⟨f, g, sp, rfl, inv, at_d, .refl .., tab, rfl, fun _ _ => id, fun _ _ => rfl⟩
  | none =>
    rw [if_neg (ok.absent _ lt tab), if_pos rfl, ends_bind, ends_kalloc]
    cases free : m.free with
    | nil => exact .inl ⟨rfl, rfl, rfl⟩
    | cons f rest =>
      obtain ⟨was_free, taken⟩ := inv.take free
      have held := g.setOwn_self f .held
      have zeroed := taken.fill (f := f) (fun _ => 0) fun e sp' live =>
        ⟨(taken.loose_of_held held e sp' live).1, fun i => by rw [held]; simp⟩
      have zero : ∀ j,
          ((({ m with free := rest } : Mem).setPage f fun _ => 0).page f).word j = 0 := by
        intro j
        rw [Mem.setPage_self]
        exact Words.Page.word_zero j
      have added := zeroed.addTable at_d held lt tab zero
      refine .inr ⟨f, _, _, rfl, added, Ghost.setSpace_self .., ?_, ?_, rfl, ?_, ?_⟩
      · refine Grows.of_free was_free (fun x ne => ?_) ?_ (fun e ne => ?_)
          (fun x ne ne_d => ?_) rfl rfl
        · rw [Ghost.setSpace_own, Ghost.setOwn_ne _ ne, Ghost.setOwn_ne _ ne]
        · rw [Ghost.setSpace_own, Ghost.setOwn_self]
          exact rfl
        · rw [Ghost.setSpace_ne _ ne]
          rfl
        · rw [Mem.setPage_ne _ ne_d, Mem.setPage_ne _ ne]
      · exact update_self _ _ _
      · intro i x at_i
        have ne : i ≠ vpn va / 1024 := by
          rintro rfl
          cases tab.symm.trans at_i
        exact (update_of_ne ne _ _).trans at_i
      · exact fun i ne => update_of_ne ne _ _

/-! ## `mappages` -/

variable {v : Nat}

theorem vpn_of_page {a : Addr} (page : a.toNat = 4096 * v) : vpn a = v := by
  unfold vpn
  omega

theorem rounds_eq : rounds = 1048575 + 1 := rfl

/-- One round of the loop of `mappages`, at a page that is not mapped. -/
theorem map_round (inv : Inv L m g) (at_d : g.space d = some sp) {a : Addr}
    (absent : ¬ Has pteP (sp.pte (vpn a))) (perm last pa : Addr) (n : Nat)
    {Q : Bool → Mem → Prop} (full : m.free = [] → Q false m)
    (next : ∀ f m' g' sp', Inv L m' g' → g'.space d = some sp' → Grows d nobody m g m' g' →
      sp'.tab (vpn a / 1024) = some f → sp'.pte = sp.pte → TablesGrow sp sp' →
      (∀ i, i ≠ vpn a / 1024 → sp'.tab i = sp.tab i) →
      Ends (if a = last then pure true
        else mapLoop d perm last n (a + pgSize) (pa + pgSize))
        (m'.setPage f ((m'.page f).setWord (vpn a % 1024) (pa ||| perm ||| pteP))) Q) :
    Ends (mapLoop d perm last (n + 1) a pa) m Q := by
  rw [mapLoop, ends_bind]
  refine (walk_alloc inv at_d a).mono fun r m' post => ?_
  rcases post with ⟨rfl, rfl, empty⟩ |
    ⟨f, g', sp', rfl, inv', at_d', grows, tab, same, tables, others⟩
  · exact full empty
  · have entry := (inv'.space d sp' at_d').entry (vpn a) f (vpn_lt a) tab
    rw [← same] at absent
    simp only [ends_bind, ends_getWord, entry, if_neg absent, ends_setWord]
    exact next f m' g' sp' inv' at_d' grows tab same tables others

/-- What becomes of the address space when the pages `v` to `w` are mapped to the frames from
`f` on. -/
structure Mapped (sp sp' : Space) (v w : Nat) (f : Frame) (perm : Addr) : Prop where
  pte : ∀ u, sp'.pte u = if v ≤ u ∧ u ≤ w then
    frameAddr (f + BitVec.ofNat 20 (u - v)) ||| perm ||| pteP else sp.pte u
  tables : TablesGrow sp sp'
  tab : ∀ i, (sp'.tab i).isSome ↔ (sp.tab i).isSome ∨ v / 1024 ≤ i ∧ i ≤ w / 1024

theorem frameAddr_succ (f : Frame) : frameAddr f + pgSize = frameAddr (f + 1) := by
  apply BitVec.eq_of_toNat_eq
  rw [BitVec.toNat_add, frameAddr_toNat, frameAddr_toNat]
  simp only [pgSize]
  bv_omega

theorem frame_shift (f : Frame) {u v : Nat} (lt : v < u) :
    f + 1 + BitVec.ofNat 20 (u - (v + 1)) = f + BitVec.ofNat 20 (u - v) := by
  rw [show u - v = 1 + (u - (v + 1)) by omega, BitVec.ofNat_add, BitVec.add_assoc]
  rfl

theorem Mapped.single {sp1 : Space} {x : Frame} (f : Frame) (perm : Addr)
    (same : sp1.pte = sp.pte) (tables : TablesGrow sp sp1) (tab : sp1.tab (v / 1024) = some x)
    (others : ∀ i, i ≠ v / 1024 → sp1.tab i = sp.tab i) :
    Mapped sp (sp1.setPte v (frameAddr f ||| perm ||| pteP)) v v f perm where
  pte u := by
    rcases eq_or_ne u v with rfl | ne
    · simp [Space.setPte]
    · rw [if_neg (by omega), ← same]
      exact update_of_ne ne _ _
  tables := tables
  tab i := by
    change (sp1.tab i).isSome ↔ _
    rcases eq_or_ne i (v / 1024) with rfl | ne
    · simp [tab]
    · rw [others i ne, or_iff_left]
      omega

/-- Pages that are mapped one after the other. -/
theorem Mapped.cons {sp1 sp2 : Space} {w : Nat} {perm : Addr} (first : Mapped sp sp1 v v f perm)
    (rest : Mapped sp1 sp2 (v + 1) w (f + 1) perm) (le : v ≤ w) : Mapped sp sp2 v w f perm where
  pte u := by
    rw [rest.pte, first.pte]
    rcases Nat.lt_trichotomy u v with below | rfl | above
    · rw [if_neg (by omega), if_neg (by omega), if_neg (by omega)]
    · rw [if_neg (by omega), if_pos (by omega), if_pos (by omega)]
    · by_cases last : u ≤ w
      · rw [if_pos (by omega), if_pos (by omega), frame_shift f above]
      · rw [if_neg (by omega), if_neg (by omega), if_neg (by omega)]
  tables i x at_i := rest.tables i x (first.tables i x at_i)
  tab i := by
    rw [rest.tab, first.tab, or_assoc]
    refine or_congr_right ?_
    omega

theorem Grows.entry {i : Nat} (table : g.own f = .table d i) (p : Page) (sp' : Option Space) :
    Grows d nobody m g (m.setPage f p) (g.setSpace d sp') where
  own _ _ _ := rfl
  new _ _ free := .inl free
  space _ ne := Ghost.setSpace_ne _ ne _
  kept x _ _ _ other := by
    refine Mem.setPage_ne _ ?_ _
    rintro rfl
    exact other i table
  loaded := rfl
  refreed := rfl

theorem page_succ {a : Addr} (page : a.toNat = 4096 * v) (lt : v + 1 < 2 ^ 20) :
    (a + pgSize).toNat = 4096 * (v + 1) := by
  simp only [pgSize]
  bv_omega

/-- The loop of `mappages` over pages of the kernel's half, from `v` to `w`. -/
theorem mapLoop_kernel {perm last : Addr} {w : Nat} (at_last : last.toNat = 4096 * w)
    (n : Nat) (m : Mem) (g : Ghost) (sp : Space) (a : Addr) (v : Nat) (f : Frame)
    (inv : Inv L m g) (at_d : g.space d = some sp) (page : a.toNat = 4096 * v) (high : 2 ^ 19 ≤ v)
    (le : v ≤ w) (fuel : w - v < n) (absent : ∀ u, v ≤ u → u ≤ w → ¬ Has pteP (sp.pte u)) :
    Ends (mapLoop d perm last n a (frameAddr f)) m fun r m' =>
      ∃ g' sp', Inv L m' g' ∧ g'.space d = some sp' ∧ Grows d nobody m g m' g' ∧
        (∀ u, u < v → sp'.pte u = sp.pte u) ∧
        (∀ i, (sp'.tab i).isSome → (sp.tab i).isSome ∨ v / 1024 ≤ i ∧ i ≤ w / 1024) ∧
        (r = true ∧ Mapped sp sp' v w f perm ∨ r = false ∧ m'.free = []) := by
  induction n generalizing m g sp a v f with
  | zero => omega
  | succ n ih =>
    have w_lt : w < 2 ^ 20 := by
      have := last.isLt
      omega
    obtain rfl := vpn_of_page page
    refine map_round inv at_d (absent _ (Nat.le_refl _) le) perm last (frameAddr f) n
      (fun empty => ⟨g, sp, inv, at_d, .refl .., fun _ _ => rfl, fun _ => .inl, .inr ⟨rfl, empty⟩⟩)
      fun x m1 g1 sp1 inv1 at_d1 grows tab same tables others => ?_
    have table := ((inv1.space d sp1 at_d1).table _ x).mpr ⟨by omega, tab⟩
    have inv2 := inv1.remap (x := frameAddr f ||| perm ||| pteP) at_d1 (by omega) tab
      fun low => by omega
    have mapped := Mapped.single f perm same tables tab others
    have grows2 := grows.trans (Grows.entry (m := m1) table
      ((m1.page x).setWord (vpn a % 1024) (frameAddr f ||| perm ||| pteP))
      (some (sp1.setPte (vpn a) (frameAddr f ||| perm ||| pteP))))
    have below : ∀ u, u < vpn a → (sp1.setPte (vpn a) (frameAddr f ||| perm ||| pteP)).pte u =
        sp.pte u := by
      intro u lt
      rw [mapped.pte, if_neg (by omega)]
    rcases eq_or_ne a last with rfl | ne
    · rw [if_pos rfl, ends_pure]
      obtain rfl : vpn a = w := by omega
      exact ⟨_, _, inv2, Ghost.setSpace_self .., grows2, below, fun i => (mapped.tab i).mp,
        .inl ⟨rfl, mapped⟩⟩
    · have lt : vpn a < w := by
        refine Nat.lt_of_le_of_ne le fun eq => ne (BitVec.eq_of_toNat_eq ?_)
        omega
      rw [if_neg ne, frameAddr_succ]
      refine (ih _ _ _ (a + pgSize) (vpn a + 1) (f + 1) inv2 (Ghost.setSpace_self ..)
        (page_succ page (by omega)) (by omega) lt (by omega) fun u from_v to_w => ?_).mono ?_
      · rw [mapped.pte, if_neg (by omega)]
        exact absent u (by omega) to_w
      · rintro r m' ⟨g', sp', inv', at_d', grows', below', tabs, outcome⟩
        refine ⟨g', sp', inv', at_d', grows2.trans grows', fun u lt' => ?_, fun i some => ?_, ?_⟩
        · rw [below' u (by omega), below u lt']
        · rcases tabs i some with old | new
          · exact ((mapped.tab i).mp old).imp_right fun here => ⟨here.1, by omega⟩
          · exact .inr ⟨by omega, new.2⟩
        rcases outcome with ⟨done, rest⟩ | failed
        · exact .inl ⟨done, mapped.cons rest le⟩
        · exact .inr failed

/-- `mappages` of one page of the user's half, whose frame becomes the directory's. -/
theorem mappages_user (inv : Inv L m g) (at_d : g.space d = some sp) {a : Addr} {v : Nat}
    (page : a.toNat = 4096 * v) (low : v < 2 ^ 19) (absent : ¬ Has pteP (sp.pte v)) {y : Frame}
    (held : g.own y = .held) {perm : Addr} (small : pteFrame perm = 0) :
    Ends (mappages d a pgSize (frameAddr y) perm) m fun r m' =>
      (r = false ∧ m' = m ∧ m.free = []) ∨
      ∃ g' sp', r = true ∧ Inv L m' g' ∧ g'.space d = some sp' ∧ Grows d (· = y) m g m' g' ∧
        g'.own y = .user d v ∧ m'.page y = m.page y ∧ Mapped sp sp' v v y perm := by
  obtain rfl := vpn_of_page page
  have round : pgRoundDown a = a := by
    apply BitVec.eq_of_toNat_eq
    rw [pgRoundDown_toNat]
    omega
  have last : pgRoundDown (a + pgSize - 1) = a := by
    apply BitVec.eq_of_toNat_eq
    rw [pgRoundDown_toNat, show (a + pgSize - 1).toNat = a.toNat + 4095 by
      simp only [pgSize]; bv_omega]
    omega
  rw [mappages, round, last, rounds_eq]
  refine map_round inv at_d absent perm a (frameAddr y) _ (fun empty => .inl ⟨rfl, rfl, empty⟩)
    fun x m1 g1 sp1 inv1 at_d1 grows tab same tables others => ?_
  rw [if_pos rfl, ends_pure]
  have table := ((inv1.space d sp1 at_d1).table _ x).mpr ⟨by omega, tab⟩
  have held1 : g1.own y = .held := (grows.own y id (by rw [held]; simp)).trans held
  have ne : y ≠ x := by
    rintro rfl
    cases held1.symm.trans table
  have ne_d : y ≠ d := (inv.loose_of_held held d sp at_d).1
  have inv2 := inv1.mapUser at_d1 low tab (by rwa [same]) held1 (has_present _)
    (pteFrame_entry y small)
  refine .inr ⟨_, _, rfl, inv2, Ghost.setSpace_self .., ?_, g1.setOwn_self y _, ?_,
    .single _ _ same tables tab others⟩
  · refine (grows.weaken fun _ => False.elim).trans ?_
    have stored := Grows.entry (m := m1) table ((m1.page x).setWord (vpn a % 1024)
      (frameAddr y ||| perm ||| pteP)) (some (sp1.setPte (vpn a) (frameAddr y ||| perm ||| pteP)))
    constructor
    case own => exact fun f out _ => g1.setOwn_ne out _
    case new => exact fun f out free => .inl ((g1.setOwn_ne out _).trans free)
    case space => exact stored.space
    case kept => exact fun f _ => stored.kept f id
    case loaded => rfl
    case refreed => rfl
  · rw [Mem.setPage_ne _ ne]
    exact grows.kept y id (by rw [held]; simp) ne_d (by rw [held]; simp)

end Walk

end Xv6.Vm
