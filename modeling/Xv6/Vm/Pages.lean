import Mathlib.Data.List.GetD
import Xv6.Vm.Exec
import Xv6.Vm.Shape

/-!
# User pages, and `copyout` byte by byte

`Mem.pte` is the page table as the MMU reads it.  `copyout` writes to an address space that need not
be the current one, a page at a time, and finds each page with `uva2ka`.  A page that is absent or
not for the user ends it with `-1`.  An address without a page table does not: `walkpgdir` returns a
null pointer there, and `uva2ka` reads the entry behind it.

The range may start anywhere, cross pages and page tables, and run past the top of the address
space to address 0.  Nothing is assumed of the page table, except that the pages it has for the
user are `Separate`: a copy does not change it, and what is copied to one page does not show in
another.
-/

namespace Xv6.Vm

open List

/-- The page table entry for an address, as the MMU finds it; zero without a page table. -/
def Mem.pte (m : Mem) (pgdir : Frame) (va : Addr) : Addr :=
  let pde := (m.page pgdir).word (pdx va).toNat
  if Has pteP pde then (m.page (pteFrame pde)).word (ptx va).toNat else 0

def pgOffset (va : Addr) : Fin (4 * 1024) := ⟨va.toNat % 4096, by omega⟩

/-- The page at `va` is present and for the user. -/
def Mem.Open (m : Mem) (d : Frame) (va : Addr) : Prop :=
  Has pteP (m.pte d va) ∧ Has pteU (m.pte d va)

instance (m : Mem) (d : Frame) (va : Addr) : Decidable (m.Open d va) :=
  inferInstanceAs (Decidable (_ ∧ _))

theorem pte_congr (m : Mem) (d : Frame) {x y : Addr} (same : vpn x = vpn y) :
    m.pte d x = m.pte d y := by
  unfold Mem.pte
  rw [pdx_eq, pdx_eq, ptx_eq, ptx_eq, same]

def Mem.userByte (m : Mem) (pgdir : Frame) (va : Addr) : Byte :=
  m.page (pteFrame (m.pte pgdir va)) (pgOffset va)

def Mem.Tabled (m : Mem) (d : Frame) (va : Addr) : Prop := Has pteP ((m.page d).word (pdx va).toNat)

instance (m : Mem) (d : Frame) (va : Addr) : Decidable (m.Tabled d va) :=
  inferInstanceAs (Decidable (Has ..))

/-- Where a mapped byte is in memory. -/
def Mem.place (m : Mem) (d : Frame) (va : Addr) : Frame × Fin (4 * 1024) :=
  (pteFrame (m.pte d va), pgOffset va)

/-- The pages for the user are no part of the page table, and are mapped once. -/
structure Separate (m : Mem) (d : Frame) : Prop where
  dir : ∀ va, m.Open d va → pteFrame (m.pte d va) ≠ d
  table : ∀ va x, m.Open d va → m.Tabled d x →
    pteFrame (m.pte d va) ≠ pteFrame ((m.page d).word (pdx x).toNat)
  inj : ∀ va x, m.Open d va → m.Open d x → pteFrame (m.pte d va) = pteFrame (m.pte d x) →
    vpn va = vpn x

/-- The `len` bytes from `va` on have page tables as far as their pages are for the user, and one
byte further. -/
def Guarded (m : Mem) (d : Frame) (va : Addr) (len : Nat) : Prop :=
  ∀ i, i < len → (∀ j, j < i → m.Open d (va + BitVec.ofNat 32 j)) →
    m.Tabled d (va + BitVec.ofNat 32 i)

/-- All of the `len` bytes from `va` on are in pages for the user. -/
def AllOpen (m : Mem) (d : Frame) (va : Addr) (len : Nat) : Prop :=
  ∀ i, i < len → m.Open d (va + BitVec.ofNat 32 i)

/-- The bytes from `va` on have become `buf`, and nothing else has changed. -/
structure Written (d : Frame) (va : Addr) (buf : List Byte) (m m' : Mem) : Prop where
  entries : ∀ x, m'.pte d x = m.pte d x
  bytes : ∀ i (lt : i < buf.length), m'.userByte d (va + BitVec.ofNat 32 i) = buf[i]
  rest : ∀ f o, (∀ i, i < buf.length → m.place d (va + BitVec.ofNat 32 i) ≠ (f, o)) →
    m'.page f o = m.page f o
  free : m'.free = m.free
  loaded : m'.loaded = m.loaded
  refreed : m'.refreed = m.refreed

def Accessible (sp : Space) (u : Nat) : Prop := Has pteP (sp.pte u) ∧ Has pteU (sp.pte u)

instance (sp : Space) (u : Nat) : Decidable (Accessible sp u) := inferInstanceAs (Decidable (_ ∧ _))

/-- Nothing but pages for the user has changed. -/
structure Confined (d : Frame) (m m' : Mem) : Prop where
  page : ∀ f, (∀ x, m.Open d x → pteFrame (m.pte d x) ≠ f) → m'.page f = m.page f
  free : m'.free = m.free
  loaded : m'.loaded = m.loaded
  refreed : m'.refreed = m.refreed

variable {m m' : Mem} {d : Frame} {va : Addr}

/-! ## Pages -/

theorem vpn_pgRoundDown (va : Addr) : vpn (pgRoundDown va) = vpn va := by
  unfold vpn
  rw [pgRoundDown_toNat]
  omega

theorem Mem.Tabled.pte_eq (tab : m.Tabled d va) : m.pte d va =
    (m.page (pteFrame ((m.page d).word (pdx va).toNat))).word (ptx va).toNat := if_pos tab

theorem pte_eq_zero (absent : ¬ m.Tabled d va) : m.pte d va = 0 := if_neg absent

variable {x y : Addr}

theorem Mem.Open.congr (here : m.Open d x) (same : vpn x = vpn y) : m.Open d y := by
  unfold Mem.Open at here ⊢
  rw [← pte_congr m d same]
  exact here

theorem Mem.Tabled.congr (here : m.Tabled d x) (same : vpn x = vpn y) : m.Tabled d y := by
  unfold Mem.Tabled at here ⊢
  rw [pdx_eq, ← same, ← pdx_eq]
  exact here

theorem tabled_of_present (present : Has pteP (m.pte d va)) : m.Tabled d va := by
  by_cases tab : m.Tabled d va
  · exact tab
  · rw [pte_eq_zero tab] at present
    exact absurd present (not_has_zero _)

theorem addr_ext (page : vpn x = vpn y) (offset : pgOffset x = pgOffset y) : x = y := by
  have rem : x.toNat % 4096 = y.toNat % 4096 := congrArg Fin.val offset
  unfold vpn at page
  apply BitVec.eq_of_toNat_eq
  omega

theorem Separate.place_inj (sep : Separate m d) {x y : Addr} (open_x : m.Open d x)
    (open_y : m.Open d y) (same : m.place d x = m.place d y) : x = y :=
  addr_ext (sep.inj x y open_x open_y (congrArg Prod.fst same)) (congrArg Prod.snd same)

theorem uva2ka_eq (m : Mem) (d : Frame) (va : Addr) : uva2ka d va m =
    if m.Tabled d va then
      .ok (if m.Open d va then some (pteFrame (m.pte d va)) else none, m)
    else .error .nullPointer := by
  by_cases tab : m.Tabled d va
  · have walk : walkpgdir d va false m =
        .ok (some (pteFrame ((m.page d).word (pdx va).toNat), (ptx va).toNat), m) := by
      change (if m.Tabled d va then _ else _ : K _) m = _
      rw [if_pos tab]
      rfl
    rw [uva2ka, Prog.bind_ok walk, if_pos tab]
    change (if ¬ Has pteP _ then _ else _ : K _) m = _
    rw [← tab.pte_eq]
    unfold Mem.Open
    by_cases present : Has pteP (m.pte d va) <;> by_cases user : Has pteU (m.pte d va) <;>
      simp only [present, user, not_true, not_false_eq_true, if_true, if_false, and_self, and_true,
        and_false] <;> rfl
  · have walk : walkpgdir d va false m = .ok (none, m) := by
      change (if m.Tabled d va then _ else _ : K _) m = _
      rw [if_neg tab]
      rfl
    rw [uva2ka, Prog.bind_ok walk, if_neg tab]
    rfl

/-! ## One page -/

def pageRest (va : Addr) : Nat := 4096 - va.toNat % 4096

theorem pageRest_pos (va : Addr) : 0 < pageRest va := by
  unfold pageRest
  omega

theorem add_pageRest (va : Addr) :
    pgRoundDown va + pgSize = va + BitVec.ofNat 32 (pageRest va) := by
  apply BitVec.eq_of_toNat_eq
  rw [BitVec.toNat_add, BitVec.toNat_add, pgRoundDown_toNat, BitVec.toNat_ofNat]
  change (va.toNat / 4096 * 4096 + 4096) % 2 ^ 32 = _
  unfold pageRest
  omega

theorem sub_pgRoundDown (va : Addr) : (va - pgRoundDown va).toNat = va.toNat % 4096 := by
  have base := pgRoundDown_toNat va
  have lt := va.isLt
  rw [BitVec.toNat_sub, base]
  omega

theorem pgSize_sub (va : Addr) : (pgSize - (va - pgRoundDown va)).toNat = pageRest va := by
  rw [BitVec.toNat_sub, sub_pgRoundDown]
  change (2 ^ 32 - va.toNat % 4096 + 4096) % 2 ^ 32 = _
  unfold pageRest
  omega

theorem add_ofNat (va : Addr) (k j : Nat) :
    va + BitVec.ofNat 32 k + BitVec.ofNat 32 j = va + BitVec.ofNat 32 (k + j) := by
  rw [BitVec.add_assoc, BitVec.ofNat_add]

variable {i : Nat}

theorem toNat_add_ofNat {n : Nat} (lt : i < n) (fits : va.toNat + n ≤ 2 ^ 32) :
    (va + BitVec.ofNat 32 i).toNat = va.toNat + i := by
  rw [BitVec.toNat_add, BitVec.toNat_ofNat]
  omega

theorem toNat_in_page (lt : i < pageRest va) : (va + BitVec.ofNat 32 i).toNat = va.toNat + i := by
  have := va.isLt
  unfold pageRest at lt
  rw [BitVec.toNat_add, BitVec.toNat_ofNat]
  omega

theorem vpn_in_page (lt : i < pageRest va) : vpn (va + BitVec.ofNat 32 i) = vpn va := by
  unfold vpn
  rw [toNat_in_page lt]
  unfold pageRest at lt
  omega

theorem pgOffset_in_page (lt : i < pageRest va) :
    (pgOffset (va + BitVec.ofNat 32 i)).val = va.toNat % 4096 + i := by
  change (va + BitVec.ofNat 32 i).toNat % 4096 = _
  rw [toNat_in_page lt]
  unfold pageRest at lt
  omega

theorem allOpen_step {len : Nat} (some : 0 < len) : AllOpen m d va len ↔
    m.Open d va ∧ AllOpen m d (va + BitVec.ofNat 32 (pageRest va)) (len - pageRest va) := by
  constructor
  · intro all
    refine ⟨?_, fun j lt => ?_⟩
    · have first := all 0 some
      rwa [BitVec.add_zero] at first
    · rw [add_ofNat]
      exact all _ (by omega)
  · rintro ⟨first, others⟩ i lt
    rcases Nat.lt_or_ge i (pageRest va) with inside | beyond
    · exact first.congr (vpn_in_page inside).symm
    · have other := others (i - pageRest va) (by omega)
      rwa [add_ofNat, Nat.add_sub_cancel' beyond] at other

theorem guarded_step {len : Nat} (some : 0 < len) : Guarded m d va len ↔ m.Tabled d va ∧
    (m.Open d va → Guarded m d (va + BitVec.ofNat 32 (pageRest va)) (len - pageRest va)) := by
  constructor
  · intro guarded
    refine ⟨?_, fun first j lt before => ?_⟩
    · have first := guarded 0 some fun j lt => absurd lt (Nat.not_lt_zero j)
      rwa [BitVec.add_zero] at first
    · rw [add_ofNat]
      refine guarded _ (by omega) fun i lt => ?_
      rcases Nat.lt_or_ge i (pageRest va) with inside | beyond
      · exact first.congr (vpn_in_page inside).symm
      · have earlier := before (i - pageRest va) (by omega)
        rwa [add_ofNat, Nat.add_sub_cancel' beyond] at earlier
  · rintro ⟨tab, others⟩ i lt before
    rcases Nat.lt_or_ge i (pageRest va) with inside | beyond
    · exact tab.congr (vpn_in_page inside).symm
    · have first := before 0 (Nat.lt_of_lt_of_le (pageRest_pos va) beyond)
      rw [BitVec.add_zero] at first
      have other := others first (i - pageRest va) (by omega) fun j lt => by
        rw [add_ofNat]
        exact before _ (by omega)
      rwa [add_ofNat, Nat.add_sub_cancel' beyond] at other

/-! ## A store to a user page -/

structure SameView (d : Frame) (m m' : Mem) : Prop where
  dir : m'.page d = m.page d
  pte : ∀ x, m'.pte d x = m.pte d x

section SameView

variable (same : SameView d m m')

include same

theorem SameView.open_iff (x : Addr) : m'.Open d x ↔ m.Open d x := by
  unfold Mem.Open
  rw [same.pte]

theorem SameView.tabled_iff (x : Addr) : m'.Tabled d x ↔ m.Tabled d x := by
  unfold Mem.Tabled
  rw [same.dir]

theorem SameView.separate (sep : Separate m d) : Separate m' d where
  dir x here := by
    rw [same.pte]
    exact sep.dir x ((same.open_iff x).mp here)
  table x y here tab := by
    rw [same.pte, same.dir]
    exact sep.table x y ((same.open_iff x).mp here) ((same.tabled_iff y).mp tab)
  inj x y open_x open_y := by
    rw [same.pte, same.pte]
    exact sep.inj x y ((same.open_iff x).mp open_x) ((same.open_iff y).mp open_y)

theorem SameView.allOpen_iff (x : Addr) (len : Nat) : AllOpen m' d x len ↔ AllOpen m d x len := by
  simp only [AllOpen, same.open_iff]

theorem SameView.guarded_iff (x : Addr) (len : Nat) : Guarded m' d x len ↔ Guarded m d x len := by
  simp only [Guarded, same.open_iff, same.tabled_iff]

end SameView

/-- A store to a user page leaves the page table alone. -/
theorem Separate.sameView (sep : Separate m d) (here : m.Open d va) (p : Page) :
    SameView d m (m.setPage (pteFrame (m.pte d va)) p) := by
  have dir := Mem.setPage_ne m (sep.dir va here).symm p
  refine ⟨dir, fun x => ?_⟩
  have tabled : Mem.Tabled (m.setPage (pteFrame (m.pte d va)) p) d x ↔ m.Tabled d x := by
    rw [Mem.Tabled, dir, Mem.Tabled]
  by_cases tab : m.Tabled d x
  · have table := Mem.setPage_ne m (sep.table va x here tab).symm p
    rw [(tabled.mpr tab).pte_eq, tab.pte_eq, dir, table]
  · rw [pte_eq_zero tab, pte_eq_zero (mt tabled.mp tab)]

def Mem.copied (m : Mem) (d : Frame) (va : Addr) (buf : List Byte) : Mem :=
  let f := pteFrame (m.pte d va)
  m.setPage f (writeBytes (m.page f) (va.toNat % 4096) (buf.take (pageRest va)))

theorem Mem.copied_in (m : Mem) (d : Frame) (va : Addr) (buf : List Byte) {i : Nat}
    (inside : i < pageRest va) (lt : i < buf.length) :
    (m.copied d va buf).page (pteFrame (m.pte d va)) (pgOffset (va + BitVec.ofNat 32 i)) =
      buf[i] := by
  have offset := pgOffset_in_page inside
  rw [Mem.copied, Mem.setPage_self, writeBytes, offset, if_pos (Nat.le_add_right _ _),
    Nat.add_sub_cancel_left, getD_eq_getElem _ _ (by rw [length_take]; omega),
    getElem_take]

theorem Mem.copied_out (m : Mem) (d : Frame) (va : Addr) (buf : List Byte) {f : Frame}
    {o : Fin (4 * 1024)}
    (out : ∀ i, i < buf.length → m.place d (va + BitVec.ofNat 32 i) ≠ (f, o)) :
    (m.copied d va buf).page f o = m.page f o := by
  by_cases same : f = pteFrame (m.pte d va)
  · subst same
    rw [Mem.copied, Mem.setPage_self, writeBytes]
    split
    · rename_i above
      -- The offset is one behind the end of `buf`: it would be one of the places otherwise.
      refine getD_eq_default _ _ (Nat.le_of_not_lt fun lt => ?_)
      rw [length_take] at lt
      have inside : o.val - va.toNat % 4096 < pageRest va := by omega
      refine out (o.val - va.toNat % 4096) (by omega) (Prod.ext ?_ (Fin.ext ?_))
      · exact congrArg pteFrame (pte_congr m d (vpn_in_page inside))
      · exact (pgOffset_in_page inside).trans (Nat.add_sub_cancel' above)
    · rfl
  · rw [Mem.copied, Mem.setPage_ne m same]

theorem Separate.written_step {buf : List Byte} (sep : Separate m d) (short : buf.length < 2 ^ 32)
    (all : AllOpen m d va buf.length) (some : 0 < buf.length)
    (same : SameView d m (m.copied d va buf))
    (others : Written d (va + BitVec.ofNat 32 (pageRest va)) (buf.drop (pageRest va))
      (m.copied d va buf) m') : Written d va buf m m' where
  entries x := (others.entries x).trans (same.pte x)
  bytes i lt := by
    rcases Nat.lt_or_ge i (pageRest va) with inside | beyond
    · have frame : m'.pte d (va + BitVec.ofNat 32 i) = m.pte d va := by
        rw [others.entries, same.pte, pte_congr m d (vpn_in_page inside)]
      rw [Mem.userByte, frame, others.rest, m.copied_in d va buf inside lt]
      -- What is copied later goes to other addresses, and so to other places.
      intro j below eq
      rw [length_drop] at below
      have apart : va + BitVec.ofNat 32 (pageRest va + j) = va + BitVec.ofNat 32 i := by
        refine sep.place_inj (all _ (by omega)) (all i lt) ?_
        rw [add_ofNat, Mem.place, same.pte] at eq
        rw [Mem.place, eq, Mem.place, pte_congr m d (vpn_in_page inside)]
      have := congrArg BitVec.toNat ((BitVec.add_right_inj va).mp apart)
      rw [BitVec.toNat_ofNat, BitVec.toNat_ofNat, Nat.mod_eq_of_lt (by omega),
        Nat.mod_eq_of_lt (by omega)] at this
      omega
    · have byte := others.bytes (i - pageRest va) (by rw [length_drop]; omega)
      rw [add_ofNat, Nat.add_sub_cancel' beyond, getElem_drop] at byte
      simp only [Nat.add_sub_cancel' beyond] at byte
      exact byte
  rest f o out := by
    rw [others.rest f o fun j below => ?_, m.copied_out d va buf out]
    rw [length_drop] at below
    rw [add_ofNat, Mem.place, same.pte]
    exact out _ (by omega)
  free := others.free
  loaded := others.loaded
  refreed := others.refreed

/-! ## The loop -/

theorem copyoutLoop_step (n : Nat) {buf : List Byte} (some : 0 < buf.length) :
    copyoutLoop d (n + 1) va buf m =
      if m.Tabled d va then
        if m.Open d va then
          copyoutLoop d n (va + BitVec.ofNat 32 (pageRest va)) (buf.drop (pageRest va))
            (m.copied d va buf)
        else .ok (false, m)
      else .error .nullPointer := by
  have page := vpn_pgRoundDown va
  have found := uva2ka_eq m d (pgRoundDown va)
  have tabled : m.Tabled d (pgRoundDown va) ↔ m.Tabled d va :=
    ⟨fun h => h.congr page, fun h => h.congr page.symm⟩
  have user : m.Open d (pgRoundDown va) ↔ m.Open d va :=
    ⟨fun h => h.congr page, fun h => h.congr page.symm⟩
  rw [pte_congr m d page, if_congr tabled rfl rfl, if_congr user rfl rfl] at found
  rw [copyoutLoop, if_neg (length_pos_iff.mp some)]
  by_cases tab : m.Tabled d va
  · rw [if_pos tab] at found ⊢
    rw [Prog.bind_ok found]
    by_cases here : m.Open d va
    · rw [if_pos here, if_pos here, ← add_pageRest, ← pgSize_sub]
      simp only [Mem.copied, ← sub_pgRoundDown, ← pgSize_sub]
      rfl
    · rw [if_neg here, if_neg here]
      rfl
  · rw [if_neg tab] at found ⊢
    rw [Prog.bind_error found]

/-- The loop comes to an end unless it finds no page table. -/
theorem copyoutLoop_exact (n : Nat) (va : Addr) (buf : List Byte) (m : Mem) (sep : Separate m d)
    (short : buf.length < 2 ^ 32) (fuel : va.toNat % 4096 + buf.length + 4096 ≤ 4096 * n) :
    Within (fun e => e = .nullPointer ∧ ¬ Guarded m d va buf.length) (copyoutLoop d n va buf) m
      fun r m' => Guarded m d va buf.length ∧ (r = true ↔ AllOpen m d va buf.length) ∧
        (r = true → Written d va buf m m') ∧ Confined d m m' := by
  induction n generalizing va buf m with
  | zero => omega
  | succ n ih =>
    rcases Nat.eq_zero_or_pos buf.length with empty | some
    · obtain rfl := length_eq_zero_iff.mp empty
      rw [copyoutLoop, if_pos rfl, within_pure]
      have none : ∀ {P : Nat → Prop} (j : Nat), j < ([] : List Byte).length → P j :=
        fun j lt => absurd lt (Nat.not_lt_zero j)
      exact ⟨none, iff_of_true rfl none, fun _ => ⟨fun _ => rfl,
        fun j lt => absurd lt (Nat.not_lt_zero j), fun _ _ _ => rfl, rfl, rfl, rfl⟩,
        fun _ _ => rfl, rfl, rfl, rfl⟩
    · have step : copyoutLoop d (n + 1) va buf m = _ := copyoutLoop_step n some
      rw [guarded_step some, allOpen_step some]
      by_cases tab : m.Tabled d va
      · by_cases here : m.Open d va
        · rw [if_pos tab, if_pos here] at step
          have same : SameView d m (m.copied d va buf) := sep.sameView here _
          have rest := ih (va + BitVec.ofNat 32 (pageRest va)) (buf.drop (pageRest va)) _
            (same.separate sep) (by rw [length_drop]; omega) (by
              rw [← add_pageRest, length_drop, BitVec.toNat_add, pgRoundDown_toNat]
              change (va.toNat / 4096 * 4096 + 4096) % 2 ^ 32 % 4096 + _ + _ ≤ _
              unfold pageRest
              omega)
          rw [length_drop, same.guarded_iff, same.allOpen_iff] at rest
          unfold Within at rest ⊢
          rw [step]
          simp only [tab, here, true_and, forall_const]
          split
          · rename_i r m' ran
            rw [ran] at rest
            obtain ⟨guarded, all_iff, written, confined⟩ := rest
            refine ⟨guarded, all_iff, fun copied => ?_, fun f out => ?_, confined.free,
              confined.loaded, confined.refreed⟩
            · have all := (allOpen_step some).mpr ⟨here, all_iff.mp copied⟩
              exact sep.written_step short all some same (written copied)
            · rw [confined.page f fun x here => ?_]
              · exact Mem.setPage_ne _ (out va here).symm _
              · rw [same.pte]
                exact out x ((same.open_iff x).mp here)
          · rename_i e ran
            rw [ran] at rest
            exact rest
        · rw [if_pos tab, if_neg here] at step
          rw [within_ok step]
          exact ⟨⟨tab, fun h => absurd h here⟩, iff_of_false Bool.false_ne_true fun h => here h.1,
            fun h => absurd h Bool.false_ne_true, fun _ _ => rfl, rfl, rfl, rfl⟩
      · rw [if_neg tab] at step
        rw [within_error step]
        exact ⟨rfl, fun guarded => tab guarded.1⟩

theorem copyout_within (sep : Separate m d) (va : Addr) (buf : List Byte)
    (short : buf.length < 2 ^ 32) :
    Within (fun e => e = .nullPointer ∧ ¬ Guarded m d va buf.length) (copyout d va buf) m
      fun r m' => Guarded m d va buf.length ∧ (r = true ↔ AllOpen m d va buf.length) ∧
        (r = true → Written d va buf m m') ∧ Confined d m m' := by
  refine copyoutLoop_exact _ va buf m sep short ?_
  unfold rounds
  omega

/-! ## Page tables of the kernel -/

section Kernel

variable {L : Layout} {g : Ghost} {sp : Space}

theorem SpaceOk.pte_eq {own : Frame → Role} (ok : SpaceOk m own d sp) (va : Addr) :
    m.pte d va = sp.pte (vpn va) := by
  have lt := vpn_lt va
  rw [Mem.pte, pdx_eq, ptx_eq]
  cases tab : sp.tab (vpn va / 1024) with
  | none => rw [if_neg (ok.absent _ (by omega) tab), ok.zero _ lt tab]
  | some f =>
    rw [ok.present _ f (by omega) tab, if_pos (pdeOf_present f), pteFrame_pdeOf,
      ok.entry _ f lt tab]

theorem SpaceOk.tabled_iff {own : Frame → Role} (ok : SpaceOk m own d sp) (va : Addr) :
    m.Tabled d va ↔ (sp.tab (vpn va / 1024)).isSome := by
  have lt := vpn_lt va
  rw [Mem.Tabled, pdx_eq]
  cases tab : sp.tab (vpn va / 1024) with
  | none => exact iff_of_false (ok.absent _ (by omega) tab) Bool.false_ne_true
  | some f =>
    rw [ok.present _ f (by omega) tab]
    exact iff_of_true (pdeOf_present f) rfl

theorem Inv.role_of_open (inv : Inv L m g) (at_d : g.space d = some sp)
    (kernel : ∀ v, 2 ^ 19 ≤ v → v < 2 ^ 20 → ¬ Has pteU (sp.pte v)) (here : m.Open d va) :
    g.own (pteFrame (m.pte d va)) = .user d (vpn va) := by
  have ok := inv.space d sp at_d
  rw [Mem.Open, ok.pte_eq] at here
  have low : vpn va < 2 ^ 19 := Nat.lt_of_not_le fun high => kernel _ high (vpn_lt va) here.2
  rw [ok.user, ok.pte_eq]
  exact ⟨low, here.1, rfl⟩

theorem Inv.separate (inv : Inv L m g) (at_d : g.space d = some sp)
    (kernel : ∀ v, 2 ^ 19 ≤ v → v < 2 ^ 20 → ¬ Has pteU (sp.pte v)) : Separate m d := by
  have ok := inv.space d sp at_d
  have role : ∀ va, m.Open d va → _ := fun va => inv.role_of_open at_d kernel
  refine ⟨fun va here eq => ?_, fun va x here tab eq => ?_, fun va x here there eq => ?_⟩
  · have user := role va here
    rw [eq, ok.dir] at user
    cases user
  · have user := role va here
    cases at_x : sp.tab (vpn x / 1024) with
    | none => exact ok.absent _ (by have := vpn_lt x; omega) at_x (by rw [← pdx_eq]; exact tab)
    | some f =>
      have lt : vpn x / 1024 < 1024 := by
        have := vpn_lt x
        omega
      rw [eq, pdx_eq, ok.present _ f lt at_x, pteFrame_pdeOf,
        (ok.table _ f).mpr ⟨lt, at_x⟩] at user
      cases user
  · have user := role va here
    rw [eq, role x there] at user
    injection user with _ same
    exact same.symm

end Kernel

end Xv6.Vm
