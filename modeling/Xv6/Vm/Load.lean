import Xv6.Vm.Pages

/-!
# Filling the pages of a new image

`loaduvm` stores the bytes of a file and `copyout` the arguments in the user pages of an address
space; the page tables stay as they are.  `loaduvm` trusts its caller: it panics when there is no
page table for the address, and when there is one but the page is not mapped it takes the zero
entry for the address of frame 0.  In an address space of the right `Shape` both can happen in
page 0 only.
-/

namespace Xv6.Vm

open List

variable {L : Layout} {m m' : Mem} {g : Ghost} {d : Frame} {sp : Space} {ip : File}

/-! ## `readi` -/

theorem File.size_toNat (ip : File) : ip.size.toNat = ip.bytes.length := by
  have small : ip.bytes.length ≤ 71680 := ip.small
  rw [File.size, BitVec.toNat_ofNat]
  omega

theorem File.length_le (ip : File) : ip.bytes.length ≤ 71680 := ip.small

variable {off n : Addr}

theorem readi_none (high : ip.bytes.length < off.toNat) : readi ip off n = none := by
  refine if_pos (.inl ?_)
  change ip.size.toNat < off.toNat
  rwa [ip.size_toNat]

theorem readi_some (le : off.toNat ≤ ip.bytes.length) (lt : n.toNat < 2 ^ 31) :
    ∃ b, readi ip off n = some b ∧ b.length = min n.toNat (ip.bytes.length - off.toNat) := by
  have size := ip.size_toNat
  have small := ip.length_le
  have sum : (off + n).toNat = off.toNat + n.toNat := by
    rw [BitVec.toNat_add]
    omega
  have good : ¬ (off > ip.size ∨ off + n < off) := by
    rintro (past | wrap)
    · have : ip.size.toNat < off.toNat := past
      omega
    · have : (off + n).toNat < off.toNat := wrap
      omega
  refine ⟨_, if_neg good, ?_⟩
  rw [length_take, length_drop]
  by_cases past : off + n > ip.size
  · have past' : ip.size.toNat < (off + n).toNat := past
    have rest : (ip.size - off).toNat = ip.size.toNat - off.toNat := by
      rw [BitVec.toNat_sub]
      omega
    rw [if_pos past, rest]
    omega
  · have within : ¬ ip.size.toNat < (off + n).toNat := past
    rw [if_neg past]

theorem length_lt_of_readi_none (none : readi ip off n = none) (lt : n.toNat < 2 ^ 31) :
    ip.bytes.length < off.toNat := by
  refine Nat.lt_of_not_le fun le => ?_
  obtain ⟨b, some, _⟩ := readi_some le lt
  cases none.symm.trans some

theorem length_of_readi_some {b : List Byte} (some : readi ip off n = some b)
    (lt : n.toNat < 2 ^ 31) :
    off.toNat ≤ ip.bytes.length ∧ b.length = min n.toNat (ip.bytes.length - off.toNat) := by
  rcases Nat.lt_or_ge ip.bytes.length off.toNat with high | le
  · cases (readi_none high).symm.trans some
  · obtain ⟨b', some', length⟩ := readi_some le lt
    cases some.symm.trans some'
    exact ⟨le, length⟩

/-! ## `loaduvm` -/

/-- Bytes are stored in user pages of `d`, or in frame 0, and nowhere else. -/
structure Stores (d : Frame) (g : Ghost) (m m' : Mem) : Prop where
  free : m'.free = m.free
  kept : ∀ f, f ≠ 0 → (∀ v, g.own f ≠ .user d v) → m'.page f = m.page f
  loaded : m.loaded <:+ m'.loaded
  refreed : m'.refreed = m.refreed

theorem Stores.refl (d : Frame) (g : Ghost) (m : Mem) : Stores d g m m :=
  ⟨rfl, fun _ _ _ => rfl, suffix_rfl, rfl⟩

theorem Stores.trans {m1 m2 : Mem} (first : Stores d g m m1) (second : Stores d g m1 m2) :
    Stores d g m m2 :=
  ⟨second.free.trans first.free,
    fun f ne out => (second.kept f ne out).trans (first.kept f ne out),
    first.loaded.trans second.loaded, second.refreed.trans first.refreed⟩

/-- The entries through which `loaduvm` has stored bytes since `m` are those of user pages. -/
def Clean (m m' : Mem) : Prop :=
  ∀ pte ∈ m'.loaded, pte ∈ m.loaded ∨ Has pteP pte ∧ Has pteU pte

theorem Clean.refl (m : Mem) : Clean m m := fun _ => .inl

theorem Clean.trans {m1 m2 : Mem} (first : Clean m m1) (second : Clean m1 m2) : Clean m m2 := by
  intro pte member
  rcases second pte member with old | good
  · exact first pte old
  · exact .inr good

theorem Inv.zero_kernel (inv : Inv L m g) : g.own 0 = .kernel :=
  Classical.byContradiction fun managed => (inv.books.managed 0 managed).ne_zero rfl

/-- What is stored in user pages, or in frame 0, is not in a page table. -/
theorem Inv.of_stores (inv : Inv L m g) (stores : Stores d g m m') : Inv L m' g where
  books := by
    rw [stores.free]
    exact inv.books
  space e sp' live := by
    have ok := inv.space e sp' live
    have kept : ∀ f, g.own f ≠ .kernel → (∀ v, g.own f ≠ .user d v) → m'.page f = m.page f :=
      fun f managed => stores.kept f fun zero => managed (zero ▸ inv.zero_kernel)
    refine ok.congr ok.dir (kept e ?_ ?_) (fun f i table => kept f ?_ ?_) fun _ => .inl rfl
    · rw [ok.dir]
      simp
    · rw [ok.dir]
      simp
    · rw [table]
      simp
    · rw [table]
      simp

theorem Stores.page {f : Frame} (p : Page) (data : f = 0 ∨ ∃ v, g.own f = .user d v) :
    Stores d g m (m.setPage f p) where
  free := rfl
  kept x ne out := by
    refine Mem.setPage_ne _ ?_ _
    rintro rfl
    rcases data with zero | ⟨v, user⟩
    · exact ne zero
    · exact out v user
  loaded := suffix_rfl
  refreed := rfl

theorem Confined.stores (inv : Inv L m g) (at_d : g.space d = some sp)
    (kernel : ∀ v, 2 ^ 19 ≤ v → v < 2 ^ 20 → ¬ Has pteU (sp.pte v)) (confined : Confined d m m') :
    Stores d g m m' where
  free := confined.free
  kept f _ out := confined.page f fun _ here eq =>
    out _ (eq ▸ inv.role_of_open at_d kernel here)
  loaded := confined.loaded ▸ suffix_rfl
  refreed := confined.refreed

def Mem.stored (m : Mem) (pte : Addr) (bytes : List Byte) : Mem :=
  { m.setPage (pteFrame pte) (writeBytes (m.page (pteFrame pte)) 0 bytes) with
    loaded := if bytes = [] then m.loaded else pte :: m.loaded }

theorem ends_storeFile (pte : Addr) (bytes : List Byte) (m : Mem) (Q : Unit → Mem → Prop) :
    Ends (storeFile pte bytes) m Q ↔ Q () (m.stored pte bytes) := Iff.rfl

theorem Stores.stored (pte : Addr) (bytes : List Byte)
    (data : pteFrame pte = 0 ∨ ∃ v, g.own (pteFrame pte) = .user d v) :
    Stores d g m (m.stored pte bytes) where
  free := rfl
  kept := (Stores.page _ data).kept
  loaded := by
    change m.loaded <:+ if bytes = [] then m.loaded else pte :: m.loaded
    split
    · exact suffix_rfl
    · exact suffix_cons ..
  refreed := rfl

theorem mem_stored {pte : Addr} {bytes : List Byte} (some : 0 < bytes.length) :
    pte ∈ (m.stored pte bytes).loaded := by
  have ne : bytes ≠ [] := length_pos_iff.mp some
  change pte ∈ if bytes = [] then m.loaded else pte :: m.loaded
  rw [if_neg ne]
  exact mem_cons_self

theorem clean_stored_nil (pte : Addr) : Clean m (m.stored pte []) := fun _ => .inl

theorem clean_stored {pte : Addr} (present : Has pteP pte) (user : Has pteU pte)
    (bytes : List Byte) :
    Clean m (m.stored pte bytes) := by
  intro x member
  change x ∈ (if bytes = [] then m.loaded else pte :: m.loaded) at member
  split at member
  · exact .inl member
  · rcases mem_cons.mp member with rfl | old
    · exact .inr ⟨present, user⟩
    · exact .inl old

theorem chunk_toNat (sz i : Addr) (more : i < sz) :
    (chunk sz i).toNat = min (sz.toNat - i.toNat) 4096 := by
  have lt : i.toNat < sz.toNat := more
  have rest : (sz - i).toNat = sz.toNat - i.toNat := by
    rw [BitVec.toNat_sub]
    omega
  unfold chunk
  by_cases last : sz - i < pgSize
  · have : (sz - i).toNat < 4096 := last
    rw [if_pos last, rest]
    omega
  · have : ¬ (sz - i).toNat < 4096 := last
    rw [if_neg last]
    change 4096 = _
    omega

def File.HasSegment (ip : File) (offset sz : Addr) : Prop :=
  sz = 0 ∨ offset.toNat + sz.toNat ≤ ip.bytes.length

instance (ip : File) (offset sz : Addr) : Decidable (ip.HasSegment offset sz) :=
  inferInstanceAs (Decidable (_ ∨ _))

theorem load_round {E : Stop → Prop} (inv : Inv L m g) (at_d : g.space d = some sp)
    {vaddr offset filesz i : Addr} {f : Frame} {n : Nat} (more : i < filesz)
    (tab : sp.tab (vpn (vaddr + i) / 1024) = some f) {Q : Bool → Mem → Prop}
    (none : readi ip (offset + i) (chunk filesz i) = none → Q false m)
    (short : ∀ b, readi ip (offset + i) (chunk filesz i) = some b →
      b.length ≠ (chunk filesz i).toNat → Q false (m.stored (sp.pte (vpn (vaddr + i))) b))
    (next : ∀ b, readi ip (offset + i) (chunk filesz i) = some b →
      b.length = (chunk filesz i).toNat →
      Within E (loadLoop d vaddr ip offset filesz n (i + pgSize))
        (m.stored (sp.pte (vpn (vaddr + i))) b) Q) :
    Within E (loadLoop d vaddr ip offset filesz (n + 1) i) m Q := by
  have entry := (inv.space d sp at_d).entry _ f (vpn_lt (vaddr + i)) tab
  rw [loadLoop, if_pos more]
  refine Ends.bind_within ?_
  rw [ends_walk inv at_d, tab]
  refine Ends.bind_within ?_
  rw [ends_getWord, entry]
  cases read : readi ip (offset + i) (chunk filesz i) with
  | none => exact none read
  | some b =>
    refine Ends.bind_within ?_
    rw [ends_storeFile]
    by_cases full : b.length = (chunk filesz i).toNat
    · rw [if_neg (not_not.mpr full)]
      exact next b read full
    · rw [if_pos full]
      exact short b read full

theorem loadLoop_ends {offset filesz : Addr} (at_d : g.space d = some sp) (vaddr : Addr) (v : Nat)
    (aligned : vaddr.toNat = 4096 * v) (top : vaddr.toNat + filesz.toNat ≤ 2 ^ 31)
    (user : ∀ u, 1 ≤ u → v ≤ u → 4096 * u < vaddr.toNat + filesz.toNat →
      Has pteP (sp.pte u) ∧ Has pteU (sp.pte u))
    (n : Nat) (i : Addr) (j : Nat) (m : Mem) (inv : Inv L m g) (page : i.toNat = 4096 * j)
    (pos : 1 ≤ v + j) (last : 4096 * j < filesz.toNat + 4096)
    (fuel : filesz.toNat + 4096 ≤ 4096 * (j + n))
    (read : i < filesz → i = 0 ∨ offset.toNat + i.toNat ≤ ip.bytes.length) :
    Ends (loadLoop d vaddr ip offset filesz n i) m fun r m' =>
      Stores d g m m' ∧ Clean m m' ∧
        (r = true ↔ (i < filesz → offset.toNat + filesz.toNat ≤ ip.bytes.length)) := by
  induction n generalizing i j m with
  | zero => omega
  | succ n ih =>
    by_cases more : i < filesz
    · have lt : i.toNat < filesz.toNat := more
      have sum : (vaddr + i).toNat = 4096 * (v + j) := by
        rw [BitVec.toNat_add]
        omega
      have at_page := vpn_of_page sum
      have small := ip.length_le
      have off : (offset + i).toNat = offset.toNat + i.toNat := by
        rw [BitVec.toNat_add]
        rcases read more with rfl | le
        · have := offset.isLt
          simp
          omega
        · omega
      have size := chunk_toNat filesz i more
      obtain ⟨here, mine⟩ := user (v + j) pos (by omega) (by omega)
      have ok := inv.space d sp at_d
      obtain ⟨f, tab⟩ := ok.tab_of_present (by omega) here
      have owner := (ok.user (v + j) _).mpr ⟨by omega, here, rfl⟩
      have stored := fun b => Stores.stored (d := d) (m := m) _ b (.inr ⟨_, owner⟩)
      refine Within.ends (E := fun _ => False) (load_round inv at_d more (by rwa [at_page])
        (fun none => ?_) (fun b some short => ?_) fun b some full => ?_) fun _ => id
      · have past := length_lt_of_readi_none none (by omega)
        refine ⟨.refl .., .refl m, iff_of_false (by simp) fun all => ?_⟩
        have := all more
        omega
      · obtain ⟨le, length⟩ := length_of_readi_some some (by omega)
        rw [at_page]
        refine ⟨stored b, clean_stored here mine b, iff_of_false (by simp) fun all => ?_⟩
        have := all more
        omega
      · obtain ⟨le, length⟩ := length_of_readi_some some (by omega)
        rw [at_page]
        have next := page_succ page (by omega)
        refine ((ih (i + pgSize) (j + 1) _ (inv.of_stores (stored b)) next (by omega) (by omega)
          (by omega) fun rest => .inr ?_).mono ?_).within
        · have : (i + pgSize).toNat < filesz.toNat := rest
          omega
        · rintro r m' ⟨post, clean, result⟩
          refine ⟨(stored b).trans post, (clean_stored here mine b).trans clean, ?_⟩
          rw [result]
          have rest : i + pgSize < filesz ↔ 4096 * (j + 1) < filesz.toNat := by
            rw [← next]
            exact Iff.rfl
          rw [rest]
          simp only [more, true_implies]
          omega
    · rw [loadLoop, if_neg more, ends_pure]
      exact ⟨.refl .., .refl m, iff_of_true rfl fun h => absurd h more⟩

theorem hasSegment_iff {offset sz : Addr} :
    ip.HasSegment offset sz ↔ ((0 : Addr) < sz → offset.toNat + sz.toNat ≤ ip.bytes.length) := by
  have pos : (0 : Addr) < sz ↔ sz ≠ 0 := by bv_omega
  rw [File.HasSegment, pos]
  tauto

theorem vaddr_aligned {vaddr : Addr} (aligned : vaddr % pgSize = 0) :
    ∃ v, vaddr.toNat = 4096 * v := by
  have rem := congrArg BitVec.toNat aligned
  rw [BitVec.toNat_umod] at rem
  change vaddr.toNat % 4096 = 0 at rem
  exact ⟨vaddr.toNat / 4096, by omega⟩

theorem loaduvm_ends (inv : Inv L m g) (at_d : g.space d = some sp) {vaddr offset filesz sz : Addr}
    (shape : Shape sp (pages sz) none fun _ => false) (limit : sz.toNat ≤ 2 ^ 31)
    (aligned : vaddr % pgSize = 0) (fits : vaddr.toNat + filesz.toNat ≤ sz.toNat)
    (pos : vaddr ≠ 0 ∨ filesz = 0) :
    Ends (loaduvm d vaddr ip offset filesz) m fun r m' =>
      Stores d g m m' ∧ Clean m m' ∧ (r = true ↔ ip.HasSegment offset filesz) := by
  obtain ⟨v, page⟩ := vaddr_aligned aligned
  rw [loaduvm, if_neg (not_not.mpr aligned)]
  rcases eq_or_ne filesz 0 with rfl | some
  · rw [loadLoop, if_neg (by bv_omega), ends_pure]
    exact ⟨.refl .., .refl m, iff_of_true rfl (.inl rfl)⟩
  · have v_pos : 1 ≤ v := by
      rcases Nat.eq_zero_or_pos v with rfl | pos'
      · exact absurd (BitVec.eq_of_toNat_eq page) (pos.resolve_right some)
      · exact pos'
    refine (loadLoop_ends at_d _ _ page (by omega) (fun u pos' from_v below => ?_) _ 0 0 m inv rfl
      (by omega) (by omega) (by unfold rounds; omega) fun _ => .inl rfl).mono ?_
    · have lt : u < pages sz := (lt_pages sz u).mpr (by omega)
      exact ⟨(shape.present u (by omega)).mpr ⟨pos', lt⟩,
        (shape.user u (by omega) pos' lt).mpr (by simp)⟩
    · rintro r m' ⟨post, clean, result⟩
      exact ⟨post, clean, result.trans hasSegment_iff.symm⟩

theorem loaduvm_low (inv : Inv L m g) (at_d : g.space d = some sp) {offset filesz sz : Addr}
    (shape : Shape sp (pages sz) none fun _ => false) (limit : sz.toNat ≤ 2 ^ 31)
    (zero : sp.pte 0 = 0) (fits : filesz.toNat ≤ sz.toNat) (some : filesz ≠ 0) :
    Within (fun e => e = .panic .loaduvmExist ∧ sp.tab 0 = none) (loaduvm d 0 ip offset filesz) m
      fun r m' => Stores d g m m' ∧ sp.tab 0 ≠ none ∧
        (offset.toNat < ip.bytes.length → 0 ∈ m'.loaded) ∧
        (ip.bytes.length ≤ offset.toNat → Clean m m') ∧
        (r = true ↔ ip.HasSegment offset filesz) := by
  have more : (0 : Addr) < filesz := by bv_omega
  rw [loaduvm, if_neg (by decide)]
  cases tab : sp.tab 0 with
  | none =>
    rw [loadLoop, if_pos more]
    refine Ends.bind_within ?_
    rw [ends_walk inv at_d]
    have first : sp.tab (vpn (0 + 0) / 1024) = none := tab
    rw [first]
    exact ⟨rfl, rfl⟩
  | some f =>
    have low : vpn ((0 : Addr) + 0) = 0 := by decide
    have size := chunk_toNat filesz 0 more
    have filesz_pos : 0 < filesz.toNat := more
    have off : offset + 0 = offset := BitVec.add_zero offset
    have stored := fun b => Stores.stored (d := d) (g := g) (m := m) 0 b (.inl (by decide))
    change (chunk filesz 0).toNat = min (filesz.toNat - 0) 4096 at size
    refine load_round inv at_d more (by rwa [low]) (fun none => ?_) (fun b some short => ?_)
      fun b some full => ?_
    · rw [off] at none
      have past := length_lt_of_readi_none none (by omega)
      refine ⟨.refl .., by simp, fun lt => by omega, fun _ => .refl m,
        iff_of_false (by simp) fun all => ?_⟩
      have := hasSegment_iff.mp all more
      omega
    · rw [off] at some
      obtain ⟨le, length⟩ := length_of_readi_some some (by omega)
      rw [low, zero]
      refine ⟨stored b, by simp, fun lt => mem_stored (by omega), fun ge => ?_,
        iff_of_false (by simp) fun all => ?_⟩
      · obtain rfl : b = [] := length_eq_zero_iff.mp (by omega)
        exact clean_stored_nil 0
      · have := hasSegment_iff.mp all more
        omega
    · rw [off] at some
      obtain ⟨le, length⟩ := length_of_readi_some some (by omega)
      rw [low, zero]
      refine ((loadLoop_ends at_d 0 0 rfl (by change 0 + _ ≤ _; omega)
        (fun u pos' _ below => ?_) _ pgSize 1 _ (inv.of_stores (stored b)) rfl (by omega) (by omega)
        (by unfold rounds; omega) fun rest => .inr ?_).mono ?_).within
      · change 4096 * u < 0 + filesz.toNat at below
        have lt : u < pages sz := (lt_pages sz u).mpr (by omega)
        exact ⟨(shape.present u (by omega)).mpr ⟨pos', lt⟩,
          (shape.user u (by omega) pos' lt).mpr (by simp)⟩
      · have : 4096 < filesz.toNat := rest
        change offset.toNat + 4096 ≤ _
        omega
      · rintro r m' ⟨post, clean, result⟩
        refine ⟨(stored b).trans post, by simp,
          fun _ => post.loaded.subset (mem_stored (by omega)), fun ge => by omega, ?_⟩
        have rest : pgSize < filesz ↔ 4096 < filesz.toNat := Iff.rfl
        rw [result, hasSegment_iff, rest]
        simp only [more, true_implies]
        omega

end Xv6.Vm
