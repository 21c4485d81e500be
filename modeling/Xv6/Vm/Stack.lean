import Xv6.Vm.Segments

/-!
# The stack of a new image

`exec` puts two pages on top of the image, takes the lower one away from the user and copies
the arguments to the upper one.  An argument that is too long for it is refused, because the
guard page is in the way or, when the stack pointer wraps around, the kernel's half; but between
the end of physical memory and the devices there are no page tables, and there `uva2ka`
dereferences a null pointer.
-/

namespace Xv6.Vm

open List

variable {L : Layout} {m m' : Mem} {g g' : Ghost} {d : Frame} {sp sp' : Space}

/-! ## The arguments -/

/-- No page directory has a page table for these addresses. -/
def Unmappable (va : Addr) : Prop := kernBase + physTop ≤ va ∧ va < devSpace

instance (va : Addr) : Decidable (Unmappable va) := inferInstanceAs (Decidable (_ ∧ _))

/-- An argument string is so long that the stack pointer wraps around to an address without page
table.  The strings before it are in the stack page, which ends at `top`. -/
def ArgsFault (top : Addr) : List CStr → Addr → Nat → Prop
  | [], _, _ => False
  | s :: rest, sp, argc =>
    if argc ≥ maxArg then False
    else if top - pgSize ≤ argSp sp s ∧ argSp sp s ≤ sp then
      ArgsFault top rest (argSp sp s) (argc + 1)
    else Unmappable (argSp sp s)

instance decidableArgsFault (top : Addr) :
    (argv : List CStr) → (sp : Addr) → (argc : Nat) → Decidable (ArgsFault top argv sp argc)
  | [], _, _ => inferInstanceAs (Decidable False)
  | s :: rest, sp, argc =>
    have := decidableArgsFault top rest (argSp sp s) (argc + 1)
    inferInstanceAs (Decidable (if argc ≥ maxArg then False
      else if top - pgSize ≤ argSp sp s ∧ argSp sp s ≤ sp then
        ArgsFault top rest (argSp sp s) (argc + 1)
      else Unmappable (argSp sp s)))

/-- The space that the strings take at most, each with its NUL and rounded down to a word. -/
def argSize : List CStr → Nat
  | [] => 0
  | s :: rest => s.bytes.length + 4 + argSize rest

/-- The strings, the array of pointers and the three words below it fit into one page. -/
def ArgsFit (argv : List CStr) : Prop :=
  argv.length ≤ maxArg ∧ argSize argv + 4 * (3 + argv.length + 1) ≤ 4096

instance (argv : List CStr) : Decidable (ArgsFit argv) := inferInstanceAs (Decidable (_ ∧ _))

theorem and_not_three (x : Addr) : (x &&& ~~~(3 : Addr)).toNat = x.toNat / 4 * 4 := by
  refine and_mask_toNat (k := 2) (fun i lt => ?_) x
  interval_cases i <;> rfl

/-- The next string goes below the last one, or wraps around to the kernel's half. -/
theorem argSp_cases (stack : Addr) (s : CStr) (low : stack.toNat < 2 ^ 31) (pos : 8 ≤ stack.toNat) :
    (argSp stack s).toNat + (s.bytes.length + 1) ≤ stack.toNat ∧
        stack.toNat < (argSp stack s).toNat + (s.bytes.length + 1) + 4 ∨
      stack.toNat < s.bytes.length + 1 ∧ 2 ^ 31 ≤ (argSp stack s).toNat := by
  have short := s.short
  have len : (BitVec.ofNat 32 (s.bytes.length + 1)).toNat = s.bytes.length + 1 := by
    rw [BitVec.toNat_ofNat]
    omega
  unfold argSp
  rw [and_not_three, BitVec.toNat_sub, len]
  rcases Nat.lt_or_ge stack.toNat (s.bytes.length + 1) with wrap | fits
  · right
    omega
  · left
    omega

/-! ## The guard page -/

structure Stacked (L : Layout) (m : Mem) (g : Ghost) (d : Frame) (hi : Nat) (m' : Mem)
    (g' : Ghost) (sp : Space) : Prop where
  inv : Inv L m' g'
  at_d : g'.space d = some sp
  builds : Builds d m g m' g'
  shape : Shape sp hi (some (hi - 2)) fun _ => false
  tables : Tables sp hi
  three : 3 ≤ hi
  low : hi < 2 ^ 19

variable {m1 : Mem} {hi : Nat}

theorem Stacked.store (inv : Inv L m g) (stacked : Stacked L m g d hi m1 g' sp)
    (stores : Stores d g' m1 m') : Stacked L m g d hi m' g' sp :=
  ⟨stacked.inv.of_stores stores, stacked.at_d, stacked.builds.store inv stores, stacked.shape,
    stacked.tables, stacked.three, stacked.low⟩

theorem Stacked.abandoned (stacked : Stacked L m g d hi m' g' sp) :
    Abandoned L m g d m' := ⟨g', sp, stacked.inv, stacked.at_d, stacked.builds⟩

variable {sp1 : Space} {g1 : Ghost}

theorem clearpteu_ends {top : Addr} (inv : Inv L m g) (loading : Loading L m g d top m1 g1 sp1)
    (at_top : top.toNat = 4096 * hi) (three : 3 ≤ hi) :
    Ends (clearpteu d (top - 2 * pgSize)) m1 fun _ m' =>
      m'.loaded = m1.loaded ∧ ∃ g' sp', Stacked L m g d hi m' g' sp' := by
  have limit := loading.limit
  have is_hi : pages top = hi := by
    unfold pages
    omega
  have shape := loading.shape
  have tables := loading.tables
  rw [is_hi] at shape tables
  have guard : vpn (top - 2 * pgSize) = hi - 2 := by
    refine vpn_of_page ?_
    rw [BitVec.toNat_sub]
    change (2 ^ 32 - 8192 + top.toNat) % 2 ^ 32 = _
    omega
  have ok := loading.inv.space d sp1 loading.at_d
  have present := (shape.present (hi - 2) (by omega)).mpr (by omega)
  obtain ⟨f, tab⟩ := ok.tab_of_present (by omega) present
  have table := (ok.table _ f).mpr ⟨by omega, tab⟩
  rw [clearpteu, ends_bind, ends_walk loading.inv loading.at_d, guard, tab]
  simp only [Option.map_some, ends_bind, ends_getWord, ends_setWord,
    ok.entry (hi - 2) f (by omega) tab]
  have keepP := has_and_not pteP pteU (by decide) (sp1.pte (hi - 2))
  have keepW := has_and_not pteW pteU (by decide) (sp1.pte (hi - 2))
  have frame := pteFrame_clear pteU (by decide) (sp1.pte (hi - 2))
  refine ⟨rfl, _, _, loading.inv.remap loading.at_d (by omega) tab fun _ => ⟨keepP, frame⟩,
    Ghost.setSpace_self .., loading.builds.grow inv (Grows.entry table _ _), ?_, tables, three,
    by omega⟩
  refine shape.setPte (by omega) (by omega) (by omega)
    (keepP.mpr present) ?_ ?_ fun u ne => ⟨?_, rfl⟩
  · exact iff_of_false (not_has_and_not _ _) (by simp)
  · rw [keepW]
    exact shape.write _ (by omega) (by omega) (by omega)
  · exact iff_of_true (by simpa using ne.symm) (by simp)

/-! ## `copyout` to the stack -/

section Copyout

variable {hi : Nat} {m1 : Mem} {g1 : Ghost} {sp1 : Space}

section Stacked

variable (stacked : Stacked L m g d hi m1 g1 sp1)
include stacked

theorem Stacked.open_page {x : Addr} (lt : vpn x < hi) :
    m1.Open d x ↔ 1 ≤ vpn x ∧ vpn x ≠ hi - 2 := by
  have low := stacked.low
  have present := stacked.shape.present (vpn x) (by omega)
  rw [Mem.Open, (stacked.inv.space d sp1 stacked.at_d).pte_eq, present]
  constructor
  · rintro ⟨⟨pos, _⟩, user⟩
    refine ⟨pos, fun eq => ?_⟩
    exact (stacked.shape.user _ (by omega) pos lt).mp user (by rw [eq])
  · rintro ⟨pos, ne⟩
    refine ⟨⟨pos, lt⟩, (stacked.shape.user _ (by omega) pos lt).mpr ?_⟩
    simpa using ne.symm

theorem Stacked.open_stack {x : Addr} (ge : 4096 * (hi - 1) ≤ x.toNat) (lt : x.toNat < 4096 * hi) :
    m1.Open d x := by
  have three := stacked.three
  rw [stacked.open_page] <;> unfold vpn <;> omega

theorem Stacked.separate : Separate m1 d :=
  stacked.inv.separate stacked.at_d stacked.shape.kernel

end Stacked

theorem Stacked.copyout (inv : Inv L m g) (stacked : Stacked L m g d hi m1 g1 sp1) {va : Addr}
    {buf : List Byte} (some : buf ≠ []) (fits : va.toNat + buf.length ≤ 4096 * hi)
    (reaches : 4096 * (hi - 2) < va.toNat + buf.length) :
    Ends (copyout d va buf) m1 fun r m' =>
      m'.loaded = m1.loaded ∧ Stacked L m g d hi m' g1 sp1 ∧
        (r = true ↔ 4096 * (hi - 1) ≤ va.toNat) := by
  have three := stacked.three
  have low := stacked.low
  have pos := length_pos_iff.mpr some
  have nat : ∀ i, i < buf.length → (va + BitVec.ofNat 32 i).toNat = va.toNat + i :=
    fun i lt => toNat_add_ofNat lt (by omega)
  have guarded : Guarded m1 d va buf.length := by
    intro i lt _
    rw [(stacked.inv.space d sp1 stacked.at_d).tabled_iff, stacked.tables]
    have below : vpn (va + BitVec.ofNat 32 i) < hi := by
      unfold vpn
      rw [nat i lt]
      omega
    rcases Nat.eq_zero_or_pos (vpn (va + BitVec.ofNat 32 i)) with zero | pos
    · exact .inr ⟨1, Nat.le_refl 1, by omega, by omega⟩
    · exact .inr ⟨_, pos, below, rfl⟩
  refine ((copyout_within stacked.separate va buf (by omega)).ends
    fun e stop => stop.2 guarded).mono ?_
  rintro r m' ⟨-, all_iff, -, confined⟩
  refine ⟨confined.loaded, stacked.store inv (confined.stores stacked.inv stacked.at_d
    stacked.shape.kernel), all_iff.trans ⟨fun all => ?_, fun above i lt => ?_⟩⟩
  · by_contra below
    -- the first byte of the guard page, or `va` if that is inside it
    have lt : 4096 * (hi - 2) - va.toNat < buf.length := by omega
    have page : vpn (va + BitVec.ofNat 32 (4096 * (hi - 2) - va.toNat)) = hi - 2 := by
      unfold vpn
      rw [nat _ lt]
      omega
    exact ((stacked.open_page (by omega)).mp (all _ lt)).2 page
  · have := nat i lt
    exact stacked.open_stack (by omega) (by omega)

/-- Beyond the user's half there is a page table, but not for the user, or none at all. -/
theorem Stacked.tab_high (stacked : Stacked L m g d hi m1 g1 sp1) {va : Addr}
    (high : 2 ^ 31 ≤ va.toNat) : (sp1.tab (vpn va / 1024)).isSome ↔ ¬ Unmappable va := by
  have low := stacked.low
  have gap : Unmappable va ↔ 0x8E000 ≤ vpn va ∧ vpn va < 0xFE000 := by
    have bounds : Unmappable va ↔ 4096 * 0x8E000 ≤ va.toNat ∧ va.toNat < 4096 * 0xFE000 := Iff.rfl
    rw [bounds]
    unfold vpn
    omega
  have lt := vpn_lt va
  have above : 2 ^ 19 ≤ vpn va := by
    unfold vpn
    omega
  rw [stacked.tables, gap]
  constructor
  · rintro (⟨u, kernel, eq⟩ | ⟨u, _, below, eq⟩)
    · unfold kernelPages at kernel
      omega
    · omega
  · intro mapped
    exact .inl ⟨vpn va, by unfold kernelPages; omega, rfl⟩

theorem Stacked.copyout_high (stacked : Stacked L m g d hi m1 g1 sp1) {va : Addr} {buf : List Byte}
    (some : buf ≠ []) (high : 2 ^ 31 ≤ va.toNat) :
    Within (fun e => e = .nullPointer ∧ Unmappable va) (Vm.copyout d va buf) m1 fun r m' =>
      ¬ Unmappable va ∧ r = false ∧ m' = m1 := by
  have ok := stacked.inv.space d sp1 stacked.at_d
  have shut : ¬ m1.Open d va := fun here => by
    rw [Mem.Open, ok.pte_eq] at here
    refine stacked.shape.kernel (vpn va) ?_ (vpn_lt va) here.2
    unfold vpn
    omega
  have tabled := (ok.tabled_iff va).trans (stacked.tab_high high)
  have step : Vm.copyout d va buf m1 = _ := copyoutLoop_step _ (length_pos_iff.mpr some)
  rw [if_neg shut] at step
  by_cases gap : Unmappable va
  · rw [if_neg fun tab => tabled.mp tab gap] at step
    exact (within_error step).mpr ⟨rfl, gap⟩
  · rw [if_pos (tabled.mpr gap)] at step
    exact (within_ok step).mpr ⟨gap, rfl, rfl⟩

theorem pushArgs_within (inv : Inv L m g) {top : Addr} (at_top : top.toNat = 4096 * hi)
    (argv : List CStr) (stack : Addr) (ptrs : List Addr) (m1 : Mem)
    (stacked : Stacked L m g d hi m1 g1 sp1) (ge : 4096 * (hi - 1) ≤ stack.toNat)
    (le : stack.toNat ≤ 4096 * hi) (few : ptrs.length ≤ maxArg) :
    Within (fun e => e = .nullPointer ∧ ArgsFault top argv stack ptrs.length)
      (pushArgs d argv stack ptrs) m1 fun r m' =>
        ¬ ArgsFault top argv stack ptrs.length ∧ m'.loaded = m1.loaded ∧
        Stacked L m g d hi m' g1 sp1 ∧
        (ptrs.length + argv.length ≤ maxArg → 4096 * (hi - 1) + argSize argv ≤ stack.toNat →
          ∃ stack' ptrs', r = some (stack', ptrs') ∧ stack.toNat ≤ stack'.toNat + argSize argv ∧
            ptrs'.length = ptrs.length + argv.length) ∧
        ∀ stack' ptrs', r = some (stack', ptrs') →
          4096 * (hi - 1) ≤ stack'.toNat ∧ stack'.toNat ≤ 4096 * hi ∧ ptrs'.length ≤ maxArg := by
  induction argv generalizing stack ptrs m1 with
  | nil =>
    rw [pushArgs, within_pure]
    refine ⟨id, rfl, stacked, fun _ _ => ⟨stack, ptrs, rfl, Nat.le_refl _, rfl⟩, ?_⟩
    rintro stack' ptrs' eq
    cases eq
    exact ⟨ge, le, few⟩
  | cons s rest ih =>
    have three := stacked.three
    have low := stacked.low
    have len : (s.bytes ++ [0]).length = s.bytes.length + 1 := by simp
    rw [pushArgs, ArgsFault]
    by_cases many : ptrs.length ≥ maxArg
    · rw [if_pos many, if_pos many, within_pure]
      refine ⟨id, rfl, stacked, fun few => ?_, (by simp)⟩
      rw [length_cons] at few
      omega
    rw [if_neg many, if_neg many]
    have bottom : (top - pgSize).toNat = 4096 * (hi - 1) := by
      rw [BitVec.toNat_sub]
      change (2 ^ 32 - 4096 + top.toNat) % 2 ^ 32 = _
      omega
    have in_page : (top - pgSize ≤ argSp stack s ∧ argSp stack s ≤ stack) ↔
        4096 * (hi - 1) ≤ (argSp stack s).toNat ∧ (argSp stack s).toNat ≤ stack.toNat := by
      rw [← bottom]
      exact Iff.rfl
    rw [within_bind]
    rcases argSp_cases stack s (by omega) (by omega) with ⟨below, near⟩ | ⟨long, wrap⟩
    · have same_half : ¬ Unmappable (argSp stack s) := by
        rintro ⟨high, _⟩
        have : 4096 * 0x8E000 ≤ (argSp stack s).toNat := high
        omega
      refine ((stacked.copyout inv (by simp) (by omega) (by omega)).mono ?_).within
      rintro r m2 ⟨same, stacked2, result⟩
      by_cases fits : 4096 * (hi - 1) ≤ (argSp stack s).toNat
      · rw [if_pos (result.mpr fits), if_pos (in_page.mpr ⟨fits, by omega⟩)]
        have length : (ptrs ++ [argSp stack s]).length = ptrs.length + 1 := by simp
        have post := ih (argSp stack s) (ptrs ++ [argSp stack s]) m2 stacked2 fits (by omega)
          (by rw [length]; omega)
        rw [length] at post
        refine post.mono (fun _ => id) ?_
        rintro r' m' ⟨no_fault, same', stacked', pushed, rest'⟩
        refine ⟨no_fault, same'.trans same, stacked', fun few room => ?_, rest'⟩
        rw [length_cons] at few
        rw [argSize] at room
        obtain ⟨stack', ptrs', eq, above, count⟩ := pushed (by omega) (by omega)
        refine ⟨stack', ptrs', eq, ?_, ?_⟩
        · rw [argSize]
          omega
        · rw [count, length_cons]
          omega
      · rw [if_neg (fun yes => fits (result.mp yes)), if_neg (fun h => fits (in_page.mp h).1),
          within_pure]
        refine ⟨same_half, same, stacked2, fun _ room => absurd ?_ fits, (by simp)⟩
        rw [argSize] at room
        omega
    · rw [if_neg (fun h => by have := (in_page.mp h).2; omega)]
      refine (stacked.copyout_high (by simp) wrap).mono (fun _ => id) ?_
      rintro r m2 ⟨mapped, rfl, rfl⟩
      rw [if_neg (by simp), within_pure]
      refine ⟨mapped, rfl, stacked, fun _ room => ?_, (by simp)⟩
      rw [argSize] at room
      omega

end Copyout

/-! ## The whole image -/

theorem length_ustack (stack : Addr) (ptrs : List Addr) :
    ((ustack stack ptrs).flatMap wordBytes).length = 4 * (3 + ptrs.length + 1) := by
  have four : ∀ w ∈ ustack stack ptrs, (wordBytes w).length = 4 := fun _ _ => rfl
  rw [length_flatMap, map_congr_left four]
  simp [ustack]
  omega

theorem ustack_toNat (stack : Addr) {n : Nat} (few : n ≤ 32) (ge : 4096 ≤ stack.toNat) :
    (stack - BitVec.ofNat 32 (3 + n + 1) * 4).toNat = stack.toNat - 4 * (3 + n + 1) := by
  have count : (BitVec.ofNat 32 (3 + n + 1) * 4).toNat = 4 * (3 + n + 1) := by
    rw [BitVec.toNat_mul, BitVec.toNat_ofNat]
    change (3 + n + 1) % 2 ^ 32 * 4 % 2 ^ 32 = _
    omega
  rw [BitVec.toNat_sub, count]
  omega

theorem pushStack_within (inv : Inv L m g) {top : Addr} (at_top : top.toNat = 4096 * hi)
    (argv : List CStr) (stacked : Stacked L m g d hi m1 g1 sp1) :
    Within (fun e => e = .nullPointer ∧ ArgsFault top argv top 0) (pushStack d argv top) m1
      fun r m' => ¬ ArgsFault top argv top 0 ∧ m'.loaded = m1.loaded ∧
        Stacked L m g d hi m' g1 sp1 ∧ (ArgsFit argv → r ≠ none) := by
  have three := stacked.three
  have low := stacked.low
  rw [pushStack, within_bind]
  refine (pushArgs_within inv at_top argv top [] m1 stacked (by omega) (by omega)
    (Nat.zero_le _)).mono (fun _ => id) ?_
  rintro r m2 ⟨no_fault, same, stacked2, pushed, bounds⟩
  have pushed : ArgsFit argv → ∃ stack ptrs, r = some (stack, ptrs) ∧
      top.toNat ≤ stack.toNat + argSize argv ∧ ptrs.length = argv.length := by
    intro ⟨few, room⟩
    simpa using pushed (by simpa using few) (by omega)
  cases r with
  | none =>
    rw [within_pure]
    refine ⟨no_fault, same, stacked2, fun fit => ?_⟩
    obtain ⟨stack, ptrs, eq, -⟩ := pushed fit
    cases eq
  | some r =>
    obtain ⟨stack, ptrs⟩ := r
    obtain ⟨ge, le, few⟩ := bounds stack ptrs rfl
    have few : ptrs.length ≤ 32 := few
    have size := length_ustack stack ptrs
    have at_sp := ustack_toNat stack few (by omega)
    have some : (ustack stack ptrs).flatMap wordBytes ≠ [] := by
      refine length_pos_iff.mp ?_
      omega
    rw [within_bind]
    refine ((stacked2.copyout inv some (by omega) (by omega)).mono ?_).within
    rintro r m3 ⟨same3, stacked3, result⟩
    by_cases fits : r = true
    · rw [if_pos fits, within_pure]
      exact ⟨no_fault, same3.trans same, stacked3, (by simp)⟩
    · rw [if_neg fits, within_pure]
      refine ⟨no_fault, same3.trans same, stacked3, fun fit => ?_⟩
      obtain ⟨_, _, eq, above, count⟩ := pushed fit
      cases eq
      have room := fit.2
      exact absurd (result.mpr (by omega)) fits

/-- What the program headers and the arguments lead to: the segment in page 0, or an argument
without page table. -/
def Verdict.Faults (argv : List CStr) : Verdict → Prop
  | .bad => False
  | .low _ => True
  | .size sz => stackTop sz < kernBase ∧ ArgsFault (stackTop sz) argv (stackTop sz) 0

instance (argv : List CStr) : (v : Verdict) → Decidable (v.Faults argv)
  | .bad => inferInstanceAs (Decidable False)
  | .low _ => inferInstanceAs (Decidable True)
  | .size _ => inferInstanceAs (Decidable (_ ∧ _))

/-- There was not enough memory for what the program headers ask for and a stack. -/
def Short (m : Mem) (v : Verdict) : Prop := m.free.length ≤ 2052 + 2 * ((v.top + 4095) / 4096)

theorem Few.short {s : Addr} (few : Few m s) (v : Verdict) (top : v.top = s.toNat) : Short m v := by
  unfold Few pages at few
  unfold Short
  omega

structure ImagePost (L : Layout) (m : Mem) (g : Ghost) (d : Frame) (argv : List CStr) (v : Verdict)
    (m1 : Mem) (r : Option (Addr × Addr)) (m' : Mem) : Prop where
  suffix : m1.loaded <:+ m'.loaded
  abandoned : r = none → Abandoned L m g d m'
  image : ∀ sz sp, r = some (sz, sp) → sz.toNat < 2 ^ 31 ∧ (∀ s, v = .size s → sz = stackTop s) ∧
    ∃ g' sp', Stacked L m g d (pages sz) m' g' sp'
  clean : ¬ v.Faults argv → Clean m1 m'
  dirty : v.Faults argv → (∃ s, v = .low s ∧ pgSize < s ∧ 0 ∈ m'.loaded) ∨ Short m v
  succeeds : ∀ sz, v = .size sz → stackTop sz < kernBase → ArgsFit argv → r = none → Short m v

variable {sz : Addr}

theorem pages_roundUp (limit : sz.toNat < 2 ^ 31) :
    (pgRoundUp sz).toNat = 4096 * pages sz ∧ pages (pgRoundUp sz) = pages sz ∧
      (stackTop sz).toNat = 4096 * (pages sz + 2) := by
  have round : (pgRoundUp sz).toNat = 4096 * pages sz := by
    rw [pgRoundUp_toNat (by omega), pages]
    omega
  have le := pages_le limit
  refine ⟨round, by unfold pages at *; omega, ?_⟩
  have two : (2 * pgSize).toNat = 8192 := by decide
  have sum : (stackTop sz).toNat = ((pgRoundUp sz).toNat + (2 * pgSize).toNat) % 2 ^ 32 := by
    unfold stackTop
    exact BitVec.toNat_add ..
  omega

theorem Loading.roundUp
    (loading : Loading L m g d sz m1 g1 sp1) (limit : 4096 * pages sz < 2 ^ 31) :
    Loading L m g d (pgRoundUp sz) m1 g1 sp1 := by
  obtain ⟨round, same, _⟩ := pages_roundUp loading.limit
  have pos := pages_pos loading.from_page
  have shape := loading.shape
  have tables := loading.tables
  rw [← same] at shape tables
  exact ⟨loading.inv, loading.at_d, loading.builds, shape, tables, loading.zero, by omega, by omega⟩

/-- The two pages of the stack: there is no memory for them, or no room below `KERNBASE`, or the
rest of `exec` starts with them in place. -/
theorem stack_pages {α : Type} {E : Stop → Prop}
    {rest : Addr → K (Option α)} {Q : Option α → Mem → Prop} (inv : Inv L m g)
    (loading : Loading L m g d sz m1 g1 sp1)
    (fails : ∀ m', m'.loaded = m1.loaded → Abandoned L m g d m' →
      (stackTop sz < kernBase → Short m (.size sz)) → Q none m')
    (next : ∀ m' g' sp', m'.loaded = m1.loaded → stackTop sz < kernBase →
      (stackTop sz).toNat = 4096 * pages (stackTop sz) →
      Stacked L m g d (pages (stackTop sz)) m' g' sp' → Within E (rest (stackTop sz)) m' Q) :
    Within E (do
      let sz ← allocuvm L d (pgRoundUp sz) (stackTop sz)
      if sz = 0 then pure none
      else
        clearpteu d (sz - 2 * pgSize)
        rest sz) m1 Q := by
  obtain ⟨round, same_pages, at_top⟩ := pages_roundUp loading.limit
  have pos := pages_pos loading.from_page
  generalize stackTop sz = top at *
  by_cases high : top ≥ kernBase
  · refine Ends.bind_within ?_
    rw [allocuvm, if_pos high, ends_pure, if_pos rfl]
    exact fails m1 rfl loading.abandoned fun low => absurd low (BitVec.not_lt.mpr high)
  · have low : top < kernBase := BitVec.not_le.mp high
    have low' : top.toNat < 2 ^ 31 := low
    have is_pages : pages top = pages sz + 2 := by
      unfold pages at *
      omega
    have below : ¬ top < pgRoundUp sz := by
      intro lt
      have : top.toNat < (pgRoundUp sz).toNat := lt
      omega
    refine Ends.bind_within (((loading.roundUp (by omega)).alloc inv low).mono ?_)
    rw [if_neg below]
    rintro r m2 ⟨same, ⟨rfl, g2, sp2, loading2⟩ | ⟨rfl, abandoned, few⟩⟩
    · have some : r ≠ 0 := by
        rintro rfl
        exact absurd loading2.from_page (by decide)
      rw [if_neg some]
      refine Ends.bind_within ((clearpteu_ends inv loading2 at_top (by omega)).mono ?_)
      rintro _ m3 ⟨same3, g3, sp3, stacked⟩
      rw [← is_pages] at at_top stacked
      exact next m3 g3 sp3 (same3.trans same) low at_top stacked
    · rw [if_pos rfl, within_pure]
      refine fails m2 same abandoned fun _ => ?_
      rw [same_pages, is_pages] at few
      unfold pages at few
      change m.free.length ≤ 2052 + 2 * ((sz.toNat + 4095) / 4096)
      omega

theorem addStack_within (inv : Inv L m g) (loading : Loading L m g d sz m1 g1 sp1)
    (argv : List CStr) :
    Within (fun e => e = .nullPointer ∧ (Verdict.size sz).Faults argv) (addStack L argv d sz) m1
      (ImagePost L m g d argv (.size sz) m1) := by
  refine stack_pages inv loading (fun m' same abandoned short => ?_)
    fun m3 g3 sp3 same low at_top stacked => ?_
  · refine ⟨same ▸ suffix_rfl, fun _ => abandoned, (by simp), fun _ => .of_eq same,
      fun faults => .inr (short faults.1), fun s eq low _ _ => ?_⟩
    cases eq
    exact short low
  · rw [within_bind]
    refine (pushStack_within inv at_top argv stacked).mono
      (fun e fault => ⟨fault.1, low, fault.2⟩) ?_
    rintro r' m4 ⟨no_fault, same4, stacked4, no_args⟩
    have all_same : m4.loaded = m1.loaded := same4.trans same
    have suffix : m1.loaded <:+ m4.loaded := all_same ▸ suffix_rfl
    have no_faults : ¬ (Verdict.size sz).Faults argv := fun faults => no_fault faults.2
    cases r' with
    | none =>
      exact ⟨suffix, fun _ => stacked4.abandoned, (by simp), fun _ => .of_eq all_same,
        fun faults => absurd faults no_faults, fun s _ _ args _ => absurd rfl (no_args args)⟩
    | some sp =>
      refine ⟨suffix, (by simp), fun s sp eq => ?_, fun _ => .of_eq all_same,
        fun faults => absurd faults no_faults, (by simp)⟩
      cases eq
      refine ⟨low, ?_, g3, sp3, stacked4⟩
      rintro _ ⟨⟩
      rfl

inductive ImageStop (argv : List CStr) : Verdict → Stop → Prop
  | low (s : Addr) : ImageStop argv (.low s) (.panic .loaduvmExist)
  | null (v : Verdict) (faults : v.Faults argv) (large : ∀ s, v = .low s → pgSize < s) :
      ImageStop argv v .nullPointer

theorem loadImage_within {ip : File} {elf : ElfHdr} (inv : Inv L m g)
    (loading : Loading L m g d pgSize m1 g1 sp1) (argv : List CStr) :
    Within (ImageStop argv (plan ip elf.phnum.toNat elf.phoff pgSize))
      (loadImage L ip elf argv d) m1
      (ImagePost L m g d argv (plan ip elf.phnum.toNat elf.phoff pgSize) m1) := by
  rw [loadImage, within_bind]
  refine (loadSegments_within ip inv elf.phnum.toNat elf.phoff pgSize m1 g1 sp1
    loading).mono ?_ ?_
  · rintro e ⟨rfl, s, low⟩
    rw [low]
    exact .low s
  generalize plan ip elf.phnum.toNat elf.phoff pgSize = v
  rintro r m2 ⟨suffix, state, carried⟩
  cases r with
  | none =>
    rw [within_pure]
    cases v with
    | bad => exact ⟨suffix, fun _ => state, (by simp), fun _ => carried.2, False.elim, (by simp)⟩
    | low s =>
      exact ⟨suffix, fun _ => state, (by simp), fun safe => absurd trivial safe,
        fun _ => carried.imp (fun zero => ⟨s, rfl, zero⟩) fun few => few.2.short _ rfl, (by simp)⟩
    | size s =>
      have short := (carried.2.resolve_left (by simp)).2.short (.size s) rfl
      exact ⟨suffix, fun _ => state, (by simp), fun _ => carried.1, fun _ => .inr short,
        fun _ _ _ _ _ => short⟩
  | some sz =>
    obtain ⟨g2, sp2, loading2⟩ := state
    have post := addStack_within inv loading2 argv
    cases v with
    | bad => exact absurd carried.1 (by simp)
    | low s =>
      obtain ⟨large, zero⟩ := carried.resolve_right fun few => absurd few.1 (by simp)
      refine post.mono (fun e stop => ?_) ?_
      · rw [stop.1]
        exact .null _ trivial fun s' eq => by cases eq; exact large
      rintro r m' post
      exact ⟨suffix.trans post.suffix, post.abandoned,
        fun sz sp eq => ⟨(post.image sz sp eq).1, (by simp), (post.image sz sp eq).2.2⟩,
        fun safe => absurd trivial safe,
        fun _ => .inl ⟨s, rfl, large, post.suffix.subset zero⟩, (by simp)⟩
    | size s =>
      have eq : sz = s :=
        Option.some.inj (carried.2.resolve_right fun few => absurd few.1 (by simp))
      subst eq
      refine post.mono (fun e stop => ?_) ?_
      · rw [stop.1]
        exact .null _ stop.2 (by simp)
      rintro r m' post
      exact ⟨suffix.trans post.suffix, post.abandoned, post.image,
        fun safe => carried.1.trans (post.clean safe), post.dirty, post.succeeds⟩

end Xv6.Vm
