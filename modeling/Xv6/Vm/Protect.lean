import Xv6.Vm.Buffer

/-!
# `mprotect` and `munprotect` on any page table

What the two calls do to the words of a page table, whatever memory holds: no invariant of the
kernel is used before the last section.  Both change `PTE_W` and nothing else, so that every walk
finds the same entries before and after a change (`Alike`), also in a page table that maps itself.

The second loop of the source stops at the first page without `PTE_P` and `PTE_U`, with the entries
before it changed.  `Marked` is what it leaves behind.
-/

namespace Xv6.Vm

/-! ## The bit `PTE_W` -/

theorem getLsbD_pteW (i : Nat) (lt : i < 32) : pteW.getLsbD i = decide (i = 1) := by
  interval_cases i <;> rfl

theorem has_pteW (x : Addr) : Has pteW x ↔ x.getLsbD 1 = true := by
  constructor
  · intro has
    by_contra clear
    refine has (BitVec.eq_of_getLsbD_eq fun i lt => ?_)
    rw [BitVec.getLsbD_and, getLsbD_pteW i lt]
    by_cases eq : i = 1
    · subst eq
      rw [Bool.eq_false_iff.mpr clear]
      rfl
    · simp [eq]
  · intro bit zero
    have at_one : (x &&& pteW).getLsbD 1 = false := by
      rw [zero]
      rfl
    rw [BitVec.getLsbD_and, bit, getLsbD_pteW 1 (by decide)] at at_one
    cases at_one

theorem getLsbD_closed (x : Addr) {i : Nat} (lt : i < 32) :
    (closed x).getLsbD i = (x.getLsbD i && decide (i ≠ 1)) := by
  rw [closed, BitVec.getLsbD_and, BitVec.getLsbD_not, getLsbD_pteW i lt]
  simp [lt]

theorem getLsbD_opened (x : Addr) {i : Nat} (lt : i < 32) :
    (opened x).getLsbD i = (x.getLsbD i || decide (i = 1)) := by
  rw [opened, BitVec.getLsbD_or, getLsbD_pteW i lt]

theorem closed_eq_self (x : Addr) : closed x = x ↔ ¬ Has pteW x := by
  rw [has_pteW]
  constructor
  · intro same
    rw [← same, getLsbD_closed x (by decide)]
    simp
  · intro clear
    refine BitVec.eq_of_getLsbD_eq fun i lt => ?_
    rw [getLsbD_closed x lt]
    by_cases eq : i = 1
    · subst eq
      simpa using clear
    · simp [eq]

theorem opened_eq_self (x : Addr) : opened x = x ↔ Has pteW x := by
  rw [has_pteW]
  constructor
  · intro same
    rw [← same, getLsbD_opened x (by decide)]
    simp
  · intro set
    refine BitVec.eq_of_getLsbD_eq fun i lt => ?_
    rw [getLsbD_opened x lt]
    by_cases eq : i = 1
    · subst eq
      simp [set]
    · simp [eq]

theorem opened_closed {x : Addr} (has : Has pteW x) : opened (closed x) = x := by
  refine BitVec.eq_of_getLsbD_eq fun i lt => ?_
  rw [getLsbD_opened _ lt, getLsbD_closed x lt]
  by_cases eq : i = 1
  · subst eq
    simp [(has_pteW x).mp has]
  · simp [eq]

structure OnlyW (change : Addr → Addr) : Prop where
  rest : ∀ x, closed (change x) = closed x
  again : ∀ x, change (change x) = change x

theorem closed_only : OnlyW closed where
  rest x := (closed_eq_self _).mpr (not_has_and_not _ x)
  again x := (closed_eq_self _).mpr (not_has_and_not _ x)

theorem opened_only : OnlyW opened where
  rest x := by
    refine BitVec.eq_of_getLsbD_eq fun i lt => ?_
    rw [getLsbD_closed _ lt, getLsbD_opened x lt, getLsbD_closed x lt]
    by_cases eq : i = 1
    · simp [eq]
    · simp [eq]
  again x := by
    rw [opened_eq_self, opened, has_or]
    exact .inr (by decide)

theorem has_closed {flag : Addr} (other : ~~~pteW &&& flag = flag) {x y : Addr}
    (same : closed x = closed y) : Has flag x ↔ Has flag y := by
  rw [← has_and_not flag pteW other x, ← has_and_not flag pteW other y]
  change Has flag (closed x) ↔ Has flag (closed y)
  rw [same]

theorem pteFrame_closed {x y : Addr} (same : closed x = closed y) : pteFrame x = pteFrame y := by
  have frame : ∀ z, pteFrame (closed z) = pteFrame z := pteFrame_clear _ (by decide)
  rw [← frame x, same, frame]

/-! ## Walks -/

/-- Where the entry for an address is, if the directory has a page-table page for it. -/
def Mem.slot (m : Mem) (d : Frame) (va : Addr) : Option PtePtr :=
  let pde := (m.page d).word (pdx va).toNat
  if Has pteP pde then some (pteFrame pde, (ptx va).toNat) else none

def pageAt (addr : Addr) (i : Nat) : Addr := addr + BitVec.ofNat 32 (4096 * i)

theorem pageAt_zero (addr : Addr) : pageAt addr 0 = addr := by
  simp [pageAt]

theorem pageAt_succ (addr : Addr) (i : Nat) : pageAt addr i + pgSize = pageAt addr (i + 1) := by
  have step : BitVec.ofNat 32 (4096 * i) + pgSize = BitVec.ofNat 32 (4096 * (i + 1)) := by
    have page : pgSize.toNat = 4096 := rfl
    apply BitVec.eq_of_toNat_eq
    simp only [BitVec.toNat_add, BitVec.toNat_ofNat, page]
    omega
  rw [pageAt, pageAt, BitVec.add_assoc, step]

variable {m m' m0 : Mem} {d f : Frame} {va addr len : Addr} {change : Addr → Addr} {p : Proc}
  {esp : Addr}

theorem walk_slot : walkpgdir d va false m = .ok (m.slot d va, m) := by
  change (if Has pteP ((m.page d).word (pdx va).toNat) then _ else _ : K (Option PtePtr)) m = _
  rw [Mem.slot]
  split
  · rfl
  · rfl

theorem isSome_slot : (m.slot d va).isSome ↔ m.Tabled d va := by
  rw [Mem.slot]
  split
  · exact iff_of_true rfl ‹_›
  · exact iff_of_false Bool.false_ne_true ‹_›

theorem slot_eq {i : Nat} (at_va : m.slot d va = some (f, i)) :
    Has pteP ((m.page d).word (pdx va).toNat) ∧ pteFrame ((m.page d).word (pdx va).toNat) = f ∧
      i = (ptx va).toNat := by
  rw [Mem.slot] at at_va
  split at at_va
  · rename_i has
    cases at_va
    exact ⟨has, rfl, rfl⟩
  · cases at_va

theorem pte_of_slot {i : Nat} (at_va : m.slot d va = some (f, i)) :
    m.pte d va = (m.page f).word i := by
  obtain ⟨has, rfl, rfl⟩ := slot_eq at_va
  exact if_pos has

theorem pte_of_no_slot (none : m.slot d va = none) : m.pte d va = 0 :=
  pte_eq_zero fun tab => by
    rw [← isSome_slot, none] at tab
    cases tab

theorem isSome_of_user (user : m.Open d va) : (m.slot d va).isSome :=
  isSome_slot.mpr (tabled_of_present user.1)

theorem slot_of_user (user : m.Open d va) : ∃ f i, m.slot d va = some (f, i) := by
  obtain ⟨x, at_va⟩ := Option.isSome_iff_exists.mp (isSome_of_user user)
  exact ⟨x.1, x.2, at_va⟩

theorem ptx_lt (va : Addr) : (ptx va).toNat < 1024 := by
  rw [ptx_toNat]
  omega

theorem pdx_lt (va : Addr) : (pdx va).toNat < 1024 := by
  rw [pdx_toNat]
  omega

theorem slot_lt {i : Nat} (at_va : m.slot d va = some (f, i)) : i < 1024 :=
  (slot_eq at_va).2.2 ▸ ptx_lt va

/-- The words of two memories differ in `PTE_W` at most. -/
def Alike (m m' : Mem) : Prop :=
  ∀ f i, i < 1024 → closed ((m'.page f).word i) = closed ((m.page f).word i)

theorem Alike.refl (m : Mem) : Alike m m := fun _ _ _ => rfl

theorem Alike.trans {m'' : Mem} (first : Alike m m') (second : Alike m' m'') : Alike m m'' :=
  fun f i lt => (second f i lt).trans (first f i lt)

theorem Alike.slot (alike : Alike m m') (d : Frame) (va : Addr) : m'.slot d va = m.slot d va := by
  have same := alike d (pdx va).toNat (pdx_lt va)
  have present : Has pteP ((m'.page d).word (pdx va).toNat) ↔
      Has pteP ((m.page d).word (pdx va).toNat) := has_closed (by decide) same
  rw [Mem.slot, Mem.slot, pteFrame_closed same]
  simp only [present]

/-- There is no entry for `va`, or it is one and the same word of both memories. -/
theorem Alike.entry (alike : Alike m m') (d : Frame) (va : Addr) :
    m'.pte d va = m.pte d va ∨ ∃ f i, i < 1024 ∧ m.slot d va = some (f, i) ∧
      m.pte d va = (m.page f).word i ∧ m'.pte d va = (m'.page f).word i := by
  have same := alike.slot d va
  cases at_va : m.slot d va with
  | none => exact .inl (by rw [pte_of_no_slot at_va, pte_of_no_slot (same.trans at_va)])
  | some x =>
    exact .inr ⟨x.1, x.2, slot_lt at_va, rfl, pte_of_slot at_va, pte_of_slot (same.trans at_va)⟩

theorem Alike.pte (alike : Alike m m') (d : Frame) (va : Addr) :
    closed (m'.pte d va) = closed (m.pte d va) := by
  rcases alike.entry d va with same | ⟨f, i, lt, -, before, after⟩
  · rw [same]
  · rw [before, after]
    exact alike f i lt

theorem Alike.user (alike : Alike m m') (d : Frame) (va : Addr) : m'.Open d va ↔ m.Open d va := by
  have same := alike.pte d va
  have present : Has pteP (m'.pte d va) ↔ Has pteP (m.pte d va) := has_closed (by decide) same
  have user : Has pteU (m'.pte d va) ↔ Has pteU (m.pte d va) := has_closed (by decide) same
  rw [Mem.Open, Mem.Open, present, user]

/-! ## The loops -/

/-- Page `i` after `addr` is open to the user. -/
def Mem.opens (m : Mem) (d : Frame) (addr : Addr) (i : Nat) : Bool :=
  decide (m.Open d (pageAt addr i))

/-- The entries of pages `v` to `v + k` after `addr`, which are where `m0` has them, are changed. -/
def Marked (change : Addr → Addr) (d : Frame) (addr : Addr) (v k : Nat) (m0 m m' : Mem) : Prop :=
  ∀ f i, i < 1024 → ∀ w, w = (m.page f).word i →
    ((∃ j, v ≤ j ∧ j < v + k ∧ m0.slot d (pageAt addr j) = some (f, i)) →
      (m'.page f).word i = change w) ∧
    ((∀ j, v ≤ j → j < v + k → m0.slot d (pageAt addr j) ≠ some (f, i)) → (m'.page f).word i = w)

theorem Marked.alike (only : OnlyW change) {v k : Nat} (marked : Marked change d addr v k m0 m m') :
    Alike m m' := by
  intro f i lt
  obtain ⟨inside, outside⟩ := marked f i lt _ rfl
  by_cases touched : ∃ j, v ≤ j ∧ j < v + k ∧ m0.slot d (pageAt addr j) = some (f, i)
  · rw [inside touched, only.rest]
  · rw [outside fun j le below at_j => touched ⟨j, le, below, at_j⟩]

theorem Marked.refl (v : Nat) : Marked change d addr v 0 m0 m m := by
  rintro f i lt w rfl
  exact ⟨fun ⟨j, le, below, _⟩ => by omega, fun _ => rfl⟩

theorem Marked.cons (only : OnlyW change) {v k i : Nat}
    (at_v : m0.slot d (pageAt addr v) = some (f, i))
    (lt : i < 1024)
    (rest : Marked change d addr (v + 1) k m0
      (m.setPage f ((m.page f).setWord i (change ((m.page f).word i)))) m') :
    Marked change d addr v (k + 1) m0 m m' := by
  rintro e n lt_n w rfl
  obtain ⟨inside, outside⟩ := rest e n lt_n _ rfl
  -- the word after the first change
  by_cases here : e = f ∧ n = i
  · obtain ⟨rfl, rfl⟩ := here
    rw [Mem.setPage_self, Words.Page.word_setWord _ lt, if_pos rfl] at inside outside
    refine ⟨fun _ => ?_, fun none => absurd at_v (none v le_rfl (by omega))⟩
    by_cases later : ∃ j, v + 1 ≤ j ∧ j < v + 1 + k ∧ m0.slot d (pageAt addr j) = some (e, n)
    · rw [inside later, only.again]
    · exact outside fun j le below at_j => later ⟨j, le, below, at_j⟩
  · have same : ((m.setPage f ((m.page f).setWord i (change ((m.page f).word i)))).page e).word n =
        (m.page e).word n := by
      by_cases eq : e = f
      · subst eq
        have ne : n ≠ i := fun eq => here ⟨rfl, eq⟩
        rw [Mem.setPage_self, Words.Page.word_setWord _ lt, if_neg ne]
      · rw [Mem.setPage_ne _ eq]
    rw [same] at inside outside
    refine ⟨fun ⟨j, le, below, at_j⟩ => inside ⟨j, ?_, by omega, at_j⟩, fun none =>
      outside fun j le below => none j (by omega) (by omega)⟩
    rcases Nat.lt_or_eq_of_le le with lt_j | rfl
    · exact lt_j
    · rw [at_v] at at_j
      cases at_j
      exact absurd ⟨rfl, rfl⟩ here

theorem protectLoop_marks (only : OnlyW change) (alike : Alike m0 m) (n v : Nat) :
    ∃ m', protectLoop d change n (pageAt addr v) m =
        .ok (decide (stretch (m0.opens d addr) n v = n), m') ∧
      Marked change d addr v (stretch (m0.opens d addr) n v) m0 m m' := by
  induction n generalizing m v with
  | zero => exact ⟨m, rfl, .refl v⟩
  | succ n ih =>
    rw [protectLoop, Prog.bind_ok walk_slot, alike.slot, stretch]
    by_cases user : m0.Open d (pageAt addr v)
    · obtain ⟨f, i, at_v⟩ := slot_of_user user
      have lt := slot_lt at_v
      have word : (m.page f).word i = m.pte d (pageAt addr v) :=
        (pte_of_slot ((alike.slot d _).trans at_v)).symm
      have has : Has pteP ((m.page f).word i) ∧ Has pteU ((m.page f).word i) := by
        rw [word]
        exact (alike.user d _).mpr user
      -- one entry is changed
      let m1 := m.setPage f ((m.page f).setWord i (change ((m.page f).word i)))
      have one : Marked change d addr v 1 m0 m m1 := .cons only at_v lt (.refl _)
      obtain ⟨m', result, marked⟩ := ih (alike.trans (one.alike only)) (v + 1)
      have opens : m0.opens d addr v = true := decide_eq_true user
      refine ⟨m', ?_, ?_⟩
      · rw [at_v]
        change (if Has pteP ((m.page f).word i) ∧ Has pteU ((m.page f).word i) then _ else _ :
          K Bool) m = _
        rw [if_pos has, if_pos opens, pageAt_succ]
        change protectLoop d change n (pageAt addr (v + 1)) m1 = _
        rw [result]
        simp
      · rw [if_pos opens]
        exact .cons only at_v lt marked
    · have shut : ¬ m0.opens d addr v = true := by simpa [Mem.opens] using user
      refine ⟨m, ?_, by rw [if_neg shut]; exact .refl v⟩
      rw [if_neg shut]
      cases at_v : m0.slot d (pageAt addr v) with
      | none => rfl
      | some x =>
        obtain ⟨f, i⟩ := x
        have word : (m.page f).word i = m.pte d (pageAt addr v) :=
          (pte_of_slot ((alike.slot d _).trans at_v)).symm
        have not_has : ¬ (Has pteP ((m.page f).word i) ∧ Has pteU ((m.page f).word i)) := by
          rw [word]
          exact mt (alike.user d _).mp user
        change (if Has pteP ((m.page f).word i) ∧ Has pteU ((m.page f).word i) then _ else _ :
          K Bool) m = _
        rw [if_neg not_has]
        rfl

/-! ## The calls -/

/-- The common body of `sys_mprotect` and `sys_munprotect`, from the stack pointer on. -/
def sysProtectArgs (change : Addr → Addr) (p : Proc) (esp : Addr) : K Bool := do
  match ← argptr p esp 0 1 with
  | none => pure false
  | some addr =>
    match ← argint p esp 1 with
    | none => pure false
    | some len => protect change p.pgdir addr len

def sysMprotect : Proc → Addr → K Bool := sysProtectArgs closed

def sysMunprotect : Proc → Addr → K Bool := sysProtectArgs opened

/-- The arguments of the call are on the stack of the process. -/
structure Args (m : Mem) (p : Proc) (esp addr len : Addr) : Prop where
  first : argint p esp 0 m = .ok (some addr, m)
  second : argint p esp 1 m = .ok (some len, m)

theorem Args.call (args : Args m p esp addr len) :
    sysProtectArgs change p esp m = sysProtect change p addr len m := by
  rw [sysProtectArgs, sysProtect]
  by_cases accepted : blockOk p.sz addr 1 = true
  · have pointer : argptr p esp 0 1 m = .ok (some addr, m) := by
      rw [argptr, Prog.bind_ok args.first]
      exact congrFun (if_pos accepted) m
    rw [if_pos accepted, Prog.bind_ok pointer]
    exact Prog.bind_ok args.second _
  · have pointer : argptr p esp 0 1 m = .ok (none, m) := by
      rw [argptr, Prog.bind_ok args.first]
      exact congrFun (if_neg accepted) m
    rw [if_neg accepted]
    exact Prog.bind_ok pointer _

theorem protect_short (short : len.toInt < 1) : protect change d addr len m = .ok (false, m) := by
  rw [protect, if_pos short]
  rfl

theorem protect_null (some : 1 ≤ len.toInt) (none : m.slot d addr = none) :
    protect change d addr len m = .error .nullPointer := by
  have pos : len.toNat = len.toNat - 1 + 1 := by
    have := toInt_cases len
    omega
  have null : uva2ka d addr m = .error .nullPointer :=
    (uva2ka_eq m d addr).trans (if_neg fun tab => by
      rw [← isSome_slot, none] at tab
      cases tab)
  rw [protect, if_neg (by omega), pos, alignLoop]
  exact Prog.bind_error (Prog.bind_error null _) _

theorem stretch_eq_iff {ok : Nat → Bool} {n v : Nat} :
    stretch ok n v = n ↔ ∀ i, v ≤ i → i < v + n → ok i = true := by
  induction n generalizing v with
  | zero => exact ⟨fun _ i le lt => by omega, fun _ => rfl⟩
  | succ n ih =>
    rw [stretch]
    split
    · rename_i here
      rw [Nat.add_right_cancel_iff, ih]
      refine ⟨fun rest i le lt => ?_, fun all i le lt => all i (by omega) (by omega)⟩
      rcases Nat.lt_or_eq_of_le le with lt_i | rfl
      · exact rest i lt_i (by omega)
      · exact here
    · rename_i here
      refine ⟨fun zero => by omega, fun all => absurd (all v le_rfl (by omega)) here⟩

theorem lt_stretch_iff {ok : Nat → Bool} {n v j : Nat} (le : v ≤ j) :
    j < v + stretch ok n v ↔ j < v + n ∧ ∀ i, v ≤ i → i ≤ j → ok i = true := by
  induction n generalizing v with
  | zero => exact iff_of_false (by simp [stretch]; omega) fun h => by omega
  | succ n ih =>
    rw [stretch]
    split
    · rename_i here
      rcases Nat.lt_or_eq_of_le le with lt_j | rfl
      · rw [← Nat.add_assoc, Nat.add_right_comm, ih lt_j]
        refine and_congr (by omega) ⟨fun rest i le' le'' => ?_, fun all i le' => all i (by omega)⟩
        rcases Nat.lt_or_eq_of_le le' with lt_i | rfl
        · exact rest i lt_i le''
        · exact here
      · refine iff_of_true (by omega) ⟨by omega, fun i le' le'' => ?_⟩
        rw [Nat.le_antisymm le'' le']
        exact here
    · rename_i here
      exact iff_of_false (by omega) fun h => here (h.2 v le_rfl le)

def Mem.AllOpen (m : Mem) (d : Frame) (addr len : Addr) : Prop :=
  ∀ i, i < len.toNat → m.Open d (pageAt addr i)

theorem stretch_all : stretch (m.opens d addr) len.toNat 0 = len.toNat ↔ m.AllOpen d addr len := by
  rw [stretch_eq_iff]
  exact ⟨fun all i lt => of_decide_eq_true (all i (Nat.zero_le i) (by omega)),
    fun all i _ lt => decide_eq_true (all i (by omega))⟩

theorem protect_marks (only : OnlyW change) (long : 1 ≤ len.toInt) (some : (m.slot d addr).isSome) :
    ∃ r m', protect change d addr len m = .ok (r, m') ∧ (r = true ↔ m.AllOpen d addr len) ∧
      Marked change d addr 0 (stretch (m.opens d addr) len.toNat 0) m m m' := by
  obtain ⟨m', result, marked⟩ := protectLoop_marks (d := d) only (.refl m) len.toNat 0
  rw [pageAt_zero] at result
  refine ⟨_, m', ?_, decide_eq_true_iff.trans stretch_all, marked⟩
  rw [protect, if_neg (by omega), Prog.bind_ok (alignLoop_tabled (isSome_slot.mp some) _)]
  exact result

/-! ## What is accepted -/

/-- A request as it should be: a number of pages, open to the user and below `KERNBASE`, from the
beginning of the first one on. -/
structure Mem.Requested (m : Mem) (d : Frame) (addr len : Addr) : Prop where
  long : 1 ≤ len.toInt
  aligned : addr.toNat % 4096 = 0
  pages : ∀ i, i < len.toNat → addr.toNat + 4096 * i < 2 ^ 31 ∧ m.Open d (pageAt addr i)

/-- The call returns 0 if `ok`, and `-1` otherwise. -/
def Accepts (call : K Bool) (m : Mem) (ok : Prop) : Prop :=
  (ok → ∃ m', call m = .ok (true, m')) ∧ (¬ ok → ∃ m', call m = .ok (false, m'))

/-- The arguments for which the calls accept just what they should: `argptr` lets proper requests
through, and of what it lets through, with at least one page, the directory has a page-table page
for the first address, and a range that is open is aligned and below `KERNBASE`. -/
structure Mem.Judged (m : Mem) (p : Proc) (addr len : Addr) : Prop where
  proper : m.Requested p.pgdir addr len → blockOk p.sz addr 1 = true
  mapped : blockOk p.sz addr 1 = true → 1 ≤ len.toInt → (m.slot p.pgdir addr).isSome
  other : blockOk p.sz addr 1 = true → 1 ≤ len.toInt → m.AllOpen p.pgdir addr len →
    addr.toNat % 4096 = 0 ∧ addr.toNat + 4096 * (len.toNat - 1) < 2 ^ 31

theorem accepts_iff (only : OnlyW change) (args : Args m p esp addr len) :
    Accepts (sysProtectArgs change p esp) m (m.Requested p.pgdir addr len) ↔
      m.Judged p addr len := by
  have long_nat : 1 ≤ len.toInt → 1 ≤ len.toNat := by
    have := toInt_cases len
    omega
  unfold Accepts
  rw [args.call]
  by_cases accepted : blockOk p.sz addr 1 = true
  · rw [sysProtect, if_pos accepted]
    by_cases short : len.toInt < 1
    · have bad : ¬ m.Requested p.pgdir addr len := fun req => by
        have := req.long
        omega
      rw [protect_short short]
      exact iff_of_true ⟨fun req => absurd req bad, fun _ => ⟨m, rfl⟩⟩
        ⟨fun _ => accepted, fun _ long => by omega, fun _ long => by omega⟩
    · have long : 1 ≤ len.toInt := by omega
      cases at_addr : m.slot p.pgdir addr with
      | none =>
        rw [protect_null long at_addr]
        refine iff_of_false (fun both => ?_) fun judged => ?_
        · by_cases req : m.Requested p.pgdir addr len
          · obtain ⟨_, eq⟩ := both.1 req
            cases eq
          · obtain ⟨_, eq⟩ := both.2 req
            cases eq
        · have := judged.mapped accepted long
          rw [at_addr] at this
          cases this
      | some x =>
        have is_some : (m.slot p.pgdir addr).isSome := by rw [at_addr]; rfl
        obtain ⟨r, m', result, all_iff, -⟩ := protect_marks only long is_some
        rw [result]
        constructor
        · intro both
          refine ⟨fun _ => accepted, fun _ _ => is_some, fun _ _ all => ?_⟩
          by_contra off
          obtain ⟨_, eq⟩ := both.2 fun req =>
            off ⟨req.aligned, (req.pages (len.toNat - 1) (by have := long_nat long; omega)).1⟩
          rw [all_iff.mpr all] at eq
          cases eq
        · intro judged
          refine ⟨fun req => ⟨m', ?_⟩, fun bad => ⟨m', ?_⟩⟩
          · rw [all_iff.mpr fun i lt => (req.pages i lt).2]
          · have shut : ¬ m.AllOpen p.pgdir addr len := fun all => by
              obtain ⟨aligned, low⟩ := judged.other accepted long all
              exact bad ⟨long, aligned, fun i lt => ⟨by omega, all i lt⟩⟩
            rw [Bool.eq_false_iff.mpr (mt all_iff.mp shut)]
  · rw [sysProtect, if_neg accepted]
    constructor
    · intro both
      refine ⟨fun req => ?_, fun yes => absurd yes accepted, fun yes => absurd yes accepted⟩
      obtain ⟨_, eq⟩ := both.1 req
      cases eq
    · intro judged
      exact ⟨fun req => absurd (judged.proper req) accepted, fun _ => ⟨m, rfl⟩⟩

/-- **What `mprotect` and `munprotect` accept.** -/
theorem protect_accepts_iff (args : Args m p esp addr len) :
    (Accepts (sysMprotect p esp) m (m.Requested p.pgdir addr len) ↔ m.Judged p addr len) ∧
    (Accepts (sysMunprotect p esp) m (m.Requested p.pgdir addr len) ↔ m.Judged p addr len) :=
  ⟨accepts_iff closed_only args, accepts_iff opened_only args⟩

/-! ## What a failed call leaves behind -/

/-- Memory, and memory as it was at the last flush of the TLB, which may hold entries of then. -/
structure Mmu where
  mem : Mem
  seen : Mem

def onMem {α : Type} (c : K α) : Prog Stop Mmu α := fun s =>
  match c s.mem with
  | .ok (a, m) => .ok (a, { s with mem := m })
  | .error e => .error e

def lcr3 : Prog Stop Mmu Unit := fun s => .ok ((), { s with seen := s.mem })

/-- `mprotect` or `munprotect` with the flush at its end. -/
def protectFlush (change : Addr → Addr) (d : Frame) (addr len : Addr) : Prog Stop Mmu Bool := do
  if ← onMem (protect change d addr len) then
    lcr3
    pure true
  else pure false

/-- A call that returns `-1` has changed no entry, and when the call returns the TLB holds no entry
that has been changed. -/
def Atomic (call : Prog Stop Mmu Bool) (d : Frame) (m : Mem) : Prop :=
  ∀ r t, call ⟨m, m⟩ = .ok (r, t) →
    (r = false → ∀ va, t.mem.pte d va = m.pte d va) ∧ ∀ va, t.seen.pte d va = t.mem.pte d va

theorem protectFlush_eq {r : Bool} (result : protect change d addr len m = .ok (r, m')) :
    protectFlush change d addr len ⟨m, m⟩ = .ok (r, ⟨m', if r then m' else m⟩) := by
  have lifted : onMem (protect change d addr len) ⟨m, m⟩ = .ok (r, ⟨m', m⟩) := by
    rw [onMem, result]
  rw [protectFlush, Prog.bind_ok lifted]
  cases r with
  | false => rfl
  | true => rfl

/-- The flush matters where an entry was changed by a call that fails. -/
theorem atomic_of_result {r : Bool} (result : protect change d addr len m = .ok (r, m')) :
    Atomic (protectFlush change d addr len) d m ↔
      (r = false → ∀ va, m'.pte d va = m.pte d va) := by
  unfold Atomic
  rw [protectFlush_eq result]
  constructor
  · intro atomic
    exact (atomic _ _ rfl).1
  · intro kept r t eq
    cases eq
    refine ⟨kept, fun va => ?_⟩
    cases r with
    | false => exact (kept rfl va).symm
    | true => rfl

variable {k : Nat}

section Marked

variable (marked : Marked change d addr 0 k m m m')
include marked

theorem Marked.pte_inside {j : Nat} (alike : Alike m m') (lt : j < k)
    (user : m.Open d (pageAt addr j)) :
    m'.pte d (pageAt addr j) = change (m.pte d (pageAt addr j)) := by
  obtain ⟨f, i, at_j⟩ := slot_of_user user
  have lt_i := slot_lt at_j
  rw [pte_of_slot at_j, pte_of_slot ((alike.slot d _).trans at_j)]
  exact (marked f i lt_i _ rfl).1 ⟨j, Nat.zero_le j, by omega, at_j⟩

theorem Marked.pte_outside (alike : Alike m m')
    (apart : ∀ j f i, j < k → m.slot d (pageAt addr j) = some (f, i) → m.slot d va ≠ some (f, i)) :
    m'.pte d va = m.pte d va := by
  rcases alike.entry d va with same | ⟨f, i, lt_i, at_va, before, after⟩
  · exact same
  · rw [before, after]
    exact (marked f i lt_i _ rfl).2 fun j _ lt at_j => apart j f i (by omega) at_j at_va

theorem Marked.pte_fixed (alike : Alike m m')
    (fixed : ∀ j, j < k → change (m.pte d (pageAt addr j)) = m.pte d (pageAt addr j)) (va : Addr) :
    m'.pte d va = m.pte d va := by
  rcases alike.entry d va with same | ⟨f, i, lt_i, at_va, before, after⟩
  · exact same
  · rw [before, after]
    obtain ⟨inside, outside⟩ := marked f i lt_i _ rfl
    by_cases touched : ∃ j, 0 ≤ j ∧ j < 0 + k ∧ m.slot d (pageAt addr j) = some (f, i)
    · obtain ⟨j, le, lt, at_j⟩ := touched
      have same := fixed j (by omega)
      rw [pte_of_slot at_j] at same
      rw [inside ⟨j, le, lt, at_j⟩, same]
    · exact outside fun j le lt at_j => touched ⟨j, le, lt, at_j⟩

end Marked

theorem atomic_iff (only : OnlyW change) : Atomic (protectFlush change d addr len) d m ↔
    len.toInt < 1 ∨ m.AllOpen d addr len ∨
      ∀ j, j < len.toNat → (∀ i, i ≤ j → m.Open d (pageAt addr i)) →
        change (m.pte d (pageAt addr j)) = m.pte d (pageAt addr j) := by
  by_cases short : len.toInt < 1
  · rw [atomic_of_result (protect_short short)]
    exact iff_of_true (fun _ _ => rfl) (.inl short)
  · have long : 1 ≤ len.toInt := by omega
    cases at_addr : m.slot d addr with
    | none =>
      -- the call does not return
      have error : protectFlush change d addr len ⟨m, m⟩ = .error .nullPointer := by
        have lifted : onMem (protect change d addr len) ⟨m, m⟩ = .error .nullPointer := by
          rw [onMem, protect_null long at_addr]
        exact Prog.bind_error lifted _
      refine iff_of_true (fun r t eq => ?_) (.inr (.inr fun j _ all => ?_))
      · rw [error] at eq
        cases eq
      · have here := all 0 (Nat.zero_le j)
        rw [pageAt_zero] at here
        obtain ⟨f, i, at_addr'⟩ := slot_of_user here
        cases at_addr.symm.trans at_addr'
    | some x =>
      have is_some : (m.slot d addr).isSome := by rw [at_addr]; rfl
      obtain ⟨r, m', result, all_iff, marked⟩ := protect_marks only long is_some
      have alike := marked.alike only
      have below : ∀ j, j < stretch (m.opens d addr) len.toNat 0 ↔ j < len.toNat ∧
          ∀ i, i ≤ j → m.Open d (pageAt addr i) := by
        intro j
        have iff : j < 0 + stretch (m.opens d addr) len.toNat 0 ↔ j < 0 + len.toNat ∧
            ∀ i, 0 ≤ i → i ≤ j → m.opens d addr i = true := lt_stretch_iff (Nat.zero_le j)
        rw [Nat.zero_add, Nat.zero_add] at iff
        rw [iff]
        exact and_congr Iff.rfl ⟨fun all i le => of_decide_eq_true (all i (Nat.zero_le i) le),
          fun all i _ le => decide_eq_true (all i le)⟩
      rw [atomic_of_result result]
      constructor
      · intro kept
        cases r with
        | true => exact .inr (.inl (all_iff.mp rfl))
        | false =>
          refine .inr (.inr fun j lt all => ?_)
          rw [← marked.pte_inside alike ((below j).mpr ⟨lt, all⟩) (all j le_rfl)]
          exact kept rfl _
      · rintro (short' | all | fixed) failed va
        · exact absurd short' short
        · rw [all_iff.mpr all] at failed
          cases failed
        · refine marked.pte_fixed alike (fun j lt => ?_) va
          obtain ⟨inside, all⟩ := (below j).mp lt
          exact fixed j inside all

/-- `mprotect` and `munprotect` are atomic just if they have nothing to change before the first page
that the user has no access to. -/
theorem protect_atomic_iff (m : Mem) (d : Frame) (addr len : Addr) :
    (Atomic (protectFlush closed d addr len) d m ↔
      len.toInt < 1 ∨ m.AllOpen d addr len ∨
        ∀ j, j < len.toNat → (∀ i, i ≤ j → m.Open d (pageAt addr i)) →
          ¬ Has pteW (m.pte d (pageAt addr j))) ∧
    (Atomic (protectFlush opened d addr len) d m ↔
      len.toInt < 1 ∨ m.AllOpen d addr len ∨
        ∀ j, j < len.toNat → (∀ i, i ≤ j → m.Open d (pageAt addr i)) →
          Has pteW (m.pte d (pageAt addr j))) := by
  rw [atomic_iff closed_only, atomic_iff opened_only]
  simp only [closed_eq_self, opened_eq_self, and_self]

/-! ## What a call changes -/

/-- The page at `va` is one of the `len` pages from the page of `addr` on. -/
def InRange (addr len va : Addr) : Prop := ∃ j, j < len.toNat ∧ vpn va = vpn (pageAt addr j)

/-- A page table: each page-table page is at one place in the directory, and not the directory. -/
structure Mem.Tree (m : Mem) (d : Frame) : Prop where
  once : ∀ i j, i < 1024 → j < 1024 → Has pteP ((m.page d).word i) → Has pteP ((m.page d).word j) →
    pteFrame ((m.page d).word i) = pteFrame ((m.page d).word j) → i = j
  dir : ∀ i, i < 1024 → Has pteP ((m.page d).word i) → pteFrame ((m.page d).word i) ≠ d

def SameTable (d : Frame) (m m' : Mem) : Prop :=
  (∀ i, i < 1024 → (m'.page d).word i = (m.page d).word i) ∧ ∀ va, m'.pte d va = m.pte d va

theorem slot_of_vpn {va' : Addr} (same : vpn va = vpn va') : m.slot d va = m.slot d va' := by
  have table : (pdx va).toNat = (pdx va').toNat := by
    rw [pdx_toNat, pdx_toNat]
    exact congrArg (· / 1024) same
  have entry : (ptx va).toNat = (ptx va').toNat := by
    rw [ptx_toNat, ptx_toNat]
    exact congrArg (· % 1024) same
  rw [Mem.slot, Mem.slot, table, entry]

theorem Mem.Tree.vpn_of_slot (tree : m.Tree d) {va' : Addr} {i : Nat}
    (at_va : m.slot d va = some (f, i)) (at_va' : m.slot d va' = some (f, i)) :
      vpn va = vpn va' := by
  obtain ⟨has, frame, entry⟩ := slot_eq at_va
  obtain ⟨has', frame', entry'⟩ := slot_eq at_va'
  have table := tree.once _ _ (pdx_lt va) (pdx_lt va') has has' (frame.trans frame'.symm)
  rw [pdx_toNat, pdx_toNat] at table
  have same := entry.symm.trans entry'
  rw [ptx_toNat, ptx_toNat] at same
  unfold vpn
  omega

theorem Mem.Tree.alike (tree : m.Tree d) (alike : Alike m m') : m'.Tree d := by
  have has : ∀ i, i < 1024 → (Has pteP ((m'.page d).word i) ↔ Has pteP ((m.page d).word i)) :=
    fun i lt => has_closed (by decide) (alike d i lt)
  have frame : ∀ i, i < 1024 → pteFrame ((m'.page d).word i) = pteFrame ((m.page d).word i) :=
    fun i lt => pteFrame_closed (alike d i lt)
  refine ⟨fun i j lt lt' at_i at_j same => ?_, fun i lt at_i => ?_⟩
  · rw [frame i lt, frame j lt'] at same
    exact tree.once i j lt lt' ((has i lt).mp at_i) ((has j lt').mp at_j) same
  · rw [frame i lt]
    exact tree.dir i lt ((has i lt).mp at_i)

/-- The entries of a range are changed, and nothing else in the page table. -/
structure Exact (change : Addr → Addr) (d : Frame) (addr len : Addr) (m m' : Mem) : Prop where
  dir : ∀ i, i < 1024 → (m'.page d).word i = (m.page d).word i
  inside : ∀ va, InRange addr len va → m'.pte d va = change (m.pte d va)
  outside : ∀ va, ¬ InRange addr len va → m'.pte d va = m.pte d va

theorem Marked.exact (only : OnlyW change) (tree : m.Tree d) (all : m.AllOpen d addr len)
    (marked : Marked change d addr 0 len.toNat m m m') : Exact change d addr len m m' := by
  have alike := marked.alike only
  refine ⟨fun i lt => ?_, fun va => ?_, fun va out => ?_⟩
  · refine (marked d i lt _ rfl).2 fun j _ _ at_j => ?_
    obtain ⟨has, frame, -⟩ := slot_eq at_j
    exact tree.dir _ (pdx_lt _) has frame
  · rintro ⟨j, lt, same⟩
    rw [pte_congr _ _ same, pte_congr _ _ same]
    exact marked.pte_inside alike lt (all j lt)
  · exact marked.pte_outside alike fun j f i lt at_j at_va =>
      out ⟨j, lt, tree.vpn_of_slot at_va at_j⟩

theorem protect_done (only : OnlyW change) (done : protect change d addr len m = .ok (true, m')) :
    1 ≤ len.toInt ∧ m.AllOpen d addr len ∧ Marked change d addr 0 len.toNat m m m' := by
  by_cases short : len.toInt < 1
  · rw [protect_short short] at done
    cases done
  · have long : 1 ≤ len.toInt := by omega
    cases at_addr : m.slot d addr with
    | none =>
      rw [protect_null long at_addr] at done
      cases done
    | some x =>
      obtain ⟨r, m1, result, all_iff, marked⟩ := protect_marks only long (by rw [at_addr]; rfl)
      rw [result] at done
      cases done
      have all := all_iff.mp rfl
      rw [stretch_all.mpr all] at marked
      exact ⟨long, all, marked⟩

theorem protect_open (only : OnlyW change) (tree : m.Tree d) (long : 1 ≤ len.toInt)
    (all : m.AllOpen d addr len) :
    ∃ m', protect change d addr len m = .ok (true, m') ∧ Exact change d addr len m m' := by
  have first := all 0 (by have := toInt_cases len; omega)
  rw [pageAt_zero] at first
  obtain ⟨r, m', result, all_iff, marked⟩ := protect_marks only long (isSome_of_user first)
  rw [stretch_all.mpr all] at marked
  rw [all_iff.mpr all] at result
  exact ⟨m', result, marked.exact only tree all⟩

theorem protect_again (only : OnlyW change) (tree : m.Tree d)
    (done : protect change d addr len m = .ok (true, m')) :
    ∃ m2, protect change d addr len m' = .ok (true, m2) ∧ SameTable d m' m2 := by
  obtain ⟨long, all, marked⟩ := protect_done only done
  have alike := marked.alike only
  have exact1 := marked.exact only tree all
  have all' : m'.AllOpen d addr len := fun i lt => (alike.user d _).mpr (all i lt)
  obtain ⟨m2, again, exact2⟩ := protect_open only (tree.alike alike) long all'
  refine ⟨m2, again, exact2.dir, fun va => ?_⟩
  by_cases range : InRange addr len va
  · rw [exact2.inside va range, exact1.inside va range, only.again]
  · exact exact2.outside va range

/-- **The effect of `mprotect`.**  When it returns 0 it has cleared `PTE_W` in the entries of its
pages, and changed nothing else; `munprotect` of the same pages then returns 0, and restores the
page table if the pages were writable.  Both calls are idempotent. -/
theorem protect_exact (m : Mem) (d : Frame) (tree : m.Tree d) (addr len : Addr) :
    (∀ m1, mprotect d addr len m = .ok (true, m1) →
      (∀ va, InRange addr len va → m1.pte d va = closed (m.pte d va) ∧ ¬ Has pteW (m1.pte d va)) ∧
      (∀ va, ¬ InRange addr len va → m1.pte d va = m.pte d va) ∧
      (∀ i, i < 1024 → (m1.page d).word i = (m.page d).word i) ∧
      (∀ va, pteFrame (m1.pte d va) = pteFrame (m.pte d va) ∧
        (Has pteP (m1.pte d va) ↔ Has pteP (m.pte d va)) ∧
        (Has pteU (m1.pte d va) ↔ Has pteU (m.pte d va))) ∧
      (∃ m2, munprotect d addr len m1 = .ok (true, m2) ∧
        ((∀ j, j < len.toNat → Has pteW (m.pte d (pageAt addr j))) → SameTable d m m2)) ∧
      ∃ m2, mprotect d addr len m1 = .ok (true, m2) ∧ SameTable d m1 m2) ∧
    ∀ m1, munprotect d addr len m = .ok (true, m1) →
      ∃ m2, munprotect d addr len m1 = .ok (true, m2) ∧ SameTable d m1 m2 := by
  refine ⟨fun m1 done => ?_, fun m1 done => protect_again opened_only tree done⟩
  obtain ⟨long, all, marked⟩ := protect_done closed_only done
  have alike := marked.alike closed_only
  have exact1 := marked.exact closed_only tree all
  have all' : m1.AllOpen d addr len := fun i lt => (alike.user d _).mpr (all i lt)
  obtain ⟨m2, reopened, exact2⟩ := protect_open opened_only (tree.alike alike) long all'
  refine ⟨fun va range => ⟨exact1.inside va range, ?_⟩, exact1.outside, exact1.dir, fun va => ?_,
    ⟨m2, reopened, fun writable => ⟨fun i lt => ?_, fun va => ?_⟩⟩,
    protect_again closed_only tree done⟩
  · rw [exact1.inside va range]
    exact not_has_and_not _ _
  · have same := alike.pte d va
    exact ⟨pteFrame_closed same, has_closed (by decide) same, has_closed (by decide) same⟩
  · exact (exact2.dir i lt).trans (exact1.dir i lt)
  · by_cases range : InRange addr len va
    · rw [exact2.inside va range, exact1.inside va range]
      obtain ⟨j, lt, same⟩ := range
      rw [pte_congr _ _ same]
      exact opened_closed (writable j lt)
    · exact (exact2.outside va range).trans (exact1.outside va range)

/-! ## A process with its arguments on the stack -/

variable {L : Layout} {s : System} {g : Ghost} {i : Fin nproc}

theorem Sound.tree (sound : Sound L s g) (at_i : s.proc i = some p) : s.mem.Tree p.pgdir := by
  obtain ⟨sp, at_p, -⟩ := (sound.alive i p at_i).space
  have ok := sound.inv.space _ sp at_p
  have table : ∀ i, i < 1024 → Has pteP ((s.mem.page p.pgdir).word i) →
      g.own (pteFrame ((s.mem.page p.pgdir).word i)) = .table p.pgdir i := by
    intro i lt has
    cases tab : sp.tab i with
    | none => exact absurd has (ok.absent i lt tab)
    | some f =>
      rw [ok.present i f lt tab, pteFrame_pdeOf]
      exact (ok.table i f).mpr ⟨lt, tab⟩
  refine ⟨fun i j lt lt' has has' same => ?_, fun i lt has same => ?_⟩
  · have first := table i lt has
    rw [same, table j lt' has'] at first
    injection first with _ eq
    exact eq.symm
  · have first := table i lt has
    rw [same, ok.dir] at first
    cases first

/-- A process whose stack page is at `buf`, with two arguments at its bottom: an address and a
number of pages. -/
theorem stack_args (k : Addr → Addr) (len : Addr) :
    ∃ s p buf, (processes kernelLayout []).Reachable s ∧
    s.proc 0 = some p ∧ p.life = .loaded ∧ p.sz.toNat < 2 ^ 31 ∧ 8192 ≤ buf.toNat ∧
    buf.toNat % 4096 = 0 ∧ buf.toNat + 4096 = p.sz.toNat ∧ p.ro = (fun _ => false) ∧
    s.mem.Open p.pgdir buf ∧ Args s.mem p (buf - 4) (k buf) len := by
  obtain ⟨s0, p, img, reach0, at_0, size, -⟩ := loaded_exists
  have access := load_access (p := p) size
  have total : img.sz.toNat = 0x5000 := by rw [size]; rfl
  have limit : img.sz.toNat < 2 ^ 31 := by omega
  have at_buf : (0x4000 : Addr).toNat = 0x4000 := rfl
  generalize (0x4000 : Addr) = buf at access at_buf
  have next : ∀ x : Addr, x.toNat < 8 → (buf + x).toNat = buf.toNat + x.toNat := by
    intro x small
    rw [BitVec.toNat_add]
    omega
  have four : (buf + 4).toNat = buf.toNat + 4 := next 4 (by decide)
  obtain ⟨s1, reach1, same1, word1, -⟩ := storeWord_steps reach0 at_0 rfl buf (by omega)
    (show buf.toNat + 4 ≤ img.sz.toNat by omega) limit (fun _ => rfl) (k buf)
  have at_1 := same1 ▸ at_0
  obtain ⟨s2, reach2, same2, word2, kept⟩ := storeWord_steps reach1 at_1 rfl (buf + 4) (by omega)
    (show (buf + 4).toNat + 4 ≤ img.sz.toNat by omega) limit (fun _ => rfl) len
  have at_2 := same2 ▸ at_1
  have word1' : s2.mem.userWord (p.load img).pgdir buf = k buf := by
    have byte : ∀ x : Addr, x.toNat < 4 → s2.mem.userByte (p.load img).pgdir (buf + x) =
        s1.mem.userByte (p.load img).pgdir (buf + x) := by
      intro x small
      have := next x (by omega)
      exact kept _ (by omega) (show (buf + x).toNat < img.sz.toNat by omega) (by omega)
    have zero : buf + 0 = buf := by simp
    have first := byte 0 (by decide)
    rw [zero] at first
    rw [← word1, Mem.userWord, Mem.userWord, first, byte 1 (by decide), byte 2 (by decide),
      byte 3 (by decide)]
  obtain ⟨g, sound⟩ := reachable_sound reach2
  have backing := sound.backing at_2 (by rintro ⟨⟩)
  have fetch : ∀ a w : Addr, 4096 ≤ a.toNat → a.toNat + 4 ≤ img.sz.toNat →
      s2.mem.userWord (p.load img).pgdir a = w →
      fetchint (p.load img) a s2.mem = .ok (some w, s2.mem) := by
    intro a w low inside word
    have ends : Ends (fetchint (p.load img) a) s2.mem fun r m' => r = some w ∧ m' = s2.mem := by
      rw [ends_fetchint backing, word]
      refine .inr ⟨?_, ⟨rfl, low⟩, rfl, rfl⟩
      rw [rejectsInt_iff backing.limit]
      change ¬ (img.sz.toNat < _)
      omega
    obtain ⟨_, _, result, rfl, rfl⟩ := ends.exists
    exact result
  refine ⟨s2, _, buf, reach2, at_2, rfl, limit, by omega, by omega, ?_, rfl,
    (sound.user at_2 rfl buf).mpr access, ?_, ?_⟩
  · change _ = img.sz.toNat
    omega
  · have arg : argAddr (buf - 4) 0 = buf := by
      have zero : (4 : Addr) * 0 = 0 := by decide
      rw [argAddr, zero, BitVec.sub_add_cancel]
      simp
    rw [argint, arg]
    exact fetch buf _ (by omega) (by omega) word1'
  · have arg : argAddr (buf - 4) 1 = buf + 4 := by
      have one : (4 : Addr) * 1 = 4 := by decide
      rw [argAddr, one, BitVec.sub_add_cancel]
    rw [argint, arg]
    exact fetch (buf + 4) _ (by omega) (by omega) word2

theorem allOpen_one (user : m.Open d addr) : m.AllOpen d addr 1 := by
  intro i lt
  have zero : i = 0 := by
    change i < 1 at lt
    omega
  rw [zero, pageAt_zero]
  exact user

/-- The address of the second byte of the stack page: `mprotect` closes the page. -/
theorem mprotect_unaligned : ∃ s p esp addr m', (processes kernelLayout []).Reachable s ∧
    s.proc 0 = some p ∧ p.life = .loaded ∧ Args s.mem p esp addr 1 ∧ addr.toNat % 4096 = 1 ∧
    sysMprotect p esp s.mem = .ok (true, m') := by
  obtain ⟨s, p, buf, reach, at_0, loaded, limit, low, aligned, top, -, user, args⟩ :=
    stack_args (· + 1) 1
  have sum : (buf + 1).toNat = buf.toNat + 1 := by
    rw [BitVec.toNat_add]
    change (buf.toNat + 1) % 2 ^ 32 = _
    omega
  have same : vpn (buf + 1) = vpn buf := by
    unfold vpn
    omega
  have user : s.mem.Open p.pgdir (buf + 1) := by rwa [Mem.Open, pte_congr _ _ same]
  have one : 1 ≤ (1 : Addr).toInt := by decide
  obtain ⟨r, m', result, all_iff, -⟩ := protect_marks closed_only one (isSome_of_user user)
  rw [all_iff.mpr (allOpen_one user)] at result
  have accepted : blockOk p.sz (buf + 1) 1 = true := by
    rw [blockOk_iff limit]
    change _ ∧ _ ∧ 1 < _ ∧ _ + 1 ≤ _
    omega
  refine ⟨s, p, buf - 4, buf + 1, m', reach, at_0, loaded, args, by omega, ?_⟩
  rw [sysMprotect, args.call, sysProtect, if_pos accepted]
  exact result

theorem protect_accepts_iff_stack : ∃ s p esp addr, (processes kernelLayout []).Reachable s ∧
    s.proc 0 = some p ∧ Args s.mem p esp addr 1 ∧ s.mem.Requested p.pgdir addr 1 ∧
    Accepts (sysMprotect p esp) s.mem (s.mem.Requested p.pgdir addr 1) := by
  obtain ⟨s, p, buf, reach, at_0, loaded, limit, low, aligned, top, -, user, args⟩ :=
    stack_args id 1
  have args : Args s.mem p (buf - 4) buf 1 := args
  have accepted : blockOk p.sz buf 1 = true := by
    rw [blockOk_iff limit]
    change _ ∧ _ ∧ 1 < _ ∧ _ + 1 ≤ _
    omega
  have requested : s.mem.Requested p.pgdir buf 1 := by
    refine ⟨by decide, aligned, fun i lt => ⟨?_, allOpen_one user i lt⟩⟩
    change i < 1 at lt
    omega
  refine ⟨s, p, buf - 4, buf, reach, at_0, args, requested, (protect_accepts_iff args).1.mpr
    ⟨fun _ => accepted, fun _ _ => isSome_of_user user, fun _ _ _ => ⟨aligned, ?_⟩⟩⟩
  change buf.toNat + 4096 * (1 - 1) < 2 ^ 31
  omega

/-- The stack page and the page after it, which is not there: `mprotect` returns `-1`, with the
stack page closed, and the TLB may still hold its entry as it was. -/
theorem mprotect_torn : ∃ s p addr t, (processes kernelLayout []).Reachable s ∧
    s.proc 0 = some p ∧ p.life = .loaded ∧
    protectFlush closed p.pgdir addr 2 ⟨s.mem, s.mem⟩ = .ok (false, t) ∧
    Has pteW (s.mem.pte p.pgdir addr) ∧ ¬ Has pteW (t.mem.pte p.pgdir addr) ∧
    Has pteW (t.seen.pte p.pgdir addr) := by
  obtain ⟨s, p, buf, reach, at_0, loaded, limit, low, aligned, top, ro, user, -⟩ := stack_args id 1
  obtain ⟨g, sound⟩ := reachable_sound reach
  have two : 1 ≤ (2 : Addr).toInt := by decide
  obtain ⟨r, m', result, all_iff, marked⟩ := protect_marks closed_only two (isSome_of_user user)
  -- the page after the stack page is beyond the size of the process
  have shut : ¬ s.mem.AllOpen p.pgdir buf 2 := by
    intro all
    have second := all 1 (by decide)
    rw [sound.user at_0 loaded, Proc.accessible_iff, lt_pages] at second
    have sum : (pageAt buf 1).toNat = buf.toNat + 4096 := by
      rw [pageAt, BitVec.toNat_add]
      change (buf.toNat + 4096) % 2 ^ 32 = _
      omega
    unfold vpn at second
    omega
  have failed : r = false := Bool.eq_false_iff.mpr (mt all_iff.mp shut)
  rw [failed] at result
  have writable : Has pteW (s.mem.pte p.pgdir buf) :=
    (sound.writable at_0 loaded (by omega) (by omega)).2.mpr (by rw [ro])
  have first : 0 < stretch (s.mem.opens p.pgdir buf) 2 0 := by
    have opens : s.mem.opens p.pgdir buf 0 = true := by
      rw [Mem.opens, pageAt_zero]
      exact decide_eq_true user
    rw [stretch, if_pos opens]
    omega
  have changed := marked.pte_inside (marked.alike closed_only) first (by rwa [pageAt_zero])
  rw [pageAt_zero] at changed
  refine ⟨s, p, buf, _, reach, at_0, loaded, protectFlush_eq result, writable, ?_, writable⟩
  change ¬ Has pteW (m'.pte p.pgdir buf)
  rw [changed]
  exact not_has_and_not _ _

theorem protect_exact_stack : ∃ s p addr m1 m2, (processes kernelLayout []).Reachable s ∧
    s.proc 0 = some p ∧ mprotect p.pgdir addr 1 s.mem = .ok (true, m1) ∧
    ¬ Has pteW (m1.pte p.pgdir addr) ∧ munprotect p.pgdir addr 1 m1 = .ok (true, m2) ∧
    SameTable p.pgdir s.mem m2 := by
  obtain ⟨s, p, buf, reach, at_0, loaded, limit, low, aligned, top, ro, user, -⟩ := stack_args id 1
  obtain ⟨g, sound⟩ := reachable_sound reach
  have tree := sound.tree at_0
  obtain ⟨m1, done, -⟩ := protect_open closed_only tree (by decide) (allOpen_one user)
  obtain ⟨inside, -, -, -, ⟨m2, reopened, same⟩, -⟩ :=
    (protect_exact s.mem p.pgdir tree buf 1).1 m1 done
  refine ⟨s, p, buf, m1, m2, reach, at_0, done, (inside buf ⟨0, by decide, ?_⟩).2, reopened,
    same fun j lt => ?_⟩
  · rw [pageAt_zero]
  · have none : j = 0 := by
      change j < 1 at lt
      omega
    rw [none, pageAt_zero]
    exact (sound.writable at_0 loaded (by omega) (by omega)).2.mpr (by rw [ro])

end Xv6.Vm
