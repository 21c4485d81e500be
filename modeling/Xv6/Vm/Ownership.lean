import Xv6.Vm.Paging

/-!
# Who owns a frame

The two-level tables in memory, seen as flat maps from virtual pages to entries.

* `Role` is what a frame is used for.  Giving every frame one role states at once that frames
  are not shared: two page tables, or a page table and the free list, never have one in common.
* `Space` is the flat map of one page directory, and `SpaceOk` says that memory holds it.
* `Inv` holds between any two primitive steps of the kernel.  The lemmas of this module are
  those steps: a frame is taken from the free list or given back, becomes a directory or a
  page table, and an entry is set or cleared.
-/

namespace Xv6.Vm

open Function

/-- What a frame is used for.  `kernel` frames do not belong to the allocator; `held` frames
are allocated, but in no page table; page-table pages and user pages belong to the directory
`d`, at directory index `i` or at virtual page `v`. -/
inductive Role
  | kernel
  | free
  | held
  | dir
  | table (d : Frame) (i : Nat)
  | user (d : Frame) (v : Nat)
  deriving DecidableEq

def Role.In (d : Frame) : Role → Prop
  | .table e _ | .user e _ => e = d
  | _ => False

def Role.Data (d : Frame) : Role → Prop
  | .held => True
  | .user e _ => e = d
  | _ => False

variable {d : Frame}

theorem Role.Data.not_in {e : Frame} {r : Role} (data : r.Data d) (ne : e ≠ d) : ¬ r.In e := by
  cases r with
  | user a _ => exact fun h : a = e => ne (h.symm.trans data)
  | held => exact id
  | _ => exact data.elim

/-- A flat page table: the page-table page of each directory index, and the entry of each
virtual page.  Where there is no page-table page the entry is zero. -/
structure Space where
  tab : Nat → Option Frame
  pte : Nat → Addr

structure Ghost where
  own : Frame → Role
  space : Frame → Option Space

def Ghost.setOwn (g : Ghost) (f : Frame) (r : Role) : Ghost :=
  { g with own := update g.own f r }

def Ghost.setSpace (g : Ghost) (d : Frame) (sp : Option Space) : Ghost :=
  { g with space := update g.space d sp }

@[simp] theorem Ghost.setOwn_self (g : Ghost) (f : Frame) (r : Role) :
    (g.setOwn f r).own f = r := by
  simp [Ghost.setOwn]

variable {f : Frame}

theorem Ghost.setOwn_ne (g : Ghost) {x : Frame} (ne : x ≠ f) (r : Role) :
    (g.setOwn f r).own x = g.own x := by
  simp [Ghost.setOwn, update_of_ne ne]

@[simp] theorem Ghost.setOwn_space (g : Ghost) (f : Frame) (r : Role) :
    (g.setOwn f r).space = g.space := rfl

@[simp] theorem Ghost.setSpace_own (g : Ghost) (d : Frame) (sp : Option Space) :
    (g.setSpace d sp).own = g.own := rfl

@[simp] theorem Ghost.setSpace_self (g : Ghost) (d : Frame) (sp : Option Space) :
    (g.setSpace d sp).space d = sp := by
  simp [Ghost.setSpace]

theorem Ghost.setSpace_ne (g : Ghost) {e : Frame} (ne : e ≠ d) (sp : Option Space) :
    (g.setSpace d sp).space e = g.space e := by
  simp [Ghost.setSpace, update_of_ne ne]

def pdeOf (f : Frame) : Addr := frameAddr f ||| pteP ||| pteW ||| pteU

theorem pdeOf_present (f : Frame) : Has pteP (pdeOf f) := by
  rw [pdeOf, has_or, has_or]
  exact .inl (.inl (has_present _))

@[simp] theorem pteFrame_pdeOf (f : Frame) : pteFrame (pdeOf f) = f := by
  have zero : pteFrame pteP = 0 ∧ pteFrame pteW = 0 ∧ pteFrame pteU = 0 := by decide
  simp [pdeOf, pteFrame_or, zero]

structure SpaceOk (m : Mem) (own : Frame → Role) (d : Frame) (sp : Space) : Prop where
  dir : own d = .dir
  absent : ∀ i, i < 1024 → sp.tab i = none → ¬ Has pteP ((m.page d).word i)
  present : ∀ i f, i < 1024 → sp.tab i = some f → (m.page d).word i = pdeOf f
  table : ∀ i f, own f = .table d i ↔ i < 1024 ∧ sp.tab i = some f
  entry : ∀ v f, v < 2 ^ 20 → sp.tab (v / 1024) = some f → (m.page f).word (v % 1024) = sp.pte v
  zero : ∀ v, v < 2 ^ 20 → sp.tab (v / 1024) = none → sp.pte v = 0
  user : ∀ v f, own f = .user d v ↔ v < 2 ^ 19 ∧ Has pteP (sp.pte v) ∧ pteFrame (sp.pte v) = f

def Allocatable (L : Layout) (f : Frame) : Prop :=
  ¬ (frameAddr f + kernBase < L.kend ∨ frameAddr f ≥ physTop)

/-- Every frame has its place: on the free list, held by the kernel, or in a live address
space. -/
structure Books (L : Layout) (free : List Frame) (g : Ghost) : Prop where
  nodup : free.Nodup
  free_iff : ∀ f, f ∈ free ↔ g.own f = .free
  managed : ∀ f, g.own f ≠ .kernel → Allocatable L f
  live : ∀ f d, (g.own f).In d → ∃ sp, g.space d = some sp
  dirs : ∀ f, g.own f = .dir → ∃ sp, g.space f = some sp

structure Inv (L : Layout) (m : Mem) (g : Ghost) : Prop where
  books : Books L m.free g
  space : ∀ d sp, g.space d = some sp → SpaceOk m g.own d sp

theorem Books.setOwn {L : Layout} {free free' : List Frame} {g g' : Ghost} (books : Books L free g)
    {r : Role} (own : g'.own = update g.own f r) (nodup : free'.Nodup)
    (here : f ∈ free' ↔ r = .free) (others : ∀ x, x ≠ f → (x ∈ free' ↔ x ∈ free))
    (alloc : Allocatable L f) (live : ∀ d, r.In d → ∃ sp, g'.space d = some sp)
    (dir : r = .dir → ∃ sp, g'.space f = some sp)
    (spaces : ∀ d sp, g.space d = some sp → ∃ sp', g'.space d = some sp') : Books L free' g' := by
  have role : ∀ x, x = f ∧ g'.own x = r ∨ x ≠ f ∧ g'.own x = g.own x := by
    intro x
    by_cases eq : x = f
    · exact .inl ⟨eq, by rw [own, eq, update_self]⟩
    · exact .inr ⟨eq, by rw [own, update_of_ne eq]⟩
  refine ⟨nodup, fun x => ?_, fun x => ?_, fun x d => ?_, fun x => ?_⟩ <;>
    rcases role x with ⟨eq, role⟩ | ⟨ne, role⟩ <;> rw [role]
  · rw [eq]
    exact here
  · rw [others x ne]
    exact books.free_iff x
  · rw [eq]
    exact fun _ => alloc
  · exact books.managed x
  · exact live d
  · intro inside
    obtain ⟨sp, at_d⟩ := books.live x d inside
    exact spaces d sp at_d
  · rw [eq]
    exact dir
  · intro dir
    obtain ⟨sp, at_x⟩ := books.dirs x dir
    exact spaces x sp at_x

theorem Books.setSpace {L : Layout} {free : List Frame} {g : Ghost} (books : Books L free g)
    (d : Frame) (sp : Space) : Books L free (g.setSpace d (some sp)) := by
  have spaces : ∀ e sp',
      g.space e = some sp' → ∃ sp'', (g.setSpace d (some sp)).space e = some sp'' := by
    intro e sp' at_e
    by_cases eq : e = d
    · exact ⟨sp, by simp only [Ghost.setSpace, eq, update_self]⟩
    · exact ⟨sp', by simp only [Ghost.setSpace, update_of_ne eq, at_e]⟩
  refine ⟨books.nodup, books.free_iff, books.managed, fun f e inside => ?_, fun f dir => ?_⟩
  · obtain ⟨sp', at_e⟩ := books.live f e inside
    exact spaces e sp' at_e
  · obtain ⟨sp', at_f⟩ := books.dirs f dir
    exact spaces f sp' at_f

/-! ## What an address space does not depend on -/

variable {sp : Space}

theorem SpaceOk.congr {m m' : Mem} {own own' : Frame → Role} (ok : SpaceOk m own d sp)
    (dir : own' d = .dir) (page : m'.page d = m.page d)
    (tables : ∀ f i, own f = .table d i → m'.page f = m.page f)
    (roles : ∀ f, own' f = own f ∨ ¬ (own f).In d ∧ ¬ (own' f).In d) : SpaceOk m' own' d sp where
  dir := dir
  absent i lt none := by
    rw [page]
    exact ok.absent i lt none
  present i f lt at_i := by
    rw [page]
    exact ok.present i f lt at_i
  table i f := by
    rcases roles f with same | ⟨before, after⟩
    · rw [same]
      exact ok.table i f
    · rw [← ok.table i f]
      exact ⟨fun h => (after (h ▸ rfl)).elim, fun h => (before (h ▸ rfl)).elim⟩
  entry v f lt at_v := by
    rw [tables f (v / 1024) ((ok.table _ f).mpr ⟨by omega, at_v⟩)]
    exact ok.entry v f lt at_v
  zero := ok.zero
  user v f := by
    rcases roles f with same | ⟨before, after⟩
    · rw [same]
      exact ok.user v f
    · rw [← ok.user v f]
      exact ⟨fun h => (after (h ▸ rfl)).elim, fun h => (before (h ▸ rfl)).elim⟩

section Steps

variable {L : Layout} {m : Mem} {g : Ghost}

def Loose (g : Ghost) (f : Frame) : Prop :=
  ∀ d sp, g.space d = some sp → f ≠ d ∧ ¬ (g.own f).In d

theorem Inv.loose_of_held (inv : Inv L m g) (held : g.own f = .held) : Loose g f := by
  refine fun d sp live => ⟨?_, by rw [held]; exact id⟩
  rintro rfl
  cases held.symm.trans (inv.space f sp live).dir

theorem Inv.loose_of_free (inv : Inv L m g) (free : g.own f = .free) : Loose g f := by
  refine fun d sp live => ⟨?_, by rw [free]; exact id⟩
  rintro rfl
  cases free.symm.trans (inv.space f sp live).dir

theorem SpaceOk.loose {m' : Mem} {r : Role}
    (ok : SpaceOk m g.own d sp) (loose : f ≠ d ∧ ¬ (g.own f).In d) (new : ¬ r.In d)
    (pages : ∀ x, x ≠ f → m'.page x = m.page x) :
    SpaceOk m' (update g.own f r) d sp := by
  refine ok.congr ?_ (pages d (Ne.symm loose.1)) (fun x i table => pages x ?_) fun x => ?_
  · rw [update_of_ne (Ne.symm loose.1)]
    exact ok.dir
  · rintro rfl
    rw [table] at loose
    exact loose.2 rfl
  · by_cases eq : x = f
    · subst eq
      rw [update_self]
      exact .inr ⟨loose.2, new⟩
    · exact .inl (update_of_ne eq _ _)

/-! ## The allocator -/

section Inv

variable (inv : Inv L m g)
include inv

theorem Inv.take {rest : List Frame} (free : m.free = f :: rest) :
    g.own f = .free ∧ Inv L { m with free := rest } (g.setOwn f .held) := by
  have own : g.own f = .free := (inv.books.free_iff f).mp (by rw [free]; exact List.mem_cons_self)
  have nodup := inv.books.nodup
  rw [free, List.nodup_cons] at nodup
  refine ⟨own, ?_, fun d sp live => ?_⟩
  · refine inv.books.setOwn rfl nodup.2 ?_ (fun x ne => ?_)
      (inv.books.managed f (by rw [own]; simp))
      (fun d h => h.elim) (fun h => by cases h) fun d sp at_d => ⟨sp, at_d⟩
    · exact ⟨fun member => absurd member nodup.1, fun h => by cases h⟩
    · rw [free, List.mem_cons]
      exact ⟨.inr, fun member => member.resolve_left ne⟩
  · exact (inv.space d sp live).loose (inv.loose_of_free own d sp live) id fun _ _ => rfl

theorem Inv.give (loose : Loose g f) (taken : g.own f ≠ .free) (managed : g.own f ≠ .kernel) :
    Inv L (m.freed f) (g.setOwn f .free) := by
  have fresh : f ∉ m.free := fun member => taken ((inv.books.free_iff f).mp member)
  refine ⟨?_, fun d sp live => ?_⟩
  · refine inv.books.setOwn rfl (List.nodup_cons.mpr ⟨fresh, inv.books.nodup⟩) ?_ (fun x ne => ?_)
      (inv.books.managed f managed) (fun d h => h.elim) (fun h => by cases h)
      fun d sp at_d => ⟨sp, at_d⟩
    · exact ⟨fun _ => rfl, fun _ => List.mem_cons_self⟩
    · rw [Mem.freed_free, List.mem_cons]
      exact ⟨fun member => member.resolve_left ne, .inr⟩
  · exact (inv.space d sp live).loose (loose d sp live) id fun x ne => m.freed_page ne

theorem Inv.freed_refreed (taken : g.own f ≠ .free) : (m.freed f).refreed = m.refreed :=
  Mem.freed_refreed fun member => taken ((inv.books.free_iff f).mp member)

/-- A page that is neither a directory nor a page-table page may hold anything. -/
theorem Inv.fill (p : Page)
    (data : ∀ d sp, g.space d = some sp → f ≠ d ∧ ∀ i, g.own f ≠ .table d i) :
    Inv L (m.setPage f p) g where
  books := inv.books
  space d sp live := by
    have ok := inv.space d sp live
    have other := data d sp live
    refine ok.congr ok.dir (update_of_ne (Ne.symm other.1) _ _) (fun x i table => ?_)
      fun _ => .inl rfl
    refine update_of_ne ?_ _ _
    rintro rfl
    exact other.2 i table

/-! ## Directories and page-table pages -/

def Space.empty : Space := ⟨fun _ => none, fun _ => 0⟩

theorem Inv.newSpace (held : g.own d = .held) (zero : ∀ i, (m.page d).word i = 0) :
    Inv L m ((g.setOwn d .dir).setSpace d (some .empty)) := by
  have new : g.space d = none := by
    cases at_d : g.space d with
    | none => rfl
    | some sp => cases held.symm.trans (inv.space d sp at_d).dir
  have unused : ∀ f, ¬ (g.own f).In d := by
    intro f inside
    obtain ⟨sp, at_d⟩ := inv.books.live f d inside
    cases new.symm.trans at_d
  have unused' : ∀ f, ¬ (update g.own d .dir f).In d := by
    intro f
    by_cases eq : f = d
    · rw [eq, update_self]
      exact id
    · rw [update_of_ne eq]
      exact unused f
  refine ⟨?_, fun e sp live => ?_⟩
  · refine inv.books.setOwn rfl inv.books.nodup ?_ (fun _ _ => Iff.rfl)
      (inv.books.managed d (by rw [held]; simp)) (fun _ h => h.elim) (fun _ => ⟨.empty, ?_⟩)
      fun e sp at_e => ?_
    · rw [inv.books.free_iff, held]
      simp
    · exact update_self _ _ _
    · refine ⟨sp, ?_⟩
      have ne : e ≠ d := by
        rintro rfl
        cases new.symm.trans at_e
      exact (update_of_ne ne _ _).trans at_e
  · simp only [Ghost.setSpace, Ghost.setOwn] at live ⊢
    by_cases eq : e = d
    · subst eq
      rw [update_self] at live
      cases live
      constructor
      case dir => exact update_self _ _ _
      case absent =>
        intro i _ _
        rw [zero]
        exact not_has_zero _
      case present => intro i f _ none; cases none
      case table => exact fun i f =>
        ⟨fun table => (unused' f (table ▸ rfl)).elim, fun h => by cases h.2⟩
      case entry => intro v f _ none; cases none
      case zero => exact fun _ _ _ => rfl
      case user =>
        exact fun v f => ⟨fun user => (unused' f (user ▸ rfl)).elim,
          fun h => absurd h.2.1 (not_has_zero _)⟩
    · rw [update_of_ne eq] at live
      exact (inv.space e sp live).loose (inv.loose_of_held held e sp live) id fun _ _ => rfl

def Space.addTable (sp : Space) (i : Nat) (f : Frame) : Space :=
  { sp with tab := update sp.tab i (some f) }

theorem Inv.addTable {i : Nat} (at_d : g.space d = some sp) (held : g.own f = .held) (lt : i < 1024)
    (absent : sp.tab i = none) (zero : ∀ j, (m.page f).word j = 0) :
    Inv L (m.setPage d ((m.page d).setWord i (pdeOf f)))
      ((g.setOwn f (.table d i)).setSpace d (some (sp.addTable i f))) := by
  have ok := inv.space d sp at_d
  have ne : f ≠ d := (inv.loose_of_held held d sp at_d).1
  have page : ∀ x, x ≠ d → (m.setPage d ((m.page d).setWord i (pdeOf f))).page x = m.page x :=
    fun x other => update_of_ne other _ _
  have word : ∀ j, ((m.setPage d ((m.page d).setWord i (pdeOf f))).page d).word j =
      if j = i then pdeOf f else (m.page d).word j := by
    intro j
    rw [← (m.page d).word_setWord lt (pdeOf f) j]
    simp only [Mem.setPage, update_self]
  refine ⟨?_, fun e sp' live => ?_⟩
  · refine inv.books.setOwn rfl inv.books.nodup ?_ (fun _ _ => Iff.rfl)
      (inv.books.managed f (by rw [held]; simp)) (fun e h => ?_) (fun h => by cases h)
      fun e sp' at_e => ?_
    · simp only [Mem.setPage, inv.books.free_iff, held]
      simp
    · obtain rfl : d = e := h
      exact ⟨_, update_self _ _ _⟩
    · by_cases eq : e = d
      · rw [eq]
        exact ⟨_, update_self _ _ _⟩
      · exact ⟨sp', (update_of_ne eq _ _).trans at_e⟩
  · simp only [Ghost.setSpace, Ghost.setOwn] at live ⊢
    by_cases eq : e = d
    · subst eq
      rw [update_self] at live
      cases live
      constructor
      case dir => rw [update_of_ne (Ne.symm ne), ok.dir]
      case absent =>
        intro j lt' none
        have other : j ≠ i := by
          rintro rfl
          simp [Space.addTable] at none
        rw [word, if_neg other]
        refine ok.absent j lt' ?_
        simpa [Space.addTable, update_of_ne other] using none
      case present =>
        intro j x lt' at_j
        rw [word]
        by_cases here : j = i
        · subst here
          simp only [Space.addTable, update_self, Option.some.injEq] at at_j
          rw [if_pos rfl, at_j]
        · simp only [Space.addTable, update_of_ne here] at at_j
          rw [if_neg here]
          exact ok.present j x lt' at_j
      case table =>
        intro j x
        have old := ok.table j x
        by_cases here : x = f <;> by_cases at_i : j = i
        · subst here at_i
          simp [Space.addTable, lt]
        · subst here
          simp only [update_self, Space.addTable, update_of_ne at_i, ← old, held]
          simp [Ne.symm at_i]
        · subst at_i
          simp only [update_of_ne here, Space.addTable, update_self, old, absent]
          simp [Ne.symm here]
        · simp only [update_of_ne here, Space.addTable, update_of_ne at_i, old]
      case entry =>
        intro v x lt' at_v
        by_cases here : v / 1024 = i
        · simp only [Space.addTable, here, update_self, Option.some.injEq] at at_v
          subst at_v
          rw [page f ne, zero, Space.addTable, ok.zero v lt' (by rw [here, absent])]
        · simp only [Space.addTable, update_of_ne here] at at_v
          have table := (ok.table (v / 1024) x).mpr ⟨by omega, at_v⟩
          have other : x ≠ e := by
            rintro rfl
            cases ok.dir.symm.trans table
          rw [page x other]
          exact ok.entry v x lt' at_v
      case zero =>
        intro v lt' none
        have other : v / 1024 ≠ i := by
          intro here
          simp [Space.addTable, here] at none
        simp only [Space.addTable, update_of_ne other] at none
        exact ok.zero v lt' none
      case user =>
        intro v x
        by_cases here : x = f
        · subst here
          rw [update_self, Space.addTable, ← ok.user v x, held]
          simp
        · rw [update_of_ne here]
          exact ok.user v x
    · rw [update_of_ne eq] at live
      have other := inv.space e sp' live
      refine other.congr ?_ (page e eq) (fun x j table => page x ?_) fun x => ?_
      · rw [update_of_ne (Ne.symm (inv.loose_of_held held e sp' live).1), other.dir]
      · rintro rfl
        cases ok.dir.symm.trans table
      · by_cases here : x = f
        · subst here
          rw [update_self, held]
          exact .inr ⟨id, fun h : d = e => eq h.symm⟩
        · exact .inl (update_of_ne here _ _)

end Inv

/-! ## Entries -/

def Space.setPte (sp : Space) (v : Nat) (x : Addr) : Space :=
  { sp with pte := update sp.pte v x }

@[simp] theorem Space.setPte_self (sp : Space) (v : Nat) (x : Addr) : (sp.setPte v x).pte v = x :=
  update_self _ _ _

variable {v : Nat}

theorem Space.setPte_ne (sp : Space) {u : Nat} (ne : u ≠ v) (x : Addr) :
    (sp.setPte v x).pte u = sp.pte u :=
  update_of_ne ne _ _

/-- An entry of a page-table page of `d` is set.  The roles may change as long as the new ones
say which user pages there are. -/
theorem Inv.setPte (inv : Inv L m g) {x : Addr}
    {own : Frame → Role} (at_d : g.space d = some sp) (lt : v < 2 ^ 20)
    (tab : sp.tab (v / 1024) = some f)
    (books : Books L m.free ⟨own, update g.space d (some (sp.setPte v x))⟩)
    (roles : ∀ y, own y = g.own y ∨ (g.own y).Data d ∧ (own y).Data d)
    (user : ∀ u y, own y = .user d u ↔
      u < 2 ^ 19 ∧ Has pteP ((sp.setPte v x).pte u) ∧ pteFrame ((sp.setPte v x).pte u) = y) :
    Inv L (m.setPage f ((m.page f).setWord (v % 1024) x))
      ⟨own, update g.space d (some (sp.setPte v x))⟩ := by
  have ok := inv.space d sp at_d
  have table : g.own f = .table d (v / 1024) := (ok.table _ f).mpr ⟨by omega, tab⟩
  have page : ∀ y, y ≠ f → (m.setPage f ((m.page f).setWord (v % 1024) x)).page y = m.page y :=
    fun y other => update_of_ne other _ _
  have dir_ne : ∀ y, g.own y = .dir → y ≠ f := by
    rintro y dir rfl
    cases dir.symm.trans table
  refine ⟨books, fun e sp' live => ?_⟩
  by_cases eq : e = d
  · subst eq
    simp only [update_self, Option.some.injEq] at live
    subst live
    have same_page := page e (dir_ne e ok.dir)
    constructor
    case dir =>
      rcases roles e with same | ⟨before, _⟩
      · exact same.trans ok.dir
      · rw [ok.dir] at before
        exact before.elim
    case absent =>
      rw [same_page]
      exact ok.absent
    case present =>
      rw [same_page]
      exact ok.present
    case table =>
      intro i y
      change own y = .table e i ↔ i < 1024 ∧ sp.tab i = some y
      rw [← ok.table i y]
      rcases roles y with same | ⟨before, after⟩
      · rw [same]
      · exact ⟨fun h => (h ▸ after : (Role.table e i).Data e).elim,
          fun h => (h ▸ before : (Role.table e i).Data e).elim⟩
    case entry =>
      intro u y lt' at_u
      change sp.tab (u / 1024) = some y at at_u
      by_cases here : u = v
      · subst here
        cases tab.symm.trans at_u
        simp only [Mem.setPage, update_self, Space.setPte]
        rw [(m.page f).word_setWord (by omega), if_pos rfl]
      · simp only [Space.setPte, update_of_ne here]
        rw [← ok.entry u y lt' at_u]
        by_cases same : y = f
        · subst same
          have index : u / 1024 = v / 1024 := by
            have other := (ok.table (u / 1024) y).mpr ⟨by omega, at_u⟩
            injection table.symm.trans other with _ eq
            exact eq.symm
          simp only [Mem.setPage, update_self]
          rw [(m.page y).word_setWord (by omega), if_neg (by omega)]
        · rw [page y same]
    case zero =>
      intro u lt' no_table
      change sp.tab (u / 1024) = none at no_table
      have other : u ≠ v := by
        rintro rfl
        cases tab.symm.trans no_table
      simp only [Space.setPte, update_of_ne other]
      exact ok.zero u lt' no_table
    case user => exact user
  · simp only [update_of_ne eq] at live
    have other := inv.space e sp' live
    refine other.congr ?_ (page e (dir_ne e other.dir)) (fun y i at_y => page y ?_) fun y => ?_
    · rcases roles e with same | ⟨before, _⟩
      · exact same.trans other.dir
      · rw [other.dir] at before
        exact before.elim
    · rintro rfl
      injection table.symm.trans at_y with h
      exact eq h.symm
    · rcases roles y with same | ⟨before, after⟩
      · exact .inl same
      · exact .inr ⟨before.not_in eq, after.not_in eq⟩

theorem Ghost.setSpace_live (e : Frame) (sp' : Space) (live : g.space e = some sp') :
    ∃ sp'', update g.space d (some sp) e = some sp'' := by
  by_cases eq : e = d
  · exact ⟨sp, by rw [eq, update_self]⟩
  · exact ⟨sp', by rw [update_of_ne eq, live]⟩

theorem Inv.mapUser (inv : Inv L m g) {y : Frame} {x : Addr} (at_d : g.space d = some sp)
    (lt : v < 2 ^ 19) (tab : sp.tab (v / 1024) = some f) (absent : ¬ Has pteP (sp.pte v))
    (held : g.own y = .held) (present : Has pteP x) (frame : pteFrame x = y) :
    Inv L (m.setPage f ((m.page f).setWord (v % 1024) x))
      ((g.setOwn y (.user d v)).setSpace d (some (sp.setPte v x))) := by
  have ok := inv.space d sp at_d
  refine inv.setPte at_d (by omega) tab ?_ (fun z => ?_) fun u z => ?_
  · refine inv.books.setOwn rfl inv.books.nodup ?_ (fun _ _ => Iff.rfl)
      (inv.books.managed y (by rw [held]; simp)) (fun e h => ?_) (fun h => by cases h)
      g.setSpace_live
    · rw [inv.books.free_iff, held]
      simp
    · obtain rfl : d = e := h
      exact ⟨_, update_self _ _ _⟩
  · by_cases here : z = y
    · subst here
      rw [Ghost.setOwn_self, held]
      exact .inr ⟨trivial, rfl⟩
    · exact .inl (g.setOwn_ne here _)
  · have old := ok.user u z
    by_cases here : z = y <;> by_cases at_v : u = v
    · subst here at_v
      simp only [Ghost.setOwn_self, update_self, Space.setPte, true_iff]
      exact ⟨lt, present, frame⟩
    · subst here
      simp only [Ghost.setOwn_self, Space.setPte, update_of_ne at_v, ← old, held]
      simp [Ne.symm at_v]
    · subst at_v
      simp only [g.setOwn_ne here, Space.setPte, update_self, old, absent, frame]
      simp [Ne.symm here]
    · simp only [g.setOwn_ne here, Space.setPte, update_of_ne at_v, old]

theorem Inv.remap (inv : Inv L m g) {x : Addr} (at_d : g.space d = some sp) (lt : v < 2 ^ 20)
    (tab : sp.tab (v / 1024) = some f)
    (same : v < 2 ^ 19 → (Has pteP x ↔ Has pteP (sp.pte v)) ∧ pteFrame x = pteFrame (sp.pte v)) :
    Inv L (m.setPage f ((m.page f).setWord (v % 1024) x))
      (g.setSpace d (some (sp.setPte v x))) := by
  have ok := inv.space d sp at_d
  refine inv.setPte at_d lt tab (inv.books.setSpace d _) (fun z => .inl rfl) fun u z => ?_
  rw [ok.user u z]
  by_cases at_v : u = v
  · subst at_v
    simp only [Space.setPte, update_self]
    constructor
    · rintro ⟨low, present, frame⟩
      exact ⟨low, (same low).1.mpr present, (same low).2.trans frame⟩
    · rintro ⟨low, present, frame⟩
      exact ⟨low, (same low).1.mp present, (same low).2.symm.trans frame⟩
  · simp only [Space.setPte, update_of_ne at_v]

theorem Inv.unmap (inv : Inv L m g) (at_d : g.space d = some sp) (lt : v < 2 ^ 19)
    (tab : sp.tab (v / 1024) = some f) (present : Has pteP (sp.pte v)) :
    Inv L (m.setPage f ((m.page f).setWord (v % 1024) 0))
      ((g.setOwn (pteFrame (sp.pte v)) .held).setSpace d (some (sp.setPte v 0))) := by
  have ok := inv.space d sp at_d
  have user : g.own (pteFrame (sp.pte v)) = .user d v := (ok.user v _).mpr ⟨lt, present, rfl⟩
  generalize pteFrame (sp.pte v) = y at user
  refine inv.setPte at_d (by omega) tab ?_ (fun z => ?_) fun u z => ?_
  · refine inv.books.setOwn rfl inv.books.nodup ?_ (fun _ _ => Iff.rfl)
      (inv.books.managed y (by rw [user]; simp)) (fun e h => h.elim) (fun h => by cases h)
      g.setSpace_live
    rw [inv.books.free_iff, user]
    simp
  · by_cases here : z = y
    · subst here
      rw [Ghost.setOwn_self, user]
      exact .inr ⟨rfl, trivial⟩
    · exact .inl (g.setOwn_ne here _)
  · have old := ok.user u z
    by_cases here : z = y <;> by_cases at_v : u = v
    · subst here at_v
      simp only [Ghost.setOwn_self, Space.setPte, update_self, not_has_zero, false_and,
        and_false, reduceCtorEq]
    · subst here
      simp only [Ghost.setOwn_self, Space.setPte, update_of_ne at_v, ← old, user]
      simp [Ne.symm at_v]
    · subst at_v
      simp only [g.setOwn_ne here, Space.setPte, update_self, not_has_zero,
        false_and, and_false, iff_false]
      intro at_z
      have frame := (old.mp at_z).2.2
      have frame' := ((ok.user u y).mp user).2.2
      exact here (frame.symm.trans frame')
    · simp only [g.setOwn_ne here, Space.setPte, update_of_ne at_v, old]

/-- The roles once the address space `d` is given up: its frames are held by the kernel. -/
def Ghost.dissolve (g : Ghost) (d : Frame) : Ghost where
  own f := if f = d then .held else match g.own f with
    | .table e i => if e = d then .held else .table e i
    | .user e v => if e = d then .held else .user e v
    | r => r
  space := update g.space d none

theorem Ghost.dissolve_own (g : Ghost) (d f : Frame) :
    (g.dissolve d).own f = g.own f ∧ f ≠ d ∧ ¬ (g.own f).In d ∨
      (g.dissolve d).own f = .held ∧ (f = d ∨ (g.own f).In d) := by
  simp only [Ghost.dissolve]
  by_cases eq : f = d
  · rw [if_pos eq]
    exact .inr ⟨rfl, .inl eq⟩
  · rw [if_neg eq]
    cases role : g.own f with
    | table e i =>
      by_cases here : e = d
      · exact .inr ⟨if_pos here, .inr here⟩
      · exact .inl ⟨if_neg here, eq, here⟩
    | user e v =>
      by_cases here : e = d
      · exact .inr ⟨if_pos here, .inr here⟩
      · exact .inl ⟨if_neg here, eq, here⟩
    | _ => exact .inl ⟨rfl, eq, id⟩

theorem Inv.dissolve (inv : Inv L m g) (at_d : g.space d = some sp) : Inv L m (g.dissolve d) := by
  have dir := (inv.space d sp at_d).dir
  have spaces : ∀ e sp', e ≠ d → g.space e = some sp' → (g.dissolve d).space e = some sp' :=
    fun e sp' ne at_e => (update_of_ne ne _ _).trans at_e
  have taken : ∀ f, (f = d ∨ (g.own f).In d) → g.own f ≠ .free ∧ g.own f ≠ .kernel := by
    rintro f (rfl | inside)
    · rw [dir]
      simp
    · constructor <;> intro role <;> rw [role] at inside <;> exact inside
  refine ⟨⟨inv.books.nodup, fun f => ?_, fun f => ?_, fun f e => ?_, fun f => ?_⟩,
    fun e sp' live => ?_⟩
  · rw [inv.books.free_iff]
    rcases g.dissolve_own d f with ⟨same, _⟩ | ⟨held, part⟩
    · rw [same]
    · rw [held]
      simp [(taken f part).1]
  · rcases g.dissolve_own d f with ⟨same, _⟩ | ⟨held, part⟩
    · rw [same]
      exact inv.books.managed f
    · exact fun _ => inv.books.managed f (taken f part).2
  · rcases g.dissolve_own d f with ⟨same, _, out⟩ | ⟨held, _⟩
    · rw [same]
      intro inside
      have ne : e ≠ d := by
        rintro rfl
        exact out inside
      obtain ⟨sp', at_e⟩ := inv.books.live f e inside
      exact ⟨sp', spaces e sp' ne at_e⟩
    · rw [held]
      exact fun h => h.elim
  · rcases g.dissolve_own d f with ⟨same, ne, _⟩ | ⟨held, _⟩
    · rw [same]
      intro dir
      obtain ⟨sp', at_f⟩ := inv.books.dirs f dir
      exact ⟨sp', spaces f sp' ne at_f⟩
    · rw [held]
      exact fun h => by cases h
  · have ne : e ≠ d := by
      rintro rfl
      simp [Ghost.dissolve] at live
    have at_e : g.space e = some sp' := (update_of_ne ne _ _).symm.trans live
    have ok := inv.space e sp' at_e
    refine ok.congr ?_ rfl (fun _ _ _ => rfl) fun f => ?_
    · rcases g.dissolve_own d e with ⟨same, _⟩ | ⟨_, part⟩
      · rw [same, ok.dir]
      · rcases part with eq | inside
        · exact absurd eq ne
        · rw [ok.dir] at inside
          exact inside.elim
    · rcases g.dissolve_own d f with ⟨same, _⟩ | ⟨held, part⟩
      · exact .inl same
      · refine .inr ⟨?_, by rw [held]; exact id⟩
        rcases part with rfl | inside
        · rw [dir]
          exact id
        · cases role : g.own f with
          | table a i =>
            rw [role] at inside
            exact fun h : a = e => ne (h.symm.trans inside)
          | user a v =>
            rw [role] at inside
            exact fun h : a = e => ne (h.symm.trans inside)
          | _ => exact id

end Steps

end Xv6.Vm
