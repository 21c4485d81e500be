import Xv6.Vm.Free
import Mathlib.Data.List.Perm.Subperm

/-!
# The kernel's half of an address space

`setupkvm` makes a page directory with the kernel's mappings and no user page, or fails for
lack of memory and leaves every frame as it was.  `Inv.count_le` bounds what an address space can
hold, and so turns a failure of `kalloc` into a bound on the memory there was before.
-/

namespace Xv6.Vm

open List

section Count

variable {L : Layout} {m : Mem} {g : Ghost} {d : Frame} {sp : Space}

def Space.tables (sp : Space) : List Frame := (range 1024).filterMap sp.tab

theorem Space.tables_le (sp : Space) : sp.tables.length ≤ 1024 := by
  calc sp.tables.length ≤ (range 1024).length := length_filterMap_le ..
    _ = 1024 := length_range

theorem Space.tables_le_kernel
    (kernel : ∀ i, (sp.tab i).isSome → 512 ≤ i ∧ i < 568 ∨ 1016 ≤ i ∧ i < 1024) :
    sp.tables.length ≤ 64 := by
  let inside : Nat → Bool := fun i => decide (512 ≤ i ∧ i < 568 ∨ 1016 ≤ i ∧ i < 1024)
  have all : (range 1024).countP inside = 64 := by decide +kernel
  rw [Space.tables, length_filterMap_eq_countP, ← all]
  refine countP_mono_left fun i _ some => ?_
  exact decide_eq_true (kernel i some)

/-- Frames that are free, are the frame `x`, or belong to the address space `d` with user pages
below page `n` only: there are not many. -/
theorem Inv.count_le (inv : Inv L m g) (at_d : g.space d = some sp) (x : Frame) (n : Nat)
    {frames : List Frame} (nodup : frames.Nodup)
    (parts : ∀ f ∈ frames, g.own f = .free ∨ f = x ∨ (g.own f).In d)
    (users : ∀ f ∈ frames, ∀ v, g.own f = .user d v → v < n) :
    frames.length ≤ m.free.length + 1 + sp.tables.length + n := by
  have ok := inv.space d sp at_d
  let mapped := (range n).map fun v => pteFrame (sp.pte v)
  have cover : frames ⊆ m.free ++ x :: (sp.tables ++ mapped) := by
    intro f member
    rw [mem_append, mem_cons, mem_append]
    rcases parts f member with free | eq | inside
    · exact .inl ((inv.books.free_iff f).mpr free)
    · exact .inr (.inl eq)
    · cases role : g.own f with
      | table e i =>
        rw [role] at inside
        obtain rfl : e = d := inside
        obtain ⟨lt, tab⟩ := (ok.table i f).mp role
        exact .inr (.inr (.inl (mem_filterMap.mpr ⟨i, mem_range.mpr lt, tab⟩)))
      | user e v =>
        rw [role] at inside
        obtain rfl : e = d := inside
        have lt := users f member v role
        refine .inr (.inr (.inr (mem_map.mpr ⟨v, mem_range.mpr lt, ?_⟩)))
        exact ((ok.user v f).mp role).2.2
      | _ =>
        rw [role] at inside
        exact inside.elim
  have len := (nodup.subperm cover).length_le
  have all : (m.free ++ x :: (sp.tables ++ mapped)).length =
      m.free.length + (sp.tables.length + n + 1) := by
    simp [mapped]
  omega

structure Restores (m : Mem) (g : Ghost) (m' : Mem) (g' : Ghost) : Prop where
  own : g'.own = g.own
  space : g'.space = g.space
  kept : ∀ f, g.own f ≠ .free → m'.page f = m.page f
  loaded : m'.loaded = m.loaded
  refreed : m'.refreed = m.refreed

theorem Restores.refl (m : Mem) (g : Ghost) : Restores m g m g :=
  ⟨rfl, rfl, fun _ _ => rfl, rfl, rfl⟩

/-- The address space `d` is new: all of it was free before. -/
structure Fresh (d : Frame) (m : Mem) (g : Ghost) (m' : Mem) (g' : Ghost) : Prop where
  free : g.own d = .free
  grows : Grows d (· = d) m g m' g'

variable {m1 m2 : Mem} {g1 g2 : Ghost}

theorem Fresh.grow (fresh : Fresh d m g m1 g1) (grows : Grows d nobody m1 g1 m2 g2) :
    Fresh d m g m2 g2 :=
  ⟨fresh.free, fresh.grows.trans (grows.weaken fun _ => False.elim)⟩

variable (inv : Inv L m g)
include inv

theorem Inv.not_in_of_free (free : g.own d = .free) (f : Frame) : ¬ (g.own f).In d := by
  intro inside
  obtain ⟨sp, at_d⟩ := inv.books.live f d inside
  cases free.symm.trans (inv.space d sp at_d).dir

theorem Inv.space_of_free (free : g.own d = .free) : g.space d = none := by
  cases at_d : g.space d with
  | none => rfl
  | some sp => cases free.symm.trans (inv.space d sp at_d).dir

/-- What a new address space with user pages below page `n` has cost. -/
theorem Inv.cost_le (inv1 : Inv L m1 g1) (at_d : g1.space d = some sp)
    (new : ∀ f, f ≠ d → g.own f = .free → g1.own f = .free ∨ (g1.own f).In d) {n : Nat}
    (users : ∀ v, v < 2 ^ 19 → Has pteP (sp.pte v) → v < n) :
    m.free.length ≤ m1.free.length + 1 + sp.tables.length + n := by
  refine inv1.count_le at_d d n inv.books.nodup (fun f member => ?_) fun f _ v user => ?_
  · rcases eq_or_ne f d with eq | ne
    · exact .inr (.inl eq)
    · rcases new f ne ((inv.books.free_iff f).mp member) with free | inside
      · exact .inl free
      · exact .inr (.inr inside)
  · obtain ⟨low, present, _⟩ := ((inv1.space d sp at_d).user v f).mp user
    exact users v low present

theorem Inv.cost (inv1 : Inv L m1 g1) (at_d : g1.space d = some sp)
    (new : ∀ f, f ≠ d → g.own f = .free → g1.own f = .free ∨ (g1.own f).In d) {n : Nat}
    (users : ∀ v, v < 2 ^ 19 → Has pteP (sp.pte v) → v < n) :
    m.free.length ≤ m1.free.length + 1025 + n := by
  have used := inv.cost_le inv1 at_d new users
  have := sp.tables_le
  omega

/-- The address space `d` is new and everything that was in use is still there; of the memory that
does not belong to the allocator nothing is said. -/
structure Builds (d : Frame) (m : Mem) (g : Ghost) (m' : Mem) (g' : Ghost) : Prop where
  free : g.own d = .free
  own : ∀ f, f ≠ d → g.own f ≠ .free → g'.own f = g.own f
  new : ∀ f, f ≠ d → g.own f = .free → g'.own f = .free ∨ (g'.own f).In d
  space : ∀ e, e ≠ d → g'.space e = g.space e
  kept : ∀ f, f ≠ d → g.own f ≠ .free → g.own f ≠ .kernel → m'.page f = m.page f
  refreed : m'.refreed = m.refreed

theorem Fresh.builds {m' : Mem} {g' : Ghost} (fresh : Fresh d m g m' g') :
    Builds d m g m' g' where
  free := fresh.free
  own := fresh.grows.own
  new := fresh.grows.new
  space := fresh.grows.space
  kept f ne taken _ := by
    refine fresh.grows.kept f ne taken ne fun i table => ?_
    exact inv.not_in_of_free fresh.free f (by rw [table]; exact rfl)
  refreed := fresh.grows.refreed

theorem Builds.rollback (builds : Builds d m g m1 g1)
    (shrinks : Shrinks d (partOf g1 d) m1 g1 m2 g2) (gone : g2.space d = none) :
    g2.own = g.own ∧ g2.space = g.space ∧
      ∀ f, g.own f ≠ .free → m2.page f = m1.page f := by
  have stays : ∀ f, g.own f ≠ .free → g1.own f = g.own f ∧ ¬ partOf g1 d f := by
    intro f taken
    have ne : f ≠ d := fun eq => taken (eq ▸ builds.free)
    have same := builds.own f ne taken
    refine ⟨same, fun part => ?_⟩
    rcases part with eq | inside
    · exact ne eq
    · rw [same] at inside
      exact inv.not_in_of_free builds.free f inside
  refine ⟨funext fun f => ?_, funext fun e => ?_, fun f taken => ?_⟩
  · by_cases free : g.own f = .free
    · by_cases part : partOf g1 d f
      · rw [shrinks.freed f part, free]
      · rw [shrinks.own f part, free]
        have ne : f ≠ d := fun eq => part (.inl eq)
        exact (builds.new f ne free).resolve_right fun inside => part (.inr inside)
    · obtain ⟨same, out⟩ := stays f free
      rw [shrinks.own f out, same]
  · rcases eq_or_ne e d with rfl | ne
    · rw [gone, inv.space_of_free builds.free]
    · rw [shrinks.space e ne, builds.space e ne]
  · refine shrinks.kept f (stays f taken).2 fun i table => (stays f taken).2 (.inr ?_)
    rw [table]
    exact rfl

theorem Fresh.rollback (fresh : Fresh d m g m1 g1) (shrinks : Shrinks d (partOf g1 d) m1 g1 m2 g2)
    (gone : g2.space d = none) : Restores m g m2 g2 := by
  obtain ⟨own, space, kept⟩ := (fresh.builds inv).rollback inv shrinks gone
  refine ⟨own, space, fun f taken => ?_, by rw [shrinks.loaded, fresh.grows.loaded],
    by rw [shrinks.refreed, fresh.grows.refreed]⟩
  have ne : f ≠ d := fun eq => taken (eq ▸ fresh.free)
  rw [kept f taken, fresh.grows.kept f ne taken ne fun i table => ?_]
  exact inv.not_in_of_free fresh.free f (by rw [table]; exact rfl)

end Count

/-! ## `setupkvm` -/

/-- The address space maps the pages `S`, none of them for the user, and no others. -/
structure KernelOnly (S : Nat → Prop) (sp : Space) : Prop where
  entry : ∀ u, S u → Has pteP (sp.pte u) ∧ ¬ Has pteU (sp.pte u)
  rest : ∀ u, ¬ S u → sp.pte u = 0
  tab : ∀ i, (sp.tab i).isSome ↔ ∃ u, S u ∧ u / 1024 = i

theorem KernelOnly.empty : KernelOnly (fun _ => False) .empty :=
  ⟨fun _ h => h.elim, fun _ _ => rfl, fun _ => by simp [Space.empty]⟩

theorem KernelOnly.mapped {S T : Nat → Prop} {sp sp' : Space} {v w : Nat} {f : Frame} {perm : Addr}
    (kernel : KernelOnly S sp) (mapped : Mapped sp sp' v w f perm) (le : v ≤ w)
    (perm_ok : ¬ Has pteU perm) (union : ∀ u, T u ↔ S u ∨ v ≤ u ∧ u ≤ w)
    (apart : ∀ u, S u → ¬ (v ≤ u ∧ u ≤ w)) : KernelOnly T sp' where
  entry u at_u := by
    rw [mapped.pte]
    rcases (union u).mp at_u with old | new
    · rw [if_neg (apart u old)]
      exact kernel.entry u old
    · rw [if_pos new]
      refine ⟨has_present _, ?_⟩
      rw [has_or, has_or]
      rintro ((frame | flags) | one)
      · exact not_has_frameAddr (by decide) _ frame
      · exact perm_ok flags
      · exact absurd one (by decide)
  rest u out := by
    rw [union, not_or] at out
    rw [mapped.pte, if_neg out.2]
    exact kernel.rest u out.1
  tab i := by
    rw [mapped.tab, kernel.tab]
    constructor
    · rintro (⟨u, old, eq⟩ | ⟨from_v, to_w⟩)
      · exact ⟨u, (union u).mpr (.inl old), eq⟩
      · exact ⟨max v (1024 * i), (union _).mpr (.inr (by omega)), by omega⟩
    · rintro ⟨u, at_u, rfl⟩
      rcases (union u).mp at_u with old | new
      · exact .inl ⟨u, old, rfl⟩
      · exact .inr (by omega)

/-- The pages that `kmap` lists: the lower physical memory and the devices. -/
def kernelPages (u : Nat) : Prop := 0x80000 ≤ u ∧ u < 0x8E000 ∨ 0xFE000 ≤ u ∧ u < 0x100000

section Setup

variable {L : Layout} {m : Mem} {g : Ghost} {d : Frame} {sp : Space} {S : Nat → Prop}

def SetupPost (L : Layout) (m : Mem) (g : Ghost) (r : Option Frame) (m' : Mem) : Prop :=
  ∃ g', Inv L m' g' ∧ (r = none ∧ Restores m g m' g' ∧ m.free.length ≤ 65 ∨
    ∃ d sp, r = some d ∧ Fresh d m g m' g' ∧ g'.space d = some sp ∧ KernelOnly kernelPages sp)

theorem setup_fail {m1 : Mem} {g1 : Ghost} (inv : Inv L m g) (fresh : Fresh d m g m1 g1)
    (inv1 : Inv L m1 g1) (at_d : g1.space d = some sp) (low : ∀ u, u < 2 ^ 19 → sp.pte u = 0)
    (tabs : ∀ i, (sp.tab i).isSome → ∃ u, kernelPages u ∧ u / 1024 = i)
    (empty : m1.free = []) : Ends (do freevm L d; pure none) m1 (SetupPost L m g) := by
  rw [ends_bind]
  refine (freevm_ends inv1 at_d).mono ?_
  rintro _ m2 ⟨g2, inv2, gone, shrinks⟩
  refine ⟨g2, inv2, .inl ⟨rfl, fresh.rollback inv shrinks gone, ?_⟩⟩
  have used := inv.cost_le inv1 at_d fresh.grows.new (n := 0) fun v lt present => by
    rw [low v lt] at present
    exact absurd present (not_has_zero _)
  have tables : sp.tables.length ≤ 64 := by
    refine Space.tables_le_kernel fun i some => ?_
    obtain ⟨u, kernel, rfl⟩ := tabs i some
    unfold kernelPages at kernel
    omega
  rw [empty, length_nil] at used
  omega

/-- `setupkvm` at work: the pages `S` of the new address space `d` are mapped. -/
def Building (L : Layout) (m : Mem) (g : Ghost) (d : Frame) (S : Nat → Prop) (m' : Mem) : Prop :=
  ∃ g' sp, Inv L m' g' ∧ g'.space d = some sp ∧ Fresh d m g m' g' ∧ KernelOnly S sp

theorem mapKernel_cons {m1 : Mem} (inv : Inv L m g) (building : Building L m g d S m1)
    {k : Kmap} {v w : Nat} {f : Frame} (virt : k.virt.toNat = 4096 * v)
    (last : (k.virt + (k.physEnd - k.physStart) - 1).toNat / 4096 = w)
    (phys : k.physStart = frameAddr f) (perm : ¬ Has pteU k.perm) (high : 2 ^ 19 ≤ v) (le : v ≤ w)
    (above : ∀ u, S u → kernelPages u ∧ u < v) (inside : ∀ u, v ≤ u → u ≤ w → kernelPages u)
    {ks : List Kmap}
    (next : ∀ m2, Building L m g d (fun u => S u ∨ v ≤ u ∧ u ≤ w) m2 →
      Ends (mapKernel L d ks) m2 (SetupPost L m g)) :
    Ends (mapKernel L d (k :: ks)) m1 (SetupPost L m g) := by
  obtain ⟨g1, sp, inv1, at_d, fresh, kernel⟩ := building
  have apart : ∀ u, S u → ¬ (v ≤ u ∧ u ≤ w) := by
    intro u old new
    have := above u old
    omega
  have first : pgRoundDown k.virt = k.virt := by
    apply BitVec.eq_of_toNat_eq
    rw [pgRoundDown_toNat]
    omega
  have at_last : (pgRoundDown (k.virt + (k.physEnd - k.physStart) - 1)).toNat = 4096 * w := by
    rw [pgRoundDown_toNat, last, Nat.mul_comm]
  have fuel : w - v < rounds := by
    have := (k.virt + (k.physEnd - k.physStart) - 1).isLt
    unfold rounds
    omega
  rw [mapKernel, ends_bind, mappages, first, phys]
  rw [phys] at at_last
  refine (mapLoop_kernel at_last rounds m1 g1 sp k.virt v f inv1 at_d virt high le fuel ?_).mono ?_
  · intro u from_v to_w
    rw [kernel.rest u fun old => apart u old ⟨from_v, to_w⟩]
    exact not_has_zero _
  · rintro r m2 ⟨g2, sp2, inv2, at_d2, grows, below, tabs, ⟨rfl, mapped⟩ | ⟨rfl, empty⟩⟩
    · exact next m2 ⟨g2, sp2, inv2, at_d2, fresh.grow grows,
        kernel.mapped mapped le perm (fun _ => Iff.rfl) apart⟩
    · refine setup_fail inv (fresh.grow grows) inv2 at_d2 (fun u low => ?_) (fun i some => ?_) empty
      · have out : ¬ S u := fun old => by
          have mine := (above u old).1
          unfold kernelPages at mine
          omega
        rw [below u (by omega), kernel.rest u out]
      · rcases tabs i some with old | ⟨from_v, to_w⟩
        · obtain ⟨u, mine, eq⟩ := (kernel.tab i).mp old
          exact ⟨u, (above u mine).1, eq⟩
        · exact ⟨max v (1024 * i), inside _ (by omega) (by omega), by omega⟩

theorem building_start (inv : Inv L m g) {rest : List Frame} (free : m.free = d :: rest) :
    Building L m g d (fun _ => False) (({ m with free := rest } : Mem).setPage d fun _ => 0) := by
  obtain ⟨was_free, taken⟩ := inv.take free
  have held := g.setOwn_self d .held
  have zeroed := taken.fill (f := d) (fun _ => 0) fun e sp' live =>
    ⟨(taken.loose_of_held held e sp' live).1, fun i => by rw [held]; simp⟩
  have started := zeroed.newSpace held fun i => by
    rw [Mem.setPage_self]
    exact Words.Page.word_zero i
  refine ⟨_, .empty, started, Ghost.setSpace_self .., ⟨was_free, ?_⟩, .empty⟩
  have own : ∀ x, x ≠ d → (((g.setOwn d .held).setOwn d .dir).setSpace d (some .empty)).own x =
      g.own x := by
    intro x ne
    rw [Ghost.setSpace_own, Ghost.setOwn_ne _ ne, Ghost.setOwn_ne _ ne]
  constructor
  case own => exact fun f ne _ => own f ne
  case new => exact fun f ne free => .inl ((own f ne).trans free)
  case space => exact fun e ne => Ghost.setSpace_ne _ ne _
  case kept => exact fun f ne _ _ _ => Mem.setPage_ne _ ne _
  case loaded => rfl
  case refreed => rfl

theorem setupkvm_ends (inv : Inv L m g) : Ends (setupkvm L) m (SetupPost L m g) := by
  rw [setupkvm, ends_bind, ends_kalloc]
  cases free : m.free with
  | nil => exact ⟨g, inv, .inl ⟨rfl, .refl m g, by rw [free]; exact Nat.zero_le _⟩⟩
  | cons d rest =>
    have page : L.data.toNat = 4096 * vpn L.data := by
      have aligned := congrArg BitVec.toNat L.aligned
      rw [pgRoundDown_toNat] at aligned
      unfold vpn
      omega
    have text : 0x80100 < vpn L.data := by
      have : kernLink.toNat < L.data.toNat := L.text
      have : kernLink.toNat = 4096 * 0x80100 := by decide
      omega
    have data_lt : vpn L.data < 0x8E000 := by
      have : L.data.toNat < (kernBase + physTop).toNat := L.data_lt
      have : (kernBase + physTop).toNat = 4096 * 0x8E000 := by decide
      omega
    simp only [ends_bind, ends_zeroPage]
    rw [if_neg (by decide), kmap]
    have low_flags : ¬ Has pteU 0 ∧ ¬ Has pteU pteW := by decide
    refine mapKernel_cons (v := 0x80000) (w := 0x800FF) (f := 0) inv (building_start inv free)
      (by decide) (by decide) (by decide) low_flags.2 (by decide) (by decide)
      (fun _ h => h.elim) (fun u _ _ => by unfold kernelPages; omega) fun m1 building1 => ?_
    refine mapKernel_cons (v := 0x80100) (w := vpn L.data - 1) (f := 0x100) inv building1
      (by change kernLink.toNat = _; decide) ?_ (by change kernLink - kernBase = _; decide)
      low_flags.1 (by decide) (by omega)
      (fun u old => by simp only [false_or] at old; unfold kernelPages; omega)
      (fun u _ _ => by unfold kernelPages; omega) fun m2 building2 => ?_
    · simp only [kernLink, kernBase, extMem]
      bv_omega
    refine mapKernel_cons (v := vpn L.data) (w := 0x8DFFF)
      (f := BitVec.ofNat 20 (vpn L.data - 0x80000)) inv building2 page ?_ ?_ low_flags.2
      (by omega) (by omega)
      (fun u old => by simp only [false_or] at old; unfold kernelPages; omega)
      (fun u _ _ => by unfold kernelPages; omega) fun m3 building3 => ?_
    · simp only [physTop, kernBase]
      bv_omega
    · apply BitVec.eq_of_toNat_eq
      rw [frameAddr_toNat, BitVec.toNat_ofNat]
      simp only [kernBase]
      bv_omega
    refine mapKernel_cons (v := 0xFE000) (w := 0xFFFFF) (f := 0xFE000) inv building3
      (by decide) (by decide) (by decide) low_flags.2 (by decide) (by decide)
      (fun u old => by simp only [false_or] at old; unfold kernelPages; omega)
      (fun u _ _ => by unfold kernelPages; omega)
      fun m4 building4 => ?_
    obtain ⟨g4, sp4, inv4, at_d4, fresh4, kernel4⟩ := building4
    rw [mapKernel, ends_pure]
    refine ⟨g4, inv4, .inr ⟨d, sp4, rfl, fresh4, at_d4, ?_⟩⟩
    have all : kernelPages = fun u => (((False ∨ 0x80000 ≤ u ∧ u ≤ 0x800FF) ∨
        0x80100 ≤ u ∧ u ≤ vpn L.data - 1) ∨ vpn L.data ≤ u ∧ u ≤ 0x8DFFF) ∨
        0xFE000 ≤ u ∧ u ≤ 0xFFFFF := by
      funext u
      apply propext
      rw [kernelPages, false_or]
      omega
    rw [all]
    exact kernel4

end Setup

end Xv6.Vm
