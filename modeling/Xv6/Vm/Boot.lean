import Xv6.Vm.Invariant

/-!
# The machine from the first page on

`main.c` up to the first process.  `kinit1` gives the allocator the pages behind the kernel and
below 4 MB, the kernel's own page table and the stacks of the other processors are made of these,
and `kinit2` gives it the pages from 4 MB up to `PHYSTOP`.

`Tidy` is the invariant of the machine: `Sound`, and besides the frames that the processes know
there are only those that `main` has allocated.
-/

namespace Xv6.Vm

open List

/-! ## `kalloc.c` and `main.c` -/

def ptrFrame (p : Addr) : Frame := pteFrame (p - kernBase)

def freeLoop (L : Layout) (vend : Addr) : Nat → Addr → K Unit
  | 0, _ => Prog.stop .hang
  | n + 1, p =>
    if p + pgSize ≤ vend then do
      kfree L (ptrFrame p)
      freeLoop L vend n (p + pgSize)
    else pure ()

def freerange (L : Layout) (vstart vend : Addr) : K Unit :=
  freeLoop L vend (rounds + 1) (pgRoundUp vstart)

/-- `P2V(4*1024*1024)`, up to where `entrypgdir` maps memory. -/
def kinitEnd : Addr := kernBase + 0x400000

def kinit1 (L : Layout) : K Unit := freerange L L.kend kinitEnd

def kinit2 (L : Layout) : K Unit := freerange L kinitEnd (kernBase + physTop)

/-- `kvmalloc`.  Nobody looks at `kpgdir`: without memory the processor gets a null page table. -/
def kvmalloc (L : Layout) : K Frame := do
  match ← setupkvm L with
  | none => Prog.stop .nullPointer
  | some kpgdir => pure kpgdir

/-- `startothers` for the remaining processors: their stacks.  Nobody looks at the result of
`kalloc`; a processor without a stack starts with one at the bottom of low memory. -/
def startothers : Nat → K (List Frame)
  | 0 => pure []
  | n + 1 => do
      match ← kalloc with
      | none => startothers n
      | some stack =>
        let rest ← startothers n
        pure (stack :: rest)

/-- `main`, for `others` other processors: `kpgdir`, the stacks and the first process. -/
def main (L : Layout) (init : List Byte) (others : Nat) : K (Frame × List Frame × Proc) := do
  kinit1 L
  let kpgdir ← kvmalloc L
  let stacks' ← startothers others
  kinit2 L
  let p ← userinit L init
  pure (kpgdir, stacks', p)

structure Machine where
  sys : System
  kpgdir : Frame
  cpus : List Frame

def machine (L : Layout) (init : List Byte) (others : Nat) : Lts Machine Action where
  init s := ∃ m p m', m.free = [] ∧ m.refreed = [] ∧
    main L init others m = .ok ((s.kpgdir, s.cpus, p), m') ∧
    s.sys = System.setProc ⟨m', fun _ => none, []⟩ 0 (some p)
  step s a t := s.sys.step L a = some (.ok t.sys) ∧ t.kpgdir = s.kpgdir ∧ t.cpus = s.cpus

def Ranged (vstart vend : Addr) (f : Frame) : Prop :=
  (pgRoundUp vstart).toNat ≤ (frameAddr f + kernBase).toNat ∧
    (frameAddr f + kernBase).toNat + pgSize.toNat ≤ vend.toNat

def Given (L : Layout) (f : Frame) : Prop :=
  Ranged L.kend kinitEnd f ∨ Ranged kinitEnd (kernBase + physTop) f

variable {L : Layout} {m m' : Mem} {g g' : Ghost}

/-! ## `freerange` -/

variable {p : Addr}

theorem ends_freeLoop_more {vend : Addr} {n : Nat} (more : p + pgSize ≤ vend)
    (alloc : Allocatable L (ptrFrame p)) (m : Mem) (Q : Unit → Mem → Prop) :
    Ends (freeLoop L vend (n + 1) p) m Q ↔
      Ends (freeLoop L vend n (p + pgSize)) (m.freed (ptrFrame p)) Q := by
  rw [freeLoop, if_pos more, ends_bind, ends_kfree alloc]

theorem ends_freeLoop_done {vend : Addr} {n : Nat} (done : ¬ p + pgSize ≤ vend) (m : Mem)
    (Q : Unit → Mem → Prop) : Ends (freeLoop L vend (n + 1) p) m Q ↔ Q () m := by
  rw [freeLoop, if_neg done, ends_pure]

/-- `kinit2` begins behind the kernel, or `kfree` panics. -/
theorem kend_le_of_kinit2 (ran : kinit2 L m = .ok ((), m')) : L.kend ≤ kinitEnd := by
  refine BitVec.not_lt.mp fun lt => ?_
  have first : pgRoundUp kinitEnd = kinitEnd ∧ kinitEnd + pgSize ≤ kernBase + physTop ∧
      frameAddr (ptrFrame kinitEnd) + kernBase = kinitEnd := by decide
  have stop : kfree L (ptrFrame kinitEnd) m = .error (.panic .kfree) := by
    rw [kfree, first.2.2]
    exact if_pos (.inl lt)
  rw [kinit2, freerange, first.1, freeLoop, if_pos first.2.1, Prog.bind_error stop] at ran
  cases ran

-- A type with `freerange` of known addresses in it would otherwise be evaluated.
attribute [irreducible] freeLoop

/-- The frames `R`, which were the kernel's, belong to the allocator and are free. -/
structure Donates (R : Frame → Prop) (m : Mem) (g : Ghost) (m' : Mem) (g' : Ghost) : Prop where
  given : ∀ f, R f → g'.own f = .free
  own : ∀ f, ¬ R f → g'.own f = g.own f
  space : g'.space = g.space
  refreed : m'.refreed = m.refreed

theorem Inv.donate (inv : Inv L m g) {f : Frame} (kernel : g.own f = .kernel)
    (alloc : Allocatable L f) :
    Inv L (m.freed f) (g.setOwn f .free) ∧ Donates (· = f) m g (m.freed f) (g.setOwn f .free) := by
  have fresh : f ∉ m.free := by
    rw [inv.books.free_iff, kernel]
    simp
  have loose : ∀ d sp, g.space d = some sp → f ≠ d ∧ ¬ (g.own f).In d := by
    refine fun d sp live => ⟨?_, by rw [kernel]; exact id⟩
    rintro rfl
    cases kernel.symm.trans (inv.space f sp live).dir
  refine ⟨⟨?_, fun d sp live => ?_⟩, fun x eq => ?_, fun x ne => g.setOwn_ne ne _, rfl,
    Mem.freed_refreed fresh⟩
  · refine inv.books.setOwn rfl (nodup_cons.mpr ⟨fresh, inv.books.nodup⟩) ?_ (fun x ne => ?_)
      alloc (fun d h => h.elim) (fun h => by cases h) fun d sp at_d => ⟨sp, at_d⟩
    · exact ⟨fun _ => rfl, fun _ => mem_cons_self⟩
    · rw [Mem.freed_free, mem_cons]
      exact ⟨fun member => member.resolve_left ne, .inr⟩
  · exact (inv.space d sp live).loose (loose d sp live) id fun x ne => m.freed_page ne
  · rw [eq]
    exact g.setOwn_self f .free

def ptrPage (f : Frame) : Nat := (frameAddr f + kernBase).toNat / 4096

theorem ptrPage_spec (f : Frame) :
    (frameAddr f + kernBase).toNat = 4096 * ptrPage f ∧
      ptrPage f = (f.toNat + 524288) % 1048576 := by
  have ptr : (frameAddr f + kernBase).toNat = (f.toNat * 4096 + 2147483648) % 4294967296 := by
    rw [BitVec.toNat_add, frameAddr_toNat]
    rfl
  unfold ptrPage
  rw [ptr]
  omega

theorem ptrPage_ptrFrame {v : Nat} (page : p.toNat = 4096 * v) : ptrPage (ptrFrame p) = v := by
  have lt := p.isLt
  have sub : (p - kernBase).toNat = 4096 * ((v + 524288) % 1048576) := by
    rw [BitVec.toNat_sub, page]
    change (4294967296 - 2147483648 + 4096 * v) % 4294967296 = _
    omega
  have frame : (ptrFrame p).toNat = (v + 524288) % 1048576 := by
    rw [ptrFrame, pteFrame, BitVec.extractLsb'_toNat, sub, Nat.shiftRight_eq_div_pow]
    omega
  rw [(ptrPage_spec _).2, frame]
  omega

theorem ptrPage_inj {f f' : Frame} (eq : ptrPage f = ptrPage f') : f = f' := by
  have := f.isLt
  have := f'.isLt
  rw [(ptrPage_spec f).2, (ptrPage_spec f').2] at eq
  exact BitVec.eq_of_toNat_eq (by omega)

theorem freeLoop_ends {vend : Addr} {w : Nat} (last : vend.toNat = 4096 * w) (w_lt : w < 1048575)
    (n : Nat) (m : Mem) (g : Ghost) (p : Addr) (v : Nat) (page : p.toNat = 4096 * v)
    (le : v ≤ w) (fuel : w - v < n) (inv : Inv L m g)
    (pages : ∀ f, v ≤ ptrPage f → ptrPage f < w → Allocatable L f ∧ g.own f = .kernel) :
    Ends (freeLoop L vend n p) m fun _ m' => ∃ g', Inv L m' g' ∧
      Donates (fun f => v ≤ ptrPage f ∧ ptrPage f < w) m g m' g' ∧
      m'.free.length = m.free.length + (w - v) := by
  induction n generalizing m g p v with
  | zero => omega
  | succ n ih =>
    have next := page_succ page (by omega)
    have compare : p + pgSize ≤ vend ↔ v < w := by
      rw [BitVec.le_def, next, last]
      omega
    cases Nat.lt_or_ge v w with
    | inl lt =>
      have frame := ptrPage_ptrFrame page
      have here := pages (ptrFrame p) (by omega) (by omega)
      rw [ends_freeLoop_more (compare.mpr lt) here.1]
      obtain ⟨inv1, donates⟩ := inv.donate here.2 here.1
      refine (ih _ _ (p + pgSize) (v + 1) next lt (by omega) inv1 ?_).mono ?_
      · intro f from_v to_w
        have ne : f ≠ ptrFrame p := by
          rintro rfl
          omega
        rw [donates.own f ne]
        exact pages f (by omega) to_w
      · rintro _ m' ⟨g', inv', rest, length⟩
        refine ⟨g', inv', ⟨?_, ?_, rest.space, rest.refreed.trans donates.refreed⟩, ?_⟩
        · rintro f ⟨from_v, to_w⟩
          by_cases later : v + 1 ≤ ptrPage f
          · exact rest.given f ⟨later, to_w⟩
          · rw [rest.own f fun h => later h.1]
            exact donates.given f (ptrPage_inj (by omega))
        · intro f out
          have ne : f ≠ ptrFrame p := by
            rintro rfl
            exact out ⟨by omega, by omega⟩
          rw [rest.own f fun h => out ⟨by omega, h.2⟩, donates.own f ne]
        · rw [length, Mem.freed_free, length_cons]
          omega
    | inr ge =>
      rw [ends_freeLoop_done (mt compare.mp (Nat.not_lt.mpr ge))]
      refine ⟨g, inv, ⟨?_, fun _ _ => rfl, rfl, rfl⟩, by omega⟩
      rintro f ⟨from_v, to_w⟩
      omega

section Freerange

variable {vstart vend : Addr} {w : Nat} (high : vstart.toNat ≤ vend.toNat)
  (last : vend.toNat = 4096 * w) (w_lt : w < 1048575)
include high last w_lt

theorem pgRoundUp_start : (pgRoundUp vstart).toNat = 4096 * pages vstart := by
  rw [pgRoundUp_toNat (by omega), pages]
  omega

theorem ranged_iff (f : Frame) :
    Ranged vstart vend f ↔ pages vstart ≤ ptrPage f ∧ ptrPage f < w := by
  have size : pgSize.toNat = 4096 := rfl
  rw [Ranged, pgRoundUp_start high last w_lt, (ptrPage_spec f).1, last, size]
  omega

theorem freerange_ends (inv : Inv L m g)
    (range : ∀ f, Ranged vstart vend f → Allocatable L f ∧ g.own f = .kernel) :
    Ends (freerange L vstart vend) m fun _ m' => ∃ g', Inv L m' g' ∧
      Donates (Ranged vstart vend) m g m' g' ∧
      m'.free.length = m.free.length + (w - pages vstart) := by
  have ranged := ranged_iff high last w_lt
  have same : Ranged vstart vend = fun f => pages vstart ≤ ptrPage f ∧ ptrPage f < w :=
    funext fun f => propext (ranged f)
  rw [same, freerange]
  have le : pages vstart ≤ w := by
    unfold pages
    omega
  have fuel : w - pages vstart < rounds + 1 := by
    unfold rounds
    omega
  generalize rounds + 1 = n at fuel
  exact freeLoop_ends last w_lt n m g _ (pages vstart) (pgRoundUp_start high last w_lt) le fuel inv
    fun f from_v to_w => range f ((ranged f).mpr ⟨from_v, to_w⟩)

end Freerange

/-! ## `main` -/

theorem startothers_ends (n : Nat) (m : Mem) (g : Ghost) (inv : Inv L m g) :
    Ends (startothers n) m fun cpus m' => ∃ g', Inv L m' g' ∧ Keeps nobody g g' ∧
      Settles (· ∈ cpus) nobody m g m' g' ∧ cpus.Nodup ∧
      (∀ f ∈ cpus, g.own f = .free ∧ g'.own f = .held) := by
  induction n generalizing m g with
  | zero => exact ⟨g, inv, .refl .., (Settles.refl m g).mono fun _ => False.elim, .nil, (by simp)⟩
  | succ n ih =>
    rw [startothers, ends_bind, ends_kalloc]
    cases free : m.free with
    | nil => exact ih m g inv
    | cons stack rest =>
      obtain ⟨was_free, inv1⟩ := inv.take free
      have held := g.setOwn_self stack .held
      have keeps1 := (Keeps.setOwn g stack .held).of_free inv was_free
      have settles1 : Settles (· = stack) nobody m g { m with free := rest }
          (g.setOwn stack .held) := .take was_free rfl
      simp only [ends_bind]
      refine (ih _ _ inv1).mono ?_
      rintro cpus m' ⟨g', inv', keeps, settles, nodup, each⟩
      have out : stack ∉ cpus := fun member => by
        cases held.symm.trans (each stack member).1
      rw [ends_pure]
      refine ⟨g', inv', keeps1.trans keeps fun _ _ => Or.rec id id,
        settles1.trans settles ?_ fun _ => False.elim, nodup_cons.mpr ⟨out, nodup⟩, ?_⟩
      · rintro f (⟨rfl, -⟩ | member)
        · exact mem_cons_self
        · exact mem_cons_of_mem _ member
      · intro f member
        rcases mem_cons.mp member with rfl | member
        · exact ⟨was_free, keeps.held f id held⟩
        · have ne : f ≠ stack := fun eq => out (eq ▸ member)
          exact ⟨(g.setOwn_ne ne _).symm.trans (each f member).1, (each f member).2⟩

theorem ranged_kinit1 (low : L.kend ≤ kinitEnd) (f : Frame) :
    Ranged L.kend kinitEnd f ↔ pages L.kend ≤ ptrPage f ∧ ptrPage f < 0x80400 :=
  ranged_iff (w := 0x80400) low (by decide) (by decide) f

theorem ranged_kinit2 (f : Frame) :
    Ranged kinitEnd (kernBase + physTop) f ↔ 0x80400 ≤ ptrPage f ∧ ptrPage f < 0x8E000 := by
  have first : pages kinitEnd = 0x80400 := by decide
  rw [ranged_iff (w := 0x8E000) (by decide) (by decide) (by decide) f, first]

theorem not_kinit1_of_kinit2 (low : L.kend ≤ kinitEnd) {f : Frame}
    (range : Ranged kinitEnd (kernBase + physTop) f) : ¬ Ranged L.kend kinitEnd f := by
  intro range1
  have := ((ranged_kinit1 low f).mp range1).2
  have := ((ranged_kinit2 f).mp range).1
  omega

theorem bootGhost_nil (f : Frame) : (bootGhost []).own f = .kernel := by
  simp [bootGhost]

theorem allocatable_of_range {f : Frame}
    (from_end : pages L.kend ≤ ptrPage f) (to_top : ptrPage f < 0x8E000) : Allocatable L f := by
  have le : L.kend.toNat ≤ 4096 * ptrPage f := by
    unfold pages at from_end
    omega
  have above : 0x80100 ≤ ptrPage f := by
    have text : kernLink.toNat < L.data.toNat := L.text
    have data : L.data.toNat ≤ L.kend.toNat := L.kend_ge
    have link : kernLink.toNat = 4096 * 0x80100 := by decide
    omega
  obtain ⟨ptr, page⟩ := ptrPage_spec f
  have lt := f.isLt
  rintro (early | late)
  · rw [BitVec.lt_def, ptr] at early
    omega
  · have late' : physTop.toNat ≤ (frameAddr f).toNat := late
    have top : physTop.toNat = 0xE000000 := by decide
    rw [frameAddr_toNat, top] at late'
    omega

theorem pages_kend_le (low : L.kend ≤ kinitEnd) : pages L.kend ≤ 0x80400 := by
  have : L.kend.toNat ≤ kinitEnd.toNat := low
  have : kinitEnd.toNat = 4096 * 0x80400 := by decide
  unfold pages
  omega

theorem kinit1_ends (low : L.kend ≤ kinitEnd) (inv : Inv L m g)
    (kernel : ∀ f, Ranged L.kend kinitEnd f → g.own f = .kernel) :
    Ends (kinit1 L) m fun _ m' => ∃ g', Inv L m' g' ∧
      Donates (Ranged L.kend kinitEnd) m g m' g' ∧
      m'.free.length = m.free.length + (0x80400 - pages L.kend) := by
  have last : kinitEnd.toNat = 4096 * 0x80400 := by decide
  have high : L.kend.toNat ≤ kinitEnd.toNat := low
  have ends := freerange_ends high last (by decide) inv fun f range => ⟨?_, kernel f range⟩
  · exact ends
  · obtain ⟨from_end, to_split⟩ := (ranged_kinit1 low f).mp range
    exact allocatable_of_range from_end (by omega)

theorem kinit2_ends (low : L.kend ≤ kinitEnd) (inv : Inv L m g)
    (kernel : ∀ f, Ranged kinitEnd (kernBase + physTop) f → g.own f = .kernel) :
    Ends (kinit2 L) m fun _ m' => ∃ g', Inv L m' g' ∧
      Donates (Ranged kinitEnd (kernBase + physTop)) m g m' g' ∧ 56320 ≤ m'.free.length := by
  have last : (kernBase + physTop).toNat = 4096 * 0x8E000 := by decide
  have high : kinitEnd.toNat ≤ (kernBase + physTop).toNat := by decide
  rw [kinit2]
  refine (freerange_ends high last (by decide) inv fun f range => ⟨?_, kernel f range⟩).mono ?_
  · obtain ⟨from_split, to_top⟩ := (ranged_kinit2 f).mp range
    exact allocatable_of_range ((pages_kend_le low).trans from_split) to_top
  · rintro _ m' ⟨g', inv', given, length⟩
    have first : pages kinitEnd = 0x80400 := by decide
    rw [first] at length
    exact ⟨g', inv', given, by omega⟩

theorem kernel_before_kinit2 {X Y : Frame → Prop} {m1 m2 m3 : Mem} {g1 g2 g3 : Ghost}
    (given1 : Donates (Ranged L.kend kinitEnd) m (bootGhost []) m1 g1)
    (settles2 : Settles X nobody m1 g1 m2 g2) (settles3 : Settles Y nobody m2 g2 m3 g3)
    (f : Frame) : g3.own f = .kernel ↔ ¬ Ranged L.kend kinitEnd f := by
  rw [settles3.kernel, settles2.kernel]
  by_cases range : Ranged L.kend kinitEnd f
  · rw [given1.given f range]
    simp [range]
  · rw [given1.own f range]
    exact iff_of_true (bootGhost_nil f) range

/-- The machine between two calls.  The frames that no process knows are `kpgdir` and the stacks
of the other processors. -/
structure Machine.Tidy (L : Layout) (s : Machine) (g : Ghost) : Prop where
  sound : Sound L s.sys g
  kdir : ∃ sp, g.space s.kpgdir = some sp
  cpu : ∀ f ∈ s.cpus, g.own f = .held
  nodup : s.cpus.Nodup
  apart : ∀ f, f = s.kpgdir ∨ f ∈ s.cpus → ¬ s.sys.Homes f
  home : ∀ f, (g.own f).Root → s.sys.Homes f ∨ f = s.kpgdir ∨ f ∈ s.cpus
  kernel : ∀ f, g.own f = .kernel ↔ ¬ Given L f
  refreed : s.sys.mem.refreed = []

/-- Memory once `kinit1`, `kvmalloc`, `startothers` and `kinit2` are through. -/
structure Stocked (L : Layout) (kpgdir : Frame) (cpus : List Frame) (m : Mem) (g : Ghost) :
    Prop where
  inv : Inv L m g
  kdir : ∃ sp, g.space kpgdir = some sp
  cpu : ∀ f ∈ cpus, g.own f = .held
  nodup : cpus.Nodup
  home : ∀ f, (g.own f).Root → f = kpgdir ∨ f ∈ cpus
  kernel : ∀ f, g.own f = .kernel ↔ ¬ Given L f
  refreed : m.refreed = []
  enough : 1027 < m.free.length

theorem stocked_of_steps {kpgdir : Frame} {cpus : List Frame} {m1 m2 m3 m4 : Mem}
    {g1 g2 g3 g4 : Ghost} {sp : Space} (low : L.kend ≤ kinitEnd) (clean : m.refreed = [])
    (given1 : Donates (Ranged L.kend kinitEnd) m (bootGhost []) m1 g1)
    (settles2 : Settles (· = kpgdir) nobody m1 g1 m2 g2) (at_d : g2.space kpgdir = some sp)
    (keeps3 : Keeps nobody g2 g3) (settles3 : Settles (· ∈ cpus) nobody m2 g2 m3 g3)
    (nodup : cpus.Nodup) (cpu : ∀ f ∈ cpus, g3.own f = .held) (inv4 : Inv L m4 g4)
    (given4 : Donates (Ranged kinitEnd (kernBase + physTop)) m3 g3 m4 g4)
    (enough : 56320 ≤ m4.free.length) : Stocked L kpgdir cpus m4 g4 := by
  have kernel3 := kernel_before_kinit2 given1 settles2 settles3
  have same4 : ∀ f, g3.own f ≠ .kernel → g4.own f = g3.own f := by
    intro f managed
    refine given4.own f fun range => managed ((kernel3 f).mpr ?_)
    exact not_kinit1_of_kinit2 low range
  refine ⟨inv4, ⟨sp, ?_⟩, fun f member => ?_, nodup, fun f root => ?_, fun f => ?_, ?_, by omega⟩
  · rw [given4.space]
    exact keeps3.space _ sp id at_d
  · have held := cpu f member
    rw [same4 f (by rw [held]; simp), held]
  · have out : ¬ Ranged kinitEnd (kernBase + physTop) f := by
      intro range
      rw [given4.given f range] at root
      exact root
    rw [given4.own f out] at root
    rcases (settles3.root f root).2 with root2 | member
    · rcases (settles2.root f root2).2 with root1 | eq
      · by_cases range : Ranged L.kend kinitEnd f
        · rw [given1.given f range] at root1
          exact root1.elim
        · rw [given1.own f range, bootGhost_nil] at root1
          exact root1.elim
      · exact .inl eq
    · exact .inr member
  · rw [Given, not_or, ← kernel3]
    by_cases range : Ranged kinitEnd (kernBase + physTop) f
    · rw [given4.given f range]
      simp [range]
    · rw [given4.own f range]
      simp [range]
  · rw [given4.refreed, settles3.refreed, settles2.refreed, given1.refreed, clean]

theorem Stocked.tidy {kpgdir : Frame} {cpus : List Frame} {p : Proc} {sp : Space}
    (stocked : Stocked L kpgdir cpus m g) (inv : Inv L m' g') (life : p.life = .initcode)
    (at_p : g'.space p.pgdir = some sp) (held : g'.own p.kstack = .held) (keeps : Keeps nobody g g')
    (dir_free : g.own p.pgdir = .free) (stack_free : g.own p.kstack = .free)
    (settles : Settles (fun f => f = p.kstack ∨ f = p.pgdir) nobody m g m' g') :
    Machine.Tidy L ⟨System.setProc ⟨m', fun _ => none, []⟩ 0 (some p), kpgdir, cpus⟩ g' := by
  have homes : ∀ f, (System.setProc ⟨m', fun _ => none, []⟩ 0 (some p)).Homes f ↔
      f = p.kstack ∨ f = p.pgdir := by
    intro f
    constructor
    · rintro (none | ⟨j, q, at_j, mine⟩)
      · cases none
      · rcases System.setProc_cases at_j with ⟨-, new⟩ | ⟨-, none⟩
        · cases new
          exact mine
        · cases none
    · exact fun mine => .of_proc (System.setProc_self ..) mine
  obtain ⟨spk, at_k⟩ := stocked.kdir
  have taken : ∀ f, f = kpgdir ∨ f ∈ cpus → g.own f ≠ .free := by
    rintro f (rfl | member) free
    · cases free.symm.trans (stocked.inv.space _ spk at_k).dir
    · cases free.symm.trans (stocked.cpu f member)
  constructor
  case sound => exact (Proc.Alive.of_init life at_p held).sound inv
  case kdir => exact ⟨spk, keeps.space _ _ id at_k⟩
  case cpu => exact fun f member => keeps.held f id (stocked.cpu f member)
  case nodup => exact stocked.nodup
  case apart =>
    intro f mine home
    rcases (homes f).mp home with rfl | rfl
    · exact taken _ mine stack_free
    · exact taken _ mine dir_free
  case home =>
    intro f root
    rw [homes]
    rcases (settles.root f root).2 with old | new
    · exact .inr (stocked.home f old)
    · exact .inl new
  case kernel =>
    intro f
    rw [settles.kernel, stocked.kernel]
  case refreed => exact settles.refreed.trans stocked.refreed

def started (r : Frame × List Frame × Proc) (m : Mem) : Machine :=
  ⟨System.setProc ⟨m, fun _ => none, []⟩ 0 (some r.2.2), r.1, r.2.1⟩

theorem main_within (low : L.kend ≤ kinitEnd) (empty : m.free = []) (clean : m.refreed = [])
    (init : List Byte) (others : Nat) :
    Within (fun _ => 0x80400 ≤ pages L.kend + 65 ∨ 4096 ≤ init.length) (main L init others) m
      fun r m' => r.2.2.life = .initcode ∧ 55000 < m'.free.length ∧
        ∃ g, (started r m').Tidy L g := by
  have inv0 : Inv L m (bootGhost []) := by
    have same : m = ⟨m.page, [], m.loaded, m.refreed⟩ := by rw [← empty]
    rw [same]
    exact boot_inv .nil (by simp) m.page m.loaded m.refreed
  refine Ends.bind_within ((kinit1_ends low inv0 fun f _ => bootGhost_nil f).mono ?_)
  rintro _ m1 ⟨g1, inv1, given1, length⟩
  rw [kvmalloc, within_bind, within_bind]
  refine ((setupkvm_ends inv1).mono ?_).within
  rintro _ m2 ⟨g2, inv2, ⟨rfl, -, few⟩ | ⟨kpgdir, sp, rfl, fresh, at_d, -⟩⟩
  · left
    rw [length, empty, length_nil] at few
    omega
  have settles2 := fresh.settles inv1 inv2 at_d
  rw [within_pure]
  refine Ends.bind_within ((startothers_ends others m2 g2 inv2).mono ?_)
  rintro cpus m3 ⟨g3, inv3, keeps3, settles3, nodup, cpu⟩
  have kernel3 := kernel_before_kinit2 given1 settles2 settles3
  refine Ends.bind_within ((kinit2_ends low inv3 fun f range =>
    (kernel3 f).mpr (not_kinit1_of_kinit2 low range)).mono ?_)
  rintro _ m4 ⟨g4, inv4, given4, enough⟩
  have stocked := stocked_of_steps low clean given1 settles2 at_d keeps3 settles3 nodup
    (fun f member => (cpu f member).2) inv4 given4 enough
  rw [within_bind]
  refine (userinit_within inv4 init).mono ?_ ?_
  · rintro _ (few | large)
    · omega
    · exact .inr large
  · rintro p m5 ⟨life, cost, g5, sp5, inv5, at_p, held, keeps, dir_free, stack_free, few | settles⟩
    · omega
    · rw [within_pure]
      exact ⟨life, by omega, g5, stocked.tidy inv5 life at_p held keeps dir_free stack_free settles⟩

variable {init : List Byte} {others : Nat} {s : Machine}

theorem Machine.tidy_of_init (start : (machine L init others).init s) : ∃ g, s.Tidy L g := by
  obtain ⟨m, p, m', empty, clean, ran, system⟩ := start
  have low : L.kend ≤ kinitEnd := by
    obtain ⟨_, _, _, rest⟩ := Prog.of_bind ran
    obtain ⟨_, _, _, rest⟩ := Prog.of_bind rest
    obtain ⟨_, _, _, rest⟩ := Prog.of_bind rest
    obtain ⟨_, _, ran2, _⟩ := Prog.of_bind rest
    exact kend_le_of_kinit2 ran2
  have same : s = started (s.kpgdir, s.cpus, p) m' := by
    rw [started, ← system]
  rw [same]
  exact ((within_ok ran).mp (main_within low empty clean init others)).2.2

/-! ## Steps of the machine -/

theorem Machine.Tidy.step {t : Machine} {a : Action} (tidy : s.Tidy L g)
    (step : (machine L init others).step s a t) : ∃ g', t.Tidy L g' := by
  obtain ⟨system, kpgdir, cpus⟩ := step
  obtain ⟨g', sound, conserves⟩ : Follows L s.sys g t.sys := step_conserves tidy.sound system
  obtain ⟨spk, at_k⟩ := tidy.kdir
  have strange : ∀ f, f = s.kpgdir ∨ f ∈ s.cpus → g.own f ≠ .free := by
    rintro f (rfl | member) free
    · cases free.symm.trans (tidy.sound.inv.space _ spk at_k).dir
    · cases free.symm.trans (tidy.cpu f member)
  refine ⟨g', sound, ⟨spk, ?_⟩, fun f member => ?_, ?_, fun f mine home => ?_, fun f root => ?_,
    fun f => ?_, ?_⟩
  · rw [kpgdir]
    exact conserves.keeps.space _ _ (tidy.apart _ (.inl rfl)) at_k
  · rw [cpus] at member
    exact conserves.keeps.held f (tidy.apart f (.inr member)) (tidy.cpu f member)
  · rw [cpus]
    exact tidy.nodup
  · rw [kpgdir, cpus] at mine
    rcases conserves.fresh f home with old | free
    · exact tidy.apart f mine old
    · exact strange f mine free
  · rw [kpgdir, cpus]
    rcases conserves.home f root with home | ⟨old, out⟩
    · exact .inl home
    · exact .inr ((tidy.home f old).resolve_left out)
  · rw [conserves.kernel, tidy.kernel]
  · rw [conserves.refreed, tidy.refreed]

theorem Machine.reachable_tidy (reach : (machine L init others).Reachable s) : ∃ g, s.Tidy L g := by
  refine reach.invariant (fun _ => Machine.tidy_of_init) ?_
  rintro s a t - ⟨g, tidy⟩ step
  exact tidy.step step

end Xv6.Vm
