import Xv6.Vm.Roots
import Xv6.Vm.Stack
import Mathlib.Data.List.Nodup

/-!
# What `exec` does with any file

`exec` takes program headers and arguments from users.  For every file, all arguments and any
amount of memory it ends, with a new image or with everything as it was, except for the two
faults that `Verdict.Faults` describes: a segment that starts in page 0, below the first page
that `exec` allocates, and an argument so long that the stack pointer wraps around into addresses
without page tables.
-/

namespace Xv6.Vm

open List

variable {L : Layout} {m m' : Mem} {g g' : Ghost} {d old : Frame} {sp : Space}

/-- What `exec` does with the file and the arguments, memory permitting. -/
def execVerdict (file : Option File) : Verdict :=
  match file with
  | none => .bad
  | some ip =>
    match ip.elfHeader with
    | none => .bad
    | some elf => plan ip elf.phnum.toNat elf.phoff pgSize

/-- Everything that was in use before a failed `exec` is still there. -/
structure ExecFailed (L : Layout) (m : Mem) (g : Ghost) (m' : Mem) (g' : Ghost) : Prop where
  inv : Inv L m' g'
  own : g'.own = g.own
  space : g'.space = g.space
  kept : ∀ f, g.own f ≠ .free → g.own f ≠ .kernel → m'.page f = m.page f
  refreed : m'.refreed = m.refreed

structure ExecDone (L : Layout) (m : Mem) (g : Ghost) (old : Frame) (img : Image) (m' : Mem)
    (g' : Ghost) (sp : Space) : Prop where
  inv : Inv L m' g'
  fresh : g.own img.pgdir = .free
  at_new : g'.space img.pgdir = some sp
  gone : g'.space old = none
  space : ∀ e, e ≠ img.pgdir → e ≠ old → g'.space e = g.space e
  held : ∀ f, g.own f = .held → g'.own f = .held
  shape : Shape sp (pages img.sz) (some (pages img.sz - 2)) fun _ => false
  three : 3 ≤ pages img.sz
  limit : img.sz.toNat < 2 ^ 31
  settles : Settles (· = img.pgdir) (· = old) m g m' g'

structure ExecPost (L : Layout) (m : Mem) (g : Ghost) (old : Frame) (argv : List CStr) (v : Verdict)
    (r : Option Image) (m' : Mem) : Prop where
  failed : r = none → ∃ g', ExecFailed L m g m' g'
  done : ∀ img, r = some img →
    (∀ s, v = .size s → img.sz = stackTop s) ∧ ∃ g' sp, ExecDone L m g old img m' g' sp
  clean : ¬ v.Faults argv → Clean m m'
  dirty : v.Faults argv → (∃ s, v = .low s ∧ pgSize < s ∧ 0 ∈ m'.loaded) ∨ Short m v
  succeeds : ∀ sz, v = .size sz → stackTop sz < kernBase → ArgsFit argv → r = none → Short m v

theorem KernelOnly.loading (inv : Inv L m g) (inv' : Inv L m' g') (fresh : Fresh d m g m' g')
    (at_d : g'.space d = some sp) (kernel : KernelOnly kernelPages sp) :
    Loading L m g d pgSize m' g' sp where
  inv := inv'
  at_d := at_d
  builds := fresh.builds inv
  shape := kernel.shape (by decide)
  tables := kernel.tables
  zero := kernel.rest 0 (by unfold kernelPages; omega)
  from_page := by decide
  limit := by decide

theorem abandon_ends {m1 : Mem} (inv : Inv L m g) (abandoned : Abandoned L m g d m1) :
    Ends (freevm L d) m1 fun _ m' => m'.loaded = m1.loaded ∧ ∃ g', ExecFailed L m g m' g' := by
  obtain ⟨g1, sp1, inv1, at_d, builds⟩ := abandoned
  refine (freevm_ends inv1 at_d).mono ?_
  rintro _ m2 ⟨g2, inv2, gone, shrinks⟩
  obtain ⟨own, space, kept⟩ := builds.rollback inv shrinks gone
  refine ⟨shrinks.loaded, g2, inv2, own, space, fun f taken managed => ?_,
    shrinks.refreed.trans builds.refreed⟩
  rw [kept f taken]
  exact builds.kept f (fun eq => taken (eq ▸ builds.free)) taken managed

variable {spo : Space}

theorem commit_ends {m1 : Mem} {g1 : Ghost} {sp1 : Space} {sz : Addr} (eip esp : Addr)
    (inv : Inv L m g) (at_old : g.space old = some spo)
    (stacked : Stacked L m g d (pages sz) m1 g1 sp1) (limit : sz.toNat < 2 ^ 31) :
    Ends (freevm L old) m1 fun _ m' => m'.loaded = m1.loaded ∧
      ∃ g' sp, ExecDone L m g old ⟨d, sz, eip, esp⟩ m' g' sp := by
  have builds := stacked.builds
  have dir := (inv.space old spo at_old).dir
  have ne : old ≠ d := by
    rintro rfl
    cases builds.free.symm.trans dir
  have at_old1 : g1.space old = some spo := (builds.space old ne).trans at_old
  refine (freevm_ends stacked.inv at_old1).mono ?_
  rintro _ m2 ⟨g2, inv2, gone, shrinks⟩
  refine ⟨shrinks.loaded, g2, sp1, inv2, builds.free, ?_, gone, fun e ne_d ne_old => ?_,
    fun f held => ?_, stacked.shape, stacked.three, limit, ?_⟩
  · rw [shrinks.space d ne.symm, stacked.at_d]
  · rw [shrinks.space e ne_old, builds.space e ne_d]
  · have held1 : g1.own f = .held := by
      rw [builds.own f ?_ (by rw [held]; simp), held]
      rintro rfl
      cases builds.free.symm.trans held
    rw [shrinks.own f ?_, held1]
    rintro (rfl | inside)
    · cases held.symm.trans dir
    · rw [held1] at inside
      exact inside
  · exact (builds.settles stacked.inv stacked.at_d).trans
      (shrinks.settles_dir stacked.inv at_old1) (fun f new => new.elim And.left False.elim)
      fun f => .inl

theorem exec_within (inv : Inv L m g) (at_old : g.space old = some spo) (file : Option File)
    (argv : List CStr) :
    Within (ImageStop argv (execVerdict file)) (exec L file argv old) m
      (ExecPost L m g old argv (execVerdict file)) := by
  have refused : ExecPost L m g old argv .bad none m :=
    ⟨fun _ => ⟨g, inv, rfl, rfl, fun _ _ _ => rfl, rfl⟩, (by simp), fun _ => .refl m, False.elim,
    (by simp)⟩
  unfold exec execVerdict
  cases file with
  | none => exact refused
  | some ip =>
    cases header : ip.elfHeader with
    | none =>
      simp only [header]
      exact refused
    | some elf =>
      simp only [header]
      refine Ends.bind_within ((setupkvm_ends inv).mono ?_)
      rintro r m1 ⟨g1, inv1, ⟨rfl, restores, few⟩ | ⟨d, sp, rfl, fresh, at_d, kernel⟩⟩
      · have short : ∀ v, Short m v := by
          intro v
          unfold Short
          omega
        exact ⟨fun _ => ⟨g1, inv1, restores.own, restores.space,
            fun f taken _ => restores.kept f taken, restores.refreed⟩,
          (by simp), fun _ => .of_eq restores.loaded, fun _ => .inr (short _),
            fun _ _ _ _ _ => short _⟩
      · have loading := kernel.loading inv inv1 fresh at_d
        rw [within_bind]
        refine (loadImage_within inv loading argv).mono (fun _ => id) ?_
        generalize plan ip elf.phnum.toNat elf.phoff pgSize = v
        intro r m2 post
        have same1 : Clean m m1 := .of_eq fresh.grows.loaded
        cases r with
        | none =>
          refine Ends.bind_within ((abandon_ends inv (post.abandoned rfl)).mono ?_)
          rintro _ m3 ⟨same, failed⟩
          rw [within_pure]
          refine ⟨fun _ => failed, (by simp), fun safe => ?_, fun faults => ?_,
            fun sz eq low args _ => post.succeeds sz eq low args rfl⟩
          · exact (same1.trans (post.clean safe)).trans (.of_eq same)
          · rw [same]
            exact post.dirty faults
        | some image =>
          obtain ⟨sz, stack⟩ := image
          obtain ⟨limit, size, g2, sp2, stacked⟩ := post.image sz stack rfl
          refine Ends.bind_within ((commit_ends elf.entry stack inv at_old stacked limit).mono ?_)
          rintro _ m3 ⟨same, done⟩
          rw [within_pure]
          refine ⟨(by simp), fun img eq => ?_, fun safe => ?_, fun faults => ?_,
            (by simp)⟩
          · cases eq
            exact ⟨size, done⟩
          · exact (same1.trans (post.clean safe)).trans (.of_eq same)
          · rw [same]
            exact post.dirty faults

/-! ## Robustness -/

/-- `exec` comes to an end, and every byte of the file that `loaduvm` has stored went through the
entry of a present user page. -/
def Robust (L : Layout) (file : Option File) (argv : List CStr) (old : Frame) (m : Mem) : Prop :=
  Ends (exec L file argv old) m fun _ m' => ∀ pte ∈ m'.loaded, Has pteP pte ∧ Has pteU pte

/-- **Robustness of `exec`.**  Whatever the file, the arguments and the memory, `exec` is robust
unless the program headers or the arguments fault; and if they do it is not, once there is
memory enough to get that far. -/
theorem exec_robust_iff (inv : Inv L m g) (at_old : g.space old = some spo) (start : m.loaded = [])
    (file : Option File) (argv : List CStr) :
    (¬ (execVerdict file).Faults argv → Robust L file argv old m) ∧
      (¬ Short m (execVerdict file) → Robust L file argv old m →
        ¬ (execVerdict file).Faults argv) := by
  have within := exec_within inv at_old file argv
  generalize execVerdict file = v at *
  constructor
  · intro safe
    have no_stop : ∀ e, ¬ ImageStop argv v e := by
      intro e stop
      cases stop with
      | low s => exact safe trivial
      | null _ faults _ => exact safe faults
    refine (within.ends no_stop).mono fun r m' post pte member => ?_
    rcases post.clean safe pte member with before | good
    · rw [start] at before
      cases before
    · exact good
  · intro enough robust faults
    obtain ⟨r, m', eq, good⟩ := robust.exists
    unfold Within at within
    rw [eq] at within
    rcases within.dirty faults with ⟨s, _, _, zero⟩ | short
    · exact absurd (good 0 zero).1 (not_has_zero _)
    · exact enough short

/-- Without a page table for page 0 a segment that starts there is a panic. -/
theorem exec_low_panics (inv : Inv L m g) (at_old : g.space old = some spo) {file : Option File}
    (argv : List CStr) {s : Addr} (low : execVerdict file = .low s) (small : s ≤ pgSize)
    (enough : ¬ Short m (.low s)) : exec L file argv old m = .error (.panic .loaduvmExist) := by
  have within := exec_within inv at_old file argv
  have not_large : ¬ pgSize < s := BitVec.not_lt.mpr small
  rw [low] at within
  unfold Within at within
  cases result : exec L file argv old m with
  | ok r =>
    rw [result] at within
    rcases within.dirty trivial with ⟨s', eq, large, _⟩ | short
    · cases eq
      exact absurd large not_large
    · exact absurd short enough
  | error e =>
    rw [result] at within
    cases within with
    | low _ => rfl
    | null _ _ large => exact absurd (large s rfl) not_large

theorem exec_args_null (inv : Inv L m g) (at_old : g.space old = some spo) {file : Option File}
    {argv : List CStr} {s : Addr} (size : execVerdict file = .size s)
    (faults : (Verdict.size s).Faults argv) (enough : ¬ Short m (.size s)) :
    exec L file argv old m = .error .nullPointer := by
  have within := exec_within inv at_old file argv
  rw [size] at within
  unfold Within at within
  cases result : exec L file argv old m with
  | ok r =>
    rw [result] at within
    rcases within.dirty faults with ⟨_, eq, _⟩ | short
    · cases eq
    · exact absurd short enough
  | error e =>
    rw [result] at within
    cases within with
    | null _ _ _ => rfl

/-! ## A machine -/

/-- The owners on a machine that has just started, with the free list `free`: there is no
address space yet. -/
def bootGhost (free : List Frame) : Ghost :=
  ⟨fun f => if f ∈ free then .free else .kernel, fun _ => none⟩

theorem boot_inv {free : List Frame} (nodup : free.Nodup) (alloc : ∀ f ∈ free, Allocatable L f)
    (page : Frame → Page) (loaded : List Addr) (refreed : List Frame) :
    Inv L ⟨page, free, loaded, refreed⟩ (bootGhost free) := by
  have role : ∀ f, (bootGhost free).own f = if f ∈ free then .free else .kernel := fun _ => rfl
  refine ⟨⟨nodup, fun f => ?_, fun f managed => ?_, fun f d inside => ?_, fun f dir => ?_⟩,
    (by intros; contradiction)⟩
  · rw [role]
    by_cases member : f ∈ free <;> simp [member]
  · refine alloc f (Classical.byContradiction fun member => managed ?_)
    rw [role, if_neg member]
  · rw [role] at inside
    split at inside <;> exact inside.elim
  · rw [role] at dir
    split at dir <;> cases dir

def kernelLayout : Layout where
  data := 0x80108000
  kend := 0x801156D0
  aligned := by decide
  text := by decide
  data_lt := by decide
  kend_ge := by decide

/-- Free memory for the kernel to start with. -/
theorem frames_exist : ∃ free : List Frame, free.Nodup ∧
    (∀ f ∈ free, Allocatable kernelLayout f) ∧ free.length = 8192 := by
  refine ⟨(range 8192).map fun i => BitVec.ofNat 20 (4096 + i), ?_, fun f member => ?_, by simp⟩
  · refine List.Nodup.map_on (fun i at_i j at_j eq => ?_) nodup_range
    have := congrArg BitVec.toNat eq
    rw [mem_range] at at_i at_j
    rw [BitVec.toNat_ofNat, BitVec.toNat_ofNat] at this
    omega
  · obtain ⟨i, at_i, rfl⟩ := mem_map.mp member
    rw [mem_range] at at_i
    have frame : (frameAddr (BitVec.ofNat 20 (4096 + i))).toNat = (4096 + i) * 4096 := by
      rw [frameAddr_toNat, BitVec.toNat_ofNat]
      omega
    rintro (low | high)
    · have low' : (frameAddr (BitVec.ofNat 20 (4096 + i)) + kernBase).toNat < 0x801156D0 := low
      rw [BitVec.toNat_add, frame] at low'
      change ((4096 + i) * 4096 + 0x80000000) % 2 ^ 32 < 0x801156D0 at low'
      omega
    · have high' : 0xE000000 ≤ (frameAddr (BitVec.ofNat 20 (4096 + i))).toNat := high
      omega

theorem machine_exists : ∃ m g d sp, Inv kernelLayout m g ∧ g.space d = some sp ∧ m.loaded = [] ∧
    2060 < m.free.length := by
  obtain ⟨free, nodup, alloc, length⟩ := frames_exist
  have inv := boot_inv nodup alloc (fun _ _ => 0) [] []
  obtain ⟨r, m, _, g, inv', ⟨rfl, _, few⟩ | ⟨d, sp, rfl, fresh, at_d, kernel⟩⟩ :=
    (setupkvm_ends inv).exists
  · change free.length ≤ 65 at few
    omega
  · have cost : free.length ≤ m.free.length + 1025 + 0 :=
      inv.cost inv' at_d fresh.grows.new fun v low present => by
        rw [kernel.rest v (by unfold kernelPages; omega)] at present
        exact absurd present (not_has_zero _)
    exact ⟨m, g, d, sp, inv', at_d, fresh.grows.loaded, by omega⟩

/-- An ELF header for `phnum` program headers right behind it. -/
def elfBytes (phnum : Byte) : List Byte :=
  wordBytes elfMagic ++ replicate 24 0 ++ wordBytes 52 ++ replicate 12 0 ++ [phnum, 0] ++
    replicate 6 0

def emptyProgram : File := ⟨elfBytes 0, by decide⟩

def lowProgram : File :=
  ⟨elfBytes 1 ++ [elfProgLoad, 0, 0, 0, 1, 1, 0, 0].flatMap wordBytes, by decide⟩

theorem exists_cstr {n : Nat} (lt : n < 2 ^ 31) : ∃ s : CStr, s.bytes.length = n :=
  ⟨⟨replicate n 1, by simp [mem_replicate], by simpa using lt⟩, length_replicate⟩

/-- A program with one segment of a page and two words at `PGSIZE`, the first of which is in the
file. -/
def smallProgram : File :=
  ⟨elfBytes 1 ++ [elfProgLoad, 84, pgSize, 0, 4, 0x1008, 0, 0].flatMap wordBytes ++ [1, 2, 3, 4],
    by decide⟩

def greeting : CStr := ⟨[104, 105], by decide, by decide⟩

/-- What a successful `exec` has cost. -/
theorem ExecDone.cost {img : Image} {sp : Space} (inv : Inv L m g)
    (done : ExecDone L m g old img m' g' sp) :
    m.free.length ≤ m'.free.length + 1025 + pages img.sz := by
  refine inv.cost done.inv done.at_new (fun f ne free => ?_)
    fun v low present => ((done.shape.present v low).mp present).2
  -- the other address spaces have the pages that they had
  have new : ∀ e, (g'.own f).In e → e = img.pgdir := by
    intro e inside
    by_contra other
    obtain ⟨spe, at_e⟩ := done.inv.books.live f e inside
    have ne_old : e ≠ old := by
      rintro rfl
      cases done.gone.symm.trans at_e
    have ok := inv.space e spe ((done.space e other ne_old).symm.trans at_e)
    have ok' := done.inv.space e spe at_e
    cases role : g'.own f with
    | table d i =>
      obtain rfl : d = e := by rwa [role] at inside
      cases free.symm.trans ((ok.table i f).mpr ((ok'.table i f).mp role))
    | user d v =>
      obtain rfl : d = e := by rwa [role] at inside
      cases free.symm.trans ((ok.user v f).mpr ((ok'.user v f).mp role))
    | _ =>
      rw [role] at inside
      exact inside
  have root : ¬ (g'.own f).Root := by
    intro root
    rcases (done.settles.root f root).2 with before | eq
    · rw [free] at before
      exact before
    · exact ne eq
  cases role : g'.own f with
  | free => exact .inl rfl
  | kernel => cases free.symm.trans ((done.settles.kernel f).mp role)
  | held => exact absurd (by rw [role]; trivial) root
  | dir => exact absurd (by rw [role]; trivial) root
  | table e i => exact .inr (new e (by rw [role]; exact rfl) ▸ rfl)
  | user e v => exact .inr (new e (by rw [role]; exact rfl) ▸ rfl)

theorem exec_small (inv : Inv L m g) (at_old : g.space old = some spo)
    (enough : 2060 < m.free.length) : ∃ img m' g' sp,
      exec L (some smallProgram) [greeting] old m = .ok (some img, m') ∧
      ExecDone L m g old img m' g' sp ∧ img.sz = 0x5000 ∧
      m.free.length ≤ m'.free.length + 1030 := by
  have verdict : execVerdict (some smallProgram) = .size 0x2008 := by decide +kernel
  have ends := (exec_within inv at_old (some smallProgram) [greeting]).ends fun e stop => by
    rw [verdict] at stop
    cases stop with
    | null _ faults _ => exact absurd faults (by decide +kernel)
  obtain ⟨r, m', ran, post⟩ := ends.exists
  cases r with
  | none =>
    have short := post.succeeds 0x2008 verdict (by decide +kernel) (by decide) rfl
    rw [verdict] at short
    change m.free.length ≤ 2052 + 2 * ((0x2008 + 4095) / 4096) at short
    omega
  | some img =>
    obtain ⟨size, g', sp, done⟩ := post.done img rfl
    have top : stackTop 0x2008 = 0x5000 := by decide +kernel
    have size := (size _ verdict).trans top
    have cost := done.cost inv
    rw [size] at cost
    exact ⟨img, m', g', sp, ran, done, size, cost⟩

theorem exec_robust_small :
    ∃ m old img m', Robust kernelLayout (some smallProgram) [greeting] old m ∧
    exec kernelLayout (some smallProgram) [greeting] old m = .ok (some img, m') := by
  obtain ⟨m, g, d, sp, inv, at_d, start, enough⟩ := machine_exists
  obtain ⟨img, m', -, -, ran, -⟩ := exec_small inv at_d enough
  exact ⟨m, d, img, m', (exec_robust_iff inv at_d start (some smallProgram) [greeting]).1
    (by decide +kernel), ran⟩

/-- A program linked at address 0 brings the kernel down, and so does an argument of 48 MB. -/
theorem exec_not_robust : ∃ m g old spo s, Inv kernelLayout m g ∧ g.space old = some spo ∧
    exec kernelLayout (some lowProgram) [] old m = .error (.panic .loaduvmExist) ∧
    exec kernelLayout (some emptyProgram) [s] old m = .error .nullPointer := by
  obtain ⟨m, g, d, sp, inv, at_d, start, free⟩ := machine_exists
  have enough : ∀ v : Verdict, v.top ≤ 4096 → ¬ Short m v := by
    intro v top short
    unfold Short at short
    omega
  obtain ⟨s, len⟩ := exists_cstr (n := 50331648) (by decide)
  refine ⟨m, g, d, sp, s, inv, at_d, ?_, ?_⟩
  · exact exec_low_panics inv at_d [] (s := pgSize) (by decide +kernel) (by decide)
      (enough _ (Nat.le_refl _))
  · refine exec_args_null inv at_d (s := pgSize) (by decide +kernel) ?_ (enough _ (Nat.le_refl _))
    have top : stackTop pgSize = 0x3000 := by decide +kernel
    have wrapped : argSp 0x3000 s = 0xFD002FFC := by
      unfold argSp
      rw [len]
      decide
    rw [Verdict.Faults, top]
    refine ⟨by decide, ?_⟩
    unfold ArgsFault
    rw [wrapped]
    decide

end Xv6.Vm
