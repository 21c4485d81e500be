import Xv6.Vm.Boot

/-!
# Pages are conserved

Between two calls, every page that `kinit1` and `kinit2` have given to the allocator is on the free
list or belongs to somebody, and to one only.  `Owns` reads the owners off memory, as a debugger
would: from the free list, the process table, the pipes and the words of the page tables.
-/

namespace Xv6.Vm

/-- What a page may be used for.  A page table is the kernel's own (`none`) or that of a process;
its user pages and page-table pages are named by their virtual page and their directory index. -/
inductive Owner
  | freelist
  | directory (i : Option (Fin nproc))
  | table (i : Option (Fin nproc)) (k : Nat)
  | user (i : Option (Fin nproc)) (v : Nat)
  | kstack (i : Fin nproc)
  | pipe
  | cpu
  deriving DecidableEq

def Machine.pgdir (s : Machine) : Option (Fin nproc) → Option Frame
  | none => some s.kpgdir
  | some i => (s.sys.proc i).map Proc.pgdir

def pageAddr (v : Nat) : Addr := BitVec.ofNat 32 (4096 * v)

def Machine.Owns (s : Machine) (f : Frame) : Owner → Prop
  | .freelist => f ∈ s.sys.mem.free
  | .directory i => s.pgdir i = some f
  | .table i k => ∃ d, s.pgdir i = some d ∧ k < 1024 ∧ Has pteP ((s.sys.mem.page d).word k) ∧
      pteFrame ((s.sys.mem.page d).word k) = f
  | .user i v => ∃ d, s.pgdir i = some d ∧ v < 2 ^ 19 ∧ Has pteP (s.sys.mem.pte d (pageAddr v)) ∧
      pteFrame (s.sys.mem.pte d (pageAddr v)) = f
  | .kstack i => ∃ p, s.sys.proc i = some p ∧ p.kstack = f
  | .pipe => f ∈ s.sys.pipes
  | .cpu => f ∈ s.cpus

variable {L : Layout} {s : Machine} {g : Ghost} {f d : Frame}

theorem vpn_pageAddr {v : Nat} (lt : v < 2 ^ 20) : vpn (pageAddr v) = v := by
  unfold vpn pageAddr
  rw [BitVec.toNat_ofNat]
  omega

/-! ## Page tables in memory -/

theorem SpaceOk.table_iff {m : Mem} {own : Frame → Role} {sp : Space} (ok : SpaceOk m own d sp)
    (k : Nat) : own f = .table d k ↔
      k < 1024 ∧ Has pteP ((m.page d).word k) ∧ pteFrame ((m.page d).word k) = f := by
  rw [ok.table]
  refine and_congr_right fun lt => ?_
  cases tab : sp.tab k with
  | none =>
    have absent := ok.absent k lt tab
    exact iff_of_false (by simp) fun h => absent h.1
  | some x =>
    rw [ok.present k x lt tab, pteFrame_pdeOf, Option.some.injEq]
    exact ⟨fun eq => ⟨pdeOf_present x, eq⟩, And.right⟩

theorem SpaceOk.user_iff {m : Mem} {own : Frame → Role} {sp : Space} (ok : SpaceOk m own d sp)
    (v : Nat) : own f = .user d v ↔
      v < 2 ^ 19 ∧ Has pteP (m.pte d (pageAddr v)) ∧ pteFrame (m.pte d (pageAddr v)) = f := by
  rw [ok.user]
  refine and_congr_right fun lt => ?_
  rw [ok.pte_eq, vpn_pageAddr (by omega)]

/-! ## Owners and roles -/

namespace Machine.Tidy

variable (tidy : s.Tidy L g)
include tidy

theorem space {i : Option (Fin nproc)} (at_i : s.pgdir i = some d) :
    ∃ sp, g.space d = some sp ∧ SpaceOk s.sys.mem g.own d sp := by
  have live : ∃ sp, g.space d = some sp := by
    cases i with
    | none =>
      cases at_i
      exact tidy.kdir
    | some i =>
      obtain ⟨p, at_p, rfl⟩ := Option.map_eq_some_iff.mp at_i
      obtain ⟨sp, at_d, -⟩ := (tidy.sound.alive i p at_p).space
      exact ⟨sp, at_d⟩
  obtain ⟨sp, at_d⟩ := live
  exact ⟨sp, at_d, tidy.sound.inv.space d sp at_d⟩

theorem pgdir_inj {i j : Option (Fin nproc)} (at_i : s.pgdir i = some d)
    (at_j : s.pgdir j = some d) : i = j := by
  have process : ∀ {k}, s.pgdir (some k) = some d → s.sys.Homes d := by
    intro k at_k
    obtain ⟨p, at_p, rfl⟩ := Option.map_eq_some_iff.mp at_k
    exact .of_proc at_p (.inr rfl)
  have kernel : s.pgdir none = some d → ¬ s.sys.Homes d := by
    rintro ⟨⟩
    exact tidy.apart _ (.inl rfl)
  cases i with
  | none =>
    cases j with
    | none => rfl
    | some j => exact absurd (process at_j) (kernel at_i)
  | some i =>
    cases j with
    | none => exact absurd (process at_i) (kernel at_j)
    | some j =>
      obtain ⟨p, at_p, rfl⟩ := Option.map_eq_some_iff.mp at_i
      obtain ⟨q, at_q, eq⟩ := Option.map_eq_some_iff.mp at_j
      by_contra ne
      exact (tidy.sound.apart i j p q at_p at_q fun same => ne (by rw [same])).1 eq.symm

theorem pgdir_of_dir (dir : g.own d = .dir) : ∃ i, s.pgdir i = some d := by
  rcases tidy.home d (by rw [dir]; trivial) with (pipe | ⟨i, p, at_i, stack | eq⟩) | eq | cpu
  · cases dir.symm.trans (tidy.sound.pipe d pipe)
  · rw [stack] at dir
    cases dir.symm.trans (tidy.sound.alive i p at_i).stack
  · refine ⟨some i, ?_⟩
    rw [Machine.pgdir, at_i, eq]
    rfl
  · exact ⟨none, by rw [Machine.pgdir, eq]⟩
  · cases dir.symm.trans (tidy.cpu d cpu)

theorem pgdir_of_in (inside : (g.own f).In d) : ∃ i, s.pgdir i = some d := by
  obtain ⟨sp, at_d⟩ := tidy.sound.inv.books.live f d inside
  exact tidy.pgdir_of_dir (tidy.sound.inv.space d sp at_d).dir

theorem owned (given : Given L f) : ∃ o, s.Owns f o := by
  cases role : g.own f with
  | kernel => exact absurd given ((tidy.kernel f).mp role)
  | free => exact ⟨.freelist, (tidy.sound.inv.books.free_iff f).mpr role⟩
  | held =>
    rcases tidy.home f (by rw [role]; trivial) with (pipe | ⟨i, p, at_i, stack | dir⟩) | eq | cpu
    · exact ⟨.pipe, pipe⟩
    · exact ⟨.kstack i, p, at_i, stack.symm⟩
    · rw [dir] at role
      cases role.symm.trans ((tidy.sound.alive i p at_i).dir tidy.sound.inv)
    · obtain ⟨sp, at_k⟩ := tidy.kdir
      rw [eq] at role
      cases role.symm.trans (tidy.sound.inv.space _ sp at_k).dir
    · exact ⟨.cpu, cpu⟩
  | dir =>
    obtain ⟨i, at_i⟩ := tidy.pgdir_of_dir role
    exact ⟨.directory i, at_i⟩
  | table d k =>
    obtain ⟨i, at_i⟩ := tidy.pgdir_of_in (by rw [role]; exact rfl)
    obtain ⟨sp, -, ok⟩ := tidy.space at_i
    exact ⟨.table i k, d, at_i, (ok.table_iff k).mp role⟩
  | user d v =>
    obtain ⟨i, at_i⟩ := tidy.pgdir_of_in (by rw [role]; exact rfl)
    obtain ⟨sp, -, ok⟩ := tidy.space at_i
    exact ⟨.user i v, d, at_i, (ok.user_iff v).mp role⟩

theorem role {o : Owner} (owns : s.Owns f o) :
    match o with
    | .freelist => g.own f = .free
    | .directory i => g.own f = .dir ∧ s.pgdir i = some f
    | .table i k => ∃ d, s.pgdir i = some d ∧ g.own f = .table d k
    | .user i v => ∃ d, s.pgdir i = some d ∧ g.own f = .user d v
    | .kstack i => g.own f = .held ∧ ∃ p, s.sys.proc i = some p ∧ p.kstack = f
    | .pipe => g.own f = .held ∧ f ∈ s.sys.pipes
    | .cpu => g.own f = .held ∧ f ∈ s.cpus := by
  cases o with
  | freelist => exact (tidy.sound.inv.books.free_iff f).mp owns
  | directory i =>
    obtain ⟨sp, -, ok⟩ := tidy.space owns
    exact ⟨ok.dir, owns⟩
  | table i k =>
    obtain ⟨d, at_i, entry⟩ := owns
    obtain ⟨sp, -, ok⟩ := tidy.space at_i
    exact ⟨d, at_i, (ok.table_iff k).mpr entry⟩
  | user i v =>
    obtain ⟨d, at_i, entry⟩ := owns
    obtain ⟨sp, -, ok⟩ := tidy.space at_i
    exact ⟨d, at_i, (ok.user_iff v).mpr entry⟩
  | kstack i =>
    obtain ⟨p, at_i, rfl⟩ := owns
    exact ⟨(tidy.sound.alive i p at_i).stack, p, at_i, rfl⟩
  | pipe => exact ⟨tidy.sound.pipe f owns, owns⟩
  | cpu => exact ⟨tidy.cpu f owns, owns⟩

theorem held_unique :
    (∀ {i j p q}, s.sys.proc i = some p → s.sys.proc j = some q → p.kstack = f → q.kstack = f →
      i = j) ∧
    (∀ {i p}, s.sys.proc i = some p → p.kstack = f → f ∉ s.sys.pipes ∧ f ∉ s.cpus) ∧
    (f ∈ s.sys.pipes → f ∉ s.cpus) := by
  refine ⟨?_, ?_, ?_⟩
  · rintro i j p q at_i at_j rfl eq
    by_contra ne
    exact (tidy.sound.apart i j p q at_i at_j ne).2 eq.symm
  · rintro i p at_i rfl
    exact ⟨tidy.sound.stack i p at_i, fun cpu => tidy.apart _ (.inr cpu) (.of_proc at_i (.inl rfl))⟩
  · exact fun pipe cpu => tidy.apart f (.inr cpu) (.inl pipe)

theorem owner_unique {o o' : Owner} (owns : s.Owns f o) (owns' : s.Owns f o') : o = o' := by
  have first := tidy.role owns
  have second := tidy.role owns'
  obtain ⟨stacks_eq, stack_out, pipe_out⟩ := tidy.held_unique (f := f)
  cases o <;> cases o' <;> simp only at first second
  case freelist.freelist => rfl
  case directory.directory => rw [tidy.pgdir_inj first.2 second.2]
  case table.table =>
    obtain ⟨d, at_i, role⟩ := first
    obtain ⟨e, at_j, role'⟩ := second
    cases role.symm.trans role'
    rw [tidy.pgdir_inj at_i at_j]
  case user.user =>
    obtain ⟨d, at_i, role⟩ := first
    obtain ⟨e, at_j, role'⟩ := second
    cases role.symm.trans role'
    rw [tidy.pgdir_inj at_i at_j]
  case kstack.kstack =>
    obtain ⟨-, p, at_i, eq⟩ := first
    obtain ⟨-, q, at_j, eq'⟩ := second
    rw [stacks_eq at_i at_j eq eq']
  case kstack.pipe =>
    obtain ⟨-, p, at_i, eq⟩ := first
    exact absurd second.2 (stack_out at_i eq).1
  case kstack.cpu =>
    obtain ⟨-, p, at_i, eq⟩ := first
    exact absurd second.2 (stack_out at_i eq).2
  case pipe.kstack =>
    obtain ⟨-, p, at_i, eq⟩ := second
    exact absurd first.2 (stack_out at_i eq).1
  case pipe.pipe => rfl
  case pipe.cpu => exact absurd second.2 (pipe_out first.2)
  case cpu.kstack =>
    obtain ⟨-, p, at_i, eq⟩ := second
    exact absurd first.2 (stack_out at_i eq).2
  case cpu.pipe => exact absurd first.2 (pipe_out second.2)
  case cpu.cpu => rfl
  -- the owners of the other pairs give different roles
  all_goals
    exfalso
    grind

end Machine.Tidy

theorem Sound.sbrk_page {t : System} {i : Fin nproc} {p : Proc} (sound : Sound L t g)
    (at_i : t.proc i = some p) (life : p.life = .loaded) (size : p.sz = 0x5000)
    (room : 1031 < t.mem.free.length) :
    ∃ m, t.step L (.sbrk i pgSize) =
      some (.ok (System.setProc { t with mem := m } i (some (p.resize 0x6000)))) := by
  obtain ⟨sp, at_p, fits⟩ := (sound.alive i p at_i).space
  obtain ⟨-, -, shape⟩ := fits.loaded life
  have absent : ∀ u, u < 2 ^ 19 → pages p.sz ≤ u → ¬ Has pteP (sp.pte u) := fun u lt ge here =>
    Nat.not_lt.mpr ge ((shape.present u lt).mp here).2
  have sum : p.sz + pgSize = 0x6000 := by
    rw [size]
    rfl
  obtain ⟨r, m, ran, done⟩ :=
    Ends.exists (x := allocuvm L p.pgdir p.sz 0x6000) (allocuvm_ends sound.inv at_p absent)
  obtain rfl : r = 0x6000 := by
    rcases done with ⟨high, -⟩ | ⟨-, less, -⟩ | ⟨-, -, ⟨rfl, -⟩ | ⟨-, few, -⟩⟩
    · exact absurd high (by decide)
    · rw [size] at less
      exact absurd less (by decide)
    · rfl
    · exact absurd (Nat.lt_of_lt_of_le room few) (by decide)
  have grown : growproc L p pgSize t.mem = .ok (some 0x6000, m) := by
    rw [growproc, if_pos (by decide), sum, Prog.bind_ok ran, if_neg (by decide)]
    rfl
  have caller : t.caller i [.loaded] = some p :=
    Option.filter_eq_some_iff.mpr ⟨at_i, decide_eq_true (List.mem_singleton.mpr life)⟩
  refine ⟨m, ?_⟩
  rw [System.step, caller, Option.map_some, System.run, grown]
  rfl

theorem pipe_step {t : System} {rest : List Frame} (free : t.mem.free = f :: rest) :
    t.step L .pipe = some (.ok { t with mem.free := rest, pipes := f :: t.pipes }) := by
  rw [System.step, System.run, kalloc, free]

theorem machine_call {init : List Byte} {others : Nat} {a : Action} {t : System}
    (reach : (machine L init others).Reachable s) (step : s.sys.step L a = some (.ok t)) :
    (machine L init others).Reachable { s with sys := t } :=
  reach.step ⟨step, rfl, rfl⟩

/-- **Pages are conserved.**  In every state that the machine can get to, each page that `kinit1`
and `kinit2` have given to the allocator has exactly one owner; it is on the free list, among the
pipes or among the stacks once at most; and no page has been passed to `kfree` while it was free. -/
theorem pages_conserved {init : List Byte} {others : Nat}
    (reach : (machine L init others).Reachable s) :
    (∀ f, Given L f → ∃! o, s.Owns f o) ∧
      s.sys.mem.free.Nodup ∧ s.sys.pipes.Nodup ∧ s.cpus.Nodup ∧ s.sys.mem.refreed = [] := by
  obtain ⟨g, tidy⟩ := Machine.reachable_tidy reach
  refine ⟨fun f given => ?_, tidy.sound.inv.books.nodup, tidy.sound.nodup, tidy.nodup, tidy.refreed⟩
  obtain ⟨o, owns⟩ := tidy.owned given
  exact ⟨o, owns, fun o' owns' => tidy.owner_unique owns' owns⟩

/-- After `exec`, `pipe` and `sbrk` of a page, the page of the pipe has one owner. -/
theorem pages_conserved_calls : ∃ s p f, (machine kernelLayout [] 3).Reachable s ∧
    s.sys.proc 0 = some p ∧ p.sz = 0x6000 ∧ s.sys.pipes = [f] ∧ ∃! o, s.Owns f o := by
  have ends :=
    (main_within (L := kernelLayout) (m := ⟨fun _ _ => 0, [], [], []⟩) (by decide) rfl rfl
    [] 3).ends fun _ few => by
      rcases few with few | large
      · exact absurd few (by decide)
      · cases large
  obtain ⟨r, m, ran, life, room, g, tidy⟩ := ends.exists
  have start : (machine kernelLayout [] 3).Reachable (started r m) :=
    .init ⟨_, r.2.2, m, rfl, rfl, ran, rfl⟩
  have at_0 : (started r m).sys.proc 0 = some r.2.2 := System.setProc_self ..
  obtain ⟨sp, at_p, -⟩ := (tidy.sound.alive 0 _ at_0).space
  obtain ⟨img, m1, -, -, loads, -, size, cost⟩ := exec_small tidy.sound.inv at_p
    (Nat.lt_trans (by decide) room)
  have cost : m.free.length ≤ m1.free.length + 1030 := cost
  obtain ⟨f, rest, free⟩ := List.exists_cons_of_length_pos (l := m1.free) (by omega)
  have executed := machine_call start
    (exec_step at_0 (by rw [life]; exact List.mem_cons_self) loads)
  have reach := machine_call executed (pipe_step free)
  obtain ⟨g2, tidy2⟩ := Machine.reachable_tidy reach
  have short : 1031 < rest.length := by
    have := congrArg List.length free
    rw [List.length_cons] at this
    omega
  obtain ⟨m3, grown⟩ := tidy2.sound.sbrk_page (System.setProc_self ..) rfl size short
  have reach3 := machine_call reach grown
  obtain ⟨g3, tidy3⟩ := Machine.reachable_tidy reach3
  have given : Given kernelLayout f := by
    by_contra not
    have held := tidy3.sound.pipe f List.mem_cons_self
    rw [(tidy3.kernel f).mpr not] at held
    cases held
  exact ⟨_, _, f, reach3, System.setProc_self .., rfl, rfl, (pages_conserved reach3).1 f given⟩

end Xv6.Vm
