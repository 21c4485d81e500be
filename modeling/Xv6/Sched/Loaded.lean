import Xv6.Sched.Family
import Xv6.Sched.Memory
import Xv6.Sched.Priority

/-!
# What the CPUs have loaded

* `Covered`: a `RUNNING` process is on some CPU; `Inv` already says that it is on one only.
* `Owned`: every kernel stack and every page directory in use belongs to one process, or to one
  `fork` or `exec` that has not yet handed it over.
* `Seat`: what a CPU has loaded belongs to the process it runs.

A page that is loaded is owned, so it is not free; and a step that frees pages loads nothing.
-/

namespace Xv6.Sched

open Function

/-! ## Every running process has a CPU -/

section Running

variable {C : Type} [DecidableEq C] {s t : State C}

omit [DecidableEq C] in
theorem Runs.covered (runs : Runs s t)
    (cov : Covered (fun c => (s.cpu c).runs) fun p => (s.table p).state = .running) :
    Covered (fun c => (t.cpu c).runs) fun p => (t.table p).state = .running := by
  cases runs with
  | keep same states => exact cov.keep same fun q => (states q).mp
  | take had _ takes others states => exact cov.take had takes others fun q => (states q).mp
  | drop had _ others states => exact cov.drop had others fun q => (states q).mp

theorem reachable_covered (reach : (kernel C).Reachable s) :
    Covered (fun c => (s.cpu c).runs) fun p => (s.table p).state = .running := by
  refine reach.invariant (P := fun s => Covered (fun c => (s.cpu c).runs) _) (fun s start => ?_)
    fun s a t before cov step => ((reachable_inv before).moves_runs (step_moves step)).covered cov
  cases start
  intro p running
  simp only [State.boot, bootTable] at running
  split at running <;> cases running

end Running

/-! ## What a step does to its CPU -/

def Event.Quiet : Event → Prop
  | .quiet | .exit _ | .waitFail _ | .allocate _ _ => True
  | _ => False

/-- The change of the CPU that takes a step; the table is `u` before and `w` after it. -/
inductive CpuMove (u w : Table) (e : Event) (x : Cpu) : Cpu → Prop
  | scan {pc : SchedPc} : x.thread = .scheduler → ¬ x.sched.Away → ¬ pc.Away →
      CpuMove u w e x { x with sched := pc }
  | back {pc : SchedPc} : x.thread = .scheduler → x.sched.Away → ¬ pc.Away → e.Quiet →
      CpuMove u w e x { x with proc := none, sched := pc }
  | dispatch {p : Slot} {pc : SchedPc} {ctx : Context} : x.thread = .scheduler → ¬ x.sched.Away →
      (u p).state = .runnable → e.Quiet → CpuMove u w e x ⟨some p, pc, .resume ctx⟩
  | stay {th : Thread} : x.thread ≠ .scheduler → th ≠ .scheduler →
      CpuMove u w e x { x with thread := th }
  | sched {p : Slot} : x.proc = some p → x.thread ≠ .scheduler → (w p).state ≠ .running → e.Quiet →
      CpuMove u w e x { x with thread := .scheduler }

variable {k : Kernel} {x : Proc}

section CpuMove

variable {C : Type} [DecidableEq C] {s t : State C} {a : Act C} {c : C} {p : Slot} {u : Table}

theorem Advance.here {pc pc' : SchedPc} (advance : Advance u pc pc') : ¬ pc'.Away := by
  cases advance <;> exact id

theorem Chooses.here {pc pc' : SchedPc} (chooses : Chooses u pc p pc') : ¬ pc.Away := by
  cases chooses <;> exact id

theorem cpuMove_of_set {x : Cpu} (at_c : a.cpu = some c) (cpu : t.cpu = update s.cpu c x)
    (move : CpuMove s.table t.table (event s a) (s.cpu c) x) :
    ∃ c, a.cpu = some c ∧ (∀ d, d ≠ c → t.cpu d = s.cpu d) ∧
      CpuMove s.table t.table (event s a) (s.cpu c) (t.cpu c) := by
  refine ⟨c, at_c, fun d ne => ?_, ?_⟩
  · rw [cpu, update_of_ne ne]
  · rw [cpu, update_self]
    exact move

omit [DecidableEq C] in
theorem Waits.cpu (waits : Waits s p a c u) :
    a.cpu = some c ∧ (s.cpu c).thread ≠ .scheduler ∧ (s.cpu c).proc = some p := by
  cases waits with
  | call proc thread _ => exact ⟨rfl, by simp [thread], proc⟩
  | resume proc thread => exact ⟨rfl, by simp [thread], proc⟩

theorem Table.set_state_ne {st : ProcState} (out : x.state ≠ st) : (u.set p x p).state ≠ st := by
  rwa [Table.set_self]

omit [DecidableEq C] in
theorem Enters.busy (enters : Enters s c p k) : (s.cpu c).thread ≠ .scheduler := by
  simp [enters.thread]

theorem Turn.cpu (turn : Turn s a t) : (a.cpu = none ∧ t.cpu = s.cpu) ∨
    ∃ c, a.cpu = some c ∧ (∀ d, d ≠ c → t.cpu d = s.cpu d) ∧
      CpuMove s.table t.table (event s a) (s.cpu c) (t.cpu c) := by
  cases turn with
  | wakeup _ _ => exact .inl ⟨rfl, rfl⟩
  | acquire thread pc _ =>
    exact .inr (cpuMove_of_set rfl rfl (.scan thread (by rw [pc]; exact id) id))
  | advance thread advance here =>
    exact .inr (cpuMove_of_set rfl rfl (.scan thread here advance.here))
  | back thread advance away =>
    exact .inr (cpuMove_of_set rfl rfl (.back thread away advance.here trivial))
  | dispatch thread chooses =>
    exact .inr (cpuMove_of_set rfl rfl
      (.dispatch thread chooses.here chooses.ready trivial))
  | release thread pc =>
    exact .inr (cpuMove_of_set rfl rfl (.scan thread (by rw [pc]; exact id) id))
  | resume _ thread _ =>
    exact .inr (cpuMove_of_set rfl rfl (.stay (by simp [thread]) (by simp)))
  | waitReap waits _ =>
    exact .inr (cpuMove_of_set waits.cpu.1 rfl (.stay waits.cpu.2.1 (by simp)))
  | waitFail waits _ _ =>
    exact .inr (cpuMove_of_set waits.cpu.1 rfl (.stay waits.cpu.2.1 (by simp)))
  | waitSleep waits none stays =>
    refine .inr (cpuMove_of_set waits.cpu.1 rfl (.sched waits.cpu.2.2 waits.cpu.2.1
      (Table.set_state_ne (by simp)) ?_))
    rw [waits.event, waitEvent, none, if_neg stays]
    trivial
  | @zombieExit c thread =>
    refine .inr (cpuMove_of_set (c := c) rfl (update_eq_self c _).symm ?_)
    exact .stay (by simp [thread]) (by simp [thread])
  | @initExit c ret enters =>
    refine .inr (cpuMove_of_set (c := c) rfl (update_eq_self c _).symm ?_)
    exact .stay enters.busy enters.busy
  | yield enters =>
    exact .inr (cpuMove_of_set rfl rfl (.sched enters.proc enters.busy
      (Table.set_state_ne (by simp)) (by simp [event, Event.Quiet])))
  | sleep _ enters =>
    exact .inr (cpuMove_of_set rfl rfl (.sched enters.proc enters.busy
      (Table.set_state_ne (by simp)) (by simp [event, Event.Quiet])))
  | exit enters not_init =>
    refine .inr (cpuMove_of_set rfl rfl (.sched enters.proc enters.busy
      (Table.set_state_ne (by simp)) ?_))
    simp only [event, enters.proc, enters.thread, if_neg not_init, Event.Quiet]
  | kill _ enters | settickets _ _ enters | allocate enters _ | full enters _ | forkDone enters =>
    exact .inr (cpuMove_of_set rfl rfl (.stay enters.busy (by simp)))
  | forkFail _ thread | forkCopy _ thread =>
    exact .inr (cpuMove_of_set rfl rfl (.stay (by simp [thread]) (by simp)))

end CpuMove

/-! ## Who owns the pages -/

def Proc.Made (x : Proc) : Prop := x.phase = .alive ∨ x.phase = .zombie

instance (x : Proc) : Decidable x.Made := inferInstanceAs (Decidable (_ ∨ _))

theorem Proc.Kin.made {y : Proc} (kin : x.Kin y) : y.Made ↔ x.Made := by
  rw [Proc.Made, Proc.Made, kin.phase]

theorem Proc.not_made (phase : x.phase = .unused ∨ x.phase = .embryo) : ¬ x.Made := by
  rcases phase with phase | phase <;> simp [Proc.Made, phase]

def Work.dir {Page : Type} : Work Page → Option Page
  | .copying _ d | .copied _ d | .building d => some d
  | .assigned old | .switched old => old
  | _ => none

def Work.stack {Page : Type} : Work Page → Option Page
  | .stacked k | .copying k _ | .copied k _ => some k
  | _ => none

/-- The pages of one kind, by the process or by the `fork` or `exec` that has them. -/
def holds {Page : Type} (u : Table) (own part : Slot → Option Page) : Slot ⊕ Slot → Option Page
  | .inl q => if (u q).Made then own q else none
  | .inr p => part p

theorem holds_made {Page : Type} {u : Table} {own part : Slot → Option Page} {q : Slot}
    (made : (u q).Made) : holds u own part (.inl q) = own q := if_pos made

theorem holds_not_made {Page : Type} {u : Table} {own part : Slot → Option Page} {q : Slot}
    (not : ¬ (u q).Made) : holds u own part (.inl q) = none := if_neg not

structure Forking {C Page : Type} (s : State C) (m : Pages Page) : Prop where
  allocated : ∀ p np, At s p (.allocated np) → m.work p = .idle ∨
    ∃ k, m.kstack np = some k ∧ (m.work p = .stacked k ∨ ∃ d, m.work p = .copying k d)
  copied : ∀ p np, At s p (.copied np) →
    ∃ k d, m.work p = .copied k d ∧ m.kstack np = some k ∧ m.pgdir np = some d

structure Owned {C Page : Type} (kpgdir : Page) (s : State C) (m : Pages Page) : Prop where
  kstacks : Exclusive (holds s.table m.kstack fun p => (m.work p).stack) fun v => m.use v = .kstack
  pgdirs : Exclusive (holds s.table m.pgdir fun p => (m.work p).dir) fun v => m.use v = .pgdir
  made : ∀ q, (s.table q).Made → m.kstack q ≠ none ∧ m.pgdir q ≠ none
  forking : Forking s m
  old : ∀ p, m.work p ≠ .assigned none ∧ m.work p ≠ .switched none
  kernel : m.use kpgdir = .kernel
  fault : m.fault = none

variable {e : Event}

section Owned

variable {C Page : Type} {kpgdir : Page} {s t : State C} {m m' : Pages Page} {p q np : Slot}

theorem holds_same {u w : Table} {own own' part part' : Slot → Option Page}
    (made : ∀ q, (w q).Made ↔ (u q).Made) (same : ∀ q, (u q).Made → own' q = own q)
    (others : ∀ p', p' ≠ p → part' p' = part p') (h : Slot ⊕ Slot) (ne : h ≠ .inr p) :
    holds w own' part' h = holds u own part h := by
  rcases h with q | p'
  · by_cases is : (u q).Made
    · rw [holds_made is, holds_made ((made q).mpr is), same q is]
    · rw [holds_not_made is, holds_not_made fun after => is ((made q).mp after)]
  · exact others p' fun eq => ne (congrArg Sum.inr eq)

theorem At.forker (inv : Inv s) {p' : Slot} {k' : Kernel} (here : At s p k) (there : At s p' k')
    (forks : k.forks = some np) (forks' : k'.forks = some np) : p = p' := by
  obtain ⟨h, claimed, holder⟩ := here.claim
  obtain ⟨h', claimed', holder'⟩ := there.claim
  obtain rfl := inv.forks.unique h h' np (claimed.trans forks) (claimed'.trans forks')
  rcases holder with rfl | ⟨c, rfl, runs⟩
  · rcases holder' with eq | ⟨c, eq, _⟩
    · exact Sum.inr.inj eq
    · cases eq
  · rcases holder' with eq | ⟨d, eq, runs'⟩
    · cases eq
    · cases eq
      exact Option.some.inj (runs.symm.trans runs')

theorem At.not_made (inv : Inv s) (here : At s p k) (forks : k.forks = some np) :
    ¬ (s.table np).Made :=
  Proc.not_made (.inr (by simp [Proc.phase, here.embryo inv forks]))

theorem At.ne_made (inv : Inv s) (here : At s p k) (forks : k.forks = some np)
    (made : (s.table q).Made) : np ≠ q := by
  rintro rfl
  exact here.not_made inv forks made

/-! ### The steps of one process -/

def Pages.Fits (m : Pages Page) (p : Slot) : Kernel → Prop
  | .allocated np => m.work p = .idle ∨
    ∃ k, m.kstack np = some k ∧ (m.work p = .stacked k ∨ ∃ d, m.work p = .copying k d)
  | .copied np => ∃ k d, m.work p = .copied k d ∧ m.kstack np = some k ∧ m.pgdir np = some d
  | _ => True

theorem Forking.fits (forking : Forking s m) (here : At s p k) : m.Fits p k := by
  cases k with
  | allocated np => exact forking.allocated p np here
  | copied np => exact forking.copied p np here
  | _ => trivial

theorem Forking.of_fits (fits : ∀ p k, k.forks ≠ none → At s p k → m.Fits p k) : Forking s m where
  allocated p np := fits p (.allocated np) (by simp [Kernel.forks])
  copied p np := fits p (.copied np) (by simp [Kernel.forks])

theorem Pages.Fits.frame (fits : m.Fits p k) (work : m'.work p = m.work p)
    (child : ∀ np, k.forks = some np → m'.kstack np = m.kstack np ∧ m'.pgdir np = m.pgdir np) :
    m'.Fits p k := by
  cases k with
  | allocated np | copied np =>
    simp only [Pages.Fits, work, child np rfl]
    exact fits
  | _ => trivial

theorem Pages.Fits.not_assigned (fits : m.Fits p k) (forks : k.forks ≠ none) (old : Option Page) :
    m.work p ≠ .assigned old := by
  intro work
  cases k with
  | allocated np => simp [Pages.Fits, work] at fits
  | copied np => simp [Pages.Fits, work] at fits
  | _ => exact forks rfl

def Work.InExec : Work Page → Prop
  | .building _ | .assigned _ | .switched _ => True
  | _ => False

theorem Pages.Fits.of_exec (fits : m.Fits p k) (inside : (m.work p).InExec) : m'.Fits p k := by
  cases k with
  | allocated np =>
    rcases fits with work | ⟨_, _, work | ⟨_, work⟩⟩ <;> rw [work] at inside <;> exact inside.elim
  | copied np =>
    obtain ⟨_, _, work, _⟩ := fits
    rw [work] at inside
    exact inside.elim
  | _ => trivial

/-- Only process `p` changes what it has on its own, and only slot `q` what it has. -/
structure Change (p q : Slot) (m m' : Pages Page) : Prop where
  work : ∀ p', p' ≠ p → m'.work p' = m.work p'
  kstack : ∀ r, r ≠ q → m'.kstack r = m.kstack r
  pgdir : ∀ r, r ≠ q → m'.pgdir r = m.pgdir r

/-- The claims on the pages of one kind, after a change of `p` and `q`. -/
theorem holds_others {u w : Table} {own own' part part' : Slot → Option Page}
    (made : ∀ r, r ≠ q → ((w r).Made ↔ (u r).Made)) (same : ∀ r, r ≠ q → own' r = own r)
    (others : ∀ p', p' ≠ p → part' p' = part p') (h : Slot ⊕ Slot) (ne : h ≠ .inr p)
    (ne' : h ≠ .inl q) : holds w own' part' h = holds u own part h := by
  rcases h with r | p'
  · have ne : r ≠ q := fun eq => ne' (congrArg Sum.inl eq)
    simp only [holds, made r ne, same r ne]
  · exact others p' fun eq => ne (congrArg Sum.inr eq)

theorem Owned.change (owned : Owned kpgdir s m) (change : Change p q m m')
    (kstacks : Exclusive (holds t.table m'.kstack fun p => (m'.work p).stack)
      fun v => m'.use v = .kstack)
    (pgdirs : Exclusive
      (holds t.table m'.pgdir fun p => (m'.work p).dir) fun v => m'.use v = .pgdir)
    (made : ∀ r, r ≠ q → (t.table r).Made → (s.table r).Made)
    (new : (t.table q).Made → m'.kstack q ≠ none ∧ m'.pgdir q ≠ none)
    (came : ∀ p' k np, p' ≠ p → k.forks = some np → At t p' k → At s p' k ∧ np ≠ q)
    (fits : ∀ k, k.forks ≠ none → At t p k → m'.Fits p k)
    (old : m'.work p ≠ .assigned none ∧ m'.work p ≠ .switched none)
    (kernel : m'.use kpgdir = .kernel) (fault : m'.fault = none) : Owned kpgdir t m' := by
  refine ⟨kstacks, pgdirs, fun r is => ?_, .of_fits fun p' k forks there => ?_, fun p' => ?_,
    kernel, fault⟩
  · by_cases eq : r = q
    · rw [eq] at is ⊢
      exact new is
    · rw [change.kstack r eq, change.pgdir r eq]
      exact owned.made r (made r eq is)
  · by_cases eq : p' = p
    · rw [eq] at there ⊢
      exact fits k forks there
    · obtain ⟨np, some⟩ := Option.ne_none_iff_exists'.mp forks
      refine (owned.forking.fits (came p' k np eq some there).1).frame (change.work p' eq) ?_
      intro np some
      have ne := (came p' k np eq some there).2
      exact ⟨change.kstack np ne, change.pgdir np ne⟩
  · by_cases eq : p' = p
    · rw [eq]
      exact old
    · rw [change.work p' eq]
      exact owned.old p'

theorem Owned.child (inv : Inv s) (owned : Owned kpgdir s m) (change : Change p np m m')
    (here : At s p k) (forks : k.forks = some np)
    (made : ∀ q, (t.table q).Made ↔ (s.table q).Made)
    (kstacks : (∀ h, h ≠ .inr p → holds t.table m'.kstack (fun p => (m'.work p).stack) h =
        holds s.table m.kstack (fun p => (m.work p).stack) h) →
      Exclusive (holds t.table m'.kstack fun p => (m'.work p).stack) fun v => m'.use v = .kstack)
    (pgdirs : ∀ v, m.use v = .pgdir → m'.use v = .pgdir) (dir : (m'.work p).dir = (m.work p).dir)
    (came : ∀ p' k', p' ≠ p → k'.forks ≠ none → At t p' k' → At s p' k')
    (fits : ∀ k, k.forks ≠ none → At t p k → m'.Fits p k)
    (old : m'.work p ≠ .assigned none ∧ m'.work p ≠ .switched none)
    (kernel : m'.use kpgdir = .kernel) (fault : m'.fault = none) : Owned kpgdir t m' := by
  have free := here.not_made inv forks
  have ne : ∀ q, (s.table q).Made → q ≠ np := by
    rintro q is rfl
    exact free is
  refine owned.change change (kstacks ?_)
    (owned.pgdirs.keep (same_of_ne (a := .inr p) dir ?_) pgdirs)
    (fun r _ => (made r).mp) (fun is => absurd ((made np).mp is) free)
    (fun p' k' np' other forks' there => ?_) fits old kernel fault
  · exact holds_same made (fun q is => change.kstack q (ne q is)) fun p' ne => by
      rw [change.work p' ne]
  · exact holds_same made (fun q is => change.pgdir q (ne q is)) fun p' ne => by
      rw [change.work p' ne]
  · have before := came p' k' other (by simp [forks']) there
    refine ⟨before, ?_⟩
    rintro rfl
    exact other (before.forker inv here forks' forks)

theorem Owned.table (owned : Owned kpgdir s m) (made : ∀ q, (t.table q).Made ↔ (s.table q).Made)
    (forking : Forking t m) : Owned kpgdir t m where
  kstacks := owned.kstacks.keep (fun h => by cases h <;> simp only [holds, made]) fun _ => id
  pgdirs := owned.pgdirs.keep (fun h => by cases h <;> simp only [holds, made]) fun _ => id
  made q is := owned.made q ((made q).mp is)
  forking := forking
  old := owned.old
  kernel := owned.kernel
  fault := owned.fault

theorem Forking.stays (forking : Forking s m) (stays : Stays s t) : Forking t m :=
  .of_fits fun p k forks here => forking.fits (stays p k forks here)

theorem Owned.pages (owned : Owned kpgdir s m) (made : (s.table q).Made) :
    ∃ k d, m.kstack q = some k ∧ m.pgdir q = some d ∧ m.use k = .kstack ∧ m.use d = .pgdir := by
  obtain ⟨k, stack⟩ := Option.ne_none_iff_exists'.mp (owned.made q made).1
  obtain ⟨d, dir⟩ := Option.ne_none_iff_exists'.mp (owned.made q made).2
  exact ⟨k, d, stack, dir, owned.kstacks.ok_of_claim (.inl q) k ((holds_made made).trans stack),
    owned.pgdirs.ok_of_claim (.inl q) d ((holds_made made).trans dir)⟩

variable {v w : Page}

theorem ne_of_use {x y : Use Page} (is : m.use v = x) (is' : m.use w = y) (ne : x ≠ y) : v ≠ w := by
  rintro rfl
  exact ne (is.symm.trans is')

theorem use_freevm [DecidableEq Page] {d : Page} (ne : v ≠ d) (alone : ∀ e, m.use v ≠ .under e) :
    (m.freevm (some d)).use v = m.use v :=
  if_neg fun h => h.elim ne (alone d)

variable [DecidableEq Page]

theorem use_reap {k d : Page} (stack : m.kstack q = some k) (dir : m.pgdir q = some d)
    (ne : v ≠ k) (ne' : v ≠ d) (alone : ∀ e, m.use v ≠ .under e) : (m.reap q).use v = m.use v := by
  rw [Pages.reap, stack, dir]
  have same : ((m.kfree (some k)).setKstack q none).use v = m.use v := update_of_ne ne _ _
  rw [use_freevm ne' (by rwa [same]), same]

theorem change_reap : Change q q m (m.reap q) ∧ (m.reap q).work = m.work := by
  unfold Pages.reap
  rcases m.kstack q with _ | k <;> rcases m.pgdir q with _ | d <;>
    exact ⟨⟨fun _ _ => rfl, fun _ ne => update_of_ne ne _ _, fun _ _ => rfl⟩, rfl⟩

omit [DecidableEq Page] in
theorem change_forkDone : Change p np m (m.setWork p .idle) :=
  ⟨fun _ ne => update_of_ne ne _ _, fun _ _ => rfl, fun _ _ => rfl⟩

theorem change_forkFail : Change p np m (m.on (.forkFail p np)) := by
  simp only [Pages.on]
  split
  · rcases m.kstack np with _ | k <;> exact ⟨fun _ ne => update_of_ne ne _ _,
      fun _ ne => update_of_ne ne _ _, fun _ ne => update_of_ne ne _ _⟩
  · exact ⟨fun _ _ => rfl, fun _ ne => update_of_ne ne _ _, fun _ _ => rfl⟩

theorem change_forkCopy : Change p np m (m.on (.forkCopy p np)) := by
  simp only [Pages.on]
  split
  · exact ⟨fun _ ne => update_of_ne ne _ _, fun _ _ => rfl, fun _ ne => update_of_ne ne _ _⟩
  · exact ⟨fun _ _ => rfl, fun _ _ => rfl, fun _ _ => rfl⟩

theorem Owned.reap (inv : Inv s) (owned : Owned kpgdir s m) {u : Table}
    (zombie : (s.table q).phase = .zombie) (kin : ∀ r, (s.table r).Kin (u r))
    (unused : x.phase = .unused) (table : t.table = u.set q x) (stays : Stays s t) :
    Owned kpgdir t (m.reap q) := by
  have made : (s.table q).Made := .inr zombie
  have gone : ¬ (t.table q).Made := by
    rw [table, Table.set_self]
    exact Proc.not_made (.inl unused)
  have others : ∀ r, r ≠ q → ((t.table r).Made ↔ (s.table r).Made) := by
    intro r ne
    rw [table, Table.set_ne _ ne]
    exact (kin r).made
  obtain ⟨k, d, stack, dir, of_k, of_d⟩ := owned.pages made
  obtain ⟨change, work⟩ : Change q q m (m.reap q) ∧ (m.reap q).work = m.work := change_reap
  have came : ∀ p k np, k.forks = some np → At t p k → At s p k ∧ np ≠ q := by
    intro p k np forks here
    have before := stays p k (by simp [forks]) here
    exact ⟨before, before.ne_made inv forks made⟩
  have claims : ∀ (own own' : Slot → Option Page) (part : Work Page → Option Page),
      (∀ r, r ≠ q → own' r = own r) → ∀ h, h ≠ .inl q →
      holds t.table own' (fun p => part ((m.reap q).work p)) h =
        holds s.table own (fun p => part (m.work p)) h := by
    intro own own' part same h ne
    by_cases eq : h = .inr q
    · simp only [eq, holds, work]
    · exact holds_others others same (fun p' _ => by rw [work]) h eq ne
  have is := owned.kernel
  refine owned.change change ?_ ?_ (fun r ne => (others r ne).mp) (fun is => absurd is gone)
    (fun p' k np _ => came p' k np) (fun k forks here => ?_) (by rw [work]; exact owned.old q) ?_ ?_
  · refine owned.kstacks.drop (h := .inl q) ((holds_made made).trans stack) (holds_not_made gone)
      (claims _ _ _ change.kstack) fun v ne is => ?_
    exact (use_reap stack dir ne (ne_of_use is of_d (by simp)) (by simp [is])).trans is
  · refine owned.pgdirs.drop (h := .inl q) ((holds_made made).trans dir) (holds_not_made gone)
      (claims _ _ _ change.pgdir) fun v ne is => ?_
    exact (use_reap stack dir (ne_of_use is of_k (by simp)) ne (by simp [is])).trans is
  · refine (owned.forking.fits (stays q k forks here)).frame (by rw [work]) fun np some => ?_
    have ne := (came q k np some here).2
    exact ⟨change.kstack np ne, change.pgdir np ne⟩
  · exact (use_reap stack dir (ne_of_use is of_k (by simp)) (ne_of_use is of_d (by simp))
      (by simp [is])).trans is
  · rw [Pages.reap, stack, dir]
    exact owned.fault

omit [DecidableEq Page] in
theorem Owned.forkDone (inv : Inv s) (inv' : Inv t) (owned : Owned kpgdir s m)
    (here : At s p (.copied np)) (alive : x.phase = .alive) (table : t.table = s.table.set np x)
    (stays : Stays s t) : Owned kpgdir t (m.setWork p .idle) := by
  obtain ⟨k, d, work, stack, dir⟩ := owned.forking.copied p np here
  have new : (t.table np).Made := by
    rw [table, Table.set_self]
    exact .inl alive
  have others : ∀ r, r ≠ np → ((t.table r).Made ↔ (s.table r).Made) := by
    intro r ne
    rw [table, Table.set_ne _ ne]
  have idle : (m.setWork p .idle).work p = .idle := update_self _ _ _
  have change : Change p np m (m.setWork p .idle) := change_forkDone
  refine owned.change change ?_ ?_ (fun r ne => (others r ne).mp)
    (fun _ => ⟨by simp [Pages.setWork, stack], by simp [Pages.setWork, dir]⟩)
    (fun p' k' np' ne forks there => ?_) (fun k' forks there => ?_) (by simp [idle]) owned.kernel
    owned.fault
  · refine owned.kstacks.hand (a := .inr p) (b := .inl np) ?_ ?_
      (holds_others others change.kstack fun p' ne => by rw [change.work p' ne]) fun _ => id
    · simp only [holds, idle, Work.stack]
    · rw [holds_made new]
      simp only [holds, work, Work.stack]
      exact stack
  · refine owned.pgdirs.hand (a := .inr p) (b := .inl np) ?_ ?_
      (holds_others others change.pgdir fun p' ne => by rw [change.work p' ne]) fun _ => id
    · simp only [holds, idle, Work.dir]
    · rw [holds_made new]
      simp only [holds, work, Work.dir]
      exact dir
  · have before := stays p' k' (by simp [forks]) there
    refine ⟨before, ?_⟩
    rintro rfl
    exact ne (before.forker inv here forks rfl)
  · cases k' with
    | allocated np' => exact .inl idle
    | copied np' =>
      cases here.eq inv (stays p _ forks there)
      exact absurd new (there.not_made inv' rfl)
    | _ => trivial

theorem made_of_set (before : ¬ (s.table np).Made) (after : ¬ x.Made)
    (table : t.table = s.table.set np x) (q : Slot) : (t.table q).Made ↔ (s.table q).Made := by
  rw [table]
  by_cases eq : q = np
  · rw [eq, Table.set_self]
    exact ⟨fun is => absurd is after, fun is => absurd is before⟩
  · rw [Table.set_ne _ eq]

theorem Owned.forkFail (inv : Inv s) (owned : Owned kpgdir s m) (here : At s p (.allocated np))
    (unused : x.phase = .unused) (table : t.table = s.table.set np x) (stays : Stays s t)
    (ready : m.work p = .idle ∨ ∃ k, m.work p = .stacked k) :
    Owned kpgdir t (m.on (.forkFail p np)) := by
  have made := made_of_set (here.not_made inv rfl) (Proc.not_made (.inl unused)) table
  have change : Change p np m (m.on (.forkFail p np)) := change_forkFail
  have fits : ∀ {m' : Pages Page}, m'.work p = .idle → ∀ k, k.forks ≠ none → At t p k →
      m'.Fits p k := by
    intro m' idle k forks there
    cases here.eq inv (stays p k forks there)
    exact .inl idle
  have came : ∀ p' k, p' ≠ p → k.forks ≠ none → At t p' k → At s p' k := fun p' k _ => stays p' k
  rcases ready with idle | ⟨k, work⟩
  · have result : m.on (.forkFail p np) = m.setKstack np none := by simp only [Pages.on, idle]
    rw [result] at change ⊢
    exact owned.child inv change here rfl made
      (fun others => owned.kstacks.keep (same_of_ne rfl others) fun _ => id) (fun _ => id) rfl came
      (fits idle) (owned.old p) owned.kernel owned.fault
  · have stack : m.kstack np = some k := by
      rcases owned.forking.allocated p np here with idle | ⟨k', stack, stacked | ⟨d, copying⟩⟩
      · cases work.symm.trans idle
      · cases work.symm.trans stacked
        exact stack
      · cases work.symm.trans copying
    have result : m.on (.forkFail p np) =
        (((m.setPgdir np none).kfree (some k)).setKstack np none).setWork p .idle := by
      simp only [Pages.on, work, stack]
    have of_k : m.use k = .kstack :=
      owned.kstacks.ok_of_claim (.inr p) k (by simp only [holds, work, Work.stack])
    rw [result] at change ⊢
    refine owned.child inv change here rfl made (fun others => ?_) (fun v is => ?_) ?_ came
      (fits (update_self _ _ _)) ?_ ?_ owned.fault
    · exact owned.kstacks.drop (h := .inr p) (r := k) (by simp only [holds, work, Work.stack])
        (by simp [holds, Pages.setWork, Work.stack]) others
        fun v ne is => (update_of_ne ne _ _).trans is
    · exact (update_of_ne (ne_of_use is of_k (by simp)) _ _).trans is
    · simp [Pages.setWork, work, Work.dir]
    · simp [Pages.setWork]
    · exact (update_of_ne (ne_of_use owned.kernel of_k (by simp)) _ _).trans owned.kernel

theorem Owned.forkCopy (inv : Inv s) (owned : Owned kpgdir s m) {k d : Page}
    (here : At s p (.allocated np)) (embryo : x.phase = .embryo)
    (table : t.table = s.table.set np x)
    (came : ∀ p' k, k.forks ≠ none → At t p' k →
      At s p' k ∧ k.forks ≠ some np ∨ p' = p ∧ k = .copied np)
    (work : m.work p = .copying k d) : Owned kpgdir t (m.on (.forkCopy p np)) := by
  have made := made_of_set (here.not_made inv rfl) (Proc.not_made (.inr embryo)) table
  have stack : m.kstack np = some k := by
    rcases owned.forking.allocated p np here with idle | ⟨k', stack, stacked | ⟨d, copying⟩⟩
    · cases work.symm.trans idle
    · cases work.symm.trans stacked
    · cases work.symm.trans copying
      exact stack
  have change : Change p np m (m.on (.forkCopy p np)) := change_forkCopy
  have result : m.on (.forkCopy p np) = (m.setPgdir np (some d)).setWork p (.copied k d) := by
    simp only [Pages.on, work]
  rw [result] at change ⊢
  refine owned.child inv change here rfl made (fun others => ?_) (fun _ => id) ?_
    (fun p' k' ne forks there => ?_) (fun k' forks there => ?_) ?_ owned.kernel owned.fault
  · exact owned.kstacks.keep (same_of_ne (by simp [holds, Pages.setWork, work, Work.stack]) others)
      fun _ => id
  · simp [Pages.setWork, work, Work.dir]
  · rcases came p' k' forks there with before | ⟨eq, _⟩
    · exact before.1
    · exact absurd eq ne
  · rcases came p k' forks there with ⟨before, ne⟩ | ⟨_, rfl⟩
    · cases here.eq inv before
      exact absurd rfl ne
    · exact ⟨k, d, update_self _ _ _, stack, update_self _ _ _⟩
  · simp [Pages.setWork]

def Pages.Ready (m : Pages Page) : Event → Prop
  | .allocate p _ => m.work p = .idle
  | .forkFail p _ => m.work p = .idle ∨ ∃ k, m.work p = .stacked k
  | .forkCopy p _ => ∃ k d, m.work p = .copying k d
  | _ => True

omit [DecidableEq Page] in
theorem ready_waitEvent (u : Table) (p : Slot) : m.Ready (waitEvent u p) := by
  unfold waitEvent
  split
  · trivial
  · split <;> trivial

theorem ready_of_allows {a : Act C} (allows : m.allows s a = true) : m.Ready (event s a) := by
  cases a with
  | sched c => trivial
  | wakeup chan => trivial
  | resume c =>
    simp only [event]
    split
    · exact ready_waitEvent _ _
    · trivial
  | call c a =>
    simp only [event]
    split
    · split <;> trivial
    · exact ready_waitEvent _ _
    · rename_i proc _
      split
      · simpa [Pages.allows, proc, Pages.Ready] using allows
      · trivial
    · trivial
    · trivial
  | forkBody c ok =>
    simp only [event]
    split
    · rename_i proc _
      simp only [Pages.allows, proc] at allows
      split at allows <;> rename_i work
      · have no : ok = false := by simpa using allows
        simp [no, Pages.Ready, work]
      · have no : ok = false := by simpa using allows
        simp [no, Pages.Ready, work]
      · simp [allows, Pages.Ready, work]
      · cases allows
    · trivial

theorem Owned.event (inv : Inv s) (inv' : Inv t) (owned : Owned kpgdir s m) (affair : Affair s t e)
    (ready : m.Ready e) : Owned kpgdir t (m.on e) := by
  cases affair with
  | quiet kin _ stays => exact owned.table (fun q => (kin q).made) (owned.forking.stays stays)
  | @exit p _ alive _ phase _ _ _ stays =>
    refine owned.table (fun q => ?_) (owned.forking.stays stays)
    rw [Proc.Made, Proc.Made, phase]
    by_cases eq : q = p
    · rw [if_pos eq, eq, alive]
      simp
    · rw [if_neg eq]
  | reap zombie _ kin unused _ table _ stays _ => exact owned.reap inv zombie kin unused table stays
  | waitFail kin _ stays _ => exact owned.table (fun q => (kin q).made) (owned.forking.stays stays)
  | @allocate p np x unused embryo _ _ table _ came =>
    have made := made_of_set (Proc.not_made (.inl unused)) (Proc.not_made (.inr embryo)) table
    refine owned.table made ⟨fun p' np' here => ?_, fun p' np' here => ?_⟩
    · rcases came p' _ (by simp [Kernel.forks]) here with before | ⟨eq, _⟩
      · exact owned.forking.allocated p' np' before
      · rw [eq]
        exact .inl ready
    · rcases came p' _ (by simp [Kernel.forks]) here with before | ⟨_, eq⟩
      · exact owned.forking.copied p' np' before
      · cases eq
  | forkDone here _ _ alive _ _ table _ stays =>
    exact owned.forkDone inv inv' here alive table stays
  | forkFail here _ unused _ table _ stays => exact owned.forkFail inv here unused table stays ready
  | forkCopy here _ _ embryo _ _ table _ came =>
    obtain ⟨k, d, work⟩ := ready
    exact owned.forkCopy inv here embryo table came work

/-! ### The statements without the lock -/

theorem Owned.use {u : Use Page} (owned : Owned kpgdir s m)
    (out : m.use v = .free ∨ ∃ d, m.use v = .under d) :
    Owned kpgdir s { m with use := update m.use v u } := by
  have kept : ∀ w x, m.use w = x → x ≠ .free → (∀ d, x ≠ .under d) →
      update m.use v u w = x := by
    rintro w x is not_free alone
    rw [update_of_ne _, is]
    rintro rfl
    rcases out with free | ⟨d, under⟩
    · exact not_free (is.symm.trans free)
    · exact alone d (is.symm.trans under)
  exact
    { kstacks := owned.kstacks.keep (fun _ => rfl) fun w is => kept w _ is (by simp) (by simp)
      pgdirs := owned.pgdirs.keep (fun _ => rfl) fun w is => kept w _ is (by simp) (by simp)
      made := owned.made
      forking := ⟨owned.forking.allocated, owned.forking.copied⟩
      old := owned.old
      kernel := kept kpgdir _ owned.kernel (by simp) (by simp)
      fault := owned.fault }

theorem Owned.newKstack (inv : Inv s) (owned : Owned kpgdir s m) {v : Page}
    (here : At s p (.allocated np)) (work : m.work p = .idle) (free : m.use v = .free) :
    Owned kpgdir s (((m.take v .kstack).setKstack np (some v)).setWork p (.stacked v)) := by
  have kept : ∀ w x, m.use w = x → x ≠ .free → update m.use v .kstack w = x :=
    fun w x is used => (update_of_ne (ne_of_use is free used) _ _).trans is
  refine owned.child inv ⟨fun _ ne => update_of_ne ne _ _, fun _ ne => update_of_ne ne _ _,
    fun _ _ => rfl⟩ here rfl (fun _ => Iff.rfl) (fun others => ?_)
    (fun w is => kept w _ is (by simp))
    ?_ (fun _ _ _ _ => id) (fun k _ there => ?_) ?_
      (kept kpgdir _ owned.kernel (by simp)) owned.fault
  · exact owned.kstacks.take (h := .inr p) (r := v) (by simp [free])
      (by simp [holds, Pages.setWork, Work.stack]) others (update_self _ _ _)
      fun w is => kept w _ is (by simp)
  · simp [Pages.setWork, work, Work.dir]
  · cases here.eq inv there
    exact .inr ⟨v, update_self _ _ _, .inl (update_self _ _ _)⟩
  · simp [Pages.setWork]

omit [DecidableEq Page] in
theorem Owned.setWork (inv : Inv s) (owned : Owned kpgdir s m) (made : (s.table p).Made)
    (here : At s p k) {w : Work Page} {use : Page → Use Page} (stack : w.stack = (m.work p).stack)
    (pgdirs : (∀ h, h ≠ .inr p → holds s.table m.pgdir (fun p' => (update m.work p w p').dir) h =
        holds s.table m.pgdir (fun p' => (m.work p').dir) h) →
      Exclusive
        (holds s.table m.pgdir fun p' => (update m.work p w p').dir) fun v => use v = .pgdir)
    (kept : ∀ v, m.use v ≠ .free → m.use v ≠ .pgdir → (∀ d, m.use v ≠ .under d) → use v = m.use v)
    (old : w ≠ .assigned none ∧ w ≠ .switched none)
    (fits : Pages.Fits { m with use := use, work := update m.work p w } p k) :
    Owned kpgdir s { m with use := use, work := update m.work p w } := by
  have others : ∀ p', p' ≠ p → update m.work p w p' = m.work p' :=
    fun p' ne => update_of_ne ne _ _
  have self : update m.work p w p = w := update_self _ _ _
  have is := owned.kernel
  refine owned.change (q := p) ⟨others, fun _ _ => rfl, fun _ _ => rfl⟩
    (owned.kstacks.keep (same_of_ne (a := .inr p) ?_ ?_) fun v is => ?_) (pgdirs ?_) (fun _ _ => id)
    (owned.made p) (fun p' k np _ forks there => ⟨there, there.ne_made inv forks made⟩)
    (fun k' _ there => here.eq inv there ▸ fits) (by simpa only [self] using old)
    ((kept kpgdir (by simp [is]) (by simp [is]) (by simp [is])).trans is) owned.fault
  · simp only [holds, self, stack]
  · exact holds_same (fun _ => Iff.rfl) (fun _ _ => rfl) fun p' ne => by simp only [others p' ne]
  · exact (kept v (by simp [is]) (by simp [is]) (by simp [is])).trans is
  · exact holds_same (fun _ => Iff.rfl) (fun _ _ => rfl) fun p' ne => by rw [others p' ne]

theorem Owned.newPgdir (inv : Inv s) (owned : Owned kpgdir s m) (made : (s.table p).Made)
    (here : At s p k) {w : Work Page} {d : Page} (free : m.use d = .free) (dir : w.dir = some d)
    (stack : w.stack = (m.work p).stack) (old : w ≠ .assigned none ∧ w ≠ .switched none)
    (fits : ((m.take d .pgdir).setWork p w).Fits p k) :
    Owned kpgdir s ((m.take d .pgdir).setWork p w) := by
  refine owned.setWork inv made here stack (fun others => ?_) (fun v used _ _ => ?_) old fits
  · exact owned.pgdirs.take (h := .inr p) (r := d) (by simp [free])
      (by simp only [holds, update_self, dir]) others (update_self _ _ _)
      fun v is => (update_of_ne (ne_of_use is free (by simp)) _ _).trans is
  · exact update_of_ne (ne_of_use rfl free used) _ _

theorem Owned.freevm (inv : Inv s) (owned : Owned kpgdir s m) (made : (s.table p).Made)
    (here : At s p k) {w : Work Page} {d : Page} (had : (m.work p).dir = some d)
    (dir : w.dir = none) (stack : w.stack = (m.work p).stack)
    (old : w ≠ .assigned none ∧ w ≠ .switched none)
    (fits : ((m.freevm (some d)).setWork p w).Fits p k) :
    Owned kpgdir s ((m.freevm (some d)).setWork p w) := by
  have of_d : m.use d = .pgdir := owned.pgdirs.ok_of_claim (.inr p) d had
  refine owned.setWork inv made here stack (fun others => ?_) (fun v _ ne alone => ?_) old fits
  · exact owned.pgdirs.drop (h := .inr p) (r := d) had
      (by simp only [holds, update_self, dir]) others
      fun v ne is => (use_freevm ne (by simp [is])).trans is
  · exact use_freevm (ne_of_use rfl of_d ne) alone

omit [DecidableEq Page] in
theorem Owned.commit (inv : Inv s) (owned : Owned kpgdir s m) {d : Page} (made : (s.table p).Made)
    (work : m.work p = .building d) :
    Owned kpgdir s ((m.setPgdir p (some d)).setWork p (.assigned (m.pgdir p))) := by
  obtain ⟨_, old, _, dir, _⟩ := owned.pages made
  have others : ∀ p', p' ≠ p → update m.work p (.assigned (m.pgdir p)) p' = m.work p' :=
    fun _ ne => update_of_ne ne _ _
  have pgdir : ∀ q, q ≠ p → update m.pgdir p (some d) q = m.pgdir q :=
    fun _ ne => update_of_ne ne _ _
  refine owned.change (p := p) (q := p) ⟨others, fun _ _ => rfl, pgdir⟩
    (owned.kstacks.keep (same_of_ne (a := .inr p) ?_ ?_) fun _ => id) ?_ (fun _ _ => id)
    (fun _ => ⟨(owned.made p made).1, by simp [Pages.setWork, Pages.setPgdir]⟩)
    (fun p' k np _ forks there => ⟨there, there.ne_made inv forks made⟩)
    (fun k _ there => (owned.forking.fits there).of_exec (by rw [work]; trivial)) ?_ owned.kernel
    owned.fault
  · simp [holds, Pages.setWork, work, Work.stack]
  · exact holds_same (fun _ => Iff.rfl) (fun _ _ => rfl) fun p' ne => congrArg _ (others p' ne)
  · refine owned.pgdirs.swap (a := .inr p) (b := .inl p) ?_ ?_ (holds_others (fun _ _ => Iff.rfl)
      pgdir fun p' ne => congrArg _ (others p' ne)) fun _ => id
    · intro r had
      rw [holds_made made]
      simpa [holds, Pages.setWork, Work.dir] using had
    · rw [holds_made made]
      simp [holds, Pages.setWork, Pages.setPgdir, work, Work.dir]
  · simp [Pages.setWork, dir]

variable [DecidableEq C] {c : C}

omit [DecidableEq Page] in
/-- `switchuvm` of a process that exists does not panic. -/
theorem Owned.load {m : Mem C Page} (owned : Owned kpgdir s m.pages) (made : (s.table p).Made)
    (f : Regs Page → Regs Page) : ∃ k d, m.pages.kstack p = some k ∧ m.pages.pgdir p = some d ∧
      m.load c p f = m.setRegs c (f { m.regs c with esp0 := some k, cr3 := d }) := by
  obtain ⟨k, d, stack, dir, _⟩ := owned.pages made
  refine ⟨k, d, stack, dir, ?_⟩
  simp only [Mem.load, switchuvm, stack, dir]

theorem Owned.statement (inv : Inv s) {m m' : Mem C Page} (owned : Owned kpgdir s m.pages)
    {w : Statement Page} (proc : (s.cpu c).proc = some p) (thread : (s.cpu c).thread = .process k)
    (step : m.statement c p k w = some m') : Owned kpgdir s m'.pages := by
  have here : At s p k := .process proc thread
  have running : (s.table p).state = .running :=
    inv.runs.ok_of_claim c p (by simp [Cpu.runs, proc, thread])
  have made : (s.table p).Made := .inl (by simp [Proc.phase, running])
  have fits := owned.forking.fits here
  cases w with
  | kstack v =>
    simp only [Mem.statement] at step
    split at step
    · rename_i work
      split at step <;> cases step
      exact owned.newKstack inv here work (by assumption)
    · cases step
  | setupkvm d =>
    simp only [Mem.statement] at step
    split at step
    · rename_i free
      split at step <;> cases step
      · rename_i work
        exact owned.newPgdir inv made here free rfl (by rw [work]; rfl) (by simp) trivial
      · rename_i v work
        refine owned.newPgdir inv made here free rfl (by rw [work]; rfl) (by simp) ?_
        rcases fits with idle | ⟨k, stack, stacked | ⟨_, copying⟩⟩
        · cases work.symm.trans idle
        · cases work.symm.trans stacked
          exact .inr ⟨v, stack, .inr ⟨d, update_self _ _ _⟩⟩
        · cases work.symm.trans copying
    · cases step
  | kalloc v =>
    simp only [Mem.statement] at step
    split at step
    · split at step <;> cases step
      exact owned.use (.inl (by assumption))
    · cases step
  | deallocuvm v =>
    simp only [Mem.statement] at step
    split at step
    · split at step <;> cases step
      exact owned.use (.inr ⟨_, by assumption⟩)
    · cases step
  | bad =>
    simp only [Mem.statement] at step
    split at step <;> cases step
    · rename_i d work
      exact owned.freevm inv made here (by rw [work]; rfl) rfl (by rw [work]; rfl) (by simp)
        (fits.of_exec (by rw [work]; trivial))
    · rename_i v d work
      refine owned.freevm inv made here (by rw [work]; rfl) rfl (by rw [work]; rfl) (by simp) ?_
      cases k with
      | allocated np =>
        rcases fits with idle | ⟨k, stack, stacked | ⟨_, copying⟩⟩
        · cases work.symm.trans idle
        · cases work.symm.trans stacked
        · cases work.symm.trans copying
          exact .inr ⟨v, stack, .inl (update_self _ _ _)⟩
      | copied np =>
        obtain ⟨_, _, copied, _⟩ := fits
        cases work.symm.trans copied
      | _ => trivial
  | commit =>
    simp only [Mem.statement] at step
    split at step <;> cases step
    exact owned.commit inv made (by assumption)
  | switchuvm =>
    simp only [Mem.statement] at step
    split at step <;> cases step
    · rename_i old work
      have ne : old ≠ none := by
        rintro rfl
        exact (owned.old p).1 work
      have next : Owned kpgdir s (m.pages.setWork p (.switched old)) := by
        refine owned.setWork inv made here (by rw [work]; rfl) (fun others => ?_)
          (fun _ _ _ _ => rfl)
          ⟨by simp, by simpa using ne⟩ (fits.of_exec (by rw [work]; trivial))
        refine owned.pgdirs.keep (same_of_ne ?_ others) fun _ => id
        simp only [holds, update_self, work, Work.dir]
      obtain ⟨_, _, _, _, loaded⟩ := Owned.load (c := c)
        (m := { m with pages := m.pages.setWork p (.switched old) }) next made id
      rw [loaded]
      exact next
    · obtain ⟨_, _, _, _, loaded⟩ := owned.load (c := c) made id
      rw [loaded]
      exact owned
  | freevm =>
    simp only [Mem.statement] at step
    split at step <;> cases step
    rename_i old work
    obtain ⟨d, rfl⟩ := Option.ne_none_iff_exists'.mp fun none => (owned.old p).2 (none ▸ work)
    exact owned.freevm inv made here (by rw [work]; rfl) rfl (by rw [work]; rfl) (by simp)
      (fits.of_exec (by rw [work]; trivial))

end Owned

/-! ## What is loaded -/

/-- The directory `v` is that of process `p`, or the old one while its `exec` has not come to
`switchuvm`. -/
def Backed {Page : Type} (m : Pages Page) (p : Slot) (v : Page) : Prop :=
  m.pgdir p = some v ∨ m.work p = .assigned (some v)

/-- What CPU `c` has loaded is what it should have. -/
inductive Seat {C Page : Type} (kpgdir : Page) (s : State C) (m : Mem C Page) (c : C) : Prop
  | idle : (s.cpu c).proc = none → (s.cpu c).thread = .scheduler → ¬ (s.cpu c).sched.Away →
      (m.regs c).stack = none → (m.regs c).cr3 = kpgdir → Seat kpgdir s m c
  | away {p : Slot} : (s.cpu c).proc = some p → (s.cpu c).thread = .scheduler →
      (s.cpu c).sched.Away → (m.regs c).stack = none → (s.table p).state ≠ .running →
      (s.table p).Made → Backed m.pages p (m.regs c).cr3 → Seat kpgdir s m c
  | running {p : Slot} : (s.cpu c).proc = some p → (s.cpu c).thread ≠ .scheduler →
      (m.regs c).stack = m.pages.kstack p → (m.regs c).esp0 = m.pages.kstack p →
      Backed m.pages p (m.regs c).cr3 → Seat kpgdir s m c

structure Paged {C Page : Type} (kpgdir : Page) (s : State C) (m : Mem C Page) : Prop where
  owned : Owned kpgdir s m.pages
  seat : ∀ c, Seat kpgdir s m c

section Seat

variable {C Page : Type} {kpgdir : Page} {s t : State C} {m m' : Mem C Page} {c : C} {p : Slot}

structure Kept (m m' : Pages Page) (p : Slot) : Prop where
  kstack : m'.kstack p = m.kstack p
  backed : ∀ v, Backed m p v → Backed m' p v

theorem Kept.refl (m : Pages Page) (p : Slot) : Kept m m p := ⟨rfl, fun _ => id⟩

theorem Change.kept {m m' : Pages Page} {p q r : Slot} (change : Change p q m m') (ne : r ≠ q)
    (out : ∀ old, m.work p ≠ .assigned old) : Kept m m' r := by
  refine ⟨change.kstack r ne,
    fun v backed => backed.imp (change.pgdir r ne).trans fun assigned => ?_⟩
  refine (change.work r ?_).trans assigned
  rintro rfl
  exact out _ assigned

theorem runs_of_busy (proc : (s.cpu c).proc = some p) (thread : (s.cpu c).thread ≠ .scheduler) :
    (s.cpu c).runs = some p := by
  unfold Cpu.runs
  split
  · contradiction
  · exact proc

theorem running_made (inv : Inv s) (proc : (s.cpu c).proc = some p)
    (thread : (s.cpu c).thread ≠ .scheduler) :
    (s.table p).state = .running ∧ (s.table p).Made := by
  have running := inv.runs.ok_of_claim c p (runs_of_busy proc thread)
  exact ⟨running, .inl (by simp [Proc.phase, running])⟩

theorem away_holds (thread : (s.cpu c).thread = .scheduler) (away : (s.cpu c).sched.Away) :
    (s.cpu c).Holds := by
  simp only [Cpu.Holds, thread]
  intro idle
  rw [idle] at away
  exact away

theorem Seat.frame (inv : Inv s) (seat : Seat kpgdir s m c) (cpu : t.cpu c = s.cpu c)
    (regs : m'.regs c = m.regs c)
    (still : (s.cpu c).Holds → (s.cpu c).sched.Away → ∀ p, (s.table p).state ≠ .running →
      (t.table p).state ≠ .running)
    (kept : ∀ p, (s.cpu c).proc = some p → (s.table p).Made →
      Kept m.pages m'.pages p ∧ (t.table p).Made) : Seat kpgdir t m' c := by
  cases seat with
  | idle proc thread here stack cr3 =>
    rw [← cpu] at proc thread here
    rw [← regs] at stack cr3
    exact .idle proc thread here stack cr3
  | away proc thread away stack out made backed =>
    obtain ⟨same, made⟩ := kept _ proc made
    have out := still (away_holds thread away) away _ out
    rw [← cpu] at proc thread away
    rw [← regs] at stack backed
    exact .away proc thread away stack out made (same.backed _ backed)
  | running proc thread stack esp0 backed =>
    obtain ⟨same, made⟩ := kept _ proc (running_made inv proc thread).2
    rw [← cpu] at proc thread
    rw [← regs, ← same.kstack] at stack esp0
    rw [← regs] at backed
    exact .running proc thread stack esp0 (same.backed _ backed)

variable [DecidableEq Page]

/-- Nothing is taken from a process by an event, other than by the one that reaps it. -/
theorem Affair.kept (inv : Inv s) {m : Pages Page} (owned : Owned kpgdir s m)
    (affair : Affair s t e) (made : (s.table p).Made) (left : ∀ r, e ≠ .reap r p) :
    Kept m (m.on e) p ∧ (t.table p).Made := by
  -- a `fork` works on another slot
  have forks : ∀ {p' np k} {x : Proc} {m' : Pages Page}, At s p' k → k.forks = some np →
      t.table = s.table.set np x → Change p' np m m' → Kept m m' p ∧ (t.table p).Made := by
    intro p' np k x m' here forks table change
    have ne : p ≠ np := (here.ne_made inv forks made).symm
    refine ⟨change.kept ne ((owned.forking.fits here).not_assigned (by simp [forks])), ?_⟩
    rwa [table, Table.set_ne _ ne]
  cases affair with
  | quiet kin _ _ => exact ⟨.refl m p, (kin p).made.mpr made⟩
  | waitFail kin _ _ _ => exact ⟨.refl m p, (kin p).made.mpr made⟩
  | @exit p' _ alive _ phase _ _ _ _ =>
    refine ⟨.refl m p, ?_⟩
    rw [Proc.Made, phase]
    by_cases eq : p = p'
    · simp [eq]
    · rw [if_neg eq]
      exact made
  | @reap r q u x _ _ kin _ _ table _ _ _ =>
    have ne : p ≠ q := by
      rintro rfl
      exact left r rfl
    obtain ⟨change, work⟩ : Change q q m (m.reap q) ∧ (m.reap q).work = m.work := change_reap
    refine ⟨⟨change.kstack p ne, fun v backed => ?_⟩, ?_⟩
    · exact backed.imp (change.pgdir p ne).trans (congrFun work p).trans
    · rw [table, Table.set_ne _ ne]
      exact (kin p).made.mpr made
  | @allocate p' np x unused _ _ _ table _ _ =>
    have ne : p ≠ np := by
      rintro rfl
      exact Proc.not_made (.inl unused) made
    refine ⟨.refl m p, ?_⟩
    rwa [table, Table.set_ne _ ne]
  | forkDone here _ _ _ _ _ table _ _ => exact forks here rfl table change_forkDone
  | forkFail here _ _ _ table _ _ => exact forks here rfl table change_forkFail
  | forkCopy here _ _ _ _ _ table _ _ => exact forks here rfl table change_forkCopy

omit [DecidableEq Page] in
theorem Seat.left (inv : Inv s) (seat : Seat kpgdir s m c) (proc : (s.cpu c).proc = some p)
    (affair : Affair s t e) (r : Slot) : e ≠ .reap r p := by
  rintro rfl
  cases affair with
  | reap zombie _ _ _ _ _ _ _ alone =>
    cases seat with
    | idle none _ _ _ _ => cases proc.symm.trans none
    | away _ thread away _ _ _ _ => exact alone c (away_holds thread away) thread
    | running proc' thread _ _ _ =>
      cases proc.symm.trans proc'
      simp [Proc.phase, (running_made inv proc thread).1] at zombie

theorem on_of_quiet (quiet : e.Quiet) (m : Pages Page) : m.on e = m := by
  cases e <;> first | rfl | exact absurd quiet id

variable [DecidableEq C] {a : Act C}

omit [DecidableEq Page] in
theorem swtch_stay (busy : (s.cpu c).thread ≠ .scheduler) (busy' : (t.cpu c).thread ≠ .scheduler) :
    m.swtch kpgdir s t c = m := by
  unfold Mem.swtch
  cases here : (s.cpu c).thread <;> cases there : (t.cpu c).thread <;> first | rfl | contradiction

omit [DecidableEq Page] in
theorem swtch_sched (busy : (s.cpu c).thread ≠ .scheduler) (out : (t.cpu c).thread = .scheduler) :
    m.swtch kpgdir s t c = m.setRegs c { m.regs c with stack := none } := by
  unfold Mem.swtch
  rw [out]
  cases here : (s.cpu c).thread <;> first | rfl | contradiction

theorem Seat.move (inv : Inv s) (owned : Owned kpgdir s m.pages) (seat : Seat kpgdir s m c)
    (affair : Affair s t e) (move : CpuMove s.table t.table e (s.cpu c) (t.cpu c)) {m₁ : Mem C Page}
    (pages : m₁.pages = m.pages.on e) (regs : m₁.regs = m.regs) :
    Seat kpgdir t (m₁.swtch kpgdir s t c) c ∧ (m₁.swtch kpgdir s t c).pages = m₁.pages ∧
      ∀ d, d ≠ c → (m₁.swtch kpgdir s t c).regs d = m.regs d := by
  have set_self : ∀ r, ((m₁.setRegs c r).regs c) = r := fun r => update_self _ _ _
  have set_ne : ∀ r d, d ≠ c → (m₁.setRegs c r).regs d = m.regs d := by
    intro r d ne
    rw [← regs]
    exact update_of_ne ne _ _
  have left : ∀ p, (s.cpu c).proc = some p → ∀ r, e ≠ .reap r p :=
    fun p proc => seat.left inv proc affair
  generalize cpu : t.cpu c = y at move
  cases move with
  | @scan pc thread here there =>
    have result : m₁.swtch kpgdir s t c = m₁ := by
      simp only [Mem.swtch, cpu, thread, if_neg here]
    rw [result]
    refine ⟨?_, rfl, fun d _ => by rw [regs]⟩
    cases seat with
    | idle proc _ _ stack cr3 =>
      exact .idle (by rw [cpu]; exact proc) (by rw [cpu]; exact thread) (by rw [cpu]; exact there)
        (by rw [regs]; exact stack) (by rw [regs]; exact cr3)
    | away _ _ away _ _ _ _ => exact absurd away here
    | running _ busy _ _ _ => exact absurd thread busy
  | @back pc thread away there quiet =>
    have result : m₁.swtch kpgdir s t c = m₁.setRegs c (switchkvm kpgdir (m₁.regs c)) := by
      simp only [Mem.swtch, cpu, thread, if_pos away]
    rw [result]
    refine ⟨?_, rfl, set_ne _⟩
    have stack : (m.regs c).stack = none := by
      cases seat with
      | idle _ _ here _ _ => exact absurd away here
      | away _ _ _ stack _ _ _ => exact stack
      | running _ busy _ _ _ => exact absurd thread busy
    refine .idle (by rw [cpu]) (by rw [cpu]; exact thread) (by rw [cpu]; exact there) ?_ ?_
    · rw [set_self, regs]
      exact stack
    · rw [set_self]
      rfl
  | @dispatch p pc ctx thread here ready quiet =>
    have same : m₁.pages = m.pages := by rw [pages, on_of_quiet quiet]
    have made : (s.table p).Made := .inl (by simp [Proc.phase, ready])
    obtain ⟨k, d, stack, dir, loaded⟩ := Owned.load (c := c) (m := m₁) (same ▸ owned) made
      fun r => { r with stack := m₁.pages.kstack p }
    have result : m₁.swtch kpgdir s t c = m₁.setRegs c
        { cr3 := d, esp0 := some k, stack := m₁.pages.kstack p } := by
      simp only [Mem.swtch, cpu, thread, loaded]
    rw [result]
    refine ⟨.running (p := p) (by rw [cpu]) (by rw [cpu]; simp) ?_ ?_ (.inl ?_), rfl, set_ne _⟩
    · rw [set_self]
      rfl
    · rw [set_self]
      exact stack.symm
    · rw [set_self]
      exact dir
  | @stay th busy busy' =>
    have result : m₁.swtch kpgdir s t c = m₁ := swtch_stay busy (by rw [cpu]; exact busy')
    rw [result]
    refine ⟨?_, rfl, fun d _ => by rw [regs]⟩
    cases seat with
    | idle _ thread _ _ _ => exact absurd thread busy
    | away _ thread _ _ _ _ _ => exact absurd thread busy
    | @running p proc _ stack esp0 backed =>
      have kept := (affair.kept inv owned (running_made inv proc busy).2 (left p proc)).1
      refine .running (p := p) (by rw [cpu]; exact proc) (by rw [cpu]; exact busy') ?_ ?_ ?_
      · rw [pages, regs, kept.kstack]
        exact stack
      · rw [pages, regs, kept.kstack]
        exact esp0
      · rw [pages, regs]
        exact kept.backed _ backed
  | @sched p proc busy out quiet =>
    have result : m₁.swtch kpgdir s t c = m₁.setRegs c { m₁.regs c with stack := none } :=
      swtch_sched busy (by rw [cpu])
    rw [result]
    refine ⟨?_, rfl, set_ne _⟩
    cases seat with
    | idle _ thread _ _ _ => exact absurd thread busy
    | away _ thread _ _ _ _ _ => exact absurd thread busy
    | @running p' proc' _ stack esp0 backed =>
      obtain rfl : p = p' := Option.some.inj (proc.symm.trans proc')
      obtain ⟨kept, made⟩ := affair.kept inv owned (running_made inv proc busy).2 (left p proc)
      refine .away (p := p) (by rw [cpu]; exact proc) (by rw [cpu])
        (by rw [cpu]; exact inv.away c busy) ?_ out made ?_
      · rw [set_self]
      · rw [set_self, regs]
        change Backed m₁.pages p _
        rw [pages]
        exact kept.backed _ backed

theorem Paged.kernel (inv : Inv s) (inv' : Inv t) (paged : Paged kpgdir s m)
    (step : (kernel C).step s a t) (allows : m.pages.allows s a = true) :
    Paged kpgdir t (m.follow kpgdir s a t) := by
  have turn := step_turn step
  obtain ⟨e, is, affair, _⟩ := turn.affair inv
  have owned := paged.owned.event inv inv' affair (is ▸ ready_of_allows allows)
  -- a CPU between `swtch` and `switchkvm` has the lock, so nobody is dispatched
  have still : ∀ d, (s.cpu d).Holds → (s.cpu d).sched.Away → ∀ p, (s.table p).state ≠ .running →
      (t.table p).state ≠ .running := by
    intro d holds away p out running
    obtain ⟨c, pc, thread, chooses, _⟩ := Dispatched.chooses ⟨out, running⟩ (step_moves step)
    have lock := inv.lock_of_sched thread chooses.busy.1
    cases lock.symm.trans (inv.held d holds)
    exact chooses.here away
  have others : ∀ {m' : Mem C Page} (d : C), t.cpu d = s.cpu d → m'.pages = m.pages.on e →
      m'.regs d = m.regs d → Seat kpgdir t m' d := by
    intro m' d cpu pages regs
    refine (paged.seat d).frame inv cpu regs (still d) fun p proc made => ?_
    rw [pages]
    exact affair.kept inv paged.owned made ((paged.seat d).left inv proc affair)
  rcases turn.cpu with ⟨none, cpu⟩ | ⟨c, at_c, cpu, move⟩
  · have result : m.follow kpgdir s a t = { m with pages := m.pages.on e } := by
      simp only [Mem.follow, none, is]
    rw [result]
    exact ⟨owned, fun d => others d (by rw [cpu]) rfl rfl⟩
  · have result : m.follow kpgdir s a t =
        Mem.swtch { m with pages := m.pages.on e } kpgdir s t c := by
      simp only [Mem.follow, at_c, is]
    rw [is] at move
    let m₁ : Mem C Page := { m with pages := m.pages.on e }
    obtain ⟨seat, pages, regs⟩ : Seat kpgdir t (m₁.swtch kpgdir s t c) c ∧
        (m₁.swtch kpgdir s t c).pages = m₁.pages ∧
        ∀ d, d ≠ c → (m₁.swtch kpgdir s t c).regs d = m.regs d :=
      (paged.seat c).move inv paged.owned affair move rfl rfl
    rw [result]
    refine ⟨by rw [pages]; exact owned, fun d => ?_⟩
    by_cases eq : d = c
    · rw [eq]
      exact seat
    · exact others d (cpu d eq) pages (regs d eq)

/-- What a statement of process `p` on CPU `c` leaves alone: it loads nothing, or it is
`switchuvm`. -/
theorem statement_cases {w : Statement Page} (inv : Inv s) (owned : Owned kpgdir s m.pages)
    (proc : (s.cpu c).proc = some p) (thread : (s.cpu c).thread = .process k)
    (step : m.statement c p k w = some m') :
    (m'.regs = m.regs ∧ ∀ q, (s.table q).Made → Kept m.pages m'.pages q) ∨
    ∃ v d, m.pages.kstack p = some v ∧ m.pages.pgdir p = some d ∧
      m'.pages.kstack = m.pages.kstack ∧ m'.pages.pgdir = m.pages.pgdir ∧
      (∀ q, q ≠ p → m'.pages.work q = m.pages.work q) ∧
      m'.regs = update m.regs c { m.regs c with esp0 := some v, cr3 := d } := by
  have here : At s p k := .process proc thread
  have made := (running_made inv proc (by simp [thread])).2
  -- the work of `p` changes, and it was not between `curproc->pgdir = pgdir` and `switchuvm`
  have work : ∀ {w : Work Page} {u : Page → Use Page}, (∀ old, m.pages.work p ≠ .assigned old) →
      ∀ q, Kept m.pages { m.pages with use := u, work := update m.pages.work p w } q := by
    intro w u out q
    refine ⟨rfl, fun v backed => backed.imp id fun assigned => ?_⟩
    refine (update_of_ne ?_ _ _).trans assigned
    rintro rfl
    exact out _ assigned
  cases w with
  | kstack v =>
    simp only [Mem.statement] at step
    split at step
    · rename_i np work
      split at step <;> cases step
      refine .inl ⟨rfl, fun q is => Change.kept (p := p) (q := np) ⟨fun _ ne => update_of_ne ne _ _,
        fun _ ne => update_of_ne ne _ _, fun _ _ => rfl⟩ ?_ (by simp [work])⟩
      exact (here.ne_made inv rfl is).symm
    · cases step
  | setupkvm d =>
    simp only [Mem.statement] at step
    split at step
    · split at step <;> cases step
      · rename_i idle
        exact .inl ⟨rfl, fun q _ => work (by simp [idle]) q⟩
      · rename_i stacked
        exact .inl ⟨rfl, fun q _ => work (by simp [stacked]) q⟩
    · cases step
  | kalloc v =>
    simp only [Mem.statement] at step
    split at step
    · split at step <;> cases step
      exact .inl ⟨rfl, fun q _ => ⟨rfl, fun _ => id⟩⟩
    · cases step
  | deallocuvm v =>
    simp only [Mem.statement] at step
    split at step
    · split at step <;> cases step
      exact .inl ⟨rfl, fun q _ => ⟨rfl, fun _ => id⟩⟩
    · cases step
  | bad =>
    simp only [Mem.statement] at step
    split at step <;> cases step
    · rename_i building
      exact .inl ⟨rfl, fun q _ => work (by simp [building]) q⟩
    · rename_i copying
      exact .inl ⟨rfl, fun q _ => work (by simp [copying]) q⟩
  | commit =>
    simp only [Mem.statement] at step
    split at step <;> cases step
    rename_i d building
    refine .inl ⟨rfl, fun q _ => ⟨rfl, fun v backed => ?_⟩⟩
    by_cases eq : q = p
    · rcases backed with dir | assigned
      · rw [eq] at dir ⊢
        refine .inr ((update_self _ _ _).trans ?_)
        rw [dir]
      · rw [eq] at assigned
        cases building.symm.trans assigned
    · rcases backed with dir | assigned
      · exact .inl ((update_of_ne eq _ _).trans dir)
      · exact .inr ((update_of_ne eq _ _).trans assigned)
  | switchuvm =>
    right
    obtain ⟨v, d, stack, dir, _⟩ := owned.pages made
    simp only [Mem.statement] at step
    split at step <;> cases step
    · refine ⟨v, d, stack, dir, ?_⟩
      simp only [Mem.load, switchuvm, Pages.setWork, stack, dir]
      exact ⟨rfl, rfl, fun q ne => update_of_ne ne _ _, rfl⟩
    · refine ⟨v, d, stack, dir, ?_⟩
      simp only [Mem.load, switchuvm, stack, dir]
      exact ⟨rfl, rfl, fun q ne => rfl, rfl⟩
  | freevm =>
    simp only [Mem.statement] at step
    split at step <;> cases step
    rename_i old switched
    obtain ⟨d, rfl⟩ := Option.ne_none_iff_exists'.mp fun none => (owned.old p).2 (none ▸ switched)
    exact .inl ⟨rfl, fun q _ => work (by simp [switched]) q⟩

theorem Paged.statement {w : Statement Page} (inv : Inv s) (paged : Paged kpgdir s m)
    (proc : (s.cpu c).proc = some p) (thread : (s.cpu c).thread = .process k)
    (step : m.statement c p k w = some m') : Paged kpgdir s m' := by
  refine ⟨paged.owned.statement inv proc thread step, fun d => ?_⟩
  have busy : (s.cpu c).thread ≠ .scheduler := by simp [thread]
  have running := (running_made inv proc busy).1
  rcases statement_cases inv paged.owned proc thread step with
    ⟨regs, kept⟩ | ⟨v, dir, stack, pgdir, kstacks, pgdirs, work, regs⟩
  · exact (paged.seat d).frame inv rfl (by rw [regs]) (fun _ _ _ => id)
      fun q _ made => ⟨kept q made, made⟩
  · by_cases eq : d = c
    · subst eq
      have own : (m'.regs d) = { m.regs d with esp0 := some v, cr3 := dir } := by
        rw [regs, update_self]
      cases paged.seat d with
      | idle _ out _ _ _ => exact absurd out busy
      | away _ out _ _ _ _ _ => exact absurd out busy
      | @running p' proc' _ stack' _ _ =>
        obtain rfl : p = p' := Option.some.inj (proc.symm.trans proc')
        refine .running proc busy ?_ ?_ (.inl ?_)
        · rw [own, kstacks]
          exact stack'
        · rw [own, kstacks, stack]
        · rw [own, pgdirs, pgdir]
    · -- no other CPU has `p` as its process
      have other : ∀ q, (s.cpu d).proc = some q → q ≠ p := by
        rintro q at_d rfl
        cases paged.seat d with
        | idle none _ _ _ _ => cases at_d.symm.trans none
        | away proc' _ _ _ out _ _ =>
          cases at_d.symm.trans proc'
          exact out running
        | running proc' busy' _ _ _ =>
          exact eq (inv.runs.unique d c q (runs_of_busy at_d busy') (runs_of_busy proc busy))
      refine (paged.seat d).frame inv rfl (by rw [regs, update_of_ne eq])
        (fun _ _ _ => id) fun q at_d made => ⟨⟨by rw [kstacks], fun v backed => ?_⟩, made⟩
      unfold Backed
      rw [pgdirs, work q (other q at_d)]
      exact backed

omit [DecidableEq C] in
theorem Paged.boot {k d : Page} (ne : k ≠ d) (ne_k : k ≠ kpgdir) (ne_d : d ≠ kpgdir) :
    Paged kpgdir (State.boot C) (.boot C kpgdir k d) := by
  have only : ∀ {q}, (bootTable q).Made → q = initproc := by
    intro q made
    by_contra ne
    simp [bootTable, ne, Proc.Made, Proc.phase] at made
  -- the one page of each kind
  have one : ∀ v : Page, ∀ h : Slot ⊕ Slot, ∀ r,
      holds bootTable (fun p => if p = initproc then some v else none) (fun _ => none) h = some r →
      h = .inl initproc ∧ r = v := by
    rintro v (q | p) r claimed
    · by_cases made : (bootTable q).Made
      · rw [holds_made made, only made, if_pos rfl] at claimed
        exact ⟨congrArg _ (only made), (Option.some.inj claimed).symm⟩
      · rw [holds_not_made made] at claimed
        cases claimed
    · cases claimed
  have claims : ∀ (v : Page) (ok : Page → Prop), ok v →
      Exclusive (holds bootTable (fun p => if p = initproc then some v else none)
        (fun _ => none)) ok := by
    intro v ok is
    refine ⟨fun h r claimed => ?_, fun h h' r claimed claimed' => ?_⟩
    · rw [(one v h r claimed).2]
      exact is
    · exact (one v h r claimed).1.trans (one v h' r claimed').1.symm
  refine ⟨⟨?_, ?_, fun q made => ?_, ?_, fun p => ?_, ?_, rfl⟩, fun c => ?_⟩
  · refine claims k _ ?_
    simp [Mem.boot, ne_k]
  · refine claims d _ ?_
    simp [Mem.boot, ne_d, ne.symm]
  · rw [only made]
    simp [Mem.boot]
  · exact ⟨fun p np here => absurd here (not_at_boot p _),
      fun p np here => absurd here (not_at_boot p _)⟩
  · simp [Mem.boot]
  · simp [Mem.boot]
  · exact .idle rfl rfl id rfl rfl

theorem reachable_paged (reach : (paged C kpgdir).Reachable (s, m)) :
    (kernel C).Reachable s ∧ Paged kpgdir s m := by
  refine reach.invariant (P := fun x => (kernel C).Reachable x.1 ∧ Paged kpgdir x.1 x.2)
    (fun x start => ?_) fun x a y _ inv step => ?_
  · obtain ⟨k, d, ne, ne_k, ne_d, rfl⟩ := start
    exact ⟨.init rfl, .boot ne ne_k ne_d⟩
  · obtain ⟨before, paged⟩ := inv
    change deedStep kpgdir x a = some y at step
    cases a with
    | kernel a =>
      simp only [deedStep] at step
      split at step
      · rename_i allowed
        obtain ⟨t, next, rfl⟩ := Option.map_eq_some_iff.mp step
        have after : (kernel C).Reachable t := .step before next
        exact ⟨after, paged.kernel (reachable_inv before) (reachable_inv after) next allowed.2⟩
      · cases step
    | statement c w =>
      simp only [deedStep] at step
      split at step
      · split at step
        · rename_i proc thread
          obtain ⟨m, next, rfl⟩ := Option.map_eq_some_iff.mp step
          exact ⟨before, paged.statement (reachable_inv before) proc thread next⟩
        · cases step
      · cases step

/-! ## The result -/

omit [DecidableEq Page] [DecidableEq C] in
theorem Paged.in_use (paged : Paged kpgdir s m) (inv : Inv s) (c : C) :
    m.pages.use (m.regs c).cr3 ≠ .free ∧
      ∀ v, (m.regs c).stack = some v → m.pages.use v ≠ .free := by
  have dir : ∀ p, (s.table p).Made → Backed m.pages p (m.regs c).cr3 →
      m.pages.use (m.regs c).cr3 ≠ .free := by
    intro p made backed
    have held : m.pages.use (m.regs c).cr3 = .pgdir := by
      rcases backed with own | assigned
      · exact paged.owned.pgdirs.ok_of_claim (.inl p) _ ((holds_made made).trans own)
      · exact paged.owned.pgdirs.ok_of_claim (.inr p) _ (by simp only [holds, assigned, Work.dir])
    simp [held]
  cases paged.seat c with
  | idle _ _ _ stack cr3 =>
    refine ⟨?_, fun v at_v => ?_⟩
    · rw [cr3, paged.owned.kernel]
      simp
    · cases stack.symm.trans at_v
  | away _ _ _ stack _ made backed =>
    exact ⟨dir _ made backed, fun v at_v => by cases stack.symm.trans at_v⟩
  | running proc busy stack _ backed =>
    have made := (running_made inv proc busy).2
    refine ⟨dir _ made backed, fun v at_v => ?_⟩
    have held : m.pages.use v = .kstack :=
      paged.owned.kstacks.ok_of_claim (.inl _) v ((holds_made made).trans (stack ▸ at_v))
    simp [held]

theorem deedStep_regs {x : Deed C Page} (step : deedStep kpgdir (s, m) x = some (t, m')) :
    m'.regs = m.regs ∨ m'.pages.use = m.pages.use := by
  have load : ∀ (n : Mem C Page) c p f, (n.load c p f).pages.use = n.pages.use := by
    intro n c p f
    unfold Mem.load
    split <;> rfl
  cases x with
  | kernel a =>
    simp only [deedStep] at step
    split at step
    · obtain ⟨t, next, eq⟩ := Option.map_eq_some_iff.mp step
      cases eq
      rcases (step_turn next).cpu with ⟨none, _⟩ | ⟨c, at_c, _, move⟩
      · left
        simp only [Mem.follow, none]
      · simp only [Mem.follow, at_c]
        generalize cpu : t.cpu c = y at move
        cases move with
        | scan thread here _ =>
          left
          simp only [Mem.swtch, cpu, thread, if_neg here]
        | back thread away _ quiet =>
          right
          simp only [Mem.swtch, cpu, thread, if_pos away, on_of_quiet quiet]
          rfl
        | dispatch thread _ _ quiet =>
          right
          simp only [Mem.swtch, cpu, thread, on_of_quiet quiet, load]
        | stay busy busy' =>
          left
          rw [swtch_stay busy (by rw [cpu]; exact busy')]
        | sched _ busy _ quiet =>
          right
          rw [swtch_sched busy (by rw [cpu]), on_of_quiet quiet]
          rfl
    · cases step
  | statement c w =>
    simp only [deedStep] at step
    split at step
    · split at step
      · obtain ⟨n, next, eq⟩ := Option.map_eq_some_iff.mp step
        cases eq
        cases w with
        | switchuvm =>
          right
          simp only [Mem.statement] at next
          split at next <;> cases next
          · rw [load]
            rfl
          · rw [load]
        | _ =>
          left
          simp only [Mem.statement] at next
          repeat' split at next
          all_goals cases next <;> rfl
      · cases step
    · cases step

/-- With `ptable.lock` free, a process is `RUNNING` exactly when it is `c->proc` of exactly one CPU
`c`, and that CPU has its kernel stack and its page directory loaded; the other CPUs are in
`scheduler()`.  What a CPU has loaded is always allocated, and no step passes it to `kfree`. -/
theorem loaded_in_use (reach : (paged C kpgdir).Reachable (s, m)) :
    (s.lock = none →
      (∀ p, (s.table p).state = .running ↔ ∃! c, (s.cpu c).proc = some p) ∧
      (∀ c p, (s.cpu c).proc = some p →
        (m.regs c).stack = m.pages.kstack p ∧ (m.regs c).esp0 = m.pages.kstack p ∧
        (m.pages.pgdir p = some (m.regs c).cr3 ∨
          m.pages.work p = .assigned (some (m.regs c).cr3))) ∧
      ∀ c, (s.cpu c).proc = none → (m.regs c).cr3 = kpgdir ∧ (m.regs c).stack = none) ∧
    (∀ c, m.pages.use (m.regs c).cr3 ≠ .free ∧
      ∀ v, (m.regs c).stack = some v → m.pages.use v ≠ .free) ∧
    ∀ x t m', (paged C kpgdir).step (s, m) x (t, m') → ∀ v, m.pages.use v ≠ .free →
      m'.pages.use v = .free → ∀ c, (m.regs c).cr3 ≠ v ∧ (m.regs c).stack ≠ some v := by
  obtain ⟨before, paged⟩ := reachable_paged reach
  have inv := reachable_inv before
  refine ⟨fun free => ?_, paged.in_use inv, fun x t m' step v used freed c => ?_⟩
  · have busy : ∀ c p, (s.cpu c).proc = some p → (s.cpu c).thread ≠ .scheduler := by
      intro c p proc
      cases paged.seat c with
      | idle none _ _ _ _ => cases proc.symm.trans none
      | away _ thread away _ _ _ _ => cases free.symm.trans (inv.held c (away_holds thread away))
      | running _ busy _ _ _ => exact busy
    refine ⟨fun p => ⟨fun running => ?_, fun one => ?_⟩, fun c p proc => ?_, fun c none => ?_⟩
    · obtain ⟨c, runs⟩ := reachable_covered before p running
      have proc : (s.cpu c).proc = some p := by
        simp only [Cpu.runs] at runs
        split at runs
        · cases runs
        · exact runs
      refine ⟨c, proc, fun d proc' => ?_⟩
      exact inv.runs.unique d c p (runs_of_busy proc' (busy d p proc')) runs
    · obtain ⟨c, proc, _⟩ := one
      exact (running_made inv proc (busy c p proc)).1
    · cases paged.seat c with
      | idle none _ _ _ _ => cases proc.symm.trans none
      | away _ thread _ _ _ _ _ => exact absurd thread (busy c p proc)
      | running proc' _ stack esp0 backed =>
        cases proc.symm.trans proc'
        exact ⟨stack, esp0, backed⟩
    · cases paged.seat c with
      | idle _ _ _ stack cr3 => exact ⟨cr3, stack⟩
      | away proc _ _ _ _ _ _ => cases none.symm.trans proc
      | running proc _ _ _ _ => cases none.symm.trans proc
  · obtain ⟨after, paged'⟩ := reachable_paged (reach.step step)
    rcases deedStep_regs step with regs | use
    · have := paged'.in_use (reachable_inv after) c
      rw [regs] at this
      exact ⟨fun at_v => this.1 (at_v ▸ freed), fun at_v => this.2 v at_v freed⟩
    · rw [use] at freed
      exact absurd freed used

/-- The first process has come to `curproc->pgdir = pgdir` in `exec`, and its CPU still has the old
directory loaded. -/
theorem loaded_in_use_exec :
    ∃ s m, (paged Unit (0 : Nat)).Reachable (s, m) ∧ s.lock = none ∧
      m.pages.pgdir initproc = some 3 ∧
      (m.regs ()).cr3 = 2 ∧ m.pages.use 2 ≠ .free := by
  have run : ((Lts.exec (deedStep 0) (fun _ => true) (State.boot Unit, Mem.boot Unit (0 : Nat) 1 2)
      (List.replicate 67 (.kernel (.sched ())) ++ [.kernel (.resume ()),
        .statement () (.setupkvm 3), .statement () .commit])).map fun x =>
      decide (x.1.lock = none ∧ x.2.pages.pgdir initproc = some 3 ∧ (x.2.regs ()).cr3 = 2)) =
      some true := by
    decide +kernel
  obtain ⟨⟨s, m⟩, exec, facts⟩ := Option.map_eq_some_iff.mp run
  obtain ⟨free, pgdir, cr3⟩ := of_decide_eq_true facts
  have start : (paged Unit (0 : Nat)).Reachable (State.boot Unit, Mem.boot Unit 0 1 2) :=
    .init ⟨1, 2, by decide, by decide, by decide, rfl⟩
  have reach : (paged Unit (0 : Nat)).Reachable (s, m) :=
    start.of_exec (fun _ _ _ _ step _ => step) exec
  have used := (loaded_in_use reach).2.1 ()
  change (m.regs ()).cr3 = 2 at cr3
  rw [cr3] at used
  exact ⟨s, m, reach, free, pgdir, cr3, used.1⟩

end Seat

end Xv6.Sched
