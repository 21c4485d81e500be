import Xv6.Lib.Claims
import Xv6.Sched.Events

/-!
# What the lock protects

`Moves` keeps of the steps of `Sched/Events.lean` what the locking needs.
`Inv` is the invariant every result about the scheduler rests on:

* a CPU in the middle of `scheduler()`, or in a process that just returned from `swtch`,
  holds `ptable.lock`;
* a process runs on one CPU, and is `RUNNING` there;
* a slot that a `fork` in progress is filling in is `EMBRYO`, and no other `fork` has it.
  This is what makes the unlocked writes of `fork` harmless;
* `Scanned`: what the scan has seen is still true, since nothing moves while the lock is held.
-/

namespace Xv6.Sched

variable {C : Type}

/-! ## One step -/

def Kernel.forks : Kernel → Option Slot
  | .user _ => none
  | .allocated np | .copied np => some np

def Context.forks : Context → Option Slot
  | .yield k => k.forks
  | _ => none

def Thread.forks : Thread → Option Slot
  | .scheduler => none
  | .resume ctx => ctx.forks
  | .process k => k.forks

/-- Process `p` runs on CPU `c`, inside a `fork` of `np` if there is one, and it has just
returned from `swtch` with the lock or finds the lock free. -/
structure Section (s : State C) (c : C) (p : Slot) (np : Option Slot) : Prop where
  proc : (s.cpu c).proc = some p
  thread : (s.cpu c).thread ≠ .scheduler
  forks : (s.cpu c).thread.forks = np
  lock : s.lock = none ∨ ∃ ctx, (s.cpu c).thread = .resume ctx

variable {s : State C}

section Moves

/-- What a step does to the table, the lock and the CPUs. -/
inductive Moves [DecidableEq C] (s : State C) : State C → Prop
  | acquire {c : C} : (s.cpu c).thread = .scheduler → (s.cpu c).sched = .idle → s.lock = none →
      Moves s { s.goto c (.count false 0 0) with lock := some c }
  | advance {c : C} {pc : SchedPc} (proc : Option Slot) : (s.cpu c).thread = .scheduler →
      Advance s.table (s.cpu c).sched pc →
      Moves s (s.setCpu c { s.cpu c with proc := proc, sched := pc })
  | dispatch {c : C} {p : Slot} {pc : SchedPc} : (s.cpu c).thread = .scheduler →
      Chooses s.table (s.cpu c).sched p pc → Moves s (s.dispatch c p pc)
  | release {c : C} : (s.cpu c).thread = .scheduler → (s.cpu c).sched = .done →
      Moves s { s.goto c .idle with lock := none }
  | yield {c : C} {p : Slot} {k : Kernel} : Section s c p k.forks →
      Moves s (s.sched c (s.table.set p { s.table p with
        state := .runnable, context := .yield k }))
  | sleep {c : C} {p : Slot} {ctx : Context} (chan : Option Chan) : Section s c p none →
      ctx.forks = none →
      Moves s (s.sched c (s.table.set p { s.table p with
        chan := chan, state := .sleeping, context := ctx }))
  | exit {c : C} {p : Slot} {t : Table} : Section s c p none →
      (∀ q, (s.table q).Woken (t q)) →
      Moves s (s.sched c (t.set p { t p with state := .zombie, context := .exit }))
  | leave {c : C} {p : Slot} {t : Table} {k : Kernel} : Section s c p k.forks →
      (∀ q, (s.table q).Woken (t q)) → Moves s (s.leave c t k)
  | settickets {c : C} {p : Slot} {ret : BitVec 32} (ticket : BitVec 32) : Section s c p none →
      Moves s (s.leave c (s.table.set p { s.table p with priority := ticket }) (.user ret))
  | reap {c : C} {p q : Slot} {t : Table} {ret : BitVec 32} : Section s c p none →
      (∀ q, (s.table q).Woken (t q)) → (t q).state = .zombie →
      Moves s (s.leave c (reap t q) (.user ret))
  | allocate {c : C} {p np : Slot} (nextpid : BitVec 32) : Section s c p none →
      (s.table np).state = .unused →
      Moves s { s.leave c (allocproc s.table np s.nextpid) (.allocated np) with
        nextpid := nextpid }
  | forkDone {c : C} {p np : Slot} {ret : BitVec 32} : Section s c p (some np) →
      Moves s (s.leave c (s.table.set np { s.table np with state := .runnable }) (.user ret))
  | forkFail {c : C} {p np : Slot} {ret : BitVec 32} : (s.cpu c).proc = some p →
      (s.cpu c).thread = .process (.allocated np) →
      Moves s (s.unlocked c (s.table.set np { s.table np with state := .unused }) (.user ret))
  | forkCopy {c : C} {p np : Slot} : (s.cpu c).proc = some p →
      (s.cpu c).thread = .process (.allocated np) →
      Moves s (s.unlocked c (forkCopy s.table p np) (.copied np))
  | wakeup (chan : Chan) : s.lock = none →
      Moves s { s with table := wakeup1 s.table (some chan) }
  | panic (msg : Panic) : Moves s { s with panic := some msg }

variable {c : C} {p : Slot}

theorem Enters.inside {k : Kernel} (enters : Enters s c p k) : Section s c p k.forks := by
  refine ⟨enters.proc, ?_, ?_, .inl enters.free⟩ <;> rw [enters.thread]
  · simp
  · rfl

theorem inside_of_resume {ctx : Context} (proc : (s.cpu c).proc = some p)
    (thread : (s.cpu c).thread = .resume ctx) : Section s c p ctx.forks := by
  refine ⟨proc, ?_, ?_, .inr ⟨ctx, thread⟩⟩ <;> rw [thread]
  · simp
  · rfl

variable {a : Act C}

theorem Waits.inside {t : Table} (waits : Waits s p a c t) : Section s c p none := by
  cases waits with
  | call proc thread free => exact Enters.inside ⟨proc, thread, free⟩
  | resume proc thread => exact inside_of_resume proc thread

theorem Waits.tidy {t : Table} (waits : Waits s p a c t) :
    t = s.table ∨ t = s.table.set p { s.table p with chan := none } := by
  cases waits with
  | call _ _ _ => exact .inl rfl
  | resume _ _ => exact .inr rfl

theorem woken_chan (u : Table) (p q : Slot) :
    (u q).Woken (u.set p { u p with chan := none } q) :=
  woken_set (by exact ⟨.inl rfl, rfl, rfl, rfl⟩) q

theorem Waits.woken {t : Table} (waits : Waits s p a c t) (q : Slot) : (s.table q).Woken (t q) := by
  rcases waits.tidy with rfl | rfl
  · exact .refl _
  · exact woken_chan _ p q

variable [DecidableEq C]

theorem Turn.moves {t : State C} (turn : Turn s a t) : Moves s t := by
  cases turn with
  | acquire thread pc free => exact .acquire thread pc free
  | advance thread advance _ => exact .advance _ thread advance
  | back thread advance _ => exact .advance none thread advance
  | dispatch thread chooses => exact .dispatch thread chooses
  | release thread pc => exact .release thread pc
  | resume proc thread resumes =>
    have inside := inside_of_resume proc thread
    cases resumes with
    | forkret => exact .leave inside fun q => .refl _
    | yield => exact .leave inside fun q => .refl _
    | sleep => exact .leave inside (woken_chan _ _)
  | waitReap waits found => exact .reap waits.inside waits.woken (zombieChild_state found).2
  | waitFail waits _ _ => exact .leave waits.inside waits.woken
  | @waitSleep a c p t waits _ _ =>
    have same : t.set p { t p with chan := some (.proc p), state := .sleeping, context := .wait } =
        s.table.set p { s.table p with
          chan := some (.proc p), state := .sleeping, context := .wait } := by
      rcases waits.tidy with rfl | rfl
      · rfl
      · rw [Table.set_self]
        simp only [Table.set, Function.update_idem]
    rw [same]
    exact .sleep _ waits.inside rfl
  | zombieExit _ => exact .panic _
  | yield enters => exact .yield enters.inside
  | sleep chan enters => exact .sleep _ enters.inside rfl
  | @exit c p ret enters _ =>
    exact .exit enters.inside fun q => (wakeup1_woken _ _ q).trans (reparent_woken _ p q)
  | initExit _ => exact .panic _
  | kill pid enters => exact .leave enters.inside (kill_woken _ pid)
  | settickets _ priority enters => exact .settickets priority enters.inside
  | allocate enters found => exact .allocate _ enters.inside (findUnused_state found)
  | full enters _ => exact .leave enters.inside fun q => .refl _
  | forkDone enters => exact .forkDone enters.inside
  | forkFail proc thread => exact .forkFail proc thread
  | forkCopy proc thread => exact .forkCopy proc thread
  | wakeup chan free => exact .wakeup chan free

theorem step_moves {t : State C} (step : (kernel C).step s a t) : Moves s t :=
  (step_turn step).moves

end Moves

/-! ## The invariant -/

def Cpu.runs (x : Cpu) : Option Slot :=
  match x.thread with
  | .scheduler => none
  | _ => x.proc

def Proc.forks (x : Proc) : Option Slot :=
  match x.state with
  | .runnable | .sleeping => x.context.forks
  | _ => none

/-- The slots that forks in progress fill in, by the CPU or the process that is forking. -/
def claim (cpu : C → Cpu) (t : Table) : C ⊕ Slot → Option Slot
  | .inl c => (cpu c).thread.forks
  | .inr p => (t p).forks

/-- The CPU is inside a critical section of `ptable.lock`. -/
def Cpu.Holds (x : Cpu) : Prop :=
  match x.thread with
  | .scheduler => x.sched ≠ .idle
  | .resume _ => True
  | .process _ => False

/-- What the scan that stands at a control point of `scheduler()` has found out so far. -/
def Scanned (t : Table) : SchedPc → Prop
  | .count _ i hpcnt =>
    (hpcnt = 0 → ∀ p : Slot, p < i → ¬ (t p).High) ∧ (0 < hpcnt → ∃ p, (t p).High)
  | .high _ i => i = 0 → ∃ p, (t p).High
  | .low i => (∀ p, ¬ (t p).High) ∧ ∀ p : Slot, p < i → (t p).state ≠ .runnable
  | _ => True

/-- The invariant of the scheduler; its parts are listed at the head of this file. -/
structure Inv (s : State C) : Prop where
  runs : Exclusive (fun c => (s.cpu c).runs) (fun p => (s.table p).state = .running)
  forks : Exclusive (claim s.cpu s.table) (fun p => (s.table p).state = .embryo)
  fresh : ∀ p, (s.table p).state = .embryo → (s.table p).context = .forkret
  held : ∀ c, (s.cpu c).Holds → s.lock = some c
  away : ∀ c, (s.cpu c).thread ≠ .scheduler → (s.cpu c).sched.Away
  scanned : ∀ c, (s.cpu c).thread = .scheduler → Scanned s.table (s.cpu c).sched

theorem Inv.boot : Inv (State.boot C) where
  runs := .of_none fun _ => rfl
  forks := .of_none fun h => by
    rcases h with c | p
    · rfl
    · simp only [claim, State.boot, bootTable]
      split <;> rfl
  fresh := fun p _ => by
    simp only [State.boot, bootTable]
    split <;> rfl
  held := fun _ holds => absurd rfl holds
  away := fun _ ne => absurd rfl ne
  scanned := fun _ _ => trivial

variable {c : C} {p : Slot} {np : Option Slot}

theorem Section.runs (inside : Section s c p np) : (s.cpu c).runs = some p := by
  rw [← inside.proc]
  have thread := inside.thread
  unfold Cpu.runs
  split
  · contradiction
  · rfl

theorem Section.running (inv : Inv s) (inside : Section s c p np) : (s.table p).state = .running :=
  inv.runs.ok_of_claim c p inside.runs

theorem Section.embryo {np : Slot} (inv : Inv s) (inside : Section s c p (some np)) :
    (s.table np).state = .embryo :=
  inv.forks.ok_of_claim (.inl c) np inside.forks

theorem Inv.embryo_of_allocated (inv : Inv s) {c : C} {np : Slot}
    (thread : (s.cpu c).thread = .process (.allocated np)) : (s.table np).state = .embryo :=
  inv.forks.ok_of_claim (.inl c) np (by simp only [claim, thread, Thread.forks, Kernel.forks])

/-- While a process is in its section no other CPU holds the lock. -/
theorem Section.alone {d : C} (inv : Inv s) (inside : Section s c p np) (ne : d ≠ c) :
    ¬ (s.cpu d).Holds := by
  intro holds
  have lock := inv.held d holds
  rcases inside.lock with free | ⟨ctx, thread⟩
  · cases free.symm.trans lock
  · have own := inv.held c (by simp only [Cpu.Holds, thread])
    exact ne (Option.some.inj (lock.symm.trans own))

theorem Inv.lock_of_sched (inv : Inv s) {c : C} (thread : (s.cpu c).thread = .scheduler)
    (busy : (s.cpu c).sched ≠ .idle) : s.lock = some c :=
  inv.held c (by simpa only [Cpu.Holds, thread] using busy)

theorem Proc.Woken.forks {x y : Proc} (woken : x.Woken y) : y.forks = x.forks := by
  unfold Proc.forks
  rw [woken.context]
  rcases woken.state with eq | ⟨asleep, awake⟩
  · rw [eq]
  · rw [asleep, awake]

/-! ### Each step keeps the invariant -/

section Keep

variable [DecidableEq C] {s t : State C}

theorem State.setCpu_congr {α : Type} (f : Cpu → α) (s : State C) {c : C} {x : Cpu}
    (same : f x = f (s.cpu c)) (d : C) : f ((s.setCpu c x).cpu d) = f (s.cpu d) := by
  by_cases eq : d = c
  · subst eq
    simpa [State.setCpu] using same
  · simp [State.setCpu, Function.update_of_ne eq]

theorem State.setCpu_self (s : State C) (c : C) (x : Cpu) : (s.setCpu c x).cpu c = x := by
  simp [State.setCpu]

theorem State.setCpu_ne (s : State C) {c d : C} (ne : d ≠ c) (x : Cpu) :
    (s.setCpu c x).cpu d = s.cpu d := by
  simp [State.setCpu, Function.update_of_ne ne]

theorem Table.set_state {t : Table} {p : Slot} {x : Proc} {st : ProcState}
    (here : (t p).state = st → x.state = st) (q : Slot) (at_q : (t q).state = st) :
    (t.set p x q).state = st := by
  by_cases eq : q = p
  · subst eq
    rw [Table.set_self]
    exact here at_q
  · rwa [Table.set_ne t eq]

/-- A step starts or stops one process on one CPU, or none. -/
inductive Runs (s t : State C) : Prop
  | keep : (∀ d, (t.cpu d).runs = (s.cpu d).runs) →
      (∀ q, (t.table q).state = .running ↔ (s.table q).state = .running) → Runs s t
  | take {c : C} {p : Slot} : (s.cpu c).runs = none → (s.table p).state ≠ .running →
      (t.cpu c).runs = some p → (∀ d, d ≠ c → (t.cpu d).runs = (s.cpu d).runs) →
      (∀ q, (t.table q).state = .running ↔ q = p ∨ (s.table q).state = .running) → Runs s t
  | drop {c : C} {p : Slot} : (s.cpu c).runs = some p → (t.cpu c).runs = none →
      (∀ d, d ≠ c → (t.cpu d).runs = (s.cpu d).runs) →
      (∀ q, (t.table q).state = .running ↔ q ≠ p ∧ (s.table q).state = .running) → Runs s t

/-- Each move starts a process, stops one, or leaves all CPUs as they are. -/
theorem Inv.moves_runs (inv : Inv s) (move : Moves s t) : Runs s t := by
  -- a CPU that executes `scheduler()` runs nothing, before and after
  have idle : ∀ {c : C} {x : Cpu}, (s.cpu c).thread = .scheduler → x.thread = .scheduler →
      ∀ d, ((s.setCpu c x).cpu d).runs = (s.cpu d).runs :=
    fun before after => s.setCpu_congr Cpu.runs (by simp only [Cpu.runs, before, after])
  -- a process that stays on its CPU
  have stays : ∀ {c : C} (k : Kernel), (s.cpu c).thread ≠ .scheduler →
      ∀ d, ((s.setCpu c { s.cpu c with thread := .process k }).cpu d).runs = (s.cpu d).runs := by
    intro c k busy
    refine s.setCpu_congr Cpu.runs ?_
    unfold Cpu.runs
    split
    · contradiction
    · rfl
  have woken : ∀ {u : Table}, (∀ q, (s.table q).Woken (u q)) →
      ∀ q, (u q).state = .running ↔ (s.table q).state = .running := by
    intro u w q
    rcases (w q).state with eq | ⟨asleep, awake⟩
    · rw [eq]
    · simp [asleep, awake]
  have store : ∀ {u : Table} {p : Slot} {x : Proc},
      (x.state = .running ↔ (u p).state = .running) →
      ∀ q, (u.set p x q).state = .running ↔ (u q).state = .running :=
    Table.set_rel (R := fun x y => y.state = .running ↔ x.state = .running) fun _ => Iff.rfl
  have out : ∀ {u : Table} {p : Slot} {x : Proc}, x.state ≠ .running →
      ∀ q, (u.set p x q).state = .running ↔ q ≠ p ∧ (u q).state = .running := by
    intro u p x not q
    by_cases eq : q = p
    · simp [eq, Table.set_self, not]
    · simp [Table.set_ne u eq, eq]
  have sched : ∀ {c : C} {p : Slot} {np : Option Slot} {u : Table}, Section s c p np →
      (∀ q, (u q).state = .running ↔ q ≠ p ∧ (s.table q).state = .running) →
      Runs s (s.sched c u) := by
    intro c p np u inside states
    refine .drop inside.runs ?_ (fun d ne => ?_) states
    · simp only [State.sched, State.setCpu_self, Cpu.runs]
    · simp only [State.sched, s.setCpu_ne ne]
  cases move with
  | acquire thread _ _ => exact .keep (idle thread thread) fun _ => Iff.rfl
  | advance _ thread _ => exact .keep (idle thread thread) fun _ => Iff.rfl
  | release thread _ => exact .keep (idle thread thread) fun _ => Iff.rfl
  | @dispatch c p pc thread chooses =>
    refine .take (c := c) (p := p) ?_ ?_ ?_ (fun d ne => ?_) fun q => ?_
    · simp only [Cpu.runs, thread]
    · simp [chooses.ready]
    · simp only [State.dispatch, State.setCpu_self, Cpu.runs]
    · simp only [State.dispatch, s.setCpu_ne ne]
    · by_cases eq : q = p
      · simp [State.dispatch, eq, Table.set_self]
      · simp [State.dispatch, Table.set_ne _ eq, eq]
  | yield inside => exact sched inside (out (by simp))
  | sleep _ inside _ => exact sched inside (out (by simp))
  | exit inside w =>
    exact sched inside fun q => (out (by simp) q).trans (and_congr_right fun _ => woken w q)
  | leave inside w => exact .keep (stays _ inside.thread) (woken w)
  | settickets _ inside => exact .keep (stays _ inside.thread) (store Iff.rfl)
  | reap inside w zombie =>
    exact .keep (stays _ inside.thread) fun r => (store (by simp [zombie]) r).trans (woken w r)
  | allocate _ inside free => exact .keep (stays _ inside.thread) (store (by simp [free]))
  | forkDone inside =>
    exact .keep (stays _ inside.thread) (store (by simp [inside.embryo inv]))
  | forkFail _ thread =>
    exact .keep (stays _ (by simp [thread])) (store (by simp [inv.embryo_of_allocated thread]))
  | forkCopy _ thread => exact .keep (stays _ (by simp [thread])) (store Iff.rfl)
  | wakeup chan _ => exact .keep (fun _ => rfl) (woken (wakeup1_woken _ _))
  | panic _ => exact .keep (fun _ => rfl) fun _ => Iff.rfl

theorem Inv.runs_keep (inv : Inv s) (move : Moves s t) :
    Exclusive (fun c => (t.cpu c).runs) (fun p => (t.table p).state = .running) := by
  cases inv.moves_runs move with
  | keep same states => exact inv.runs.keep same fun q => (states q).mpr
  | @take c p _ fresh takes others states =>
    exact inv.runs.take fresh takes others ((states p).mpr (.inl rfl)) fun q run =>
      (states q).mpr (.inr run)
  | drop had gone others states =>
    exact inv.runs.drop had gone others fun q ne run => (states q).mpr ⟨ne, run⟩

/-- The forks in progress keep their slots, which stay `EMBRYO`. -/
theorem Inv.forks_keep (inv : Inv s) (move : Moves s t) :
    Exclusive (claim t.cpu t.table) (fun p => (t.table p).state = .embryo) := by
  -- the claims when no CPU and no slot changes its own
  have same : ∀ {c : C} {x : Cpu} {u : Table}, x.thread.forks = (s.cpu c).thread.forks →
      (∀ q, (u q).forks = (s.table q).forks) →
      ∀ h, claim (s.setCpu c x).cpu u h = claim s.cpu s.table h := by
    rintro c x u thread table (d | q)
    · exact s.setCpu_congr (fun x => x.thread.forks) thread d
    · exact table q
  have store : ∀ {u : Table} {p : Slot} {x : Proc}, x.forks = (u p).forks →
      ∀ q, (u.set p x q).forks = (u q).forks := by
    intro u p x forks q
    by_cases eq : q = p
    · rw [eq, Table.set_self, forks]
    · rw [Table.set_ne u eq]
  have woken : ∀ {u : Table}, (∀ q, (s.table q).Woken (u q)) →
      ∀ q, (s.table q).state = .embryo → (u q).state = .embryo :=
    fun w q embryo => ((w q).state_eq (by rw [embryo]; simp)).trans embryo
  cases move with
  | acquire _ _ _ => exact inv.forks.keep (same rfl fun _ => rfl) fun _ => id
  | advance _ _ _ => exact inv.forks.keep (same rfl fun _ => rfl) fun _ => id
  | release _ _ => exact inv.forks.keep (same rfl fun _ => rfl) fun _ => id
  | @dispatch c p pc thread chooses =>
    have ready := chooses.ready
    refine inv.forks.hand (a := .inr p) (b := .inl c) ?_ ?_ (fun h ne_p ne_c => ?_) ?_
    · simp only [claim, State.dispatch, Table.set_self, Proc.forks]
    · simp only [claim, State.dispatch, State.setCpu_self, Proc.forks, ready, Thread.forks]
    · rcases h with d | q
      · simp only [claim, State.dispatch, s.setCpu_ne fun eq => ne_c (congrArg Sum.inl eq)]
      · simp only [claim, State.dispatch, Table.set_ne _ fun eq => ne_p (congrArg Sum.inr eq)]
    · refine Table.set_state fun h => ?_
      cases ready.symm.trans h
  | @yield c p k inside =>
    have running := inside.running inv
    refine inv.forks.hand (a := .inl c) (b := .inr p) ?_ ?_ (fun h ne_c ne_p => ?_) ?_
    · simp only [claim, State.sched, State.setCpu_self, Thread.forks]
    · simp only [claim, State.sched, Table.set_self, Proc.forks, Context.forks, inside.forks]
    · rcases h with d | q
      · simp only [claim, State.sched, s.setCpu_ne fun eq => ne_c (congrArg Sum.inl eq)]
      · simp only [claim, State.sched, Table.set_ne _ fun eq => ne_p (congrArg Sum.inr eq)]
    · refine Table.set_state fun h => ?_
      cases running.symm.trans h
  | @sleep c p ctx chan inside none =>
    have running := inside.running inv
    refine inv.forks.keep (same inside.forks.symm (store ?_)) (Table.set_state fun h => ?_)
    · simp only [Proc.forks, running, none]
    · cases running.symm.trans h
  | @exit c p u inside w =>
    have running := inside.running inv
    have still : (u p).state = .running := ((w p).state_eq (by rw [running]; simp)).trans running
    refine inv.forks.keep (same inside.forks.symm fun q => ?_) fun q embryo => ?_
    · rw [← (w q).forks]
      refine store ?_ q
      simp only [Proc.forks, still]
    · refine Table.set_state (fun h => ?_) q (woken w q embryo)
      cases still.symm.trans h
  | leave inside w => exact inv.forks.keep (same inside.forks.symm fun q => (w q).forks) (woken w)
  | settickets ticket inside =>
    exact inv.forks.keep (same inside.forks.symm (store rfl)) (Table.set_state id)
  | @reap c p q u ret inside w zombie =>
    refine inv.forks.keep (same inside.forks.symm fun r => ?_) fun r embryo => ?_
    · rw [← (w r).forks]
      refine store ?_ r
      simp only [Proc.forks, zombie]
    · refine Table.set_state (fun h => ?_) r (woken w r embryo)
      cases zombie.symm.trans h
  | @allocate c p np nextpid inside free =>
    refine inv.forks.take (h := .inl c) (r := np) (by rw [free]; simp) ?_ (fun h ne => ?_) ?_ ?_
    · simp only [claim, State.leave, State.setCpu_self, Thread.forks, Kernel.forks]
    · rcases h with d | q
      · simp only [claim, State.leave, s.setCpu_ne fun eq => ne (congrArg Sum.inl eq)]
      · refine store ?_ q
        simp only [Proc.forks, free]
    · simp only [State.leave, allocproc, Table.set_self]
    · exact Table.set_state fun _ => rfl
  | @forkDone c p np ret inside =>
    have embryo := inside.embryo inv
    refine inv.forks.drop (h := .inl c) inside.forks ?_ (fun h ne => ?_) fun q ne => ?_
    · simp only [claim, State.leave, State.setCpu_self, Thread.forks, Kernel.forks]
    · rcases h with d | q
      · simp only [claim, State.leave, s.setCpu_ne fun eq => ne (congrArg Sum.inl eq)]
      · refine store ?_ q
        simp only [Proc.forks, embryo, inv.fresh np embryo, Context.forks]
    · simp only [State.leave, Table.set_ne _ ne]
      exact id
  | @forkFail c p np ret proc thread =>
    have embryo := inv.embryo_of_allocated thread
    have had : claim s.cpu s.table (.inl c) = some np := by
      simp only [claim, thread, Thread.forks, Kernel.forks]
    refine inv.forks.drop (h := .inl c) had ?_ (fun h ne => ?_) fun q ne => ?_
    · simp only [claim, State.unlocked, State.setCpu_self, Thread.forks, Kernel.forks]
    · rcases h with d | q
      · simp only [claim, State.unlocked, s.setCpu_ne fun eq => ne (congrArg Sum.inl eq)]
      · refine store ?_ q
        simp only [Proc.forks, embryo]
    · simp only [State.unlocked, Table.set_ne _ ne]
      exact id
  | @forkCopy c p np proc thread =>
    refine inv.forks.keep (same ?_ (store rfl)) (Table.set_state id)
    rw [thread]
    rfl
  | wakeup chan _ =>
    have w := wakeup1_woken s.table (some chan)
    refine inv.forks.keep (fun h => ?_) (woken w)
    rcases h with d | q
    · rfl
    · exact (w q).forks
  | panic _ => exact inv.forks.keep (fun _ => rfl) fun _ => id

theorem Inv.fresh_keep (inv : Inv s) (move : Moves s t) (q : Slot)
    (embryo : (t.table q).state = .embryo) : (t.table q).context = .forkret := by
  have store : ∀ {u : Table} {p : Slot} {x : Proc},
      ((u q).state = .embryo → (u q).context = .forkret) →
      (x.state = .embryo → x.context = .forkret) →
      (u.set p x q).state = .embryo → (u.set p x q).context = .forkret := by
    intro u p x before new
    by_cases eq : q = p
    · rwa [eq, Table.set_self]
    · rwa [Table.set_ne u eq]
  have woken : ∀ {u : Table}, (∀ q, (s.table q).Woken (u q)) → (u q).state = .embryo →
      (u q).context = .forkret := by
    intro u w at_q
    rw [(w q).context]
    rcases (w q).state with eq | ⟨_, awake⟩
    · exact inv.fresh q (eq ▸ at_q)
    · cases awake.symm.trans at_q
  cases move with
  | acquire _ _ _ | advance _ _ _ | release _ _ | panic _ => exact inv.fresh q embryo
  | dispatch _ _ | yield _ | sleep _ _ _ | forkDone _ | forkFail _ _ =>
    exact store (inv.fresh q) (fun h => by cases h) embryo
  | exit _ w => exact store (woken w) (fun h => by cases h) embryo
  | reap _ w _ => exact store (woken w) (fun h => by cases h) embryo
  | leave _ w => exact woken w embryo
  | settickets _ _ => exact store (inv.fresh q) (inv.fresh _) embryo
  | allocate _ _ _ => exact store (inv.fresh q) (fun _ => rfl) embryo
  | forkCopy _ _ => exact store (inv.fresh q) (inv.fresh _) embryo
  | wakeup _ _ => exact woken (wakeup1_woken _ _) embryo

variable {u : Table} {pc pc' : SchedPc}

theorem Advance.busy (advance : Advance u pc pc') : pc ≠ .idle ∧ pc' ≠ .idle := by
  cases advance <;> simp

theorem Chooses.busy {p : Slot} (chooses : Chooses u pc p pc') : pc ≠ .idle ∧ pc'.Away := by
  cases chooses <;> simp [SchedPc.Away]

/-- A CPU in a critical section holds the lock after the step. -/
theorem Inv.held_keep (inv : Inv s) (move : Moves s t) (d : C) (holds : (t.cpu d).Holds) :
    t.lock = some d := by
  -- when CPU `c` moves, the others hold the lock as before
  have others : ∀ {c : C} {x : Cpu}, d ≠ c → ((s.setCpu c x).cpu d).Holds → s.lock = some d :=
    fun ne after => inv.held d (by rwa [s.setCpu_ne ne] at after)
  cases move with
  | @acquire c thread pc free =>
    by_cases eq : d = c
    · rw [eq]
    · cases free.symm.trans (others eq holds)
  | @advance c pc proc thread advance =>
    have lock := inv.lock_of_sched thread advance.busy.1
    by_cases eq : d = c
    · rw [eq]
      exact lock
    · exact others eq holds
  | @dispatch c p pc thread chooses =>
    have lock := inv.lock_of_sched thread chooses.busy.1
    by_cases eq : d = c
    · rw [eq]
      exact lock
    · exact others eq holds
  | @release c thread pc =>
    have lock := inv.lock_of_sched thread (by rw [pc]; simp)
    by_cases eq : d = c
    · subst eq
      simp only [State.goto, State.setCpu_self, Cpu.Holds, thread, ne_eq, not_true] at holds
    · exact absurd (Option.some.inj (lock.symm.trans (others eq holds))) (Ne.symm eq)
  | @yield c p k inside | @sleep c p ctx chan inside _ | @exit c p u inside _ =>
    by_cases eq : d = c
    · rw [eq]
      rfl
    · exact absurd (by rwa [State.sched, s.setCpu_ne eq] at holds) (inside.alone inv eq)
  | @leave c p u k inside _ | @settickets c p ret ticket inside | @reap c p q u ret inside _ _
  | @allocate c p np nextpid inside _ | @forkDone c p np ret inside =>
    by_cases eq : d = c
    · subst eq
      simp only [State.leave, State.setCpu_self, Cpu.Holds] at holds
    · exact absurd (by rwa [State.leave, s.setCpu_ne eq] at holds) (inside.alone inv eq)
  | @forkFail c p np ret proc thread | @forkCopy c p np proc thread =>
    by_cases eq : d = c
    · subst eq
      simp only [State.unlocked, State.setCpu_self, Cpu.Holds] at holds
    · exact others eq holds
  | wakeup _ _ | panic _ => exact inv.held d holds

theorem Inv.away_keep (inv : Inv s) (move : Moves s t) (d : C)
    (thread : (t.cpu d).thread ≠ .scheduler) : (t.cpu d).sched.Away := by
  have others : ∀ {c : C} {x : Cpu}, (x.thread ≠ .scheduler → x.sched.Away) →
      ((s.setCpu c x).cpu d).thread ≠ .scheduler → ((s.setCpu c x).cpu d).sched.Away := by
    intro c x new
    by_cases eq : d = c
    · subst eq
      rwa [s.setCpu_self]
    · rw [s.setCpu_ne eq]
      exact inv.away d
  cases move with
  | acquire idle _ _ | advance _ idle _ | release idle _ =>
    exact others (fun ne => absurd idle ne) thread
  | dispatch _ chooses => exact others (fun _ => chooses.busy.2) thread
  | yield _ | sleep _ _ _ | exit _ _ => exact others (fun ne => absurd rfl ne) thread
  | leave inside _ | settickets _ inside | reap inside _ _ | allocate _ inside _
  | forkDone inside => exact others (fun _ => inv.away _ inside.thread) thread
  | forkFail _ running | forkCopy _ running =>
    exact others (fun _ => inv.away _ (by rw [running]; simp)) thread
  | wakeup _ _ | panic _ => exact inv.away d thread

theorem Scanned.advance (scanned : Scanned u pc) (advance : Advance u pc pc') : Scanned u pc' := by
  cases advance with
  | @count hasHP i hpcnt lt =>
    by_cases high : (u ⟨i, lt⟩).High
    · rw [if_pos high]
      exact ⟨fun zero => absurd zero (by omega), fun _ => ⟨_, high⟩⟩
    · rw [if_neg high]
      refine ⟨fun zero p below => ?_, scanned.2⟩
      rcases Nat.lt_succ_iff_lt_or_eq.mp below with earlier | here
      · exact scanned.1 zero p earlier
      · obtain rfl : p = ⟨i, lt⟩ := Fin.ext here
        exact high
  | passStart _ some => exact fun _ => scanned.2 some
  | @lowStart i last =>
    refine ⟨fun p => scanned.1 rfl p (by omega), fun p below => absurd below (by omega)⟩
  | highSkip _ _ | highRet => exact fun zero => absurd zero (by omega)
  | passEnd _ =>
    exact ⟨fun _ p below => absurd below (by omega), fun some => absurd some (by omega)⟩
  | @lowSkip i lt ready =>
    refine ⟨scanned.1, fun p below => ?_⟩
    rcases Nat.lt_succ_iff_lt_or_eq.mp below with earlier | here
    · exact scanned.2 p earlier
    · obtain rfl : p = ⟨i, lt⟩ := Fin.ext here
      exact ready
  | finish _ | lowEnd _ | lowRet => trivial

theorem Scanned.store (scanned : Scanned u pc) {np : Slot} {x : Proc}
    (before : (u np).state ≠ .runnable) (after : x.state ≠ .runnable) :
    Scanned (u.set np x) pc := by
  have ready : ∀ p, (u.set np x p).state = .runnable → u.set np x p = u p := by
    intro p at_p
    by_cases eq : p = np
    · rw [eq, Table.set_self] at at_p
      contradiction
    · rw [Table.set_ne u eq]
  have low : ∀ p, (u p).state ≠ .runnable → (u.set np x p).state ≠ .runnable :=
    fun p ne at_p => ne (ready p at_p ▸ at_p)
  have not_high : ∀ p, ¬ (u p).High → ¬ (u.set np x p).High :=
    fun p not at_p => not (ready p at_p.1 ▸ at_p)
  have high : (∃ p, (u p).High) → ∃ p, (u.set np x p).High := by
    rintro ⟨p, at_p⟩
    have ne : p ≠ np := fun eq => before (eq ▸ at_p.1)
    exact ⟨p, by rwa [Table.set_ne u ne]⟩
  unfold Scanned at scanned ⊢
  split
  · exact ⟨fun zero p below => not_high p (scanned.1 zero p below),
      fun some => high (scanned.2 some)⟩
  · exact fun zero => high (scanned zero)
  · exact ⟨fun p => not_high p (scanned.1 p), fun p below => low p (scanned.2 p below)⟩
  · trivial

theorem Scanned.of_idle {x : Cpu} (thread : x.thread = .scheduler) (free : ¬ x.Holds) :
    Scanned u x.sched := by
  simp only [Cpu.Holds, thread, ne_eq, not_not] at free
  rw [free]
  trivial

theorem Scanned.of_away (away : pc.Away) : Scanned u pc := by
  cases pc <;> trivial

/-- What a scan has seen stays true, since nobody else can change the table. -/
theorem Inv.scanned_keep (inv : Inv s) (move : Moves s t) (d : C)
    (thread : (t.cpu d).thread = .scheduler) : Scanned t.table (t.cpu d).sched := by
  -- `d` is the CPU that moved, or one that does not hold the lock
  have either : ∀ {c : C} {x : Cpu} {u : Table},
      (x.thread = .scheduler → Scanned u x.sched) → (d ≠ c → ¬ (s.cpu d).Holds) →
      ((s.setCpu c x).cpu d).thread = .scheduler → Scanned u ((s.setCpu c x).cpu d).sched := by
    intro c x u new alone
    by_cases eq : d = c
    · subst eq
      rwa [s.setCpu_self]
    · rw [s.setCpu_ne eq]
      exact fun idle => .of_idle idle (alone eq)
  have alone : ∀ {c : C}, s.lock = some c → d ≠ c → ¬ (s.cpu d).Holds :=
    fun lock ne holds => ne (Option.some.inj ((inv.held d holds).symm.trans lock))
  cases move with
  | @acquire c _ _ free =>
    refine either (fun _ => ?_) (fun _ holds => ?_) thread
    · exact ⟨fun _ p below => absurd below (by simp), fun some => absurd some (by simp)⟩
    · cases free.symm.trans (inv.held d holds)
  | @advance c pc proc idle advance =>
    have lock := inv.lock_of_sched idle advance.busy.1
    exact either (fun _ => (inv.scanned c idle).advance advance) (alone lock) thread
  | @dispatch c p pc idle chooses =>
    have lock := inv.lock_of_sched idle chooses.busy.1
    exact either (fun resumed => by cases resumed) (alone lock) thread
  | @release c idle pc =>
    have lock := inv.lock_of_sched idle (by rw [pc]; simp)
    exact either (fun _ => trivial) (alone lock) thread
  | yield inside | sleep _ inside _ | exit inside _ =>
    exact either (fun _ => .of_away (inv.away _ inside.thread)) (inside.alone inv) thread
  | leave inside _ | settickets _ inside | reap inside _ _ | allocate _ inside _
  | forkDone inside =>
    exact either (fun user => by cases user) (inside.alone inv) thread
  | @forkFail c p np ret proc running | @forkCopy c p np proc running =>
    have embryo := inv.embryo_of_allocated running
    by_cases eq : d = c
    · subst eq
      rw [State.unlocked, s.setCpu_self] at thread
      cases thread
    · rw [State.unlocked, s.setCpu_ne eq] at thread ⊢
      refine (inv.scanned d thread).store (by rw [embryo]; simp) ?_
      simp [embryo]
  | wakeup _ free =>
    refine .of_idle thread fun holds => ?_
    cases free.symm.trans (inv.held d holds)
  | panic _ => exact inv.scanned d thread

theorem Inv.keep (inv : Inv s) (move : Moves s t) : Inv t where
  runs := inv.runs_keep move
  forks := inv.forks_keep move
  fresh := inv.fresh_keep move
  held := inv.held_keep move
  away := inv.away_keep move
  scanned := inv.scanned_keep move

/-- **The lock protects the table**: the invariant holds in every reachable state. -/
theorem reachable_inv (reach : (kernel C).Reachable s) : Inv s := by
  refine reach.invariant ?_ fun _ _ _ _ inv step => inv.keep (step_moves step)
  rintro _ rfl
  exact .boot

end Keep

end Xv6.Sched
