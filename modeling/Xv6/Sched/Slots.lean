import Xv6.Sched.Family

/-!
# Slots across steps

What a step does to the slots, as far as `kill` and `getpinfo` see them: whether a slot is free,
being filled in by `fork` or past it, its pid, its `killed` flag and its two scheduling counters.
Most steps change none of these (`Proc.Steady`); `Shift` has one constructor for each way to change
them.

A process also sets its own flag, without the lock, when it misbehaves in user space.  `faulting` is
the system with that step.
-/

namespace Xv6.Sched

def Proc.Born (x : Proc) : Prop := x.state ≠ .unused ∧ x.state ≠ .embryo

instance (x : Proc) : Decidable x.Born := inferInstanceAs (Decidable (_ ∧ _))

structure Proc.Alike (x y : Proc) : Prop where
  unused : y.state = .unused ↔ x.state = .unused
  embryo : y.state = .embryo ↔ x.state = .embryo
  pid : y.pid = x.pid
  priority : y.priority = x.priority
  runTicks : y.runTicks = x.runTicks

structure Proc.Steady (x y : Proc) : Prop extends Proc.Alike x y where
  killed : y.killed = x.killed

theorem Proc.Alike.refl (x : Proc) : x.Alike x := ⟨.rfl, .rfl, rfl, rfl, rfl⟩

theorem Proc.Steady.refl (x : Proc) : x.Steady x := ⟨.refl x, rfl⟩

variable {x : Proc}

theorem Proc.Steady.trans {y z : Proc} (xy : x.Steady y) (yz : y.Steady z) : x.Steady z where
  unused := yz.unused.trans xy.unused
  embryo := yz.embryo.trans xy.embryo
  pid := yz.pid.trans xy.pid
  killed := yz.killed.trans xy.killed
  priority := yz.priority.trans xy.priority
  runTicks := yz.runTicks.trans xy.runTicks

theorem Proc.Alike.born {y : Proc} (alike : x.Alike y) : y.Born ↔ x.Born :=
  and_congr (not_congr alike.unused) (not_congr alike.embryo)

theorem steady_set {t : Table} {p : Slot} (steady : (t p).Steady x) (q : Slot) :
    (t q).Steady (t.set p x q) := Table.set_rel .refl steady q

theorem alike_set {t : Table} {p : Slot} (alike : (t p).Alike x) (q : Slot) :
    (t q).Alike (t.set p x q) := Table.set_rel .refl alike q

theorem Proc.Steady.passive : Passive Proc.Steady where
  refl := .refl
  trans := .trans
  wake x asleep := ⟨⟨by simp [asleep], by simp [asleep], rfl, rfl, rfl⟩, rfl⟩
  pass x := ⟨⟨.rfl, .rfl, rfl, rfl, rfl⟩, rfl⟩

theorem wakeup1_steady (t : Table) (chan : Option Chan) (q : Slot) :
    (t q).Steady (wakeup1 t chan q) :=
  wakeup1_rel .refl Proc.Steady.passive.wake t chan q

theorem kill_alike (t : Table) (pid : BitVec 32) (q : Slot) :
    (t q).Alike ((kill t pid).1 q) := by
  unfold kill
  split
  · rename_i r _
    apply alike_set
    by_cases asleep : (t r).state = .sleeping
    · exact ⟨by simp [asleep], by simp [asleep], rfl, rfl, rfl⟩
    · exact ⟨by simp [asleep], by simp [asleep], rfl, rfl, rfl⟩
  · exact .refl _

theorem exitTable_steady (t : Table) (p q : Slot) : (t q).Steady (exitTable t p q) :=
  (wakeup1_steady _ _ q).trans (Proc.Steady.passive.reparent _ p q)

section Shift

variable {C : Type}

/-! ## What a step changes -/

/-- What the accounts of a process go by: `allocproc` makes it, for a caller of `fork`,
`scheduler()` dispatches it, and it sets its tickets. -/
inductive Note
  | create (p np : Slot)
  | dispatch (p : Slot)
  | settickets (p : Slot) (ticket : BitVec 32)
  deriving DecidableEq, Repr

/-- What the step from `s` to `t` is noted as.  `settickets` succeeds when it returns 0. -/
def noted (s : State C) (a : Act C) (t : State C) : Option Note :=
  match a with
  | .sched _ => ((List.finRange nproc).find? fun p => Dispatched s t p).map .dispatch
  | .call c .fork =>
    match (s.cpu c).proc, findUnused s.table with
    | some p, some np => some (.create p np)
    | _, _ => none
  | .call c (.settickets ticket) =>
    match (s.cpu c).proc, (t.cpu c).thread with
    | some p, .process (.user ret) => if ret = 0 then some (.settickets p ticket) else none
    | _, _ => none
  | _ => none

/-- Somebody may use the table: the lock is free, or its holder is inside a critical section. -/
def Open (s : State C) : Prop := s.lock = none ∨ ∃ c, (s.cpu c).Holds

/-- The step from `s` to `t`, with its note.  `Stays` says that nobody comes to a point inside
`fork`; the calls that do name the point. -/
inductive Shift (s : State C) : Act C → State C → Option Note → Prop
  | quiet {a : Act C} {t : State C} : (∀ q, (s.table q).Steady (t.table q)) → Stays s t →
      Shift s a t none
  | dispatch {c : C} {p : Slot} {t : State C} : Open s → (s.table p).state = .runnable →
      t.table = s.table.set p { s.table p with
        state := .running, runTicks := (s.table p).runTicks + 1 } → Stays s t →
      Shift s (.sched c) t (some (.dispatch p))
  | kill {c : C} {pid : BitVec 32} {t : State C} : Open s → t.table = (kill s.table pid).1 →
      Stays s t → Shift s (.call c (.kill pid)) t none
  | settickets {c : C} {p : Slot} {ret ticket : BitVec 32} {t : State C} :
      Enters s c p (.user ret) → t.table = s.table.set p { s.table p with priority := ticket } →
      Stays s t → Shift s (.call c (.settickets ticket)) t (some (.settickets p ticket))
  | reap {a : Act C} {q : Slot} {u : Table} {t : State C} : Open s →
      (∀ r, (s.table r).Steady (u r)) → (s.table q).state = .zombie → t.table = reap u q →
      Stays s t → Shift s a t none
  | allocate {c : C} {p np : Slot} {ret : BitVec 32} {t : State C} : Enters s c p (.user ret) →
      (s.table np).state = .unused → t.table = allocproc s.table np s.nextpid →
      (∀ p' k, k.forks ≠ none → At t p' k → At s p' k ∨ p' = p ∧ k = .allocated np) →
      Shift s (.call c .fork) t (some (.create p np))
  | forkDone {c : C} {p np : Slot} {t : State C} : Enters s c p (.copied np) →
      (s.table np).state = .embryo →
      t.table = s.table.set np { s.table np with state := .runnable } → Stays s t →
      Shift s (.call c .forkDone) t none
  | forkFail {c : C} {p np : Slot} {t : State C} : (s.cpu c).proc = some p →
      (s.cpu c).thread = .process (.allocated np) → (s.table np).state = .embryo →
      t.table = s.table.set np { s.table np with state := .unused } → Stays s t →
      Shift s (.forkBody c false) t none
  | forkCopy {c : C} {p np : Slot} {t : State C} : (s.cpu c).proc = some p →
      (s.cpu c).thread = .process (.allocated np) → (s.table np).state = .embryo →
      t.table = forkCopy s.table p np →
      (∀ p' k, k.forks ≠ none → At t p' k →
        At s p' k ∧ k.forks ≠ some np ∨ p' = p ∧ k = .copied np) →
      Shift s (.forkBody c true) t none

variable {s t : State C} {a : Act C} {c : C}

theorem Shift.idle (table : t.table = s.table) (stays : Stays s t) :
    Shift s (.sched c) t (noted s (.sched c) t) := by
  have none : ∀ p : Slot, ¬ Dispatched s t p := fun p dispatched =>
    dispatched.1 (table ▸ dispatched.2)
  have unnoted : noted s (.sched c) t = .none := by simp [noted, none]
  rw [unnoted]
  exact .quiet (fun q => by rw [table]; exact .refl _) stays

variable {p : Slot} {u : Table}

theorem find_only {f : Slot → Bool} (only : ∀ q, f q = true ↔ q = p) :
    (List.finRange nproc).find? f = some p := by
  have found : ((List.finRange nproc).find? f).isSome :=
    List.find?_isSome.mpr ⟨p, List.mem_finRange p, (only p).mpr rfl⟩
  obtain ⟨q, at_q⟩ := Option.isSome_iff_exists.mp found
  rw [at_q, (only q).mp (List.find?_some at_q)]

theorem Waits.steady (waits : Waits s p a c u) (q : Slot) : (s.table q).Steady (u q) := by
  cases waits with
  | call => exact .refl _
  | resume =>
    apply steady_set
    exact ⟨⟨.rfl, .rfl, rfl, rfl, rfl⟩, rfl⟩

theorem Waits.noted (waits : Waits s p a c u) : noted s a t = none := by
  cases waits with
  | call => rfl
  | resume => rfl

theorem noted_fork (proc : (s.cpu c).proc = some p) :
    noted s (.call c .fork) t = (findUnused s.table).map (.create p) := by
  cases found : findUnused s.table with
  | none => simp only [Sched.noted, proc, found, Option.map_none]
  | some np => simp only [Sched.noted, proc, found, Option.map_some]

variable [DecidableEq C]

theorem noted_dispatch {pc : SchedPc} (ready : (s.table p).state = .runnable) :
    noted s (.sched c) (s.dispatch c p pc) = some (.dispatch p) := by
  have only : ∀ q, Dispatched s (s.dispatch c p pc) q ↔ q = p := by
    intro q
    by_cases eq : q = p
    · subst eq
      simp [Dispatched, State.dispatch, ready]
    · have same : (s.dispatch c p pc).table q = s.table q := Table.set_ne _ eq _
      simp only [Dispatched, same, eq, iff_false]
      exact fun both => both.1 both.2
  simp only [noted, find_only (fun q => decide_eq_true_iff.trans (only q)), Option.map_some]

theorem steady_of_alive {x y : Proc} (before : x.Born) (after : y.Born) (pid : y.pid = x.pid)
    (killed : y.killed = x.killed) (priority : y.priority = x.priority)
    (runTicks : y.runTicks = x.runTicks) : x.Steady y where
  unused := iff_of_false after.1 before.1
  embryo := iff_of_false after.2 before.2
  pid := pid
  killed := killed
  priority := priority
  runTicks := runTicks

theorem call_of_step {k : Kernel} {a : Call} (enters : Enters s c p k)
    (step : Sched.step s (.call c a) = some t) : call s c p k a = some t := by
  unfold Sched.step at step
  split at step
  · cases step
  · simpa only [enters.proc, enters.thread, enters.free, if_true] using step

theorem settickets_shift {ret ticket : BitVec 32} (stays : Stays s t)
    (enters : Enters s c p (.user ret))
    (step : call s c p (.user ret) (.settickets ticket) = some t) :
    Shift s (.call c (.settickets ticket)) t (noted s (.call c (.settickets ticket)) t) := by
  simp only [call] at step
  split at step
  · cases step
    have failed : Sched.noted s (.call c (.settickets ticket))
        (s.leave c s.table (.user (-1))) = none := by
      simp [Sched.noted, enters.proc, State.leave, State.setCpu]
    rw [failed]
    exact .quiet (fun q => .refl _) stays
  · cases step
    have stored : Sched.noted s (.call c (.settickets ticket))
        (s.leave c (s.table.set p { s.table p with priority := ticket }) (.user 0)) =
          some (.settickets p ticket) := by
      simp [Sched.noted, enters.proc, State.leave, State.setCpu]
    rw [stored]
    exact .settickets enters rfl stays

/-- The event brings a process to a point inside `fork`. -/
def Event.enters : Event → Bool
  | .allocate _ _ | .forkCopy _ _ => true
  | _ => false

omit [DecidableEq C] in
theorem Affair.stays {e : Event} (affair : Affair s t e) (out : e.enters = false) :
    Stays s t := by
  cases affair with
  | allocate | forkCopy => cases out
  | quiet _ _ stays | exit _ _ _ _ _ _ _ stays | reap _ _ _ _ _ _ _ stays
  | waitFail _ _ stays | forkDone _ _ _ _ _ _ _ _ stays | forkFail _ _ _ _ _ _ stays => exact stays

theorem Turn.stays (inv : Inv s) (turn : Turn s a t) (out : (event s a).enters = false) :
    Stays s t := by
  obtain ⟨e, rfl, affair, _⟩ := turn.affair inv
  exact affair.stays out

omit [DecidableEq C] in
theorem Waits.out (waits : Waits s p a c u) : (Sched.event s a).enters = false := by
  rw [waits.event, waitEvent]
  split
  · rfl
  · split <;> rfl

omit [DecidableEq C] in
theorem Waits.open (waits : Waits s p a c u) : Open s := by
  cases waits with
  | call _ _ free => exact .inl free
  | resume _ thread => exact .inr ⟨c, by simp only [Cpu.Holds, thread]⟩

theorem step_shift (inv : Inv s) (step : (kernel C).step s a t) :
    Shift s a t (noted s a t) := by
  have turn := step_turn step
  have stays := turn.stays inv
  obtain ⟨e, event, affair, _⟩ := turn.affair inv
  cases turn with
  | acquire _ _ _ => exact .idle rfl (stays rfl)
  | advance _ _ _ => exact .idle rfl (stays rfl)
  | back _ _ _ => exact .idle rfl (stays rfl)
  | release _ _ => exact .idle rfl (stays rfl)
  | @dispatch c p pc thread chooses =>
    rw [noted_dispatch chooses.ready]
    refine .dispatch (.inr ⟨c, ?_⟩) chooses.ready rfl (stays rfl)
    simpa only [Cpu.Holds, thread] using chooses.busy.1
  | @resume c p ctx k u proc thread resumes =>
    cases resumes with
    | forkret => exact .quiet (fun q => .refl _) (stays (by simp [Sched.event, proc, thread]; rfl))
    | yield => exact .quiet (fun q => .refl _) (stays (by simp [Sched.event, proc, thread]; rfl))
    | sleep =>
      exact .quiet (steady_set ⟨⟨.rfl, .rfl, rfl, rfl, rfl⟩, rfl⟩)
        (stays (by simp [Sched.event, proc, thread]; rfl))
  | waitReap waits found =>
    rw [waits.noted]
    have zombie := (zombieChild_state found).2
    exact .reap waits.open waits.steady ((waits.table _).2.2.2 ▸ zombie) rfl (stays waits.out)
  | waitFail waits _ _ =>
    rw [waits.noted]
    exact .quiet waits.steady (stays waits.out)
  | @waitSleep _ c p u waits _ _ =>
    rw [waits.noted]
    have running := (waits.running inv).2
    have here : (u p).state = .running := (waits.table p).2.2.2.trans running
    refine .quiet (fun q => (waits.steady q).trans (steady_set ?_ q)) (stays waits.out)
    exact steady_of_alive (by simp [Proc.Born, here]) (by simp [Proc.Born]) rfl rfl rfl rfl
  | zombieExit thread =>
    exact .quiet (fun q => .refl _) (stays (by simp [Sched.event, thread]; rfl))
  | initExit enters =>
    exact .quiet (fun q => .refl _)
      (stays (by simp only [Sched.event, enters.proc, enters.thread, if_true]; rfl))
  | yield enters =>
    have running := enters.running inv
    refine .quiet (steady_set ?_) (stays (by simp [Sched.event]; rfl))
    exact steady_of_alive (by simp [Proc.Born, running]) (by simp [Proc.Born]) rfl rfl rfl rfl
  | sleep chan enters =>
    have running := enters.running inv
    refine .quiet (steady_set ?_) (stays (by simp [Sched.event]; rfl))
    exact steady_of_alive (by simp [Proc.Born, running]) (by simp [Proc.Born]) rfl rfl rfl rfl
  | @exit c p ret enters not_init =>
    have running := enters.running inv
    have steady := exitTable_steady s.table p
    have here := (steady p).born.mpr (by simp [Proc.Born, running])
    have out := stays (by simp only [Sched.event, enters.proc, enters.thread, if_neg not_init]; rfl)
    generalize exitTable s.table p = u at steady here out ⊢
    refine .quiet (fun q => (steady q).trans (steady_set ?_ q)) out
    exact steady_of_alive here (by simp [Proc.Born]) rfl rfl rfl rfl
  | kill pid enters => exact .kill (.inl enters.free) rfl (stays (by simp [Sched.event]; rfl))
  | @settickets c p ret ret' ticket priority enters =>
    exact settickets_shift (stays (by simp [Sched.event]; rfl)) enters (call_of_step enters step)
  | allocate enters found =>
    rw [noted_fork enters.proc, found]
    simp only [Sched.event, enters.proc, enters.thread, found] at event
    subst event
    cases affair with
    | allocate _ _ _ _ _ _ came => exact .allocate enters (findUnused_state found) rfl came
  | full enters found =>
    rw [noted_fork enters.proc, found]
    exact .quiet (fun q => .refl _)
      (stays (by simp only [Sched.event, enters.proc, enters.thread, found]; rfl))
  | forkDone enters =>
    exact .forkDone enters ((At.process enters.proc enters.thread).embryo inv rfl) rfl
      (stays (by simp only [Sched.event, enters.proc, enters.thread]; rfl))
  | forkFail proc thread =>
    exact .forkFail proc thread (inv.embryo_of_allocated thread) rfl
      (stays (by simp only [Sched.event, proc, thread]; rfl))
  | forkCopy proc thread =>
    simp only [Sched.event, proc, thread, if_true] at event
    subst event
    cases affair with
    | forkCopy _ _ _ _ _ _ _ _ came =>
      exact .forkCopy proc thread (inv.embryo_of_allocated thread) rfl came
  | wakeup chan _ => exact .quiet (wakeup1_steady _ _) (stays rfl)

/-! ## Faults -/

/-- What happens: a step of the kernel, or a trap in user space for which the process on CPU `c` is
to blame. -/
inductive Happening (C : Type)
  | act (a : Act C)
  | fault (c : C)
  deriving DecidableEq, Repr

/-- The `default` case of `trap`: the process sets its own flag, without `ptable.lock`. -/
def fault (s : State C) (c : C) : Option (State C) :=
  if s.panic.isSome then none
  else match (s.cpu c).proc, (s.cpu c).thread with
    | some p, .process (.user _) =>
      some { s with table := s.table.set p { s.table p with killed := true } }
    | _, _ => none

def happen (s : State C) : Happening C → Option (State C)
  | .act a => step s a
  | .fault c => fault s c

def faulting (C : Type) [DecidableEq C] : Lts (State C) (Happening C) :=
  Lts.ofFun (· = State.boot C) happen

omit [DecidableEq C] in
theorem fault_eq (step : fault s c = some t) :
    ∃ p ret, (s.cpu c).proc = some p ∧ (s.cpu c).thread = .process (.user ret) ∧
      t = { s with table := s.table.set p { s.table p with killed := true } } := by
  unfold fault at step
  split at step
  · cases step
  · split at step
    · rename_i p ret proc thread
      exact ⟨p, ret, proc, thread, (Option.some.inj step).symm⟩
    · cases step

theorem Scanned.congr {v : Table} {pc : SchedPc} (state : ∀ q, (v q).state = (u q).state)
    (priority : ∀ q, (v q).priority = (u q).priority) (scanned : Scanned u pc) : Scanned v pc := by
  have high : ∀ q, (v q).High ↔ (u q).High := fun q => by
    rw [Proc.High, Proc.High, state, priority]
  cases pc with
  | count | high | low => simpa only [Scanned, high, state] using scanned
  | idle | highRet | lowRet | done => trivial

omit [DecidableEq C] in
theorem Inv.of_table (inv : Inv s) {u : Table} (state : ∀ q, (u q).state = (s.table q).state)
    (context : ∀ q, (u q).context = (s.table q).context)
    (priority : ∀ q, (u q).priority = (s.table q).priority) : Inv { s with table := u } where
  runs := inv.runs.keep (fun _ => rfl) fun q running => (state q).trans running
  forks := by
    refine inv.forks.keep (fun h => ?_) fun q embryo => (state q).trans embryo
    cases h with
    | inl c => rfl
    | inr p => simp only [claim, Proc.forks, state, context]
  fresh q embryo := (context q).trans (inv.fresh q ((state q).symm.trans embryo))
  held := inv.held
  away := inv.away
  scanned c thread := (inv.scanned c thread).congr state priority

omit [DecidableEq C] in
theorem Inv.fault (inv : Inv s) {c : C} (step : fault s c = some t) : Inv t := by
  obtain ⟨p, _, _, _, rfl⟩ := fault_eq step
  exact inv.of_table (Table.set_congr Proc.state (by rfl)) (Table.set_congr Proc.context (by rfl))
    (Table.set_congr Proc.priority (by rfl))

theorem Inv.happen (inv : Inv s) {d : Happening C} (step : happen s d = some t) : Inv t := by
  cases d with
  | act a => exact inv.keep (step_moves step)
  | fault c => exact inv.fault step

theorem faulting_inv (reach : (faulting C).Reachable s) : Inv s := by
  refine reach.invariant (fun s start => ?_) fun _ _ _ _ inv step => inv.happen step
  cases start
  exact .boot

end Shift

end Xv6.Sched
