import Xv6.Sched.Slots

/-!
# `kill`

`kill` takes the first slot that holds the pid, in use or not.  A slot that `wait` freed holds pid
0, and one that a failed `fork` gave back still holds the pid it had, so a call may set the flag of
a slot that belongs to nobody.  `allocproc` and `fork` do not clear it: the next process there
starts with the flag set.  A slot that `fork` is still filling in is found, too.

`Clean` is the invariant of the runs in which no call finds such a slot.
-/

namespace Xv6.Sched

open List

/-! ## One call -/

def holder (t : Table) (pid : BitVec 32) : Option Slot :=
  (finRange nproc).find? fun p => (t p).pid = pid

variable {pid : BitVec 32} {p : Slot}

theorem holder_pid {t : Table} (found : holder t pid = some p) : (t p).pid = pid := by
  simpa using find?_some found

theorem holder_eq_none {t : Table} (none : holder t pid = none) (p : Slot) : (t p).pid ≠ pid := by
  simpa using find?_eq_none.mp none p (mem_finRange p)

def Proc.slain (x : Proc) : Proc :=
  { x with killed := true, state := if x.state = .sleeping then .runnable else x.state }

theorem kill_of_holder {t : Table} (found : holder t pid = some p) :
    kill t pid = (t.set p (t p).slain, 0) := by
  rw [holder] at found
  simp only [kill, found, Proc.slain]

theorem kill_of_none {t : Table} (none : holder t pid = none) : kill t pid = (t, -1) := by
  rw [holder] at none
  simp only [kill, none]

/-- `kill` returns 0 exactly when a process has this pid, and then changes only that process: sets
its flag, and makes it `RUNNABLE` if it slept. -/
structure KillsOnly (t : Table) (pid : BitVec 32) : Prop where
  found : (kill t pid).2 = 0 ↔ ∃ p, (t p).state ≠ .unused ∧ (t p).pid = pid
  only : (kill t pid).2 = 0 →
    ∃ p, (t p).state ≠ .unused ∧ (t p).pid = pid ∧ (kill t pid).1 = t.set p (t p).slain
  missed : (kill t pid).2 ≠ 0 → (kill t pid) = (t, -1)

/-- The first slot with this pid is in use; or its flag is set already, and a process with the same
pid has nothing left to change either. -/
def Aimed (t : Table) (pid : BitVec 32) : Prop :=
  ∀ p, holder t pid = some p → (t p).state ≠ .unused ∨
    ((t p).killed = true ∧
      ∃ q, (t q).state ≠ .unused ∧ (t q).pid = pid ∧ (t q).killed = true ∧ (t q).state ≠ .sleeping)

theorem slain_eq_self {x : Proc} : x.slain = x ↔ x.killed = true ∧ x.state ≠ .sleeping := by
  constructor
  · intro same
    refine ⟨congrArg Proc.killed same ▸ rfl, fun asleep => ?_⟩
    have state := congrArg Proc.state same
    simp [Proc.slain, asleep] at state
  · rintro ⟨killed, awake⟩
    cases x
    simp_all [Proc.slain]

theorem Table.set_eq_self {t : Table} {x : Proc} : t.set p x = t ↔ x = t p := by
  constructor
  · intro same
    rw [← Table.set_self t p x, same]
  · rintro rfl
    exact Function.update_eq_self p t

theorem killsOnly_iff (t : Table) (pid : BitVec 32) : KillsOnly t pid ↔ Aimed t pid := by
  constructor
  · intro kills p found
    by_cases unused : (t p).state = .unused
    · right
      have eq := kill_of_holder found
      obtain ⟨q, used, same, table⟩ := kills.only (by rw [eq])
      simp only [eq] at table
      have ne : p ≠ q := fun at_q => used (at_q ▸ unused)
      -- both stores change nothing
      have at_p : (t p).slain = t p := by
        have := congrFun table p
        rwa [Table.set_self, Table.set_ne _ ne] at this
      have at_q : (t q).slain = t q := by
        have := congrFun table q
        rwa [Table.set_self, Table.set_ne _ ne.symm, eq_comm] at this
      obtain ⟨killed, awake⟩ := slain_eq_self.mp at_q
      exact ⟨(slain_eq_self.mp at_p).1, q, used, same, killed, awake⟩
    · exact .inl unused
  · intro aimed
    cases found : holder t pid with
    | none =>
      have eq := kill_of_none found
      refine ⟨?_, fun zero => ?_, fun _ => eq⟩
      · simp only [eq]
        refine iff_of_false (by decide) ?_
        rintro ⟨p, _, same⟩
        exact holder_eq_none found p same
      · simp only [eq] at zero
        exact absurd zero (by decide)
    | some p =>
      have eq := kill_of_holder found
      have target : ∃ q, (t q).state ≠ .unused ∧ (t q).pid = pid ∧
          t.set p (t p).slain = t.set q (t q).slain := by
        rcases aimed p found with used | ⟨killed, q, used, same, killed', awake⟩
        · exact ⟨p, used, holder_pid found, rfl⟩
        · by_cases unused : (t p).state = .unused
          · refine ⟨q, used, same, ?_⟩
            have at_p := slain_eq_self.mpr ⟨killed, by simp [unused]⟩
            have at_q := slain_eq_self.mpr ⟨killed', awake⟩
            rw [Table.set_eq_self.mpr at_p, Table.set_eq_self.mpr at_q]
          · exact ⟨p, unused, holder_pid found, rfl⟩
      obtain ⟨q, used, same, table⟩ := target
      refine ⟨?_, fun _ => ⟨q, used, same, by rw [eq, table]⟩, fun nonzero => ?_⟩
      · rw [eq]
        exact iff_of_true rfl ⟨q, used, same⟩
      · rw [eq] at nonzero
        exact absurd rfl nonzero

/-! ## Runs -/

/-- No slot that is free or being filled in has its flag set. -/
def Clean (t : Table) : Prop := ∀ q, ¬ (t q).Born → (t q).killed = false

section Runs

variable {C : Type} [DecidableEq C]

/-- A call of `kill` finds a process past `fork`, or none. -/
def Careful (s : State C) : Happening C → Prop
  | .act (.call _ (.kill pid)) => ∀ p, holder s.table pid = some p → (s.table p).Born
  | _ => True

/-- What sets the flag of process `q`: a call with its pid, or its own fault. -/
inductive Blames (s : State C) (q : Slot) : Happening C → Prop
  | kill (c : C) : Blames s q (.act (.call c (.kill (s.table q).pid)))
  | fault {c : C} : (s.cpu c).proc = some q → Blames s q (.fault c)

variable {s t : State C} {d : Happening C} {u : Table} {x : Proc}

theorem Clean.store {p : Slot} (clean : Clean u) (kept : ¬ x.Born → x.killed = false) :
    Clean (u.set p x) := by
  intro q unborn
  by_cases eq : q = p
  · rw [eq, Table.set_self] at unborn ⊢
    exact kept unborn
  · rw [Table.set_ne _ eq] at unborn ⊢
    exact clean q unborn

theorem Clean.steady {v : Table} (clean : Clean u) (steady : ∀ q, (u q).Steady (v q)) :
    Clean v := by
  intro q unborn
  rw [(steady q).killed]
  exact clean q fun born => unborn ((steady q).born.mpr born)

theorem slain_born (born : x.Born) : x.slain.Born := by
  by_cases asleep : x.state = .sleeping
  · simp [Proc.Born, Proc.slain, asleep]
  · simpa [Proc.Born, Proc.slain, asleep] using born

omit [DecidableEq C] in
theorem Clean.shift {a : Act C} {n : Option Note} (clean : Clean s.table)
    (careful : Careful s (.act a)) (shift : Shift s a t n) : Clean t.table := by
  cases shift with
  | quiet steady _ => exact clean.steady steady
  | dispatch _ _ table _ =>
    rw [table]
    exact clean.store fun unborn => absurd (by simp [Proc.Born]) unborn
  | @kill _ pid _ _ table _ =>
    rw [table]
    cases found : holder s.table pid with
    | none =>
      rw [kill_of_none found]
      exact clean
    | some p =>
      rw [kill_of_holder found]
      exact clean.store fun unborn => absurd (slain_born (careful p found)) unborn
  | @settickets _ p _ _ _ _ table _ =>
    rw [table]
    exact clean.store fun unborn => clean p unborn
  | reap _ steady _ table _ =>
    rw [table]
    exact (clean.steady steady).store fun _ => rfl
  | @allocate _ _ np _ _ _ unused table _ =>
    rw [table]
    exact clean.store fun _ => clean np (by simp [Proc.Born, unused])
  | forkDone _ _ table _ =>
    rw [table]
    exact clean.store fun unborn => absurd (by simp [Proc.Born]) unborn
  | @forkFail _ _ np _ _ _ embryo table _ =>
    rw [table]
    exact clean.store fun _ => clean np (by simp [Proc.Born, embryo])
  | @forkCopy _ _ np _ _ _ embryo table _ =>
    rw [table]
    exact clean.store fun _ => clean np (by simp [Proc.Born, embryo])

theorem Clean.happen (inv : Inv s) (clean : Clean s.table) (careful : Careful s d)
    (step : happen s d = some t) : Clean t.table := by
  cases d with
  | act a => exact clean.shift careful (step_shift inv step)
  | fault c =>
    obtain ⟨p, ret, proc, thread, rfl⟩ := fault_eq step
    have runs : (s.cpu c).runs = some p := by simp [Cpu.runs, thread, proc]
    have running := inv.runs.ok_of_claim c p runs
    exact clean.store fun unborn => absurd (by simp [Proc.Born, running]) unborn

theorem careful_clean (reach : ((faulting C).guard Careful).Reachable s) : Clean s.table := by
  refine reach.invariant (P := fun s => Clean s.table) (fun s start => ?_)
    fun s d t before clean step => clean.happen (faulting_inv before.of_guard) step.2 step.1
  cases start
  intro q _
  simp only [State.boot, bootTable]
  split <;> rfl

theorem killed_store {p q : Slot} (kept : x.killed = (u p).killed ∨ x.killed = false)
    (before : (u q).killed = false) : (u.set p x q).killed = false := by
  by_cases eq : q = p
  · rw [eq, Table.set_self]
    rw [eq] at before
    rcases kept with kept | kept
    · rw [kept, before]
    · exact kept
  · rw [Table.set_ne _ eq]
    exact before

omit [DecidableEq C] in
theorem Shift.blames {a : Act C} {n : Option Note} {q : Slot} (shift : Shift s a t n)
    (before : (s.table q).killed = false) (after : (t.table q).killed = true) :
    Blames s q (.act a) ∧ ∃ c pid, a = .call c (.kill pid) ∧ holder s.table pid = some q := by
  have kept : (t.table q).killed ≠ false := by simp [after]
  cases shift with
  | quiet steady _ => exact absurd ((steady q).killed.trans before) kept
  | dispatch _ _ table _ =>
    rw [table] at kept
    exact (kept (killed_store (.inl rfl) before)).elim
  | @kill c pid _ _ table _ =>
    rw [table] at kept
    cases found : holder s.table pid with
    | none =>
      simp only [kill_of_none found] at kept
      exact absurd before kept
    | some p =>
      simp only [kill_of_holder found] at kept
      by_cases eq : q = p
      · subst eq
        refine ⟨?_, c, pid, rfl, found⟩
        obtain rfl := holder_pid found
        exact .kill c
      · rw [Table.set_ne _ eq] at kept
        exact absurd before kept
  | settickets _ table _ =>
    rw [table] at kept
    exact (kept (killed_store (.inl rfl) before)).elim
  | reap _ steady _ table _ =>
    rw [table] at kept
    exact (kept (killed_store (.inr rfl) ((steady q).killed.trans before))).elim
  | allocate _ _ table _ =>
    rw [table] at kept
    exact (kept (killed_store (.inl rfl) before)).elim
  | forkDone _ _ table _ =>
    rw [table] at kept
    exact (kept (killed_store (.inl rfl) before)).elim
  | forkFail _ _ _ table _ =>
    rw [table] at kept
    exact (kept (killed_store (.inl rfl) before)).elim
  | forkCopy _ _ _ table _ =>
    rw [table] at kept
    exact (kept (killed_store (.inl rfl) before)).elim

theorem happen_blames (inv : Inv s) (careful : Careful s d) (step : happen s d = some t) {q : Slot}
    (before : (s.table q).killed = false) (after : (t.table q).killed = true) :
    Blames s q d ∧ (s.table q).Born := by
  cases d with
  | act a =>
    obtain ⟨blames, c, pid, rfl, found⟩ := (step_shift inv step).blames before after
    exact ⟨blames, careful q found⟩
  | fault c =>
    obtain ⟨p, ret, proc, thread, rfl⟩ := fault_eq step
    have runs : (s.cpu c).runs = some p := by simp [Cpu.runs, thread, proc]
    have running := inv.runs.ok_of_claim c p runs
    by_cases eq : q = p
    · subst eq
      exact ⟨.fault proc, by simp [Proc.Born, running]⟩
    · change (s.table.set p _ q).killed = true at after
      rw [Table.set_ne _ eq, before] at after
      cases after

/-- A call that finds a slot not past `fork` leaves it with the flag set. -/
theorem stains {c : C} {pid : BitVec 32} (step : happen s (.act (.call c (.kill pid))) = some t)
    (careless : ¬ Careful s (.act (.call c (.kill pid)))) :
    ∃ q, ¬ (t.table q).Born ∧ (t.table q).killed = true := by
  simp only [Careful, not_forall] at careless
  obtain ⟨q, found, unborn⟩ := careless
  have table : t.table = s.table.set q (s.table q).slain := by
    have kernelStep : (kernel C).step s (.call c (.kill pid)) t := step
    cases step_turn kernelStep with
    | kill _ _ =>
      change (kill s.table pid).1 = _
      rw [kill_of_holder found]
    | waitReap waits | waitFail waits | waitSleep waits => cases waits
  refine ⟨q, ?_, by rw [table, Table.set_self]; rfl⟩
  rw [table, Table.set_self]
  have awake : (s.table q).state ≠ .sleeping := fun asleep => unborn (by simp [Proc.Born, asleep])
  simpa [Proc.Born, Proc.slain, awake] using unborn

/-- `kill` is right about a pid exactly when the first slot that holds the pid is in use.  In a run
whose calls of `kill` only find processes past `fork`, a process that `fork` returns starts with its
flag clear, and a flag is only set by a call with the pid of its process or by the process's own
fault.  Any other call leaves a slot that `fork` has yet to return with its flag set. -/
theorem kill_only_live :
    (∀ t pid, KillsOnly t pid ↔ Aimed t pid) ∧
    (∀ {s t : State C} {d : Happening C}, ((faulting C).guard Careful).Reachable s →
      ((faulting C).guard Careful).step s d t →
      (∀ c p np, d = .act (.call c .forkDone) → (s.cpu c).proc = some p →
        (s.cpu c).thread = .process (.copied np) →
        (t.table np).state = .runnable ∧ (t.table np).killed = false) ∧
      ∀ q, (s.table q).killed = false → (t.table q).killed = true →
        Blames s q d ∧ (s.table q).Born) ∧
    (∀ {s t : State C} {c : C} {pid : BitVec 32}, (faulting C).Reachable s →
      (faulting C).step s (.act (.call c (.kill pid))) t →
      ¬ Careful s (.act (.call c (.kill pid))) →
      ∃ q, ¬ (t.table q).Born ∧ (t.table q).killed = true) := by
  refine ⟨killsOnly_iff, fun reach step => ⟨?_, fun q before after => ?_⟩,
    fun _ step => stains step⟩
  · rintro c p np rfl proc thread
    have inv := faulting_inv reach.of_guard
    have embryo := (At.process proc thread).embryo inv rfl
    have clear := careful_clean reach np (by simp [Proc.Born, embryo])
    have kernelStep : (kernel C).step _ (.call c .forkDone) _ := step.1
    cases step_turn kernelStep with
    | @forkDone _ q r enters =>
      cases thread.symm.trans enters.thread
      change (Table.set _ _ _ np).state = _ ∧ (Table.set _ _ _ np).killed = _
      rw [Table.set_self]
      exact ⟨rfl, clear⟩
    | waitReap waits | waitFail waits | waitSleep waits => cases waits
  · exact happen_blames (faulting_inv reach.of_guard) step.2 step.1 before after

end Runs

/-! ## A child that starts killed -/

def dispatchInit : List (Happening Unit) := replicate 67 (.act (.sched ())) ++ [.act (.resume ())]

def forks : List (Happening Unit) :=
  [.act (.call () .fork), .act (.forkBody () true), .act (.call () .forkDone)]

/-- Init calls `kill(0)`.  No process has pid 0, but the free slots do: the call returns 0, and the
child that init forks next starts with its flag set. -/
theorem kill_zero_stains_child :
    ∃ s t u : State Unit, (faulting Unit).Reachable s ∧
      (∀ p, (s.table p).state ≠ .unused → (s.table p).pid ≠ 0) ∧ (kill s.table 0).2 = 0 ∧
      ¬ KillsOnly s.table 0 ∧ happen s (.act (.call () (.kill 0))) = some t ∧
      Lts.exec happen (fun _ => true) t forks = some u ∧
      (u.table 1).state = .runnable ∧ (u.table 1).pid = 2 ∧ (u.table 1).killed = true := by
  have run : ((Lts.exec happen (fun _ => true) (State.boot Unit) dispatchInit).bind fun s =>
      (happen s (.act (.call () (.kill 0)))).bind fun t =>
      (Lts.exec happen (fun _ => true) t forks).bind fun u =>
      some (decide (∀ p, (s.table p).state ≠ .unused → (s.table p).pid ≠ 0), (kill s.table 0).2,
        (u.table 1).state, (u.table 1).pid, (u.table 1).killed)) =
      some (true, 0, .runnable, 2, true) := by
    decide +kernel
  obtain ⟨s, first, run⟩ := Option.bind_eq_some_iff.mp run
  obtain ⟨t, kills, run⟩ := Option.bind_eq_some_iff.mp run
  obtain ⟨u, later, run⟩ := Option.bind_eq_some_iff.mp run
  simp only [Option.some.injEq, Prod.mk.injEq, decide_eq_true_eq] at run
  obtain ⟨nobody, zero, state, pid, killed⟩ := run
  have start : (faulting Unit).Reachable (State.boot Unit) := .init rfl
  refine ⟨s, t, u, start.of_exec (fun _ _ _ _ step _ => step) first, nobody, zero, fun kills => ?_,
    kills, later, state, pid, killed⟩
  obtain ⟨p, used, same⟩ := kills.found.mp zero
  exact nobody p used same

/-- Init forks a child, which `fork` returns with its flag clear, and kills it. -/
theorem kill_only_live_child :
    ∃ s t u : State Unit, (faulting Unit).Reachable s ∧
      happen s (.act (.call () .forkDone)) = some t ∧
      ((t.table 1).state = .runnable ∧ (t.table 1).killed = false) ∧
      happen t (.act (.call () (.kill 2))) = some u ∧ (u.table 1).killed = true ∧
      Blames t 1 (.act (.call () (.kill 2))) ∧ (t.table 1).Born := by
  have run : ((Lts.exec happen (fun _ => true) (State.boot Unit)
      (dispatchInit ++ [.act (.call () .fork), .act (.forkBody () true)])).bind fun s =>
      (happen s (.act (.call () .forkDone))).bind fun t =>
      (happen t (.act (.call () (.kill 2)))).bind fun u =>
      some ((s.cpu ()).proc, (s.cpu ()).thread, holder t.table 2, (u.table 1).killed)) =
      some (some 0, .process (.copied 1), some 1, true) := by
    decide +kernel
  obtain ⟨s, first, run⟩ := Option.bind_eq_some_iff.mp run
  obtain ⟨t, done, run⟩ := Option.bind_eq_some_iff.mp run
  obtain ⟨u, kills, run⟩ := Option.bind_eq_some_iff.mp run
  simp only [Option.some.injEq, Prod.mk.injEq] at run
  obtain ⟨proc, thread, found, killed⟩ := run
  have start : ((faulting Unit).guard Careful).Reachable (State.boot Unit) := .init rfl
  have reach : ((faulting Unit).guard Careful).Reachable s := by
    refine start.of_exec (fun s t d member step _ => ⟨step, ?_⟩) first
    simp only [dispatchInit, append_assoc, mem_append, mem_replicate, mem_cons,
      not_mem_nil, or_false] at member
    rcases member with ⟨_, rfl⟩ | rfl | rfl | rfl <;> trivial
  have forked := (kill_only_live.2.1 reach ⟨done, trivial⟩).1 () 0 1 rfl proc thread
  have careful : Careful t (.act (.call () (.kill 2))) := fun q found' => by
    cases found.symm.trans found'
    simp [Proc.Born, forked.1]
  exact ⟨s, t, u, reach.of_guard, done, forked, kills, killed,
    (kill_only_live.2.1 (reach.step ⟨done, trivial⟩) ⟨kills, careful⟩).2 1 forked.2 killed⟩

end Xv6.Sched
