import Xv6.Sched.Locking

/-!
# Strict priority

The low-priority loop of `scheduler()` does not look at priorities.  What keeps it from running a
low-priority process too early is `hasHP`: the loop is entered only when the count of high-priority
processes was zero, in a round in which nothing was dispatched, so that the lock has been held since
the count.
-/

namespace Xv6.Sched

/-- The low-priority loop finds the table without high-priority work, and without any work
in the slots it has passed. -/
theorem Inv.low_scanned {C : Type} {s : State C} (inv : Inv s) {c : C} {i : Nat}
    (thread : (s.cpu c).thread = .scheduler) (low : (s.cpu c).sched = .low i) :
    (∀ q, ¬ (s.table q).High) ∧ ∀ q : Slot, q < i → (s.table q).state ≠ .runnable := by
  have scanned := inv.scanned c thread
  rw [low] at scanned
  exact scanned

section Dispatch

variable {C : Type} [DecidableEq C] {s t : State C} {p : Slot}

theorem dispatch_dispatched {c : C} {pc : SchedPc} (ready : (s.table p).state = .runnable) :
    Dispatched s (s.dispatch c p pc) p := by
  refine ⟨by rw [ready]; simp, ?_⟩
  simp only [State.dispatch, Table.set_self]

theorem Dispatched.chooses (dispatched : Dispatched s t p) (move : Moves s t) :
    ∃ c pc, (s.cpu c).thread = .scheduler ∧ Chooses s.table (s.cpu c).sched p pc ∧
      t = s.dispatch c p pc := by
  obtain ⟨before, after⟩ := dispatched
  -- a store of another state does not make `p` run
  have store : ∀ {u : Table} {q : Slot} {x : Proc}, (x.state = .running → (u q).state = .running) →
      (u.set q x p).state = .running → (u p).state = .running := by
    intro u q x here at_p
    by_cases eq : p = q
    · rw [eq, Table.set_self] at at_p
      rw [eq]
      exact here at_p
    · rwa [Table.set_ne u eq] at at_p
  have woken : ∀ {u : Table}, (∀ q, (s.table q).Woken (u q)) → (u p).state = .running →
      (s.table p).state = .running := by
    intro u w at_p
    rcases (w p).state with eq | ⟨_, awake⟩
    · exact eq ▸ at_p
    · cases awake.symm.trans at_p
  cases move with
  | acquire _ _ _ | advance _ _ _ | release _ _ | panic _ => exact absurd after before
  | @dispatch c q pc thread chooses =>
    have eq : p = q := by
      by_contra ne
      simp only [State.dispatch, Table.set_ne _ ne] at after
      exact before after
    subst eq
    exact ⟨c, pc, thread, chooses, rfl⟩
  | yield _ | sleep _ _ _ | forkDone _ | forkFail _ _ | allocate _ _ _ =>
    exact absurd (store (fun h => by cases h) after) before
  | exit _ w | reap _ w _ => exact absurd (woken w (store (fun h => by cases h) after)) before
  | leave _ w => exact absurd (woken w after) before
  | settickets _ _ | forkCopy _ _ =>
    refine absurd (store ?_ after) before
    exact id
  | wakeup _ _ => exact absurd (woken (wakeup1_woken _ _) after) before

theorem Chooses.low_of_priority {u : Table} {pc pc' : SchedPc} (chooses : Chooses u pc p pc')
    (low : (u p).priority = 0) : pc = .low p ∧ pc' = .lowRet := by
  cases chooses with
  | high high => cases low.symm.trans high.2
  | low _ => exact ⟨rfl, rfl⟩

end Dispatch

/-- **Strict priority.**  On any number of CPUs and in every run: at the step that sets a
process of priority 0 to `RUNNING`, no process is `RUNNABLE` with priority 1. -/
theorem strict_priority {C : Type} [DecidableEq C] {s t : State C} {a : Act C}
    (reach : (kernel C).Reachable s) (step : (kernel C).step s a t) {p : Slot}
    (dispatched : Dispatched s t p) (low : (s.table p).priority = 0) (q : Slot) :
    ¬ (s.table q).High ∧ ¬ (t.table q).High := by
  obtain ⟨c, pc, thread, chooses, rfl⟩ := dispatched.chooses (step_moves step)
  have none := ((reachable_inv reach).low_scanned thread (chooses.low_of_priority low).1).1 q
  refine ⟨none, ?_⟩
  by_cases eq : q = p
  · rw [eq]
    simp [State.dispatch, Proc.High]
  · simpa only [State.dispatch, Table.set_ne _ eq] using none

/-- Two CPUs: the first process lowers its priority and yields on CPU 0, whose scheduler
finds no more work; then CPU 1 dispatches it. -/
theorem strict_priority_two_cpus :
    ∃ s t : State (Fin 2), (kernel (Fin 2)).Reachable s ∧ (kernel (Fin 2)).step s (.sched 1) t ∧
      Dispatched s t initproc ∧ (s.table initproc).priority = 0 ∧
      ∀ q, ¬ (s.table q).High ∧ ¬ (t.table q).High := by
  have run : ((Lts.exec step (fun _ => true) (State.boot (Fin 2))
      (List.replicate 67 (.sched 0) ++ [.resume 0, .call 0 (.settickets 0), .call 0 .yield] ++
        List.replicate 131 (.sched 0) ++ List.replicate 66 (.sched 1))).bind fun s =>
      (step s (.sched 1)).map fun t =>
        decide (Dispatched s t initproc ∧ (s.table initproc).priority = 0)) = some true := by
    decide +kernel
  obtain ⟨s, exec, rest⟩ := Option.bind_eq_some_iff.mp run
  obtain ⟨t, next, facts⟩ := Option.map_eq_some_iff.mp rest
  have start : (kernel (Fin 2)).Reachable (State.boot (Fin 2)) := .init rfl
  have reach : (kernel (Fin 2)).Reachable s := start.of_exec (fun _ _ _ _ step _ => step) exec
  obtain ⟨dispatched, low⟩ := of_decide_eq_true facts
  exact ⟨s, t, reach, next, dispatched, low, strict_priority reach next dispatched low⟩

end Xv6.Sched
