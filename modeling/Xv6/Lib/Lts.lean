import Mathlib.Data.Nat.Init
import Mathlib.Tactic.Common

/-!
# Labelled transition systems

`Lts.Reachable` is for properties of single states, and `Lts.Run` for properties that relate two
positions of one execution.  A run is a finite prefix; quantifying over all of them quantifies over
executions of any length.

`Lts.restrict` and `Lts.guard` state what a client of the system promises.  `Lts.ofFun` is the
system of a computable step function, and `Lts.exec` replays a list of labels through such a
function.
-/

structure Lts (σ ι : Type) where
  init : σ → Prop
  step : σ → ι → σ → Prop

namespace Lts

variable {σ ι : Type}

inductive Reachable (M : Lts σ ι) : σ → Prop
  | init {s : σ} : M.init s → Reachable M s
  | step {s t : σ} {l : ι} : Reachable M s → M.step s l t → Reachable M t

variable {M : Lts σ ι} {P : σ → Prop}

theorem Reachable.invariant (base : ∀ s, M.init s → P s)
    (keep : ∀ s l t, M.Reachable s → P s → M.step s l t → P t) {s : σ} (reach : M.Reachable s) :
    P s := by
  induction reach with
  | init start => exact base _ start
  | step before step ih => exact keep _ _ _ before ih step

/-! ## Runs -/

/-- A finite execution: `state 0` is a start state and each of the first
`length` positions takes a step. -/
structure Run (M : Lts σ ι) where
  state : Nat → σ
  length : Nat
  start : M.init (state 0)
  next : ∀ i, i < length → ∃ l, M.step (state i) l (state (i + 1))

theorem Run.reachable (r : M.Run) {i : Nat} (le : i ≤ r.length) : M.Reachable (r.state i) := by
  induction i with
  | zero => exact .init r.start
  | succ i ih =>
    obtain ⟨l, step⟩ := r.next i (by omega)
    exact .step (ih (by omega)) step

/-- Carry a fact about positions along the segment from `i` to `j`. -/
theorem Run.carry {P : Nat → Prop} {i j : Nat} (le : i ≤ j) (base : P i)
    (keep : ∀ k, i ≤ k → k < j → P k → P (k + 1)) : P j := by
  induction j, le using Nat.le_induction with
  | base => exact base
  | succ j le ih =>
    exact keep j le (by omega) (ih fun k lo hi => keep k lo (by omega))

/-! ## Restriction -/

def restrict (M : Lts σ ι) (P : σ → Prop) : Lts σ ι where
  init s := M.init s ∧ P s
  step s l t := M.step s l t ∧ P t

variable {s : σ}

theorem Reachable.of_restrict (reach : (M.restrict P).Reachable s) : M.Reachable s ∧ P s := by
  induction reach with
  | init start => exact ⟨.init start.1, start.2⟩
  | step _ step ih => exact ⟨.step ih.1 step.1, step.2⟩

theorem Reachable.restrict_mono {Q : σ → Prop} (imp : ∀ s, P s → Q s) {s : σ}
    (reach : (M.restrict P).Reachable s) : (M.restrict Q).Reachable s := by
  induction reach with
  | init start => exact .init ⟨start.1, imp _ start.2⟩
  | step _ step ih => exact .step ih ⟨step.1, imp _ step.2⟩

def guard (M : Lts σ ι) (ok : σ → ι → Prop) : Lts σ ι where
  init := M.init
  step s l t := M.step s l t ∧ ok s l

theorem Reachable.of_guard {ok : σ → ι → Prop} (reach : (M.guard ok).Reachable s) :
    M.Reachable s := by
  induction reach with
  | init start => exact .init start
  | step _ step ih => exact .step ih step.1

theorem Reachable.to_guard {ok : σ → ι → Prop} (all : ∀ s l, ok s l) {s : σ}
    (reach : M.Reachable s) : (M.guard ok).Reachable s := by
  induction reach with
  | init start => exact .init start
  | step _ step ih => exact .step ih ⟨step, all _ _⟩

/-! ## Systems given by a step function -/

/-- The system whose steps are the graph of a partial step function. -/
def ofFun (start : σ → Prop) (f : σ → ι → Option σ) : Lts σ ι where
  init := start
  step s l t := f s l = some t

/-- Replay a list of labels, checking `ok` of every state on the way. -/
def exec (f : σ → ι → Option σ) (ok : σ → Bool) : σ → List ι → Option σ
  | s, [] => some s
  | s, l :: ls =>
    match f s l with
    | none => none
    | some t => if ok t then exec f ok t ls else none

variable {f : σ → ι → Option σ} {ok : σ → Bool}

/-- A replay that succeeds is an execution of every system that has its steps. -/
theorem Reachable.of_exec {ls : List ι} {t : σ} (reach : M.Reachable s)
    (sound : ∀ s t, ∀ l ∈ ls, f s l = some t → ok t = true → M.step s l t)
    (run : exec f ok s ls = some t) : M.Reachable t := by
  induction ls generalizing s with
  | nil =>
    cases run
    exact reach
  | cons l ls ih =>
    have later := fun s t l' member => sound s t l' (List.mem_cons_of_mem l member)
    simp only [exec] at run
    split at run
    · cases run
    · rename_i u step
      split at run
      · rename_i okU
        exact ih (.step reach (sound s u l List.mem_cons_self step okU)) later run
      · cases run

theorem exec_append (f : σ → ι → Option σ) (ok : σ → Bool) (s : σ) (xs ys : List ι) :
    exec f ok s (xs ++ ys) = (exec f ok s xs).bind fun t => exec f ok t ys := by
  induction xs generalizing s with
  | nil => rfl
  | cons x xs ih =>
    simp only [List.cons_append, exec]
    split
    · rfl
    · split
      · exact ih _
      · rfl

/-- Every prefix of a replay succeeds, and the states it passes through are `ok`. -/
theorem exec_take {t : σ} {ls : List ι} (run : exec f ok s ls = some t) (k : Nat) :
    ∃ u, exec f (fun _ => true) s (ls.take k) = some u ∧ (0 < k → k ≤ ls.length → ok u = true) := by
  induction ls generalizing s k with
  | nil => exact ⟨s, by simp [exec], fun pos le => absurd (Nat.lt_of_lt_of_le pos le) (by simp)⟩
  | cons l ls ih =>
    cases k with
    | zero => exact ⟨s, rfl, fun pos => absurd pos (by simp)⟩
    | succ k =>
      simp only [exec] at run
      split at run
      · cases run
      · rename_i v step
        split at run
        · rename_i okV
          obtain ⟨u, rest, okU⟩ := ih run k
          refine ⟨u, ?_, fun _ le => ?_⟩
          · simpa [exec, step] using rest
          · rcases Nat.eq_zero_or_pos k with rfl | pos
            · cases rest
              exact okV
            · exact okU pos (by simpa using le)
        · cases run

def Run.ofExec {start : σ → Prop} {f : σ → ι → Option σ} {s : σ} (init : start s) (ls : List ι)
    (run : (exec f (fun _ => true) s ls).isSome) : (ofFun start f).Run where
  state k := (exec f (fun _ => true) s (ls.take k)).getD s
  length := ls.length
  start := init
  next i lt := by
    obtain ⟨t, run⟩ := Option.isSome_iff_exists.mp run
    obtain ⟨u, before, _⟩ := exec_take run i
    obtain ⟨v, after, _⟩ := exec_take run (i + 1)
    refine ⟨ls.get ⟨i, lt⟩, ?_⟩
    rw [List.take_succ_eq_append_getElem lt, exec_append, before] at after
    rw [before, List.take_succ_eq_append_getElem lt, exec_append, before]
    simp only [Option.bind_some, exec] at after ⊢
    split at after
    · cases after
    · rename_i w step
      simp only [ofFun, Option.getD_some, List.get_eq_getElem]
      simp [step]

theorem Run.ofExec_ok {start : σ → Prop} {init : start s} {xs ys zs : List ι}
    {run : (exec f (fun _ => true) s (xs ++ ys ++ zs)).isSome}
    (checked : ((exec f (fun _ => true) s xs).bind fun t => exec f ok t ys).isSome) {k : Nat}
    (after : xs.length < k) (before : k ≤ xs.length + ys.length) :
    ok ((Run.ofExec init (xs ++ ys ++ zs) run).state k) = true := by
  obtain ⟨t, checked⟩ := Option.isSome_iff_exists.mp checked
  obtain ⟨u, first, rest⟩ := Option.bind_eq_some_iff.mp checked
  obtain ⟨v, last, okV⟩ := exec_take rest (k - xs.length)
  have labels : (xs ++ ys ++ zs).take k = xs ++ ys.take (k - xs.length) := by
    rw [List.take_append_of_le_length (by simpa using before), List.take_append,
      List.take_of_length_le (Nat.le_of_lt after)]
  have state : (Run.ofExec init (xs ++ ys ++ zs) run).state k = v := by
    simp only [Run.ofExec, labels, exec_append, first, Option.bind_some, last, Option.getD_some]
  rw [state]
  exact okV (by omega) (by omega)

end Lts
