import Xv6.Sched.System

/-!
# What a step does

`Turn` says what one step of the system can do, with one constructor for each way through `step`,
and `step_turn` that it can do nothing else.  `event` is what the step means to the families.
-/

namespace Xv6.Sched

variable {C : Type} [DecidableEq C]

/-- A step of `scheduler()` that dispatches nothing and keeps the lock. -/
inductive Advance (t : Table) : SchedPc → SchedPc → Prop
  | count {hasHP : Bool} {i hpcnt : Nat} (lt : i < nproc) :
      Advance t (.count hasHP i hpcnt)
        (.count hasHP (i + 1) (if (t ⟨i, lt⟩).High then hpcnt + 1 else hpcnt))
  | passStart {hasHP : Bool} {i hpcnt : Nat} : ¬ i < nproc → 0 < hpcnt →
      Advance t (.count hasHP i hpcnt) (.high hasHP 0)
  | finish {i : Nat} : ¬ i < nproc → Advance t (.count true i 0) .done
  | lowStart {i : Nat} : ¬ i < nproc → Advance t (.count false i 0) (.low 0)
  | highSkip {hasHP : Bool} {i : Nat} (lt : i < nproc) : ¬ (t ⟨i, lt⟩).High →
      Advance t (.high hasHP i) (.high hasHP (i + 1))
  | passEnd {hasHP : Bool} {i : Nat} : ¬ i < nproc →
      Advance t (.high hasHP i) (.count hasHP 0 0)
  | highRet {i : Nat} : Advance t (.highRet i) (.high true (i + 1))
  | lowSkip {i : Nat} (lt : i < nproc) : (t ⟨i, lt⟩).state ≠ .runnable →
      Advance t (.low i) (.low (i + 1))
  | lowEnd {i : Nat} : ¬ i < nproc → Advance t (.low i) .done
  | lowRet : Advance t .lowRet .done

/-- The scheduler at `pc` chooses process `p`; `swtch` will return to `pc'`. -/
inductive Chooses (t : Table) : SchedPc → Slot → SchedPc → Prop
  | high {hasHP : Bool} {p : Slot} : (t p).High → Chooses t (.high hasHP p) p (.highRet p)
  | low {p : Slot} : (t p).state = .runnable → Chooses t (.low p) p .lowRet

variable {p : Slot}

theorem Chooses.ready {t : Table} {pc pc' : SchedPc} (chooses : Chooses t pc p pc') :
    (t p).state = .runnable := by
  cases chooses with
  | high high => exact high.1
  | low ready => exact ready

def SchedPc.Away : SchedPc → Prop
  | .highRet _ | .lowRet => True
  | _ => False

/-- Process `p` on CPU `c` scans for its children in the table `t`: at the start of `wait`, or after
it slept there. -/
inductive Waits (s : State C) (p : Slot) : Act C → C → Table → Prop
  | call {c : C} {ret : BitVec 32} : (s.cpu c).proc = some p →
      (s.cpu c).thread = .process (.user ret) → s.lock = none → Waits s p (.call c .wait) c s.table
  | resume {c : C} : (s.cpu c).proc = some p → (s.cpu c).thread = .resume .wait →
      Waits s p (.resume c) c (s.table.set p { s.table p with chan := none })

/-- Where a process goes on that returns from `swtch` and leaves its critical section. -/
inductive Resumes (s : State C) (p : Slot) : Context → Kernel → Table → Prop
  | forkret : Resumes s p .forkret (.user 0) s.table
  | yield {k : Kernel} : Resumes s p (.yield k) k s.table
  | sleep {ret : BitVec 32} :
      Resumes s p (.sleep ret) (.user ret) (s.table.set p { s.table p with chan := none })

/-- Process `p` on CPU `c` runs at `k` and finds the lock free. -/
structure Enters (s : State C) (c : C) (p : Slot) (k : Kernel) : Prop where
  proc : (s.cpu c).proc = some p
  thread : (s.cpu c).thread = .process k
  free : s.lock = none

def exitTable (t : Table) (p : Slot) : Table :=
  reparent (wakeup1 t ((t p).parent.map .proc)) p

inductive Turn (s : State C) : Act C → State C → Prop
  | acquire {c : C} : (s.cpu c).thread = .scheduler → (s.cpu c).sched = .idle → s.lock = none →
      Turn s (.sched c) { s.goto c (.count false 0 0) with lock := some c }
  | advance {c : C} {pc : SchedPc} : (s.cpu c).thread = .scheduler →
      Advance s.table (s.cpu c).sched pc → ¬ (s.cpu c).sched.Away → Turn s (.sched c) (s.goto c pc)
  | back {c : C} {pc : SchedPc} : (s.cpu c).thread = .scheduler →
      Advance s.table (s.cpu c).sched pc → (s.cpu c).sched.Away →
      Turn s (.sched c) (s.setCpu c { s.cpu c with proc := none, sched := pc })
  | dispatch {c : C} {p : Slot} {pc : SchedPc} : (s.cpu c).thread = .scheduler →
      Chooses s.table (s.cpu c).sched p pc → Turn s (.sched c) (s.dispatch c p pc)
  | release {c : C} : (s.cpu c).thread = .scheduler → (s.cpu c).sched = .done →
      Turn s (.sched c) { s.goto c .idle with lock := none }
  | resume {c : C} {p : Slot} {ctx : Context} {k : Kernel} {t : Table} :
      (s.cpu c).proc = some p → (s.cpu c).thread = .resume ctx → Resumes s p ctx k t →
      Turn s (.resume c) (s.leave c t k)
  | waitReap {a : Act C} {c : C} {p q : Slot} {t : Table} : Waits s p a c t →
      zombieChild t p = some q → Turn s a (s.leave c (reap t q) (.user (t q).pid))
  | waitFail {a : Act C} {c : C} {p : Slot} {t : Table} : Waits s p a c t →
      zombieChild t p = none → havekids t p = false ∨ (t p).killed →
      Turn s a (s.leave c t (.user (-1)))
  | waitSleep {a : Act C} {c : C} {p : Slot} {t : Table} : Waits s p a c t →
      zombieChild t p = none → ¬ (havekids t p = false ∨ (t p).killed) →
      Turn s a (s.sched c (t.set p { t p with
        chan := some (.proc p), state := .sleeping, context := .wait }))
  | zombieExit {c : C} : (s.cpu c).thread = .resume .exit →
      Turn s (.resume c) { s with panic := some .zombieExit }
  | yield {c : C} {p : Slot} {k : Kernel} : Enters s c p k →
      Turn s (.call c .yield) (s.sched c (s.table.set p { s.table p with
        state := .runnable, context := .yield k }))
  | sleep {c : C} {p : Slot} {ret : BitVec 32} (chan : Chan) : Enters s c p (.user ret) →
      Turn s (.call c (.sleep chan)) (s.sched c (s.table.set p { s.table p with
        chan := some chan, state := .sleeping, context := .sleep ret }))
  | exit {c : C} {p : Slot} {ret : BitVec 32} : Enters s c p (.user ret) → p ≠ initproc →
      Turn s (.call c .exit) (s.sched c ((exitTable s.table p).set p
        { exitTable s.table p p with state := .zombie, context := .exit }))
  | initExit {c : C} {ret : BitVec 32} : Enters s c initproc (.user ret) →
      Turn s (.call c .exit) { s with panic := some .initExiting }
  | kill {c : C} {p : Slot} {ret : BitVec 32} (pid : BitVec 32) : Enters s c p (.user ret) →
      Turn s (.call c (.kill pid)) (s.leave c (kill s.table pid).1 (.user (kill s.table pid).2))
  | settickets {c : C} {p : Slot} {ret ret' : BitVec 32} (ticket priority : BitVec 32) :
      Enters s c p (.user ret) →
      Turn s (.call c (.settickets ticket))
        (s.leave c (s.table.set p { s.table p with priority := priority }) (.user ret'))
  | allocate {c : C} {p np : Slot} {ret : BitVec 32} : Enters s c p (.user ret) →
      findUnused s.table = some np →
      Turn s (.call c .fork) { s.leave c (allocproc s.table np s.nextpid) (.allocated np) with
        nextpid := s.nextpid + 1 }
  | full {c : C} {p : Slot} {ret : BitVec 32} : Enters s c p (.user ret) →
      findUnused s.table = none → Turn s (.call c .fork) (s.leave c s.table (.user (-1)))
  | forkDone {c : C} {p np : Slot} : Enters s c p (.copied np) →
      Turn s (.call c .forkDone) (s.leave c
        (s.table.set np { s.table np with state := .runnable }) (.user (s.table np).pid))
  | forkFail {c : C} {p np : Slot} : (s.cpu c).proc = some p →
      (s.cpu c).thread = .process (.allocated np) →
      Turn s (.forkBody c false)
        (s.unlocked c (s.table.set np { s.table np with state := .unused }) (.user (-1)))
  | forkCopy {c : C} {p np : Slot} : (s.cpu c).proc = some p →
      (s.cpu c).thread = .process (.allocated np) →
      Turn s (.forkBody c true) (s.unlocked c (forkCopy s.table p np) (.copied np))
  | wakeup (chan : Chan) : s.lock = none →
      Turn s (.wakeup chan) { s with table := wakeup1 s.table (some chan) }

variable {s t : State C} {c : C}

theorem schedStep_turn (step : schedStep s c = some t) : Turn s (.sched c) t := by
  unfold schedStep at step
  split at step
  · rename_i thread
    split at step <;> rename_i pc
    · split at step <;> cases step
      rename_i free
      exact .acquire thread pc free
    · rename_i hasHP i hpcnt
      have here : ¬ (s.cpu c).sched.Away := by simp [pc, SchedPc.Away]
      split at step
      · rename_i lt
        cases step
        exact .advance thread (pc ▸ .count lt) here
      · rename_i last
        split at step
        · rename_i some
          cases step
          exact .advance thread (pc ▸ .passStart last some) here
        · rename_i none
          obtain rfl : hpcnt = 0 := by omega
          split at step <;> rename_i flag <;> cases step
          · subst flag
            exact .advance thread (pc ▸ .finish last) here
          · obtain rfl : hasHP = false := by simpa using flag
            exact .advance thread (pc ▸ .lowStart last) here
    · rename_i hasHP i
      have here : ¬ (s.cpu c).sched.Away := by simp [pc, SchedPc.Away]
      split at step
      · rename_i lt
        split at step <;> rename_i high <;> cases step
        · exact .dispatch thread (pc ▸ .high (p := ⟨i, lt⟩) high)
        · exact .advance thread (pc ▸ .highSkip lt high) here
      · rename_i last
        cases step
        exact .advance thread (pc ▸ .passEnd last) here
    · cases step
      exact .back thread (pc ▸ .highRet) (by simp [pc, SchedPc.Away])
    · rename_i i
      have here : ¬ (s.cpu c).sched.Away := by simp [pc, SchedPc.Away]
      split at step
      · rename_i lt
        split at step <;> rename_i ready <;> cases step
        · exact .advance thread (pc ▸ .lowSkip lt ready) here
        · exact .dispatch thread (pc ▸ .low (p := ⟨i, lt⟩) (by simpa using ready))
      · rename_i last
        cases step
        exact .advance thread (pc ▸ .lowEnd last) here
    · cases step
      exact .back thread (pc ▸ .lowRet) (by simp [pc, SchedPc.Away])
    · cases step
      exact .release thread pc
  · cases step

theorem waitLoop_turn {a : Act C} {t : Table} (waits : Waits s p a c t) :
    Turn s a (waitLoop s c p t) := by
  unfold waitLoop
  split
  · rename_i q found
    exact .waitReap waits found
  · rename_i none
    split
    · rename_i fails
      exact .waitFail waits none fails
    · rename_i stays
      exact .waitSleep waits none stays

theorem resume_turn (step : resume s c = some t) : Turn s (.resume c) t := by
  unfold resume at step
  split at step
  · rename_i p ctx proc thread
    dsimp only at step
    split at step <;> cases step
    · exact .resume proc thread .forkret
    · exact .resume proc thread .yield
    · exact .resume proc thread .sleep
    · exact waitLoop_turn (.resume proc thread)
    · exact .zombieExit thread
  · cases step

theorem call_turn {k : Kernel} {a : Call} (enters : Enters s c p k)
    (step : call s c p k a = some t) : Turn s (.call c a) t := by
  cases a <;> simp only [call] at step
  case yield =>
    cases step
    exact .yield enters
  case sleep chan =>
    split at step <;> cases step
    exact .sleep chan enters
  case exit =>
    split at step
    · split at step <;> cases step
      · rename_i eq
        exact .initExit (eq ▸ enters)
      · rename_i ne
        exact .exit enters ne
    · cases step
  case wait =>
    split at step <;> cases step
    exact waitLoop_turn (.call enters.proc enters.thread enters.free)
  case kill pid =>
    split at step <;> cases step
    exact .kill pid enters
  case settickets ticket =>
    split at step
    · split at step <;> cases step
      · have same :
            s.table = s.table.set p { s.table p with priority := (s.table p).priority } := by
          exact (Function.update_eq_self p s.table).symm
        rw [same]
        exact .settickets ticket _ enters
      · exact .settickets ticket _ enters
    · cases step
  case fork =>
    split at step
    · split at step <;> rename_i found <;> cases step
      · exact .allocate enters found
      · exact .full enters found
    · cases step
  case forkDone =>
    split at step <;> cases step
    exact .forkDone enters

theorem forkBody_turn {ok : Bool} (step : forkBody s c ok = some t) :
    Turn s (.forkBody c ok) t := by
  unfold forkBody at step
  split at step
  · rename_i proc thread
    split at step <;> rename_i flag <;> cases step
    · subst flag
      exact .forkCopy proc thread
    · obtain rfl : ok = false := by simpa using flag
      exact .forkFail proc thread
  · cases step

theorem step_turn {a : Act C} (step : (kernel C).step s a t) : Turn s a t := by
  change Sched.step s a = some t at step
  unfold Sched.step at step
  split at step
  · cases step
  · cases a with
    | sched c => exact schedStep_turn step
    | resume c => exact resume_turn step
    | call c a =>
      simp only at step
      split at step
      · rename_i p k proc thread
        split at step
        · rename_i free
          exact call_turn ⟨proc, thread, free⟩ step
        · cases step
      · cases step
    | forkBody c ok => exact forkBody_turn step
    | wakeup chan =>
      simp only at step
      split at step <;> cases step
      rename_i free
      exact .wakeup chan free

/-! ## The record of a run -/

/-- A return from `wait`: to whom, with what, and what the table and the exits were then. -/
structure WaitReturn where
  caller : Slot
  ret : BitVec 32
  table : Table
  exited : List (BitVec 32)

/-- The processes created, the pids that called `exit` and the returns from `wait`.  A process is
created when `allocproc` gives it its pid. -/
structure History where
  created : Nat
  exited : List (BitVec 32)
  waits : List WaitReturn

def History.boot : History := ⟨1, [], []⟩

namespace History

def returned (h : History) (s : State C) (c : C) (t : State C) : History :=
  match (s.cpu c).proc, (t.cpu c).thread with
  | some p, .process (.user ret) => { h with waits := ⟨p, ret, s.table, h.exited⟩ :: h.waits }
  | _, _ => h

def record (h : History) (s : State C) (a : Act C) (t : State C) : History :=
  match a with
  | .call _ .fork =>
    if (findUnused s.table).isSome then { h with created := h.created + 1 } else h
  | .call c .exit =>
    match (s.cpu c).proc with
    | some p => if p = initproc then h else { h with exited := (s.table p).pid :: h.exited }
    | none => h
  | .call c .wait => h.returned s c t
  | .resume c => if (s.cpu c).thread = .resume .wait then h.returned s c t else h
  | _ => h

end History

def annals (C : Type) [DecidableEq C] : Lts (State C × History) (Act C) where
  init x := x = (State.boot C, .boot)
  step x a y := (kernel C).step x.1 a y.1 ∧ y.2 = x.2.record x.1 a y.1

theorem reachable_of_annals {x : State C × History} (reach : (annals C).Reachable x) :
    (kernel C).Reachable x.1 := by
  induction reach with
  | init start =>
    cases start
    exact .init rfl
  | step _ step ih => exact .step ih step.1

/-- What a step means for the families: nothing, or a call that ends for process `p`. -/
inductive Event
  | quiet
  | exit (p : Slot)
  | reap (p q : Slot)
  | waitFail (p : Slot)
  | allocate (p np : Slot)
  | forkDone (p np : Slot)
  | forkFail (p np : Slot)
  | forkCopy (p np : Slot)

def waitEvent (t : Table) (p : Slot) : Event :=
  match zombieChild t p with
  | some q => .reap p q
  | none => if havekids t p = false ∨ (t p).killed then .waitFail p else .quiet

def event (s : State C) : Act C → Event
  | .resume c =>
    match (s.cpu c).proc, (s.cpu c).thread with
    | some p, .resume .wait => waitEvent (s.table.set p { s.table p with chan := none }) p
    | _, _ => .quiet
  | .call c a =>
    match (s.cpu c).proc, (s.cpu c).thread, a with
    | some p, .process (.user _), .exit => if p = initproc then .quiet else .exit p
    | some p, .process (.user _), .wait => waitEvent s.table p
    | some p, .process (.user _), .fork =>
      match findUnused s.table with
      | some np => .allocate p np
      | none => .quiet
    | some p, .process (.copied np), .forkDone => .forkDone p np
    | _, _, _ => .quiet
  | .forkBody c ok =>
    match (s.cpu c).proc, (s.cpu c).thread with
    | some p, .process (.allocated np) => if ok then .forkCopy p np else .forkFail p np
    | _, _ => .quiet
  | _ => .quiet

def History.log (h : History) (t : Table) : Event → History
  | .exit p => { h with exited := (t p).pid :: h.exited }
  | .reap p q => { h with waits := ⟨p, (t q).pid, t, h.exited⟩ :: h.waits }
  | .waitFail p => { h with waits := ⟨p, -1, t, h.exited⟩ :: h.waits }
  | .allocate _ _ => { h with created := h.created + 1 }
  | _ => h

end Xv6.Sched
