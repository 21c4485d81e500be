import Xv6.Lib.Lts
import Xv6.Sched.Table

/-!
# The scheduler and the processes it runs

Any number of CPUs share one table under `ptable.lock`.  Each runs `scheduler()` or the process it
dispatched.  The lock is handed over at every `swtch`.

* `SchedPc` cuts `scheduler()` into steps, one slot a step in each of its three loops, since
  other CPUs may run in between.
* A critical section of a process is one step.  The writes of `fork` and `allocproc` to the
  new slot that happen without the lock are steps of their own.
* What a process does between those steps is not modelled: every action is possible at any
  time, which covers every program and every timing of interrupts.
-/

namespace Xv6.Sched

/-- Program counter of `scheduler()`.  `i` is the slot `p` points to; `highRet` and `lowRet`
are the points right after `swtch` in the two loops. -/
inductive SchedPc
  | idle
  | count (hasHP : Bool) (i hpcnt : Nat)
  | high (hasHP : Bool) (i : Nat)
  | highRet (i : Nat)
  | low (i : Nat)
  | lowRet
  | done
  deriving DecidableEq, Repr

/-- What a CPU executes: `scheduler()`, or its process, which right after `swtch` still
holds the lock it was handed. -/
inductive Thread
  | scheduler
  | resume (ctx : Context)
  | process (k : Kernel)
  deriving DecidableEq, Repr

/-- `struct cpu`, with the program counter of its scheduler. -/
structure Cpu where
  proc : Option Slot
  sched : SchedPc
  thread : Thread
  deriving DecidableEq, Repr

inductive Panic
  | initExiting
  | zombieExit
  deriving DecidableEq, Repr

structure State (C : Type) where
  table : Table
  nextpid : BitVec 32
  lock : Option C
  cpu : C → Cpu
  panic : Option Panic

def bootTable : Table := fun p =>
  if p = initproc then ⟨.runnable, 1, none, .forkret, none, false, 1, 0⟩
  else ⟨.unused, 0, none, .forkret, none, false, 0, 0⟩

/-- The system after `userinit`: the first process is `RUNNABLE` and no CPU has found it. -/
def State.boot (C : Type) : State C where
  table := bootTable
  nextpid := 2
  lock := none
  cpu := fun _ => ⟨none, .idle, .scheduler⟩
  panic := none

section Step

variable {C : Type} [DecidableEq C]

def State.setCpu (s : State C) (c : C) (x : Cpu) : State C :=
  { s with cpu := Function.update s.cpu c x }

/-! ## `scheduler()` -/

def State.goto (s : State C) (c : C) (pc : SchedPc) : State C :=
  s.setCpu c { s.cpu c with sched := pc }

/-- Choose process `p` and switch to it; `pc` is where `swtch` will return. -/
def State.dispatch (s : State C) (c : C) (p : Slot) (pc : SchedPc) : State C :=
  { s.setCpu c ⟨some p, pc, .resume (s.table p).context⟩ with
    table := s.table.set p { s.table p with
      state := .running, runTicks := (s.table p).runTicks + 1 } }

def schedStep (s : State C) (c : C) : Option (State C) :=
  if (s.cpu c).thread = .scheduler then
    match (s.cpu c).sched with
    | .idle =>
      if s.lock = none then some { s.goto c (.count false 0 0) with lock := some c } else none
    | .count hasHP i hpcnt =>
      if h : i < nproc then
        some (s.goto c (.count hasHP (i + 1)
          (if (s.table ⟨i, h⟩).High then hpcnt + 1 else hpcnt)))
      else if hpcnt > 0 then some (s.goto c (.high hasHP 0))
      else if hasHP then some (s.goto c .done)
      else some (s.goto c (.low 0))
    | .high hasHP i =>
      if h : i < nproc then
        if (s.table ⟨i, h⟩).High then some (s.dispatch c ⟨i, h⟩ (.highRet i))
        else some (s.goto c (.high hasHP (i + 1)))
      else some (s.goto c (.count hasHP 0 0))
    | .highRet i => some (s.setCpu c { s.cpu c with proc := none, sched := .high true (i + 1) })
    | .low i =>
      -- run only 1 low priority job
      if h : i < nproc then
        if (s.table ⟨i, h⟩).state ≠ .runnable then some (s.goto c (.low (i + 1)))
        else some (s.dispatch c ⟨i, h⟩ .lowRet)
      else some (s.goto c .done)
    | .lowRet => some (s.setCpu c { s.cpu c with proc := none, sched := .done })
    | .done => some { s.goto c .idle with lock := none }
  else none

/-! ## Processes -/

/-- `sched()`: the process on CPU `c` has stored its new state and its context in `t`, and
switches to the scheduler with the lock held. -/
def State.sched (s : State C) (c : C) (t : Table) : State C :=
  { s.setCpu c { s.cpu c with thread := .scheduler } with table := t, lock := some c }

def State.leave (s : State C) (c : C) (t : Table) (k : Kernel) : State C :=
  { s.setCpu c { s.cpu c with thread := .process k } with table := t, lock := none }

def State.unlocked (s : State C) (c : C) (t : Table) (k : Kernel) : State C :=
  { s.setCpu c { s.cpu c with thread := .process k } with table := t }

/-- The loop body of `wait`, from the scan to the return or to `sleep(curproc, &ptable.lock)`. -/
def waitLoop (s : State C) (c : C) (p : Slot) (t : Table) : State C :=
  match zombieChild t p with
  | some q => s.leave c (reap t q) (.user (t q).pid)
  | none =>
    if havekids t p = false ∨ (t p).killed then s.leave c t (.user (-1))
    else s.sched c (t.set p { t p with
      chan := some (.proc p), state := .sleeping, context := .wait })

/-- The process on CPU `c` returns from `swtch`, to the end of `forkret`, `yield` or `sleep`. -/
def resume (s : State C) (c : C) : Option (State C) :=
  match (s.cpu c).proc, (s.cpu c).thread with
  | some p, .resume ctx =>
    let tidy := s.table.set p { s.table p with chan := none }
    match ctx with
    | .forkret => some (s.leave c s.table (.user 0))
    | .yield k => some (s.leave c s.table k)
    | .sleep ret => some (s.leave c tidy (.user ret))
    | .wait => some (waitLoop s c p tidy)
    | .exit => some { s with panic := some .zombieExit }
  | _, _ => none

/-- What the process on a CPU can do; `wakeup` is also called by interrupt handlers. -/
inductive Call
  | yield
  | sleep (chan : Chan)
  | exit
  | wait
  | kill (pid : BitVec 32)
  | settickets (ticket : BitVec 32)
  | fork
  | forkDone
  deriving DecidableEq, Repr

/-- The critical sections of process `p`, which runs at `k` on CPU `c`; the lock is free. -/
def call (s : State C) (c : C) (p : Slot) (k : Kernel) : Call → Option (State C)
  | .yield => some (s.sched c (s.table.set p { s.table p with
      state := .runnable, context := .yield k }))
  | .sleep chan =>
    match k with
    | .user ret => some (s.sched c (s.table.set p { s.table p with
        chan := some chan, state := .sleeping, context := .sleep ret }))
    | _ => none
  | .exit =>
    match k with
    | .user _ =>
      if p = initproc then some { s with panic := some .initExiting }
      else
        -- Parent might be sleeping in wait().
        let t := reparent (wakeup1 s.table ((s.table p).parent.map .proc)) p
        some (s.sched c (t.set p { t p with state := .zombie, context := .exit }))
    | _ => none
  | .wait =>
    match k with
    | .user _ => some (waitLoop s c p s.table)
    | _ => none
  | .kill pid =>
    match k with
    | .user _ => some (s.leave c (kill s.table pid).1 (.user (kill s.table pid).2))
    | _ => none
  | .settickets ticket =>
    match k with
    | .user _ =>
      if ticket.toInt < 0 ∨ ticket.toInt > 1 then some (s.leave c s.table (.user (-1)))
      else some (s.leave c
        (s.table.set p { s.table p with priority := ticket }) (.user 0))
    | _ => none
  | .fork =>
    match k with
    | .user _ =>
      match findUnused s.table with
      | some np => some { s.leave c (allocproc s.table np s.nextpid) (.allocated np) with
          nextpid := s.nextpid + 1 }
      | none => some (s.leave c s.table (.user (-1)))
    | _ => none
  | .forkDone =>
    match k with
    | .copied np => some (s.leave c
        (s.table.set np { s.table np with state := .runnable }) (.user (s.table np).pid))
    | _ => none

/-- The part of `fork` that runs without the lock: no memory for the kernel stack or for the
address space, or the copy of the parent's fields. -/
def forkBody (s : State C) (c : C) (ok : Bool) : Option (State C) :=
  match (s.cpu c).proc, (s.cpu c).thread with
  | some p, .process (.allocated np) =>
    if ok then some (s.unlocked c (forkCopy s.table p np) (.copied np))
    else some (s.unlocked c (s.table.set np { s.table np with state := .unused }) (.user (-1)))
  | _, _ => none

/-! ## The system -/

inductive Act (C : Type)
  | sched (c : C)
  | resume (c : C)
  | call (c : C) (a : Call)
  | forkBody (c : C) (ok : Bool)
  | wakeup (chan : Chan)
  deriving DecidableEq, Repr

def step (s : State C) (a : Act C) : Option (State C) :=
  if s.panic.isSome then none
  else match a with
    | .sched c => schedStep s c
    | .resume c => resume s c
    | .call c a =>
      match (s.cpu c).proc, (s.cpu c).thread with
      | some p, .process k => if s.lock = none then call s c p k a else none
      | _, _ => none
    | .forkBody c ok => forkBody s c ok
    | .wakeup chan =>
      if s.lock = none then some { s with table := wakeup1 s.table (some chan) } else none

def kernel (C : Type) [DecidableEq C] : Lts (State C) (Act C) :=
  Lts.ofFun (· = State.boot C) step

end Step

def Dispatched {C : Type} (s t : State C) (p : Slot) : Prop :=
  (s.table p).state ≠ .running ∧ (t.table p).state = .running

instance {C : Type} (s t : State C) (p : Slot) : Decidable (Dispatched s t p) :=
  inferInstanceAs (Decidable (_ ∧ _))

end Xv6.Sched
