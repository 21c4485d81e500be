import Xv6.Lib.Lts
import Xv6.Sched.Table

/-!
# `sleep` and `wakeup`, one statement at a time

`Sched/System.lean` takes a critical section under `ptable.lock` as one step.  Here each `acquire`,
each `release` and each store of `sleep`, `wakeup` and `kill` is a step of its own, and the
processes run code that takes spin locks and sleeps on channels.  What the code keeps in local
variables is part of its control point.

Of the schedulers only their use of `ptable.lock` matters.  `Holder.scheduler` is a CPU that holds
it in `scheduler()`; it may switch to any `RUNNABLE` process, which then holds the lock, or release
it.  A process that is preempted is one that takes no step for a while.
-/

namespace Xv6.Sleep

open Function

open Sched (Slot ProcState)

/-- What a process does next, over the locks `L`, the channels `C`, the control points `K` and the
shared data `D`.  `act` is given `myproc()->killed`; `pick` goes on at any control point that is
`ok`, as a process does that makes its next system call. -/
inductive Instr (L C K D : Type)
  | acquire (l : L) (k : K)
  | release (l : L) (k : K)
  | sleep (c : C) (l : L) (k : K)
  | wakeup (c : C) (k : K)
  | kill (q : Slot) (k : K)
  | act (f : D → Bool → D × K)
  | pick (ok : D → K → Bool)

abbrev Program (L C K D : Type) := Slot → K → Instr L C K D

/-- The statements of `sleep`.  After `sched` the process is `parked` until a scheduler switches to
it, and goes on at `clear`. -/
inductive SleepPc
  | acquire
  | release
  | chan
  | state
  | sched
  | parked
  | clear
  | unlock
  | relock
  deriving DecidableEq, Repr

/-- The statements of `wakeup`; `scan i` is the loop of `wakeup1` at slot `i`. -/
inductive WakePc
  | acquire
  | scan (i : Nat)
  deriving DecidableEq, Repr

/-- The statements of `kill`, for the slot its search finds. -/
inductive KillPc
  | acquire
  | mark
  | wake
  | release
  deriving DecidableEq, Repr

/-- Where a process is.  `k` is the control point to which the function returns. -/
inductive Point (L C K : Type)
  | code (k : K)
  | sleep (pc : SleepPc) (c : C) (l : L) (k : K)
  | wakeup (pc : WakePc) (c : C) (k : K)
  | kill (pc : KillPc) (q : Slot) (k : K)
  deriving DecidableEq, Repr

def Point.next {L C K : Type} : Point L C K → K
  | .code k | .sleep _ _ _ k | .wakeup _ _ k | .kill _ _ k => k

inductive Holder
  | proc (p : Slot)
  | scheduler
  deriving DecidableEq, Repr

structure State (L C K D : Type) where
  data : D
  lock : L → Option Slot
  ptable : Option Holder
  state : Slot → ProcState
  chan : Slot → Option C
  killed : Slot → Bool
  point : Slot → Point L C K

def State.start {L C K D : Type} (d : D) (entry : K) : State L C K D where
  data := d
  lock _ := none
  ptable := none
  state _ := .running
  chan _ := none
  killed _ := false
  point _ := .code entry

section Step

variable {L C K D : Type} [DecidableEq L] [DecidableEq C]

def State.goto (s : State L C K D) (p : Slot) (x : Point L C K) : State L C K D :=
  { s with point := update s.point p x }

def instr (s : State L C K D) (p : Slot) : Instr L C K D → Option (State L C K D)
  | .acquire l k =>
    if s.lock l = none then
      some { s.goto p (.code k) with lock := update s.lock l (some p) }
    else none
  | .release l k =>
    if s.lock l = some p then
      some { s.goto p (.code k) with lock := update s.lock l none }
    else none
  | .sleep c l k => some (s.goto p (.sleep .acquire c l k))
  | .wakeup c k => some (s.goto p (.wakeup .acquire c k))
  | .kill q k => some (s.goto p (.kill .acquire q k))
  | .act f => some { s.goto p (.code (f s.data (s.killed p)).2) with
      data := (f s.data (s.killed p)).1 }
  | .pick _ => none

def sleep (s : State L C K D) (p : Slot) (c : C) (l : L) (k : K) : SleepPc → Option (State L C K D)
  | .acquire =>
    if s.ptable = none then
      some { s.goto p (.sleep .release c l k) with ptable := some (.proc p) }
    else none
  | .release =>
    if s.lock l = some p then
      some { s.goto p (.sleep .chan c l k) with lock := update s.lock l none }
    else none
  | .chan => some { s.goto p (.sleep .state c l k) with chan := update s.chan p (some c) }
  | .state => some { s.goto p (.sleep .sched c l k) with
      state := update s.state p .sleeping }
  | .sched => some { s.goto p (.sleep .parked c l k) with ptable := some .scheduler }
  | .parked => none
  | .clear => some { s.goto p (.sleep .unlock c l k) with chan := update s.chan p none }
  | .unlock => some { s.goto p (.sleep .relock c l k) with ptable := none }
  | .relock =>
    if s.lock l = none then
      some { s.goto p (.code k) with lock := update s.lock l (some p) }
    else none

def wakeup (s : State L C K D) (p : Slot) (c : C) (k : K) : WakePc → Option (State L C K D)
  | .acquire =>
    if s.ptable = none then
      some { s.goto p (.wakeup (.scan 0) c k) with ptable := some (.proc p) }
    else none
  | .scan i =>
    if h : i < nproc then
      let q : Slot := ⟨i, h⟩
      if s.state q = .sleeping ∧ s.chan q = some c then
        some { s.goto p (.wakeup (.scan (i + 1)) c k) with
          state := update s.state q .runnable }
      else some (s.goto p (.wakeup (.scan (i + 1)) c k))
    else some { s.goto p (.code k) with ptable := none }

def kill (s : State L C K D) (p q : Slot) (k : K) : KillPc → Option (State L C K D)
  | .acquire =>
    if s.ptable = none then
      some { s.goto p (.kill .mark q k) with ptable := some (.proc p) }
    else none
  | .mark => some { s.goto p (.kill .wake q k) with killed := update s.killed q true }
  | .wake =>
    -- Wake process from sleep if necessary.
    if s.state q = .sleeping then
      some { s.goto p (.kill .release q k) with
        state := update s.state q .runnable }
    else some (s.goto p (.kill .release q k))
  | .release => some { s.goto p (.code k) with ptable := none }

/-- A process takes a step or picks its next call, or a scheduler takes `ptable.lock`, switches to
process `p` or releases the lock. -/
inductive Act (K : Type)
  | run (p : Slot)
  | pick (p : Slot) (k : K)
  | schedule
  | dispatch (p : Slot)
  | unschedule

def run (prog : Program L C K D) (s : State L C K D) (p : Slot) : Option (State L C K D) :=
  match s.point p with
  | .code k => instr s p (prog p k)
  | .sleep pc c l k => sleep s p c l k pc
  | .wakeup pc c k => wakeup s p c k pc
  | .kill pc q k => kill s p q k pc

def pick (prog : Program L C K D) (s : State L C K D) (p : Slot) (k : K) :
    Option (State L C K D) :=
  match s.point p with
  | .code k₀ =>
    match prog p k₀ with
    | .pick ok => if ok s.data k then some (s.goto p (.code k)) else none
    | _ => none
  | _ => none

def dispatch (s : State L C K D) (p : Slot) : Option (State L C K D) :=
  match s.point p with
  | .sleep .parked c l k =>
    if s.ptable = some .scheduler ∧ s.state p = .runnable then
      some { s.goto p (.sleep .clear c l k) with
        ptable := some (.proc p), state := update s.state p .running }
    else none
  | _ => none

def step (prog : Program L C K D) (s : State L C K D) : Act K → Option (State L C K D)
  | .run p => run prog s p
  | .pick p k => pick prog s p k
  | .schedule => if s.ptable = none then some { s with ptable := some .scheduler } else none
  | .dispatch p => dispatch s p
  | .unschedule =>
    if s.ptable = some .scheduler then some { s with ptable := none } else none

def system (prog : Program L C K D) (d : D) (entry : K) : Lts (State L C K D) (Act K) :=
  Lts.ofFun (· = State.start d entry) (step prog)

def State.Asleep (s : State L C K D) (p : Slot) (c : C) : Prop :=
  s.state p = .sleeping ∧ s.chan p = some c

end Step

end Xv6.Sleep
