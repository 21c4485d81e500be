import Xv6.Lib.Lts
import Xv6.Param
import Mathlib.Logic.Function.Basic

/-!
# The in-memory log under concurrent operations

`begin_op`, `log_write`, `end_op` and `commit` of `log.c`, run by any number of processes.  A
section that holds `log.lock` is one step.  What runs without the lock is cut into steps of its own:
the two tests at the head of `log_write`, and every disk write of `commit`.  `cur`, `history`,
`copied` and `committed` are history variables.
-/

namespace Xv6.Log

abbrev BlockNo := Nat

/-- `log.start` and `log.size`, as `initlog` reads them from the superblock. -/
structure Geometry where
  start : Nat
  size : Nat

/-- Program counter inside `commit()` and the last critical section of `end_op`. -/
inductive CommitPc
  | test
  | writeLog (tail : Nat)
  | writeHead
  | installTrans (tail : Nat)
  | reset
  | clearHead
  | finish
  deriving DecidableEq, Repr

/-- Where a process stands with respect to the log.

`out` is a process outside any operation, in particular one about to run the body
of `begin_op`'s loop.  `inOp` and `logWrite` are inside the operation numbered
`op`, which has logged the blocks `logged`; `logWrite` has passed `log_write`'s
unlocked tests for block `b` and has not yet taken the lock. -/
inductive Pc
  | out
  | asleep
  | inOp (op : Nat) (logged : List BlockNo)
  | logWrite (op : Nat) (logged : List BlockNo) (b : BlockNo)
  | commit (pc : CommitPc)
  deriving DecidableEq, Repr

inductive Panic
  | tooBigATransaction
  | logWriteOutsideOfTrans
  | logCommitting
  deriving DecidableEq, Repr

/-- A transaction whose header was written: the block numbers in the header, the
blocks `write_log` had copied to the log by then, and the `log_write` calls, each
with the operation that made it. -/
structure Txn where
  blocks : List BlockNo
  copied : List BlockNo
  writes : List (Nat × BlockNo)
  deriving DecidableEq, Repr

/-- The struct `log` and the processes using it.  `lh` is `log.lh.block[0..n)`. -/
structure LogState (P : Type) where
  outstanding : Int
  committing : Bool
  lh : List BlockNo
  procs : P → Pc
  panic : Option Panic
  nextOp : Nat
  cur : List (Nat × BlockNo)
  history : List (Nat × BlockNo)
  copied : List BlockNo
  committed : List Txn

/-- The log after `initlog`: nothing outstanding, header cleared by recovery. -/
def LogState.initial (P : Type) : LogState P where
  outstanding := 0
  committing := false
  lh := []
  procs := fun _ => .out
  panic := none
  nextOp := 0
  cur := []
  history := []
  copied := []
  committed := []

/-- `log_write`'s scan of `log.lh.block`: stop at the first entry equal to `b`,
store `b` there, and extend the array when the scan ran off its end. -/
def absorb : List BlockNo → BlockNo → List BlockNo
  | [], b => [b]
  | x :: xs, b => if x = b then b :: xs else x :: absorb xs b

@[simp] theorem mem_absorb {l : List BlockNo} {b c : BlockNo} :
    c ∈ absorb l b ↔ c ∈ l ∨ c = b := by
  induction l with
  | nil => simp [absorb]
  | cons x xs ih =>
    simp only [absorb]
    split
    · rename_i eq
      subst eq
      simp only [List.mem_cons]
      tauto
    · simp only [List.mem_cons, ih]
      tauto

/-- `wakeup(&log)`: the sleepers in `begin_op` go back to the head of its loop. -/
def wakeup {P : Type} (procs : P → Pc) : P → Pc := fun p =>
  match procs p with
  | .asleep => .out
  | pc => pc

/-- One step of one process.  `kill` wakes a process sleeping in `begin_op`. -/
inductive Act (P : Type)
  | beginOp (p : P)
  | kill (p : P)
  | test (p : P) (b : BlockNo)
  | append (p : P)
  | endOp (p : P)
  | commit (p : P)
  deriving Repr

section Step

variable {P : Type} [DecidableEq P]

def LogState.goto (s : LogState P) (p : P) (pc : Pc) : LogState P :=
  { s with procs := Function.update s.procs p pc }

/-- The body of `begin_op`'s loop, under `log.lock`. -/
def beginOp (s : LogState P) (p : P) : Option (LogState P) :=
  match s.procs p with
  | .out =>
    if s.committing then some (s.goto p .asleep)
    else if (s.lh.length : Int) + (s.outstanding + 1) * maxOpBlocks > logSize then
      -- this op might exhaust log space; wait for commit
      some (s.goto p .asleep)
    else
      some { s.goto p (.inOp s.nextOp []) with
        outstanding := s.outstanding + 1, nextOp := s.nextOp + 1 }
  | _ => none

/-- The two tests at the head of `log_write(b)`, made without the lock. -/
def logWriteTest (g : Geometry) (s : LogState P) (p : P) (b : BlockNo) : Option (LogState P) :=
  match s.procs p with
  | .inOp op logged =>
    if s.lh.length ≥ logSize ∨ (s.lh.length : Int) ≥ (g.size : Int) - 1 then
      some { s with panic := some .tooBigATransaction }
    else if s.outstanding < 1 then
      some { s with panic := some .logWriteOutsideOfTrans }
    else some (s.goto p (.logWrite op logged b))
  | _ => none

def logWriteAppend (s : LogState P) (p : P) : Option (LogState P) :=
  match s.procs p with
  | .logWrite op logged b =>
    some { s.goto p (.inOp op (absorb logged b)) with
      lh := absorb s.lh b, cur := s.cur ++ [(op, b)], history := s.history ++ [(op, b)] }
  | _ => none

def endOp (s : LogState P) (p : P) : Option (LogState P) :=
  match s.procs p with
  | .inOp _ _ =>
    if s.committing then
      some { s with outstanding := s.outstanding - 1, panic := some .logCommitting }
    else if s.outstanding - 1 = 0 then
      some { s.goto p (.commit .test) with
        outstanding := s.outstanding - 1, committing := true }
    else
      -- begin_op() may be waiting for log space
      some { s with
        outstanding := s.outstanding - 1
        procs := wakeup (Function.update s.procs p .out) }
  | _ => none

/-- The next step of the process running `commit()`; `finish` is the critical
section of `end_op` after it.  `write_head` is the step that commits. -/
def commitStep (s : LogState P) (p : P) : Option (LogState P) :=
  match s.procs p with
  | .commit .test =>
    if s.lh.length > 0 then some { s.goto p (.commit (.writeLog 0)) with copied := [] }
    else some (s.goto p (.commit .finish))
  | .commit (.writeLog tail) =>
    match s.lh[tail]? with
    | some b => some { s.goto p (.commit (.writeLog (tail + 1))) with copied := s.copied ++ [b] }
    | none => some (s.goto p (.commit .writeHead))
  | .commit .writeHead =>
    some { s.goto p (.commit (.installTrans 0)) with
      committed := s.committed ++ [⟨s.lh, s.copied, s.cur⟩] }
  | .commit (.installTrans tail) =>
    if tail < s.lh.length then some (s.goto p (.commit (.installTrans (tail + 1))))
    else some (s.goto p (.commit .reset))
  | .commit .reset => some { s.goto p (.commit .clearHead) with lh := [], cur := [] }
  | .commit .clearHead => some (s.goto p (.commit .finish))
  | .commit .finish =>
    some { s with committing := false, procs := wakeup (Function.update s.procs p .out) }
  | _ => none

/-- A process sleeping in `begin_op` is woken by `kill` and tests again. -/
def killWake (s : LogState P) (p : P) : Option (LogState P) :=
  match s.procs p with
  | .asleep => some (s.goto p .out)
  | _ => none

def step (g : Geometry) (s : LogState P) (a : Act P) : Option (LogState P) :=
  if s.panic.isSome then none
  else match a with
    | .beginOp p => beginOp s p
    | .kill p => killWake s p
    | .test p b => logWriteTest g s p b
    | .append p => logWriteAppend s p
    | .endOp p => endOp s p
    | .commit p => commitStep s p

def log (g : Geometry) (P : Type) [DecidableEq P] : Lts (LogState P) (Act P) :=
  Lts.ofFun (· = LogState.initial P) (step g)

theorem reachable_of_exec {g : Geometry} {s : LogState P} {acts : List (Act P)}
    (run : Lts.exec (step g) (fun _ => true) (LogState.initial P) acts = some s) :
    (log g P).Reachable s := by
  have start : (log g P).Reachable (LogState.initial P) := .init rfl
  exact start.of_exec (fun _ _ _ _ step _ => step) run

end Step

end Xv6.Log
