import Xv6.Lib.Fifo
import Xv6.Sched.Outline

/-!
# Pipes

`pipewrite`, `piperead` and `pipeclose` over the statements of `Sched/Sleep.lean`, run by any number
of processes that have descriptors for the two ends of one pipe.  Each test and each store is a
step; `kill` may hit a process between any two of them.

`fds` counts the descriptors of each process, for the write end and for the read end.  A process
reads or writes only through a descriptor of its own, descriptors are passed on by `fork` and
`dup`, and the last `close` of an end calls `pipeclose`.  This is the part of `file.c` that
decides when `pipeclose` runs.

`stored`, `taken` and `returned` are history: all bytes put into the pipe, all bytes read from it,
each with the process that read it, and of each process the buffers that its calls of `piperead`
have filled, up to the last one that returned.
-/

namespace Xv6.Pipe

open Sched (Slot)
open Sleep (Program Instr)

abbrev Byte := BitVec 8

abbrev pipeSize : Nat := 512

instance : NeZero pipeSize := ⟨by decide⟩

/-- `struct pipe`; `ring` has its fields `data`, `nread` and `nwrite`. -/
structure Pipe where
  ring : Fifo 32 pipeSize Byte
  readopen : Bool
  writeopen : Bool

def Pipe.isOpen (p : Pipe) (writable : Bool) : Bool := if writable then p.writeopen else p.readopen

structure Shared where
  pipe : Pipe
  fds : Bool → Slot → Nat
  stored : List Byte
  taken : List (Slot × Byte)
  returned : Slot → List (List Byte)
  freed : Bool

/-- The bytes that process `p` has read, in this order. -/
def Shared.takenBy (d : Shared) (p : Slot) : List Byte := (d.taken.filter (·.1 = p)).map Prod.snd

def Shared.init (fds : Bool → Slot → Nat) : Shared where
  pipe := ⟨⟨fun _ => 0, 0, 0⟩, true, true⟩
  fds := fds
  stored := []
  taken := []
  returned _ := []
  freed := false

inductive Chan
  | nread
  | nwrite
  deriving DecidableEq, Repr

inductive WritePc
  | acquire
  | loop
  | full
  | check
  | tell
  | sleep
  | store
  | wake
  | release
  | fail
  deriving DecidableEq, Repr

inductive ReadPc
  | acquire
  | empty
  | check
  | sleep
  | loop
  | test
  | take
  | wake
  | release
  | ret
  | fail
  deriving DecidableEq, Repr

inductive ClosePc
  | acquire
  | clear
  | wake
  | test
  | release
  | freeRelease
  | free
  deriving DecidableEq, Repr

/-- Where a process is.  `addr` and `i` are those of `pipewrite`, and `told` is history: the value
of `i` at its last `wakeup(&p->nread)`.  `n` is that of `piperead`, and `got` the bytes it has
copied so far.  `drop`, `dup` and `fork` are the uses of the descriptors. -/
inductive Pc
  | idle (ret : Int)
  | write (pc : WritePc) (addr : List Byte) (i told : Nat)
  | read (pc : ReadPc) (n : Nat) (got : List Byte)
  | close (writable : Bool) (pc : ClosePc)
  | drop (writable : Bool)
  | dup (writable : Bool)
  | fork (q : Slot)
  | kill (q : Slot)
  deriving DecidableEq, Repr

/-- Process `p` may make the call that starts at this point. -/
def Pc.startable (d : Shared) (p : Slot) : Pc → Bool
  | .write .acquire _ 0 0 => 0 < d.fds true p
  | .read .acquire _ [] => 0 < d.fds false p
  | .drop w | .dup w => 0 < d.fds w p
  | .fork _ | .kill _ => true
  | _ => false

def Shared.setFds (d : Shared) (w : Bool) (p : Slot) (n : Nat) : Shared :=
  { d with fds := fun w' q => if w' = w ∧ q = p then n else d.fds w' q }

def pipewrite (addr : List Byte) (i told : Nat) : WritePc → Instr Unit Chan Pc Shared
  | .acquire => .acquire () (.write .loop addr i told)
  | .loop => .act fun d _ => (d, .write (if i < addr.length then .full else .wake) addr i told)
  | .full => .act fun d _ => (d, .write (if d.pipe.ring.Full then .check else .store) addr i told)
  | .check => .act fun d killed =>
    (d, .write (if d.pipe.readopen = false ∨ killed then .fail else .tell) addr i told)
  | .tell => .wakeup .nread (.write .sleep addr i i)
  | .sleep => .sleep .nwrite () (.write .full addr i told)
  | .store => .act fun d _ =>
    ({ d with
        pipe := { d.pipe with ring := d.pipe.ring.push (addr.getD i 0) }
        stored := d.stored ++ [addr.getD i 0] },
      .write .loop addr (i + 1) told)
  | .wake => .wakeup .nread (.write .release addr i i)
  | .release => .release () (.idle addr.length)
  | .fail => .release () (.idle (-1))

def piperead (p : Slot) (n : Nat) (got : List Byte) : ReadPc → Instr Unit Chan Pc Shared
  | .acquire => .acquire () (.read .empty n got)
  | .empty => .act fun d _ =>
    (d, .read (if d.pipe.ring.Empty ∧ d.pipe.writeopen = true then .check else .loop) n got)
  | .check => .act fun d killed => (d, .read (if killed then .fail else .sleep) n got)
  | .sleep => .sleep .nread () (.read .empty n got)
  | .loop => .act fun d _ => (d, .read (if got.length < n then .test else .wake) n got)
  | .test => .act fun d _ => (d, .read (if d.pipe.ring.Empty then .wake else .take) n got)
  | .take => .act fun d _ =>
    ({ d with
        pipe := { d.pipe with ring := d.pipe.ring.pop }
        taken := d.taken ++ [(p, d.pipe.ring.head)] },
      .read .loop n (got ++ [d.pipe.ring.head]))
  | .wake => .wakeup .nwrite (.read .release n got)
  | .release => .release () (.read .ret n got)
  | .ret => .act fun d _ =>
    ({ d with returned := Function.update d.returned p (d.returned p ++ [got]) }, .idle got.length)
  | .fail => .release () (.idle (-1))

def pipeclose (writable : Bool) : ClosePc → Instr Unit Chan Pc Shared
  | .acquire => .acquire () (.close writable .clear)
  | .clear => .act fun d _ =>
    ({ d with pipe :=
        if writable then { d.pipe with writeopen := false }
        else { d.pipe with readopen := false } },
      .close writable .wake)
  | .wake => .wakeup (if writable then .nread else .nwrite) (.close writable .test)
  | .test => .act fun d _ =>
    (d, .close writable
      (if d.pipe.readopen = false ∧ d.pipe.writeopen = false then .freeRelease else .release))
  | .release => .release () (.idle 0)
  | .freeRelease => .release () (.close writable .free)
  | .free => .act fun d _ => ({ d with freed := true }, .idle 0)

def pipes : Program Unit Chan Pc Shared := fun p pc =>
  match pc with
  | .idle _ => .pick fun d k => k.startable d p
  | .write pc addr i told => pipewrite addr i told pc
  | .read pc n got => piperead p n got pc
  | .close writable pc => pipeclose writable pc
  | .drop w => .act fun d _ =>
    let d' := d.setFds w p (d.fds w p - 1)
    (d', if ∀ q, d'.fds w q = 0 then .close w .acquire else .idle 0)
  | .dup w => .act fun d _ => (d.setFds w p (d.fds w p + 1), .idle 0)
  | .fork q => .act fun d _ =>
    -- the new process has no descriptors yet
    if d.fds true q = 0 ∧ d.fds false q = 0 then
      ({ d with fds := fun w r => if r = q then d.fds w p else d.fds w r }, .idle 0)
    else (d, .idle (-1))
  | .kill q => .kill q (.idle 0)

abbrev State := Sleep.State Unit Chan Pc Shared

def system (fds : Bool → Slot → Nat) : Lts State (Sleep.Act Pc) :=
  Sleep.system pipes (.init fds) (.idle 0)

end Xv6.Pipe
