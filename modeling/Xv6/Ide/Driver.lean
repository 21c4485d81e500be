import Xv6.Param
import Xv6.Lib.Lts
import Xv6.Lib.Queue

/-!
# The disk drivers

`ide.c`: the queue of requests, `idestart`, `ideintr` and `iderw`, with a controller that carries
out one command at a time and raises an interrupt when it is done.  And `memide.c`, the driver for
a disk in memory that the build can use in its place.

A section that holds `idelock` is one step.  A process that sleeps in `iderw` may go on at any time:
its loop tests the flags again.  What the rest of the kernel does to buffers is any change to a
buffer that nobody has locked, or whose holder is not in `iderw` (`edit`).

`mem`, `arrived` and `started` are history: the buffers and the disk as `memide.c` would have them
after the same requests, if it did not panic; the requests; and the commands given to the
controller.
-/

namespace Xv6.Ide

open Function

abbrev Ptr := Fin nbuf

/-- The fields of `struct buf` that the drivers use, but for the lock and `qnext`. -/
structure Buffer (D : Type) where
  valid : Bool
  dirty : Bool
  dev : Nat
  blockno : Nat
  data : D
  deriving DecidableEq

/-- `(b->flags & (B_VALID|B_DIRTY)) == B_VALID`. -/
def Buffer.Done {D : Type} (b : Buffer D) : Prop := b.valid = true ∧ b.dirty = false

instance {D : Type} (b : Buffer D) : Decidable b.Done := inferInstanceAs (Decidable (_ ∧ _))

inductive Panic
  | notLocked
  | nothingToDo
  | disk1NotPresent
  | incorrectBlockno
  | notDisk1
  | outOfRange
  deriving DecidableEq, Repr

/-! ## `memide.c` -/

structure Mem (D : Type) where
  buf : Ptr → Buffer D
  disk : Nat → D

namespace Mem

variable {D : Type}

/-- `iderw` of `memide.c` after its tests. -/
def transfer (m : Mem D) (b : Ptr) : Mem D :=
  let x := m.buf b
  if x.dirty then
    ⟨update m.buf b { x with dirty := false, valid := true },
      update m.disk x.blockno x.data⟩
  else ⟨update m.buf b { x with data := m.disk x.blockno, valid := true }, m.disk⟩

/-- `iderw` of `memide.c`; `locked` is what `holdingsleep` returns, and `disksize` is the number of
blocks of the image. -/
def iderw (m : Mem D) (locked : Bool) (b : Ptr) : Except Panic (Mem D) :=
  if locked = false then .error .notLocked
  else if (m.buf b).Done then .error .nothingToDo
  else if (m.buf b).dev ≠ 1 then .error .notDisk1
  else if (m.buf b).blockno ≥ fsSize then .error .outOfRange
  else .ok (m.transfer b)

end Mem

/-! ## The controller -/

structure Regs where
  r1f2 : BitVec 8
  r1f3 : BitVec 8
  r1f4 : BitVec 8
  r1f5 : BitVec 8
  r1f6 : BitVec 8

def Regs.sector (r : Regs) : Nat :=
  r.r1f3.toNat + r.r1f4.toNat * 2 ^ 8 + r.r1f5.toNat * 2 ^ 16 + r.r1f6.toNat % 16 * 2 ^ 24

def Regs.drive (r : Regs) : Bool := r.r1f6.getLsbD 4

/-- The controller: it has nothing to do, it has a command, or it has raised the interrupt of one,
with the data of a read. -/
inductive Ctl (D : Type)
  | idle
  | read (drive : Bool) (sector : Nat)
  | write (drive : Bool) (sector : Nat) (data : D)
  | done (data : Option D)

/-- `insl(0x1f0, ..)`: without data, the buffer gets nothing. -/
def Ctl.insl {D : Type} (data : D) : Ctl D → D
  | .done (some d) => d
  | _ => data

/-! ## `ide.c` -/

structure State (P D : Type) where
  buf : Ptr → Buffer D
  lock : Ptr → Option P
  queue : Queue Ptr
  ctl : Ctl D
  disk : Bool → Nat → D
  havedisk1 : Bool
  call : P → Option Ptr
  panic : Option Panic
  mem : Option (Mem D)
  arrived : List Ptr
  started : List Ptr

section Driver

variable {P D : Type} [DecidableEq P]

def sectorPerBlock : Nat := bsize / 512

def regs (dev sector : Nat) : Regs where
  r1f2 := BitVec.ofNat 8 sectorPerBlock
  r1f3 := BitVec.ofNat 8 (sector &&& 0xff)
  r1f4 := BitVec.ofNat 8 (sector >>> 8 &&& 0xff)
  r1f5 := BitVec.ofNat 8 (sector >>> 16 &&& 0xff)
  r1f6 := BitVec.ofNat 8 (0xe0 ||| (dev &&& 1) <<< 4 ||| (sector >>> 24 &&& 0x0f))

/-- `idestart`.  There is no step from `idewait` while the controller is busy. -/
def idestart (s : State P D) (b : Ptr) : Option (State P D) :=
  let x := s.buf b
  if x.blockno ≥ fsSize then some { s with panic := some .incorrectBlockno }
  else
    match s.ctl with
    | .read .. | .write .. => none
    | .idle | .done _ =>
      let r := regs x.dev (x.blockno * sectorPerBlock)
      some { s with
        ctl := if x.dirty then .write r.drive r.sector x.data else .read r.drive r.sector
        started := s.started ++ [b] }

def ideintr (s : State P D) : Option (State P D) :=
  match s.queue.head with
  | none => some { s with ctl := .idle }
  | some b =>
    let x := s.buf b
    let s' := { s with
      queue := { s.queue with head := s.queue.next b }
      buf := update s.buf b { x with
        data := if x.dirty then x.data else s.ctl.insl x.data
        valid := true
        dirty := false }
      ctl := .idle }
    -- start disk on next buf in queue
    match s'.queue.head with
    | none => some s'
    | some c => idestart s' c

def State.request (s : State P D) (p : P) (b : Ptr) : Option (Mem D) :=
  match s.mem with
  | none => none
  | some m => (m.iderw (s.lock b = some p) b).toOption

/-- `iderw` up to its loop, called by `p`. -/
def iderw (s : State P D) (p : P) (b : Ptr) : Option (State P D) :=
  let s := { s with mem := s.request p b }
  if s.lock b ≠ some p then some { s with panic := some .notLocked }
  else if (s.buf b).Done then some { s with panic := some .nothingToDo }
  else if (s.buf b).dev ≠ 0 ∧ s.havedisk1 = false then
    some { s with panic := some .disk1NotPresent }
  else
    match s.queue.append (nbuf + 1) b with
    | none => none
    | some queue =>
      let s' := { s with
        queue := queue
        call := update s.call p (some b)
        arrived := s.arrived ++ [b] }
      -- start disk if necessary
      if queue.head = some b then idestart s' b else some s'

def iderwWait (s : State P D) (p : P) : Option (State P D) :=
  match s.call p with
  | none => none
  | some b =>
    if (s.buf b).Done then some { s with call := update s.call p none } else none

def device (s : State P D) : Option (State P D) :=
  match s.ctl with
  | .read drive n => some { s with ctl := .done (some (s.disk drive n)) }
  | .write drive n d => some { s with
      ctl := .done none
      disk := update s.disk drive (update (s.disk drive) n d) }
  | .idle | .done _ => none

inductive Act (P D : Type)
  /-- `acquiresleep(&b->lock)` and `releasesleep(&b->lock)`. -/
  | lock (p : P) (b : Ptr)
  | unlock (p : P) (b : Ptr)
  /-- Any change to a buffer. -/
  | edit (b : Ptr) (x : Buffer D)
  | iderw (p : P) (b : Ptr)
  | wait (p : P)
  | device
  /-- An interrupt: one for each command, or a spurious one while the queue is empty. -/
  | intr

/-- No process is in `iderw` with a buffer that somebody else may use. -/
def State.free (s : State P D) (b : Ptr) : Bool :=
  match s.lock b with
  | none => true
  | some p => (s.call p).isNone

def step (s : State P D) : Act P D → Option (State P D)
  | .lock p b =>
    if s.lock b = none then some { s with lock := update s.lock b (some p) } else none
  | .unlock p b =>
    if s.lock b = some p ∧ s.call p = none then
      some { s with lock := update s.lock b none }
    else none
  | .edit b x =>
    if s.free b then some { s with
      buf := update s.buf b x
      mem := s.mem.map fun m => { m with buf := update m.buf b x } }
    else none
  | .iderw p b => if s.call p = none then iderw s p b else none
  | .wait p => iderwWait s p
  | .device => device s
  | .intr =>
    match s.ctl, s.queue.head with
    | .done _, _ => ideintr s
    | .idle, none => ideintr s
    | _, _ => none

def stepLive (s : State P D) (a : Act P D) : Option (State P D) :=
  if s.panic = none then step s a else none

structure Initial (s : State P D) : Prop where
  lock : ∀ b, s.lock b = none
  queue : s.queue.head = none
  ctl : s.ctl = .idle
  call : ∀ p, s.call p = none
  panic : s.panic = none
  mem : s.mem = some ⟨s.buf, s.disk true⟩
  arrived : s.arrived = []
  started : s.started = []

def ide (P D : Type) [DecidableEq P] : Lts (State P D) (Act P D) := .ofFun Initial stepLive

end Driver

end Xv6.Ide
