import Xv6.Lib.Lts
import Xv6.Lib.Ring
import Xv6.Log.Group
import Mathlib.Data.List.FinRange

/-!
# The buffer cache

`bio.c`, the request queue of `ide.c`, and the calls `log.c` makes into them, run by any number
of processes.  A section that holds a spin lock is one step; between two such sections any other
process may run.

A process that stands in none of the functions is a client: it calls them in any order on any
blocks, modifies the contents of buffers it has locked, and logs or writes what it modified before
it releases the buffer.  `edited`, `last` and `asked` are history variables: whether a buffer was
modified and not yet logged or written, the contents last logged or written for each block, and the
block each process last asked `bread` for.

The disk serves its requests in order and without errors.
-/

namespace Xv6.Buf

open Function

/-- A pointer into `bcache.buf`. -/
abbrev Ptr := Fin nbuf

/-- A node of the list of buffers; `none` is `&bcache.head`. -/
abbrev Node := Option Ptr

/-- `struct buf`, without its list pointers. -/
structure Buffer (P D : Type) where
  valid : Bool
  dirty : Bool
  dev : Nat
  blockno : Nat
  lock : Option P
  refcnt : Nat
  data : D
  edited : Bool

/-- Where a process stands: outside, in `acquiresleep` at the end of `bget`, before `bread`'s test
of `B_VALID`, in `iderw` (called by `bread` or by `bwrite`), in `log_write` before it takes
`log.lock`, or in `brelse` after `releasesleep`. -/
inductive Pc
  | out
  | sleep (b : Ptr)
  | test (b : Ptr)
  | iderw (b : Ptr) (reading : Bool)
  | logWrite (b : Ptr)
  | unref (b : Ptr)
  deriving DecidableEq, Repr

/-- The statements of `commit()`.  The loops of `write_log` and `install_trans` carry `tail`;
buffers are named by the blocks they hold. -/
inductive Instr
  | writeLog (tail : Nat)
  | writeHead
  | installTrans (tail : Nat)
  | reset
  | bread (n : Nat)
  | move (dst src : Nat)
  | fill
  | bwrite (n : Nat)
  | brelse (n : Nat)
  deriving DecidableEq, Repr

/-- A process: `inOp` between `begin_op` and `end_op`, `code` while it runs `commit`. -/
structure Process where
  pc : Pc
  inOp : Bool
  code : Option (List Instr)
  deriving DecidableEq, Repr

inductive Panic
  | noBuffers
  | bwrite
  | brelse
  | notLocked
  | nothingToDo
  | incorrectBlockno
  | tooBigATransaction
  | logWriteOutsideOfTrans
  | logCommitting
  deriving DecidableEq, Repr

structure Bcache (P D : Type) where
  buf : Ptr → Buffer P D
  links : Links Node
  idequeue : List Ptr
  disk : Nat → D
  lh : List Nat
  outstanding : Nat
  committing : Bool
  proc : P → Process
  panic : Option Panic
  last : Nat → D
  asked : P → Nat

section Model

variable {P D : Type} [DecidableEq P]

def binitLoop : List Ptr → Links Node → Links Node
  | [], l => l
  | b :: bs, l => binitLoop bs (l.push none (some b))

def binit : Links Node := binitLoop (List.finRange nbuf) ⟨fun _ => none, fun _ => none⟩

def Buffer.zero (d : D) : Buffer P D := ⟨false, false, 0, 0, none, 0, d, false⟩

/-- After `binit`, with the disk contents `disk`. -/
def Bcache.initial (P : Type) (disk : Nat → D) : Bcache P D where
  buf _ := .zero (disk 0)
  links := binit
  idequeue := []
  disk := disk
  lh := []
  outstanding := 0
  committing := false
  proc _ := ⟨.out, false, none⟩
  panic := none
  last := disk
  asked _ := 0

def Bcache.goto (s : Bcache P D) (p : P) (pc : Pc) : Bcache P D :=
  { s with proc := update s.proc p { s.proc p with pc := pc } }

/-- Only the position counts, and `pr` stands where `p` does. -/
theorem update_pc {s : Bcache P D} {p : P} {pr : Process} (same : pr.pc = (s.proc p).pc) (q : P) :
    (update s.proc p pr q).pc = (s.proc q).pc := by
  rcases eq_or_ne q p with rfl | ne
  · rw [update_self, same]
  · rw [update_of_ne ne]

def Bcache.setCode (s : Bcache P D) (p : P) (code : List Instr) : Bcache P D :=
  { s with proc := update s.proc p { s.proc p with code := some code } }

theorem Bcache.setCode_pc (s : Bcache P D) (p : P) (code : List Instr) (q : P) :
    ((s.setCode p code).proc q).pc = (s.proc q).pc := by
  refine update_pc (s := s) (p := p) ?_ q
  rfl

def Bcache.setBuf (s : Bcache P D) (b : Ptr) (x : Buffer P D) : Bcache P D :=
  { s with buf := update s.buf b x }

def Bcache.ask (s : Bcache P D) (p : P) (n : Nat) : Bcache P D :=
  { s with asked := update s.asked p n }

def Bcache.stop (s : Bcache P D) (why : Panic) : Bcache P D := { s with panic := some why }

/-! ## `bio.c` and `ide.c` -/

def Bcache.caches (s : Bcache P D) (dev n : Nat) : Node → Bool
  | none => false
  | some b => (s.buf b).dev = dev ∧ (s.buf b).blockno = n

/-- The test of `bget`'s second loop.  Even if `refcnt` is 0, `B_DIRTY` indicates a buffer is in
use because `log.c` has modified it but not yet committed it. -/
def Bcache.unused (s : Bcache P D) : Node → Bool
  | none => false
  | some b => (s.buf b).refcnt = 0 ∧ (s.buf b).dirty = false

/-- `bget` up to the release of `bcache.lock`.  There is no step from a loop that does not end. -/
def bget (s : Bcache P D) (p : P) (dev n : Nat) : Option (Bcache P D) :=
  match Links.walk s.links.next none (s.caches dev n) (nbuf + 1) (s.links.next none) with
  | some (some (some b)) =>
    some (((s.ask p n).setBuf b { s.buf b with refcnt := (s.buf b).refcnt + 1 }).goto p (.sleep b))
  | some none =>
    -- not cached; recycle an unused buffer
    match Links.walk s.links.prev none s.unused (nbuf + 1) (s.links.prev none) with
    | some (some (some b)) =>
      some (((s.ask p n).setBuf b { s.buf b with
        dev := dev, blockno := n, valid := false, dirty := false, refcnt := 1 }).goto p (.sleep b))
    | some none => some ((s.ask p n).stop .noBuffers)
    | _ => none
  | _ => none

def acquiresleep (s : Bcache P D) (p : P) : Option (Bcache P D) :=
  match (s.proc p).pc with
  | .sleep b =>
    match (s.buf b).lock with
    | none => some ((s.setBuf b { s.buf b with lock := some p }).goto p (.test b))
    | some _ => none
  | _ => none

/-- `idestart`.  The controller takes the contents of a block it is to write at once. -/
def idestart (s : Bcache P D) (b : Ptr) : Bcache P D :=
  if (s.buf b).blockno ≥ fsSize then s.stop .incorrectBlockno
  else if (s.buf b).dirty then
    { s with disk := update s.disk (s.buf b).blockno (s.buf b).data }
  else s

/-- `iderw` up to its loop. -/
def iderw (s : Bcache P D) (p : P) (b : Ptr) (reading : Bool) : Bcache P D :=
  if (s.buf b).lock ≠ some p then s.stop .notLocked
  else if (s.buf b).valid ∧ (s.buf b).dirty = false then s.stop .nothingToDo
  else
    let s' := { s with idequeue := s.idequeue ++ [b] }.goto p (.iderw b reading)
    -- start disk if necessary
    match s.idequeue with
    | [] => idestart s' b
    | _ :: _ => s'

theorem iderw_ite (s : Bcache P D) (p : P) (b : Ptr) (reading : Bool) :
    iderw s p b reading = if (s.buf b).lock ≠ some p then s.stop .notLocked
      else if (s.buf b).valid ∧ (s.buf b).dirty = false then s.stop .nothingToDo
      else if s.idequeue = [] then
        idestart ({ s with idequeue := s.idequeue ++ [b] }.goto p (.iderw b reading)) b
      else { s with idequeue := s.idequeue ++ [b] }.goto p (.iderw b reading) := by
  unfold iderw
  dsimp only
  split
  · rfl
  · split
    · rfl
    · split <;> rename_i found <;> simp [found]

/-- The loop at the end of `iderw`, and the return to the caller. -/
def iderwWait (s : Bcache P D) (p : P) : Option (Bcache P D) :=
  match (s.proc p).pc with
  | .iderw b _ =>
    if (s.buf b).valid ∧ (s.buf b).dirty = false then some (s.goto p .out) else none
  | _ => none

/-- `bread` after `bget`. -/
def breadTest (s : Bcache P D) (p : P) : Option (Bcache P D) :=
  match (s.proc p).pc with
  | .test b => if (s.buf b).valid then some (s.goto p .out) else some (iderw s p b true)
  | _ => none

def ideintr (s : Bcache P D) : Option (Bcache P D) :=
  match s.idequeue with
  | [] => none
  | b :: rest =>
    let x := s.buf b
    let data := if x.dirty then x.data else s.disk x.blockno
    let s' := { s with idequeue := rest }.setBuf b
      { x with data := data, valid := true, dirty := false }
    -- start disk on next buf in queue
    match rest with
    | [] => some s'
    | c :: _ => some (idestart s' c)

def edit (s : Bcache P D) (b : Ptr) (d : D) : Bcache P D :=
  s.setBuf b { s.buf b with data := d, edited := true }

/-- `bwrite` up to `iderw`'s loop. -/
def bwrite (s : Bcache P D) (p : P) (b : Ptr) : Bcache P D :=
  if (s.buf b).lock ≠ some p then s.stop .bwrite
  else
    iderw { s.setBuf b { s.buf b with dirty := true, edited := false } with
      last := update s.last (s.buf b).blockno (s.buf b).data } p b false

/-- `brelse` up to `releasesleep`. -/
def brelse (s : Bcache P D) (p : P) (b : Ptr) : Bcache P D :=
  if (s.buf b).lock ≠ some p then s.stop .brelse
  else (s.setBuf b { s.buf b with lock := none }).goto p (.unref b)

/-- The section of `brelse` that holds `bcache.lock`. -/
def brelseUnref (s : Bcache P D) (p : P) : Option (Bcache P D) :=
  match (s.proc p).pc with
  | .unref b =>
    let s' := (s.setBuf b { s.buf b with refcnt := (s.buf b).refcnt - 1 }).goto p .out
    if (s.buf b).refcnt - 1 = 0 then
      -- no one is waiting for it
      some { s' with links := (s.links.unlink (some b)).push none (some b) }
    else some s'
  | _ => none

/-! ## `log.c` -/

/-- The tests at the head of `log_write`. -/
def logWriteTest (g : Log.Geometry) (s : Bcache P D) (p : P) (b : Ptr) : Bcache P D :=
  if s.lh.length ≥ logSize ∨ (s.lh.length : Int) ≥ (g.size : Int) - 1 then
    s.stop .tooBigATransaction
  else if s.outstanding < 1 then s.stop .logWriteOutsideOfTrans
  else s.goto p (.logWrite b)

/-- The section of `log_write` that holds `log.lock`. -/
def logWriteAppend (s : Bcache P D) (p : P) : Option (Bcache P D) :=
  match (s.proc p).pc with
  | .logWrite b =>
    some { (s.setBuf b { s.buf b with dirty := true, edited := false }).goto p .out with
      lh := Log.absorb s.lh (s.buf b).blockno
      last := update s.last (s.buf b).blockno (s.buf b).data }
  | _ => none

def beginOp (s : Bcache P D) (p : P) : Option (Bcache P D) :=
  if s.committing then none
  else if s.lh.length + (s.outstanding + 1) * maxOpBlocks > logSize then none
  else some { s with
    outstanding := s.outstanding + 1
    proc := update s.proc p { s.proc p with inOp := true } }

def commit (lh : List Nat) : List Instr :=
  if lh.length > 0 then [.writeLog 0, .writeHead, .installTrans 0, .reset, .writeHead] else []

/-- The first critical section of `end_op`. -/
def endOp (s : Bcache P D) (p : P) : Bcache P D :=
  let pr := { s.proc p with inOp := false }
  let s' := { s with
    outstanding := s.outstanding - 1
    proc := update s.proc p pr }
  if s.committing then s'.stop .logCommitting
  else if s.outstanding - 1 = 0 then { s' with
    committing := true
    proc := update s.proc p { pr with code := some (commit s.lh) } }
  else s'

def Bcache.held (s : Bcache P D) (p : P) (n : Nat) : Option Ptr :=
  (List.finRange nbuf).find? fun b =>
    (s.buf b).lock = some p ∧ (s.buf b).dev = rootDev ∧ (s.buf b).blockno = n

/-- One statement of `commit()`, before the statements `rest`.  `header` stores the in-memory log
header into the contents of the header block. -/
def execute (g : Log.Geometry) (header : List Nat → D → D) (s : Bcache P D) (p : P)
    (i : Instr) (rest : List Instr) : Option (Bcache P D) :=
  match i with
  | .writeLog tail =>
    match s.lh[tail]? with
    | none => some (s.setCode p rest)
    | some n =>
      let lbuf := g.start + tail + 1
      some (s.setCode p (.bread lbuf :: .bread n :: .move lbuf n :: .bwrite lbuf :: .brelse n ::
        .brelse lbuf :: .writeLog (tail + 1) :: rest))
  | .writeHead =>
    some (s.setCode p (.bread g.start :: .fill :: .bwrite g.start :: .brelse g.start :: rest))
  | .installTrans tail =>
    match s.lh[tail]? with
    | none => some (s.setCode p rest)
    | some n =>
      let lbuf := g.start + tail + 1
      some (s.setCode p (.bread lbuf :: .bread n :: .move n lbuf :: .bwrite n :: .brelse lbuf ::
        .brelse n :: .installTrans (tail + 1) :: rest))
  | .reset => some { s.setCode p rest with lh := [] }
  | .bread n => bget (s.setCode p rest) p rootDev n
  | .move dst src =>
    match s.held p dst, s.held p src with
    | some b, some c => some (edit (s.setCode p rest) b (s.buf c).data)
    | _, _ => none
  | .fill =>
    match s.held p g.start with
    | some b => some (edit (s.setCode p rest) b (header s.lh (s.buf b).data))
    | none => none
  | .bwrite n =>
    match s.held p n with
    | some b => some (bwrite (s.setCode p rest) p b)
    | none => none
  | .brelse n =>
    match s.held p n with
    | some b => some (brelse (s.setCode p rest) p b)
    | none => none

/-- The process that runs `commit` goes on, or leaves `end_op` when there is nothing left. -/
def commitStep (g : Log.Geometry) (header : List Nat → D → D) (s : Bcache P D) (p : P) :
    Option (Bcache P D) :=
  match (s.proc p).code with
  | some (i :: rest) => execute g header s p i rest
  | some [] => some { s with
      committing := false
      proc := update s.proc p { s.proc p with code := none } }
  | none => none

/-! ## The system -/

/-- What can happen next: a call of a client, the rest of such a call, the next statement of
`commit`, or an interrupt from the disk. -/
inductive Act (P D : Type)
  | bread (p : P) (n : Nat)
  | acquire (p : P)
  | test (p : P)
  | wake (p : P)
  | edit (p : P) (b : Ptr) (d : D)
  | logWrite (p : P) (b : Ptr)
  | append (p : P)
  | bwrite (p : P) (b : Ptr)
  | brelse (p : P) (b : Ptr)
  | unref (p : P)
  | beginOp (p : P)
  | endOp (p : P)
  | commit (p : P)
  | intr

/-- `p` may call: it stands in none of the functions and does not run `commit`. -/
def Bcache.Client (s : Bcache P D) (p : P) : Prop :=
  (s.proc p).pc = .out ∧ (s.proc p).code = none

instance (s : Bcache P D) (p : P) : Decidable (s.Client p) := inferInstanceAs (Decidable (_ ∧ _))

/-- One step of the system.  Clients modify, log and release only buffers they have locked, log
inside an operation, release what they modified only after they logged or wrote it, and end an
operation only after they released their buffers. -/
def step (g : Log.Geometry) (header : List Nat → D → D) (s : Bcache P D) (a : Act P D) :
    Option (Bcache P D) :=
  if s.panic.isSome then none
  else match a with
    | .bread p n => if s.Client p then bget s p rootDev n else none
    | .acquire p => acquiresleep s p
    | .test p => breadTest s p
    | .wake p => iderwWait s p
    | .edit p b d =>
      if s.Client p ∧ (s.buf b).lock = some p then some (edit s b d) else none
    | .logWrite p b =>
      if s.Client p ∧ (s.buf b).lock = some p ∧ (s.proc p).inOp then
        some (logWriteTest g s p b) else none
    | .append p => logWriteAppend s p
    | .bwrite p b => if s.Client p then some (bwrite s p b) else none
    | .brelse p b =>
      if s.Client p ∧ (s.buf b).edited = false then some (brelse s p b) else none
    | .unref p => brelseUnref s p
    | .beginOp p => if s.Client p ∧ (s.proc p).inOp = false then beginOp s p else none
    | .endOp p =>
      if s.Client p ∧ (s.proc p).inOp ∧ ∀ b, (s.buf b).lock ≠ some p then some (endOp s p)
      else none
    | .commit p => if (s.proc p).pc = .out then commitStep g header s p else none
    | .intr => ideintr s

/-- The cache of the disk `disk`, whose log has the geometry `g`, shared by the processes `P`. -/
def bcache (P : Type) [DecidableEq P] (g : Log.Geometry) (header : List Nat → D → D)
    (disk : Nat → D) : Lts (Bcache P D) (Act P D) :=
  Lts.ofFun (· = Bcache.initial P disk) (step g header)

end Model

end Xv6.Buf
