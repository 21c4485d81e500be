import Xv6.Lib.Lts
import Xv6.Lib.Words
import Xv6.Lib.Writes
import Xv6.Log.Group

/-!
# The on-disk log: commit, crash and recovery

The disk side of `log.c`, one block write a step: `write_log`, `write_head`, `install_trans` and
`recover_from_log`, with a crash possible between any two writes.  `view` is what `bread` returns:
the cached block, or the disk block when it is not cached.  A crash loses it.

`base` and `committed` are history variables: the contents found at the first boot, and
the transactions whose header write reached the disk.
-/

namespace Xv6.Log

/-- A disk block: `BSIZE` bytes, read as words by the log header. -/
abbrev Block := Words.Page 128

abbrev Disk := Nat → Block

/-! ## The header block -/

/-- The `i`-th `int` of a block, as the cast to `struct logheader *` reads it. -/
def hdrInt (b : Block) (i : Nat) : BitVec 32 := b.word i

def setHdrInt (b : Block) (i : Nat) (w : BitVec 32) : Block := b.setWord i w

/-- `read_head`: the `n` block numbers of a header.  The loop bound `n` is a signed
`int`, so a negative one reads nothing. -/
def readHead (b : Block) : List BlockNo :=
  (List.range (hdrInt b 0).toInt.toNat).map fun i => (hdrInt b (i + 1)).toNat

def storeBlocks (b : Block) (i : Nat) : List BlockNo → Block
  | [] => b
  | x :: xs => storeBlocks (setHdrInt b (i + 1) (BitVec.ofNat 32 x)) (i + 1) xs

/-- `write_head`: store `n` and the first `n` block numbers, keep the rest. -/
def writeHead (b : Block) (lh : List BlockNo) : Block :=
  storeBlocks (setHdrInt b 0 (BitVec.ofNat 32 lh.length)) 0 lh

/-! ## Steps -/

/-- What the kernel is doing with the log; `off` is a machine that has crashed or not
booted yet. -/
inductive Mode
  | off
  | recInstall (lh : List BlockNo) (tail : Nat)
  | recClear
  | idle
  | writeLog (lh : List BlockNo) (tail : Nat)
  | writeHead (lh : List BlockNo)
  | install (lh : List BlockNo) (tail : Nat)
  | clear
  deriving DecidableEq

structure DiskState where
  disk : Disk
  view : Disk
  mode : Mode
  base : Disk
  committed : List (List (BlockNo × Block))

/-- `commit` starts `commit()` on the blocks `lh`, whose cached contents the operations
of the group have set to `data`; `write` is the next block write. -/
inductive DiskAct
  | crash
  | boot
  | commit (lh : List BlockNo) (data : Disk)
  | write

/-- Modify a cached block and write it through, as `bwrite` does. -/
def DiskState.bwrite (s : DiskState) (b : BlockNo) (x : Block) (mode : Mode) : DiskState :=
  { s with disk := Function.update s.disk b x, view := Function.update s.view b x, mode := mode }

/-- The next block write of `commit()` or of `recover_from_log()`. -/
def blockWrite (g : Geometry) (s : DiskState) : Option DiskState :=
  match s.mode with
  | .recInstall lh tail =>
    match lh[tail]? with
    | some b => some (s.bwrite b (s.view (g.start + tail + 1)) (.recInstall lh (tail + 1)))
    | none => some { s with mode := .recClear }
  | .recClear => some (s.bwrite g.start (writeHead (s.view g.start) []) .idle)
  | .writeLog lh tail =>
    match lh[tail]? with
    | some b => some (s.bwrite (g.start + tail + 1) (s.view b) (.writeLog lh (tail + 1)))
    | none => some { s with mode := .writeHead lh }
  | .writeHead lh =>
    -- this is the true point at which the current transaction commits
    some { s.bwrite g.start (writeHead (s.view g.start) lh) (.install lh 0) with
      committed := s.committed ++ [lh.map fun b => (b, s.view b)] }
  | .install lh tail =>
    match lh[tail]? with
    | some b => some (s.bwrite b (s.view (g.start + tail + 1)) (.install lh (tail + 1)))
    | none => some { s with mode := .clear }
  | .clear => some (s.bwrite g.start (writeHead (s.view g.start) []) .idle)
  | .off | .idle => none

def next (g : Geometry) (s : DiskState) : DiskAct → Option DiskState
  | .crash => some { s with mode := .off }
  | .boot =>
    match s.mode with
    | .off => some { s with view := s.disk, mode := .recInstall (readHead (s.disk g.start)) 0 }
    | _ => none
  | .commit lh data =>
    match s.mode with
    | .idle =>
      let view := fun b => if b ∈ lh then data b else s.view b
      if lh.length > 0 then some { s with view := view, mode := .writeLog lh 0 }
      else some { s with view := view }
    | _ => none
  | .write => blockWrite g s

/-! ## The system -/

def Outside (g : Geometry) (b : Nat) : Prop := b < g.start ∨ g.start + g.size ≤ b

instance (g : Geometry) (b : Nat) : Decidable (Outside g b) :=
  inferInstanceAs (Decidable (_ ∨ _))

/-- The writes a header promises: each logged block with its copy in the log. -/
def pending (g : Geometry) (d : Disk) : List (BlockNo × Block) :=
  (readHead (d g.start)).mapIdx fun i b => (b, d (g.start + i + 1))

def logical (g : Geometry) (d : Disk) : Disk := applyWrites d (pending g d)

def applyAll (d : Disk) (ts : List (List (BlockNo × Block))) : Disk := ts.foldl applyWrites d

/-- A machine that has not booted yet, with any disk whose header is `ok`. -/
def Unbooted (g : Geometry) (ok : List BlockNo → Prop) (s : DiskState) : Prop :=
  s.mode = .off ∧ ok (readHead (s.disk g.start)) ∧ s.base = logical g s.disk ∧ s.committed = []

def disk (g : Geometry) (ok : List BlockNo → Prop) : Lts DiskState DiskAct where
  init := Unbooted g ok
  step s a t := next g s a = some t ∧ ∀ lh data, a = .commit lh data → ok lh

def DiskState.unbooted (g : Geometry) (d : Disk) : DiskState where
  disk := d
  view := d
  mode := .off
  base := logical g d
  committed := []

theorem disk_reachable_of_exec {g : Geometry} {ok : List BlockNo → Prop} {d : Disk}
    {acts : List DiskAct} {t : DiskState} (head : ok (readHead (d g.start)))
    (commits : ∀ lh data, .commit lh data ∈ acts → ok lh)
    (run : Lts.exec (next g) (fun _ => true) (.unbooted g d) acts = some t) :
    (disk g ok).Reachable t := by
  have start : (disk g ok).Reachable (.unbooted g d) := .init ⟨rfl, head, rfl, rfl⟩
  refine start.of_exec (fun s t a member step _ => ⟨step, ?_⟩) run
  rintro lh data rfl
  exact commits lh data member

end Xv6.Log
