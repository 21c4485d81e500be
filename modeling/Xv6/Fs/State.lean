import Xv6.Fs.Store
import Mathlib.Data.List.FinRange

/-!
# The state of the file system in memory, and the operations on it

The inode cache, the file table and the processes' descriptors and current directories, over any
store.  `Op` has the steps that system calls are made of.  A step is

* a section of the source that holds a spin lock (`icache.lock`, `ftable.lock`, `log.lock`, the
  lock inside a sleep lock), or
* one access, by a process, to an inode whose sleep lock it holds, or to data no other process
  uses.  An assignment to a field of a locked inode and the `iupdate` that follows it are one step,
  and so is a whole loop over the entries of a locked directory: no other process looks at the
  inode before it is unlocked.

An operation that has to wait, or that panics, has no next state.
-/

namespace Xv6.Fs

abbrev Ip := Fin ninode

abbrev FilePtr := Fin nfile

abbrev Fd := Fin nofile

/-- `struct inode`; `lock` is the process that holds the sleep lock. -/
structure Entry (P A : Type) where
  dev : Nat
  inum : Nat
  ref : Int
  lock : Option P
  valid : Bool
  ino : Dinode A

inductive FdType
  | none
  | pipe
  | inode
  deriving DecidableEq, Repr

structure File where
  type : FdType
  ref : Int
  readable : Bool
  writable : Bool
  ip : Ip
  off : Nat
  deriving DecidableEq, Repr

inductive Status
  | unused
  | embryo
  | running
  deriving DecidableEq, Repr

/-- What the file system reads of `struct proc`.  `ops` counts `begin_op` less `end_op`. -/
structure Proc where
  status : Status
  ofile : Fd → Option FilePtr
  cwd : Option Ip
  ops : Int

structure State (P D A : Type) where
  disk : D
  icache : Ip → Entry P A
  ftable : FilePtr → File
  proc : P → Proc
  outstanding : Int

/-- The steps of the system calls of a process; `P` has the processes. -/
inductive Op (P : Type)
  /-- `panic`. -/
  | panic (why : Panic)
  | beginOp
  | endOp
  /-- `iget`. -/
  | iget (dev inum : Nat)
  /-- `idup(myproc()->cwd)`. -/
  | idupCwd
  /-- Read `ip->ref`. -/
  | ref (ip : Ip)
  /-- `ip->ref--`. -/
  | unref (ip : Ip)
  | acquiresleep (ip : Ip)
  | releasesleep (ip : Ip)
  /-- `iunlock`. -/
  | iunlock (ip : Ip)
  /-- `ilock` after it took the lock: read the inode from the disk if it is not valid. -/
  | load (ip : Ip)
  /-- Read `ip->valid`. -/
  | valid (ip : Ip)
  /-- Read the fields of a locked inode. -/
  | attr (ip : Ip)
  /-- Read `ip->dev` and `ip->inum`. -/
  | ident (ip : Ip)
  /-- The end of a file in `iput`: `itrunc(ip); ip->type = 0; iupdate(ip); ip->valid = 0`. -/
  | reclaim (ip : Ip)
  /-- `ip->nlink++; iupdate(ip)`. -/
  | incLink (ip : Ip)
  /-- `ip->nlink--; iupdate(ip)`. -/
  | decLink (ip : Ip)
  /-- `ip->major = major; ip->minor = minor; ip->nlink = 1; iupdate(ip)`. -/
  | initInode (ip : Ip) (major minor : Short)
  /-- Read `sb.ninodes`. -/
  | ninodes
  /-- One round of the loop of `ialloc`. -/
  | claim (inum : Nat) (type : Short)
  | dirlookup (dp : Ip) (name : List Byte)
  | emptyDirent (dp : Ip)
  | isdirempty (dp : Ip)
  | readi (ip : Ip) (off n : Nat)
  | writei (ip : Ip) (off : Nat) (src : List Byte)
  /-- Read `myproc()->ofile[fd]`. -/
  | ofile (fd : Fd)
  /-- `myproc()->ofile[fd] = 0`. -/
  | closeFd (fd : Fd)
  | fdalloc (f : FilePtr)
  | filealloc
  | filedup (f : FilePtr)
  /-- The section of `fileclose` that holds `ftable.lock`: the contents of the file if this was its
  last reference. -/
  | filedrop (f : FilePtr)
  /-- Read the fields of a file. -/
  | file (f : FilePtr)
  /-- The assignments at the end of `sys_open`. -/
  | openFile (f : FilePtr) (ip : Ip) (readable writable : Bool)
  /-- The assignments at the end of `pipealloc`. -/
  | openPipe (f : FilePtr) (writable : Bool)
  /-- `f->off += n`. -/
  | advance (f : FilePtr) (n : Nat)
  /-- Read `myproc()->cwd`. -/
  | cwd
  /-- `myproc()->cwd = ip`. -/
  | chdir (ip : Ip)
  /-- `fork` takes an unused process. -/
  | allocproc (child : P)
  /-- `np->ofile[fd] = filedup(curproc->ofile[fd])`, for an open `fd`. -/
  | forkFd (child : P) (fd : Fd)
  /-- `np->cwd = idup(curproc->cwd)`, and `np` is made runnable. -/
  | forkCwd (child : P)
  /-- `curproc->cwd = 0` in `exit`, after which the process is gone. -/
  | exit

abbrev Op.Res {P : Type} : Op P → Type
  | .panic _ => Empty
  | .iget _ _ => Ip
  | .idupCwd => Ip
  | .ref _ => Int
  | .valid _ => Bool
  | .attr _ => Attr
  | .ident _ => Nat × Nat
  | .ninodes => Nat
  | .claim _ _ => Bool
  | .dirlookup _ _ => Option (Nat × Nat)
  | .emptyDirent _ => Nat
  | .isdirempty _ => Bool
  | .readi _ _ _ => Option (List Byte)
  | .writei _ _ _ => Option Nat
  | .ofile _ => Option FilePtr
  | .fdalloc _ => Option Fd
  | .filealloc => Option FilePtr
  | .filedrop _ => Option File
  | .file _ => File
  | .cwd => Ip
  | .allocproc _ => Bool
  | _ => Unit

inductive Stop
  | wait
  | panic (why : Panic)
  | null
  deriving DecidableEq, Repr

section

variable {P D A : Type} [DecidableEq P] [Store D A]

abbrev Kernel (P D A : Type) := Prog Stop (State P D A)

namespace State

def setEntry (s : State P D A) (ip : Ip) (x : Entry P A) : State P D A :=
  { s with icache := Function.update s.icache ip x }

def setFile (s : State P D A) (f : FilePtr) (x : File) : State P D A :=
  { s with ftable := Function.update s.ftable f x }

def setProc (s : State P D A) (p : P) (x : Proc) : State P D A :=
  { s with proc := Function.update s.proc p x }

section

variable {P D A : Type} (s : State P D A) (ip jp : Ip) (x : Entry P A) (f f' : FilePtr) (y : File)

@[simp] theorem setEntry_disk : (s.setEntry ip x).disk = s.disk := rfl

@[simp] theorem setEntry_ftable : (s.setEntry ip x).ftable = s.ftable := rfl

@[simp] theorem setEntry_proc : (s.setEntry ip x).proc = s.proc := rfl

@[simp] theorem setEntry_icache_self : (s.setEntry ip x).icache ip = x := by
  simp [setEntry]

variable {ip jp} in
theorem setEntry_icache_ne (ne : jp ≠ ip) : (s.setEntry ip x).icache jp = s.icache jp := by
  simp [setEntry, ne]

@[simp] theorem setFile_disk : (s.setFile f y).disk = s.disk := rfl

@[simp] theorem setFile_icache : (s.setFile f y).icache = s.icache := rfl

@[simp] theorem setFile_proc : (s.setFile f y).proc = s.proc := rfl

@[simp] theorem setFile_ftable_self : (s.setFile f y).ftable f = y := by
  simp [setFile]

variable {f f'} in
theorem setFile_ftable_ne (ne : f' ≠ f) : (s.setFile f y).ftable f' = s.ftable f' := by
  simp [setFile, ne]

variable [DecidableEq P] (p q : P) (z : Proc)

@[simp] theorem setProc_disk : (s.setProc p z).disk = s.disk := rfl

@[simp] theorem setProc_icache : (s.setProc p z).icache = s.icache := rfl

@[simp] theorem setProc_ftable : (s.setProc p z).ftable = s.ftable := rfl

@[simp] theorem setProc_proc_self : (s.setProc p z).proc p = z := by
  simp [setProc]

end

/-- `log.outstanding` is positive. -/
def trans (s : State P D A) : Bool := 0 < s.outstanding

/-- Run a function of the store on a locked inode, in its copy in memory. -/
def onInode {α : Type} (ip : Ip) (f : Bool → Nat → Dinode A → Prog Panic D (α × Dinode A)) :
    Kernel P D A α := fun s =>
  match f s.trans (s.icache ip).inum (s.icache ip).ino s.disk with
  | .ok ((a, ino), disk) =>
    .ok (a, { s with disk := disk }.setEntry ip { s.icache ip with ino := ino })
  | .error why => .error (.panic why)

def iget (dev inum : Nat) : Kernel P D A Ip := fun s =>
  -- Is the inode already cached?
  match (List.finRange ninode).find? fun ip =>
      0 < (s.icache ip).ref ∧ (s.icache ip).dev = dev ∧ (s.icache ip).inum = inum with
  | some ip => .ok (ip, s.setEntry ip { s.icache ip with ref := (s.icache ip).ref + 1 })
  | none =>
    -- Recycle an inode cache entry.
    match (List.finRange ninode).find? fun ip => (s.icache ip).ref = 0 with
    | some ip => .ok (ip, s.setEntry ip
        { s.icache ip with dev := dev, inum := inum, ref := 1, valid := false })
    | none => .error (.panic .igetNoInodes)

def idup (ip : Ip) : Kernel P D A Ip := fun s =>
  .ok (ip, s.setEntry ip { s.icache ip with ref := (s.icache ip).ref + 1 })

def acquiresleep (p : P) (ip : Ip) : Kernel P D A Unit := fun s =>
  match (s.icache ip).lock with
  | none => .ok ((), s.setEntry ip { s.icache ip with lock := some p })
  | some _ => .error .wait

def releasesleep (ip : Ip) : Kernel P D A Unit := fun s =>
  .ok ((), s.setEntry ip { s.icache ip with lock := none })

def iunlock (p : P) (ip : Ip) : Kernel P D A Unit := fun s =>
  if (s.icache ip).lock ≠ some p ∨ (s.icache ip).ref < 1 then .error (.panic .iunlock)
  else releasesleep ip s

def load (ip : Ip) : Kernel P D A Unit := fun s =>
  if (s.icache ip).valid then .ok ((), s)
  else if (Store.dinode s.disk (s.icache ip).inum).type = 0 then .error (.panic .ilockNoType)
  else .ok ((), s.setEntry ip
    { s.icache ip with ino := Store.dinode s.disk (s.icache ip).inum, valid := true })

def update (f : Dinode A → Dinode A) (trans : Bool) (inum : Nat) (ip : Dinode A) :
    Prog Panic D (Unit × Dinode A) := do
  Store.iupdate trans inum (f ip)
  pure ((), f ip)

def reclaim (ip : Ip) : Kernel P D A Unit := do
  onInode ip fun trans inum ino => do
    let ino ← Store.itrunc trans inum ino
    update (fun ino => { ino with type := 0 }) trans inum ino
  fun s => .ok ((), s.setEntry ip { s.icache ip with valid := false })

def fdalloc (p : P) (f : FilePtr) : Kernel P D A (Option Fd) := fun s =>
  match (List.finRange nofile).find? fun fd => (s.proc p).ofile fd = none with
  | some fd => .ok (some fd, s.setProc p
      { s.proc p with ofile := Function.update (s.proc p).ofile fd (some f) })
  | none => .ok (none, s)

def filealloc : Kernel P D A (Option FilePtr) := fun s =>
  match (List.finRange nfile).find? fun f => (s.ftable f).ref = 0 with
  | some f => .ok (some f, s.setFile f { s.ftable f with ref := 1 })
  | none => .ok (none, s)

def filedup (f : FilePtr) : Kernel P D A Unit := fun s =>
  if (s.ftable f).ref < 1 then .error (.panic .filedup)
  else .ok ((), s.setFile f { s.ftable f with ref := (s.ftable f).ref + 1 })

/-- `fileclose` up to the release of `ftable.lock`. -/
def filedrop (f : FilePtr) : Kernel P D A (Option File) := fun s =>
  if (s.ftable f).ref < 1 then .error (.panic .fileclose)
  else if 0 < (s.ftable f).ref - 1 then
    .ok (none, s.setFile f { s.ftable f with ref := (s.ftable f).ref - 1 })
  else .ok (some { s.ftable f with ref := (s.ftable f).ref - 1 },
    s.setFile f { s.ftable f with ref := 0, type := .none })

def exec (p : P) : (o : Op P) → Kernel P D A o.Res
  | .panic why => Prog.stop (.panic why)
  | .beginOp => fun s => .ok ((), { s with outstanding := s.outstanding + 1 }.setProc p
      { s.proc p with ops := (s.proc p).ops + 1 })
  | .endOp => fun s => .ok ((), { s with outstanding := s.outstanding - 1 }.setProc p
      { s.proc p with ops := (s.proc p).ops - 1 })
  | .iget dev inum => iget dev inum
  | .idupCwd => fun s =>
    match (s.proc p).cwd with
    | some ip => idup ip s
    | none => .error .null
  | .ref ip => fun s => .ok ((s.icache ip).ref, s)
  | .unref ip => fun s =>
    .ok ((), s.setEntry ip { s.icache ip with ref := (s.icache ip).ref - 1 })
  | .acquiresleep ip => acquiresleep p ip
  | .releasesleep ip => releasesleep ip
  | .iunlock ip => iunlock p ip
  | .load ip => load ip
  | .valid ip => fun s => .ok ((s.icache ip).valid, s)
  | .attr ip => fun s => .ok ((s.icache ip).ino.toAttr, s)
  | .ident ip => fun s => .ok (((s.icache ip).dev, (s.icache ip).inum), s)
  | .reclaim ip => reclaim ip
  | .incLink ip => onInode ip (update fun ino => { ino with nlink := ino.nlink + 1 })
  | .decLink ip => onInode ip (update fun ino => { ino with nlink := ino.nlink - 1 })
  | .initInode ip major minor =>
    onInode ip (update fun ino => { ino with major := major, minor := minor, nlink := 1 })
  | .ninodes => fun s => .ok (Store.ninodes D, s)
  | .claim inum type => fun s =>
    match Store.claim s.trans inum type s.disk with
    | .ok (r, disk) => .ok (r, { s with disk := disk })
    | .error why => .error (.panic why)
  | .dirlookup dp name => onInode dp fun trans _ ino => dirlookupScan trans name ino
  | .emptyDirent dp => onInode dp fun trans _ ino => Fs.emptyDirent trans ino
  | .isdirempty dp => onInode dp fun trans _ ino => Fs.isdirempty trans ino
  | .readi ip off n => onInode ip fun trans _ ino => Store.readi trans ino off n
  | .writei ip off src => onInode ip fun trans inum ino => Store.writei trans inum ino off src
  | .ofile fd => fun s => .ok ((s.proc p).ofile fd, s)
  | .closeFd fd => fun s => .ok ((), s.setProc p
      { s.proc p with ofile := Function.update (s.proc p).ofile fd none })
  | .fdalloc f => fdalloc p f
  | .filealloc => filealloc
  | .filedup f => filedup f
  | .filedrop f => filedrop f
  | .file f => fun s => .ok (s.ftable f, s)
  | .openFile f ip readable writable => fun s => .ok ((), s.setFile f
      { s.ftable f with
        type := .inode, ip := ip, off := 0, readable := readable, writable := writable })
  | .openPipe f writable => fun s => .ok ((), s.setFile f
      { s.ftable f with type := .pipe, readable := !writable, writable := writable })
  | .advance f n => fun s => .ok ((), s.setFile f
      { s.ftable f with off := ((s.ftable f).off + n) % 2 ^ 32 })
  | .cwd => fun s =>
    match (s.proc p).cwd with
    | some ip => .ok (ip, s)
    | none => .error .null
  | .chdir ip => fun s => .ok ((), s.setProc p { s.proc p with cwd := some ip })
  | .allocproc child => fun s =>
    if (s.proc child).status = .unused then
      .ok (true, s.setProc child { s.proc child with status := .embryo })
    else .ok (false, s)
  | .forkFd child fd => fun s =>
    match (s.proc p).ofile fd with
    | none => .ok ((), s)
    | some f =>
      match filedup f s with
      | .error why => .error why
      | .ok (_, t) => .ok ((), t.setProc child
          { t.proc child with ofile := Function.update (t.proc child).ofile fd (some f) })
  | .forkCwd child => fun s =>
    match (s.proc p).cwd with
    | none => .error .null
    | some ip =>
      let t := s.setEntry ip { s.icache ip with ref := (s.icache ip).ref + 1 }
      .ok ((), t.setProc child { t.proc child with cwd := some ip, status := .running })
  | .exit => fun s => .ok ((), s.setProc p { s.proc p with cwd := none, status := .unused })

end State

end

end Xv6.Fs
