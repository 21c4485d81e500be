import Xv6.Fs.State
import Xv6.Lib.Code

/-!
# The system calls of the file system

`fs.c` above the disk, `file.c` and `sysfile.c`, with the parts of `exec`, `fork` and `exit` that
reach inodes and files, as code over the steps of `Xv6.Fs.State`.  The arguments of a call are what
`argstr`, `argint` and `argfd` make of the user's words: `none` is a bad address or descriptor.
What devices, pipes and the program of `exec` contribute is chosen by the environment and stands in
the arguments as well.
-/

namespace Xv6.Fs

abbrev Body (P α : Type) := Code (Op P) Op.Res α

variable {P : Type}

def step (o : Op P) : Body P o.Res := Code.op o

def stop {α : Type} (why : Panic) : Body P α := Code.call (.panic why) Empty.elim

/-! ## `fs.c` -/

def iallocLoop (type : Short) : List Nat → Body P Nat
  | [] => stop .iallocNoInodes
  | inum :: rest => do
      if ← step (.claim inum type) then pure inum else iallocLoop type rest

def ialloc (dev : Nat) (type : Short) : Body P Ip := do
  let n ← step .ninodes
  let inum ← iallocLoop type (List.range' 1 (n - 1))
  step (.iget dev inum)

def ilock (ip : Ip) : Body P Unit := do
  let r ← step (.ref ip)
  if r < 1 then stop .ilock
  else
    step (.acquiresleep ip)
    step (.load ip)

def iputFree (ip : Ip) : Body P Unit := do
  let a ← step (.attr ip)
  if a.nlink = 0 then
    let r ← step (.ref ip)
    -- no links and no other references: truncate and free
    if r = 1 then step (.reclaim ip) else pure ()
  else pure ()

def iput (ip : Ip) : Body P Unit := do
  step (.acquiresleep ip)
  if ← step (.valid ip) then iputFree ip else pure ()
  step (.releasesleep ip)
  step (.unref ip)

def iunlockput (ip : Ip) : Body P Unit := do
  step (.iunlock ip)
  iput ip

/-- `CONSOLE`: the only device with entries in `devsw`. -/
def console : Short := 1

/-- `ip->major < 0 || ip->major >= NDEV || !devsw[ip->major].read`, or `write`. -/
def noDevice (a : Attr) : Bool :=
  a.major.toInt < 0 ∨ (ndev : Int) ≤ a.major.toInt ∨ a.major ≠ console

/-- `consoleread` and `consolewrite`: they unlock the inode while they wait, and return `r`. -/
def consoleIO (ip : Ip) (r : Int) : Body P Int := do
  step (.iunlock ip)
  ilock ip
  pure r

/-- `readi`; `input` is what a device returns. -/
def readi (ip : Ip) (off n : Nat) (input : Int) : Body P Int := do
  let a ← step (.attr ip)
  if a.type = tDev then
    if noDevice a then pure (-1) else consoleIO ip input
  else
    match ← step (.readi ip off n) with
    | some bytes => pure bytes.length
    | none => pure (-1)

def writei (ip : Ip) (off : Nat) (src : List Byte) : Body P Int := do
  let a ← step (.attr ip)
  if a.type = tDev then
    if noDevice a then pure (-1) else consoleIO ip src.length
  else
    match ← step (.writei ip off src) with
    | some n => pure n
    | none => pure (-1)

/-- `dirlookup`: the inode and the offset of its entry. -/
def dirlookup (dp : Ip) (name : List Byte) : Body P (Option (Ip × Nat)) := do
  match ← step (.dirlookup dp name) with
  | none => pure none
  | some (inum, off) =>
    let (dev, _) ← step (.ident dp)
    let ip ← step (.iget dev inum)
    pure (some (ip, off))

/-- `dirlink`; `false` is `-1`. -/
def dirlink (dp : Ip) (name : List Byte) (inum : Nat) : Body P Bool := do
  match ← dirlookup dp name with
  | some (ip, _) =>
    iput ip
    pure false
  | none =>
    let off ← step (.emptyDirent dp)
    let r ← step (.writei dp off (Dirent.encode inum name))
    if r = some direntSize then pure true else stop .dirlink

def namexLoop (parent : Bool) : Ip → List (List Byte) → Body P (Option (Ip × List Byte))
  | ip, [] =>
    if parent then do
      iput ip
      pure none
    else pure (some (ip, []))
  | ip, name :: rest => do
      ilock ip
      let a ← step (.attr ip)
      if a.type ≠ tDir then
        iunlockput ip
        pure none
      else if parent ∧ rest = [] then
        -- Stop one level early.
        step (.iunlock ip)
        pure (some (ip, name))
      else
        match ← dirlookup ip name with
        | none =>
          iunlockput ip
          pure none
        | some (next, _) =>
          iunlockput ip
          namexLoop parent next rest

def namex (path : List Byte) (parent : Bool) : Body P (Option (Ip × List Byte)) := do
  let ip ← if path.head? = some slash then step (.iget rootDev rootIno) else step .idupCwd
  namexLoop parent ip (elements path)

def namei (path : List Byte) : Body P (Option Ip) := do
  let r ← namex path false
  pure (r.map Prod.fst)

def nameiparent (path : List Byte) : Body P (Option (Ip × List Byte)) := namex path true

/-! ## `file.c` -/

def fileclose (f : FilePtr) : Body P Unit := do
  match ← step (.filedrop f) with
  | none => pure ()
  | some ff =>
    if ff.type = .inode then
      step .beginOp
      iput ff.ip
      step .endOp
    else pure ()

def filestat (f : FilePtr) : Body P Int := do
  let x ← step (.file f)
  if x.type = .inode then
    ilock x.ip
    let _ ← step (.attr x.ip)
    step (.iunlock x.ip)
    pure 0
  else pure (-1)

/-- `fileread`; `input` is what a pipe or a device returns. -/
def fileread (f : FilePtr) (n : Nat) (input : Int) : Body P Int := do
  let x ← step (.file f)
  if x.readable = false then pure (-1)
  else
    match x.type with
    | .pipe => pure input
    | .inode =>
      ilock x.ip
      let y ← step (.file f)
      let r ← readi x.ip y.off n input
      if 0 < r then step (.advance f r.toNat) else pure ()
      step (.iunlock x.ip)
      pure r
    | .none => stop .fileread

/-- The bytes `filewrite` writes in one operation. -/
def maxWrite : Nat := (maxOpBlocks - 1 - 1 - 2) / 2 * bsize

/-- The loop of `filewrite` over the bytes it has still to write; `true` when it wrote them all. -/
def filewriteLoop (f : FilePtr) (ip : Ip) : Nat → List Byte → Body P Bool
  | 0, src => pure src.isEmpty
  | k + 1, src => do
      if src = [] then pure true
      else
        step .beginOp
        ilock ip
        let x ← step (.file f)
        let r ← writei ip x.off (src.take maxWrite)
        if 0 < r then step (.advance f r.toNat) else pure ()
        step (.iunlock ip)
        step .endOp
        if r < 0 then pure false
        else if r ≠ (src.take maxWrite).length then stop .shortFilewrite
        else filewriteLoop f ip k (src.drop maxWrite)

def filewrite (f : FilePtr) (src : List Byte) (output : Int) : Body P Int := do
  let x ← step (.file f)
  if x.writable = false then pure (-1)
  else
    match x.type with
    | .pipe => pure output
    | .inode =>
      if ← filewriteLoop f x.ip src.length src then pure src.length else pure (-1)
    | .none => stop .filewrite

/-! ## `sysfile.c` -/

def argfd (fd : Option Fd) : Body P (Option (Fd × FilePtr)) := do
  match fd with
  | none => pure none
  | some fd =>
    match ← step (.ofile fd) with
    | none => pure none
    | some f => pure (some (fd, f))

def sysDup (fd : Option Fd) : Body P Int := do
  match ← argfd fd with
  | none => pure (-1)
  | some (_, f) =>
    match ← step (.fdalloc f) with
    | none => pure (-1)
    | some fd =>
      step (.filedup f)
      pure fd.val

/-- `sys_read`; `n` is `none` when the buffer is bad. -/
def sysRead (fd : Option Fd) (n : Option Nat) (input : Int) : Body P Int := do
  match ← argfd fd, n with
  | some (_, f), some n => fileread f n input
  | _, _ => pure (-1)

def sysWrite (fd : Option Fd) (src : Option (List Byte)) (output : Int) : Body P Int := do
  match ← argfd fd, src with
  | some (_, f), some src => filewrite f src output
  | _, _ => pure (-1)

def sysClose (fd : Option Fd) : Body P Int := do
  match ← argfd fd with
  | none => pure (-1)
  | some (fd, f) =>
    step (.closeFd fd)
    fileclose f
    pure 0

/-- `sys_fstat`; `buffer` tells whether the buffer is good. -/
def sysFstat (fd : Option Fd) (buffer : Bool) : Body P Int := do
  match ← argfd fd with
  | some (_, f) => if buffer then filestat f else pure (-1)
  | none => pure (-1)

/-- `sys_link` from `nameiparent` to `iunlockput(dp)`; `false` is `goto bad`. -/
def linkEntry (ip : Ip) (new : List Byte) : Body P Bool := do
  match ← nameiparent new with
  | none => pure false
  | some (dp, name) =>
    ilock dp
    let (dev, _) ← step (.ident dp)
    let (dev', inum) ← step (.ident ip)
    if dev ≠ dev' then
      iunlockput dp
      pure false
    else
      let r ← dirlink dp name inum
      iunlockput dp
      pure r

def sysLink (old new : Option (List Byte)) : Body P Int := do
  match old, new with
  | some old, some new =>
    step .beginOp
    match ← namei old with
    | none =>
      step .endOp
      pure (-1)
    | some ip =>
      ilock ip
      let a ← step (.attr ip)
      if a.type = tDir then
        iunlockput ip
        step .endOp
        pure (-1)
      else
        step (.incLink ip)
        step (.iunlock ip)
        if ← linkEntry ip new then
          iput ip
          step .endOp
          pure 0
        else
          ilock ip
          step (.decLink ip)
          iunlockput ip
          step .endOp
          pure (-1)
  | _, _ => pure (-1)

def unlinkBad (dp : Ip) : Body P Int := do
  iunlockput dp
  step .endOp
  pure (-1)

/-- `sys_unlink` from the removal of the entry on; `type` is `ip->type`. -/
def unlinkEntry (dp ip : Ip) (off : Nat) (type : Short) : Body P Int := do
  let r ← step (.writei dp off Dirent.zero)
  if r ≠ some direntSize then stop .unlinkWritei
  else
    if type = tDir then step (.decLink dp) else pure ()
    iunlockput dp
    step (.decLink ip)
    iunlockput ip
    step .endOp
    pure 0

def sysUnlink (path : Option (List Byte)) : Body P Int := do
  match path with
  | none => pure (-1)
  | some path =>
    step .beginOp
    match ← nameiparent path with
    | none =>
      step .endOp
      pure (-1)
    | some (dp, name) =>
      ilock dp
      -- Cannot unlink "." or "..".
      if namecmp name dot ∨ namecmp name dotdot then unlinkBad dp
      else
        match ← dirlookup dp name with
        | none => unlinkBad dp
        | some (ip, off) =>
          ilock ip
          let a ← step (.attr ip)
          if a.nlink.toInt < 1 then stop .unlinkNlink
          else if a.type = tDir then
            if ← step (.isdirempty ip) then unlinkEntry dp ip off a.type
            else
              iunlockput ip
              unlinkBad dp
          else unlinkEntry dp ip off a.type

def createDots (dp ip : Ip) : Body P Unit := do
  step (.incLink dp)
  let (_, inum) ← step (.ident ip)
  if ← dirlink ip dot inum then
    let (_, parent) ← step (.ident dp)
    if ← dirlink ip dotdot parent then pure () else stop .createDots
  else stop .createDots

/-- `create` from `ialloc` on. -/
def createNew (dp : Ip) (name : List Byte) (type major minor : Short) : Body P Ip := do
  let (dev, _) ← step (.ident dp)
  let ip ← ialloc dev type
  ilock ip
  step (.initInode ip major minor)
  if type = tDir then createDots dp ip else pure ()
  let (_, inum) ← step (.ident ip)
  if ← dirlink dp name inum then
    iunlockput dp
    pure ip
  else stop .createDirlink

def create (path : List Byte) (type major minor : Short) : Body P (Option Ip) := do
  match ← nameiparent path with
  | none => pure none
  | some (dp, name) =>
    ilock dp
    match ← dirlookup dp name with
    | some (ip, _) =>
      iunlockput dp
      ilock ip
      let a ← step (.attr ip)
      if type = tFile ∧ a.type = tFile then pure (some ip)
      else
        iunlockput ip
        pure none
    | none => do
        let ip ← createNew dp name type major minor
        pure (some ip)

/-- `O_WRONLY`, `O_RDWR` and `O_CREATE`; `O_RDONLY` is 0. -/
def oWronly : BitVec 32 := 1

def oRdwr : BitVec 32 := 2

def oCreate : BitVec 32 := 0x200

/-- `sys_open` without `O_CREATE`, up to the allocation of a file. -/
def openExisting (path : List Byte) (omode : BitVec 32) : Body P (Option Ip) := do
  match ← namei path with
  | none => pure none
  | some ip =>
    ilock ip
    let a ← step (.attr ip)
    if a.type = tDir ∧ omode ≠ 0 then
      iunlockput ip
      pure none
    else pure (some ip)

/-- `sys_open` from `filealloc` on. -/
def openFinish (ip : Ip) (omode : BitVec 32) : Body P Int := do
  match ← step .filealloc with
  | none =>
    iunlockput ip
    step .endOp
    pure (-1)
  | some f =>
    match ← step (.fdalloc f) with
    | none =>
      fileclose f
      iunlockput ip
      step .endOp
      pure (-1)
    | some fd =>
      step (.iunlock ip)
      step .endOp
      step (.openFile f ip (omode &&& oWronly = 0) (omode &&& oWronly ≠ 0 ∨ omode &&& oRdwr ≠ 0))
      pure fd.val

def sysOpen (path : Option (List Byte)) (omode : Option (BitVec 32)) : Body P Int := do
  match path, omode with
  | some path, some omode =>
    step .beginOp
    match ← if omode &&& oCreate ≠ 0 then create path tFile 0 0 else openExisting path omode with
    | none =>
      step .endOp
      pure (-1)
    | some ip => openFinish ip omode
  | _, _ => pure (-1)

/-- The ends of `sys_mkdir` and `sys_mknod`. -/
def createFinish (r : Option Ip) : Body P Int := do
  match r with
  | none =>
    step .endOp
    pure (-1)
  | some ip =>
    iunlockput ip
    step .endOp
    pure 0

def sysMkdir (path : Option (List Byte)) : Body P Int := do
  step .beginOp
  match path with
  | none => createFinish none
  | some path => createFinish (← create path tDir 0 0)

def sysMknod (path : Option (List Byte)) (major minor : Option (BitVec 32)) : Body P Int := do
  step .beginOp
  match path, major, minor with
  | some path, some major, some minor =>
    createFinish (← create path tDev (major.setWidth 16) (minor.setWidth 16))
  | _, _, _ => createFinish none

def sysChdir (path : Option (List Byte)) : Body P Int := do
  step .beginOp
  match path with
  | none =>
    step .endOp
    pure (-1)
  | some path =>
    match ← namei path with
    | none =>
      step .endOp
      pure (-1)
    | some ip =>
      ilock ip
      let a ← step (.attr ip)
      if a.type ≠ tDir then
        iunlockput ip
        step .endOp
        pure (-1)
      else
        step (.iunlock ip)
        let old ← step .cwd
        iput old
        step .endOp
        step (.chdir ip)
        pure 0

/-- `pipealloc`; `page` tells whether `kalloc` found one. -/
def pipealloc (page : Bool) : Body P (Option (FilePtr × FilePtr)) := do
  match ← step .filealloc with
  | none => pure none
  | some f0 =>
    match ← step .filealloc with
    | none =>
      fileclose f0
      pure none
    | some f1 =>
      if page then
        step (.openPipe f0 false)
        step (.openPipe f1 true)
        pure (some (f0, f1))
      else
        fileclose f0
        fileclose f1
        pure none

def sysPipe (buffer page : Bool) : Body P Int := do
  if buffer = false then pure (-1)
  else
    match ← pipealloc page with
    | none => pure (-1)
    | some (rf, wf) =>
      match ← step (.fdalloc rf) with
      | none =>
        fileclose rf
        fileclose wf
        pure (-1)
      | some fd0 =>
        match ← step (.fdalloc wf) with
        | none =>
          step (.closeFd fd0)
          fileclose rf
          fileclose wf
          pure (-1)
        | some _ => pure 0

/-! ## `exec`, `fork` and `exit` -/

/-- The reads that `exec` makes of the program: offset, length, and what a device returns. -/
def execReads (ip : Ip) : List (Nat × Nat × Int) → Body P Unit
  | [] => pure ()
  | (off, n, input) :: rest => do
      let _ ← readi ip off n input
      execReads ip rest

/-- `exec`, whose result `r` depends on the program and on memory. -/
def exec (path : List Byte) (reads : List (Nat × Nat × Int)) (r : Int) : Body P Int := do
  step .beginOp
  match ← namei path with
  | none =>
    step .endOp
    pure (-1)
  | some ip =>
    ilock ip
    execReads ip reads
    iunlockput ip
    step .endOp
    pure r

def forkFds (child : P) : List Fd → Body P Unit
  | [] => pure ()
  | fd :: rest => do
      step (.forkFd child fd)
      forkFds child rest

def fork (child : P) : Body P Int := do
  if ← step (.allocproc child) then
    forkFds child (List.finRange nofile)
    step (.forkCwd child)
    pure 1
  else pure (-1)

def exitFds : List Fd → Body P Unit
  | [] => pure ()
  | fd :: rest => do
      match ← step (.ofile fd) with
      | none => exitFds rest
      | some f =>
        fileclose f
        step (.closeFd fd)
        exitFds rest

def exit : Body P Int := do
  exitFds (List.finRange nofile)
  step .beginOp
  let cwd ← step .cwd
  iput cwd
  step .endOp
  step .exit
  pure 0

/-! ## The system -/

inductive Syscall (P : Type)
  | dup (fd : Option Fd)
  | read (fd : Option Fd) (n : Option Nat) (input : Int)
  | write (fd : Option Fd) (src : Option (List Byte)) (output : Int)
  | close (fd : Option Fd)
  | fstat (fd : Option Fd) (buffer : Bool)
  | link (old new : Option (List Byte))
  | unlink (path : Option (List Byte))
  | open (path : Option (List Byte)) (omode : Option (BitVec 32))
  | mkdir (path : Option (List Byte))
  | mknod (path : Option (List Byte)) (major minor : Option (BitVec 32))
  | chdir (path : Option (List Byte))
  | pipe (buffer page : Bool)
  | exec (path : List Byte) (reads : List (Nat × Nat × Int)) (r : Int)
  | fork (child : P)
  | exit

def Syscall.body : Syscall P → Body P Int
  | .dup fd => sysDup fd
  | .read fd n input => sysRead fd n input
  | .write fd src output => sysWrite fd src output
  | .close fd => sysClose fd
  | .fstat fd buffer => sysFstat fd buffer
  | .link old new => sysLink old new
  | .unlink path => sysUnlink path
  | .open path omode => sysOpen path omode
  | .mkdir path => sysMkdir path
  | .mknod path major minor => sysMknod path major minor
  | .chdir path => sysChdir path
  | .pipe buffer page => sysPipe buffer page
  | .exec path reads r => Fs.exec path reads r
  | .fork child => Fs.fork child
  | .exit => Fs.exit

section

variable {D A : Type} [DecidableEq P] [Store D A]

def calls (P D : Type) {A : Type} [DecidableEq P] [Store D A] :
    Pool P (Syscall P) (Op P) Op.Res Int (State P D A) where
  allowed s p _ := (s.proc p).status = .running
  body := Syscall.body
  exec p o s := (State.exec p o s).toOption

instance (s : State P D A) (p : P) (c : Syscall P) : Decidable ((calls P D).allowed s p c) :=
  inferInstanceAs (Decidable ((s.proc p).status = .running))

def Entry.zero (ino : Dinode A) : Entry P A := ⟨0, 0, 0, none, false, ino⟩

def File.zero : File := ⟨.none, 0, false, false, 0, 0⟩

def Proc.zero : Proc := ⟨.unused, fun _ => none, none, 0⟩

/-- After `userinit`: the first process `init` has the root directory as its current directory, and
nothing else is in use. -/
def State.initial (disk : D) (init : P) : State P D A where
  disk := disk
  icache := Function.update (fun _ => .zero (Store.dinode disk 0)) 0
    { Entry.zero (Store.dinode disk 0) with dev := rootDev, inum := rootIno, ref := 1 }
  ftable _ := .zero
  proc := Function.update (fun _ => .zero) init { Proc.zero with status := .running, cwd := some 0 }
  outstanding := 0

def system (P D : Type) {A : Type} [DecidableEq P] [Store D A] (image : D → Prop) :
    Lts (Threads P (Op P) Op.Res Int (State P D A)) (Pool.Act P (Syscall P) Int) :=
  (calls P D).lts fun s => ∃ disk init, image disk ∧ s = .initial disk init

end

end Xv6.Fs
