import Xv6.Vm.Process

/-!
# System calls and user memory

`syscall.c`, and the system calls that store into a buffer of their caller.

The kernel uses the page table of the process, so that user memory is at hand under its own
addresses.  `loadByte` and `storeByte` are what the MMU makes of such an access in kernel mode: a
page that is not present faults, and since `entry.S` sets `CR0_WP` so does a store to a page
without `PTE_W`.  `trap()` panics when the kernel faults.
-/

namespace Xv6.Vm

/-! ## The MMU -/

def loadByte (pgdir : Frame) (va : Addr) : K Byte := fun m =>
  let pte := m.pte pgdir va
  if Has pteP pte then .ok (m.page (pteFrame pte) (pgOffset va), m) else .error (.fault va)

def storeByte (pgdir : Frame) (va : Addr) (b : Byte) : K Unit := fun m =>
  let pte := m.pte pgdir va
  if Has pteP pte ∧ Has pteW pte then
    .ok ((), m.setPage (pteFrame pte)
      (Function.update (m.page (pteFrame pte)) (pgOffset va) b))
  else .error (.fault va)

/-! ## Arguments -/

def loadWord (pgdir : Frame) (va : Addr) : K Addr := do
  let b0 ← loadByte pgdir va
  let b1 ← loadByte pgdir (va + 1)
  let b2 ← loadByte pgdir (va + 2)
  let b3 ← loadByte pgdir (va + 3)
  pure (b3 ++ b2 ++ b1 ++ b0)

/-- `fetchint`; `none` is `-1`. -/
def fetchint (p : Proc) (addr : Addr) : K (Option Addr) := do
  if addr ≥ p.sz ∨ addr + 4 > p.sz then pure none
  else
    let ip ← loadWord p.pgdir addr
    pure (some ip)

/-- The loop of `fetchstr` from `s` on; the string starts at `pp`. -/
def strLoop (pgdir : Frame) (pp ep : Addr) : Nat → Addr → K (Option Addr)
  | 0, _ => Prog.stop .hang
  | n + 1, s =>
    if s < ep then do
      let b ← loadByte pgdir s
      if b = 0 then pure (some (s - pp)) else strLoop pgdir pp ep n (s + 1)
    else pure none

/-- `fetchstr`: the length of the string; `none` is `-1`. -/
def fetchstr (p : Proc) (addr : Addr) : K (Option Addr) :=
  if addr ≥ p.sz then pure none else strLoop p.pgdir addr p.sz (p.sz.toNat + 1) addr

def argAddr (esp n : Addr) : Addr := esp + 4 + 4 * n

def argint (p : Proc) (esp n : Addr) : K (Option Addr) := fetchint p (argAddr esp n)

/-- The tests of `argptr` on a block of `size` bytes at `i`. -/
def blockOk (sz i size : Addr) : Bool :=
  !(i.toInt < 4096) && !(size.toInt < 0 || i ≥ sz || i + size > sz)

def argptr (p : Proc) (esp n size : Addr) : K (Option Addr) := do
  match ← argint p esp n with
  | none => pure none
  | some i => if blockOk p.sz i size then pure (some i) else pure none

def argstr (p : Proc) (esp n : Addr) : K (Option (Addr × Addr)) := do
  match ← argint p esp n with
  | none => pure none
  | some addr =>
    match ← fetchstr p addr with
    | none => pure none
    | some len => pure (some (addr, len))

/-! ## Calls that fill a buffer -/

/-- What is left of a system call when its arguments have been accepted: bytes to store, at
offsets of a buffer, and the result. -/
structure Request where
  buf : Addr
  stores : List (Addr × List Byte)
  result : Int

def storeBytes (pgdir : Frame) : Addr → List Byte → K Unit
  | _, [] => pure ()
  | va, b :: rest => do
      storeByte pgdir va b
      storeBytes pgdir (va + 1) rest

def storeAll (pgdir : Frame) (buf : Addr) : List (Addr × List Byte) → K Unit
  | [] => pure ()
  | (off, bytes) :: rest => do
      storeBytes pgdir (buf + off) bytes
      storeAll pgdir buf rest

/-- A system call: `-1` if its arguments are not accepted. -/
def answer (p : Proc) (request : K (Option Request)) : K Int := do
  match ← request with
  | none => pure (-1)
  | some r =>
    storeAll p.pgdir r.buf r.stores
    pure r.result

structure Stat where
  type : BitVec 16
  dev : Addr
  ino : Addr
  nlink : BitVec 16
  size : Addr

/-- An open file: what reading `n` bytes of it delivers at the moment, where `none` is `-1`, and
its inode. -/
structure OpenFile where
  deliver : Nat → Option (List Byte)
  short : ∀ n bytes, deliver n = some bytes → bytes.length ≤ n
  inode : Option Stat

def fileread (f : OpenFile) (addr n : Addr) : Request :=
  match f.deliver n.toNat with
  | none => ⟨addr, [], -1⟩
  | some bytes => ⟨addr, [(0, bytes)], bytes.length⟩

def shortBytes (w : BitVec 16) : List Byte := [w.extractLsb' 0 8, w.extractLsb' 8 8]

/-- `filestat` and `stati`, with the offsets of the fields of `struct stat`. -/
def filestat (f : OpenFile) (st : Addr) : Request :=
  match f.inode with
  | none => ⟨st, [], -1⟩
  | some ip =>
    ⟨st, [(4, wordBytes ip.dev), (8, wordBytes ip.ino), (0, shortBytes ip.type),
      (12, shortBytes ip.nlink), (16, wordBytes ip.size)], 0⟩

/-- What `getpinfo` reports of a slot of the process table. -/
structure SlotInfo where
  inuse : Addr
  tickets : Addr
  pid : Addr
  ticks : Addr

/-- The stores of `getpinfo` for slot `i`; each field of `struct pstat` has `NPROC` words. -/
def slotStores (i : Nat) (info : SlotInfo) : List (Addr × List Byte) :=
  let at_field (k : Nat) : Addr := BitVec.ofNat 32 (4 * (nproc * k + i))
  [(at_field 0, wordBytes info.inuse), (at_field 1, wordBytes info.tickets),
    (at_field 2, wordBytes info.pid), (at_field 3, wordBytes info.ticks)]

def getpinfo (table : Fin nproc → SlotInfo) (currentState : Addr) : Request :=
  ⟨currentState, (List.finRange nproc).flatMap fun i => slotStores i.val (table i), 0⟩

/-- `argfd`, with `ofile` the open files of the process. -/
def argfd (p : Proc) (esp n : Addr) (ofile : Nat → Option OpenFile) : K (Option OpenFile) := do
  match ← argint p esp n with
  | none => pure none
  | some fd => if fd.toInt < 0 ∨ fd.toInt ≥ nofile then pure none else pure (ofile fd.toNat)

/-- The system calls that fill a buffer, with what they find besides their arguments: the open
files of the process, the descriptors of a new pipe (`none` if there are none to be had), and the
process table. -/
inductive BufferCall
  | read (ofile : Nat → Option OpenFile)
  | fstat (ofile : Nat → Option OpenFile)
  | pipe (fds : Option (Addr × Addr))
  | getpinfo (table : Fin nproc → SlotInfo)

def readArgs (p : Proc) (esp : Addr) (ofile : Nat → Option OpenFile) : K (Option Request) := do
  match ← argfd p esp 0 ofile with
  | none => pure none
  | some f =>
    match ← argint p esp 2 with
    | none => pure none
    | some n =>
      match ← argptr p esp 1 n with
      | none => pure none
      | some addr => pure (some (fileread f addr n))

def fstatArgs (p : Proc) (esp : Addr) (ofile : Nat → Option OpenFile) : K (Option Request) := do
  match ← argfd p esp 0 ofile with
  | none => pure none
  | some f =>
    match ← argptr p esp 1 20 with
    | none => pure none
    | some st => pure (some (filestat f st))

def pipeArgs (p : Proc) (esp : Addr) (fds : Option (Addr × Addr)) : K (Option Request) := do
  match ← argptr p esp 0 8 with
  | none => pure none
  | some fd =>
    match fds with
    | none => pure none
    | some (fd0, fd1) => pure (some ⟨fd, [(0, wordBytes fd0), (4, wordBytes fd1)], 0⟩)

def getpinfoArgs (p : Proc) (esp : Addr) (table : Fin nproc → SlotInfo) : K (Option Request) := do
  match ← argptr p esp 0 1024 with
  | none => pure none
  | some currentState =>
    if currentState = 0 then pure none else pure (some (getpinfo table currentState))

def BufferCall.request (p : Proc) (esp : Addr) : BufferCall → K (Option Request)
  | .read ofile => readArgs p esp ofile
  | .fstat ofile => fstatArgs p esp ofile
  | .pipe fds => pipeArgs p esp fds
  | .getpinfo table => getpinfoArgs p esp table

/-- `sys_read`, `sys_fstat`, `sys_pipe` and `sys_getpinfo`. -/
def BufferCall.run (p : Proc) (esp : Addr) (call : BufferCall) : K Int :=
  answer p (call.request p esp)

/-! ## Calls that change the address space -/

/-- The common body of `sys_mprotect` and `sys_munprotect`, on the arguments that `argptr` and
`argint` find; `sizeof(*addr)` is 1. -/
def sysProtect (change : Addr → Addr) (p : Proc) (addr len : Addr) : K Bool :=
  if blockOk p.sz addr 1 then protect change p.pgdir addr len else pure false

/-- The process after `sys_mprotect` (`ro` is `true`) or `sys_munprotect`. -/
def Proc.sysMarked (p : Proc) (ro : Bool) (addr len : Addr) : Proc :=
  if blockOk p.sz addr 1 ∧ 1 ≤ len.toInt then p.marked ro (addr.toNat / 4096) len.toNat else p

end Xv6.Vm
