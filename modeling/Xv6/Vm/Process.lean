import Xv6.Vm.Pages

/-!
# Processes

The functions of `proc.c` and `vm.c` that make or change the address space of a process other
than by `exec`: `userinit`, `growproc`, `fork`, `mprotect` and `munprotect`.

Of `struct proc` the memory is modelled, and three history variables with it: `life`, `guard`
and `ro` tell what the calls of the process so far have made of its pages.  No code reads them.
What a kernel stack holds is left out.
-/

namespace Xv6.Vm

/-- What a process runs in.  `initcode` is the first process before its `exec`, and `loaded` any
process since the last `exec` of it or of an ancestor.  An `emptied` process has given all its
memory back by `sbrk`; it keeps its size and faults at its next instruction. -/
inductive Life
  | initcode
  | loaded
  | emptied
  deriving DecidableEq, Repr

/-- `struct proc`.  `guard` is the page below the stack that `exec` has closed to the user, and
`ro` tells the pages that `mprotect` has closed to stores. -/
structure Proc where
  pgdir : Frame
  kstack : Frame
  sz : Addr
  life : Life
  guard : Option Nat
  ro : Nat → Bool

/-! ## `userinit` -/

/-- `inituvm`.  Nobody looks at the results of `kalloc` and `mappages`. -/
def inituvm (pgdir : Frame) (init : List Byte) : K Unit := do
  if init.length ≥ 4096 then Prog.stop (.panic .inituvmTooLarge)
  else
    match ← kalloc with
    | none => Prog.stop .nullPointer
    | some mem =>
      zeroPage mem
      let _ ← mappages pgdir 0 pgSize (frameAddr mem) (pteW ||| pteU)
      fun m => .ok ((), m.setPage mem (writeBytes (m.page mem) 0 init))

/-- `userinit`, with `init` the bytes of `initcode.S`.  Without a kernel stack `allocproc` returns
a null pointer. -/
def userinit (L : Layout) (init : List Byte) : K Proc := do
  match ← kalloc with
  | none => Prog.stop .nullPointer
  | some kstack =>
    match ← setupkvm L with
    | none => Prog.stop (.panic .userinitMemory)
    | some pgdir =>
      inituvm pgdir init
      pure ⟨pgdir, kstack, pgSize, .initcode, none, fun _ => false⟩

/-! ## `exec` -/

def Proc.load (p : Proc) (img : Image) : Proc :=
  { p with
    pgdir := img.pgdir, sz := img.sz, life := .loaded, guard := some (pages img.sz - 2),
    ro := fun _ => false }

/-! ## `growproc` -/

/-- `growproc`: the new size; `none` is `-1`. -/
def growproc (L : Layout) (p : Proc) (n : Addr) : K (Option Addr) := do
  if 0 < n.toInt then
    let sz ← allocuvm L p.pgdir p.sz (p.sz + n)
    if sz = 0 then pure none else pure (some sz)
  else if n.toInt < 0 then
    let sz ← deallocuvm L p.pgdir p.sz (p.sz + n)
    if sz = 0 then pure none else pure (some sz)
  else pure (some p.sz)

def Proc.resize (p : Proc) (sz : Addr) : Proc :=
  { p with sz := sz, guard := cutGuard p.guard (pages sz), ro := cutRo p.ro (pages sz) }

def Proc.empty (p : Proc) : Proc := { p with life := .emptied, guard := none, ro := fun _ => false }

/-- The process after `growproc`.  A process that shrinks to nothing is told that the call has
failed, and its size stays. -/
def Proc.grown (p : Proc) (n : Addr) : Option Addr → Proc
  | some sz => p.resize sz
  | none => if n.toInt < 0 then p.empty else p

/-! ## `fork` -/

/-- `fork`: the child's page directory and kernel stack; `none` is `-1`. -/
def fork (L : Layout) (p : Proc) : K (Option (Frame × Frame)) := do
  match ← kalloc with
  | none => pure none
  | some kstack =>
    match ← copyuvm L p.pgdir p.sz with
    | none =>
      kfree L kstack
      pure none
    | some pgdir => pure (some (pgdir, kstack))

/-! ## `mprotect` and `munprotect` -/

def kernelPtr : Option Frame → Addr
  | none => 0
  | some f => frameAddr f + kernBase

/-- The first loop of `mprotect`: `addr` stays the same in all rounds. -/
def alignLoop (pgdir : Frame) (addr : Addr) : Nat → K Bool
  | 0 => pure true
  | n + 1 => do
      let aligned ← uva2ka pgdir addr
      if (kernelPtr aligned).srem pgSize ≠ 0 then pure false
      else alignLoop pgdir addr n

/-- The second loop of `mprotect`, where `change` is what becomes of an entry. -/
def protectLoop (pgdir : Frame) (change : Addr → Addr) : Nat → Addr → K Bool
  | 0, _ => pure true
  | n + 1, addr => do
      match ← walkpgdir pgdir addr false with
      | none => pure false
      | some (pgtab, i) =>
        let x ← getWord pgtab i
        if Has pteP x ∧ Has pteU x then
          setWord pgtab i (change x)
          protectLoop pgdir change n (addr + pgSize)
        else pure false

/-- The common body of `mprotect` and `munprotect`; `false` is `-1`. -/
def protect (change : Addr → Addr) (pgdir : Frame) (addr len : Addr) : K Bool := do
  if len.toInt < 1 then pure false
  else if ← alignLoop pgdir addr len.toNat then protectLoop pgdir change len.toNat addr
  else pure false

def closed (x : Addr) : Addr := x &&& ~~~pteW

def opened (x : Addr) : Addr := x ||| pteW

def mprotect : Frame → Addr → Addr → K Bool := protect closed

def munprotect : Frame → Addr → Addr → K Bool := protect opened

def Proc.accessible (p : Proc) (u : Nat) : Bool := 1 ≤ u && u < pages p.sz && p.guard != some u

/-- How many of the `n` numbers from `v` on are `ok`, up to the first one that is not. -/
def stretch (ok : Nat → Bool) : Nat → Nat → Nat
  | 0, _ => 0
  | n + 1, v => if ok v then stretch ok n (v + 1) + 1 else 0

/-- The process after `mprotect` (`ro` is `true`) or `munprotect` of `n` pages from page `v` on.
Both stop at the first page that the user has no access to, and leave the pages before it
changed. -/
def Proc.marked (p : Proc) (ro : Bool) (v n : Nat) : Proc :=
  { p with
    ro := fun u => if v ≤ u ∧ u < v + stretch p.accessible n v then ro else p.ro u }

end Xv6.Vm
