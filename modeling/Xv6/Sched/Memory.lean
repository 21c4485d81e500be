import Xv6.Sched.Events

/-!
# Kernel stacks and page directories

The system of `Sched/System.lean` with the pages that `proc.c`, `vm.c` and `exec.c` allocate and
free for a process, and with the registers that refer to them.  `Work` is how far a process is in
`exec` or in the part of `fork` without `ptable.lock`; it can be preempted at each of these points.

A critical section stays one step, with all that it does to pages and registers.  Each statement
of `exec` and `fork` outside them that allocates, frees or loads something is a step.  `kalloc` may
return any free page, and may fail at any time.
-/

namespace Xv6.Sched

inductive Use (Page : Type)
  | free
  /-- `kpgdir`. -/
  | kernel
  | kstack
  | pgdir
  /-- A page table or a user page of the directory `d`. -/
  | under (d : Page)
  deriving DecidableEq, Repr

/-- Where a process stands in `fork` or `exec`, with the pages it has allocated there. -/
inductive Work (Page : Type)
  | idle
  /-- `fork`: `allocproc` has returned. -/
  | stacked (k : Page)
  /-- `fork`: in `copyuvm`, after `setupkvm`. -/
  | copying (k d : Page)
  /-- `fork`: the child has its directory. -/
  | copied (k d : Page)
  /-- `exec`: after `setupkvm`. -/
  | building (d : Page)
  /-- `exec`: after `curproc->pgdir = pgdir`. -/
  | assigned (oldpgdir : Option Page)
  /-- `exec`: after `switchuvm(curproc)`. -/
  | switched (oldpgdir : Option Page)
  deriving DecidableEq, Repr

/-- The panics of `kfree`, `switchuvm` and `freevm` at a null pointer. -/
inductive Fault
  | kfree
  | noKstack
  | noPgdir
  | freevm
  deriving DecidableEq, Repr

structure Pages (Page : Type) where
  use : Page → Use Page
  kstack : Slot → Option Page
  pgdir : Slot → Option Page
  work : Slot → Work Page
  fault : Option Fault

/-- What a CPU has loaded.  `stack` is `none` on the stack of `scheduler()`. -/
structure Regs (Page : Type) where
  cr3 : Page
  esp0 : Option Page
  stack : Option Page
  deriving DecidableEq, Repr

structure Mem (C Page : Type) where
  pages : Pages Page
  regs : C → Regs Page

variable {C Page : Type} [DecidableEq Page]

/-! ## Freeing -/

namespace Pages

variable (m : Pages Page)

def kfree : Option Page → Pages Page
  | some v => { m with use := Function.update m.use v .free }
  | none => { m with fault := some .kfree }

def freevm : Option Page → Pages Page
  | some d => { m with use := fun v => if v = d ∨ m.use v = .under d then .free else m.use v }
  | none => { m with fault := some .freevm }

def setKstack (p : Slot) (v : Option Page) : Pages Page :=
  { m with kstack := Function.update m.kstack p v }

def setPgdir (p : Slot) (v : Option Page) : Pages Page :=
  { m with pgdir := Function.update m.pgdir p v }

def setWork (p : Slot) (w : Work Page) : Pages Page :=
  { m with work := Function.update m.work p w }

def take (v : Page) (u : Use Page) : Pages Page := { m with use := Function.update m.use v u }

def reap (q : Slot) : Pages Page :=
  ((m.kfree (m.kstack q)).setKstack q none).freevm (m.pgdir q)

/-- What an event does to the pages.  A `fork` that fails has no kernel stack yet, or gives it
back because `copyuvm` returned 0. -/
def on : Event → Pages Page
  | .reap _ q => m.reap q
  | .forkDone p _ => m.setWork p .idle
  | .forkFail p np =>
    match m.work p with
    | .stacked _ =>
      (((m.setPgdir np none).kfree (m.kstack np)).setKstack np none).setWork p .idle
    | _ => m.setKstack np none
  | .forkCopy p np =>
    match m.work p with
    | .copying k d => (m.setPgdir np (some d)).setWork p (.copied k d)
    | _ => m
  | _ => m

/-- Inside `exec` a process only sleeps or is preempted; the part of `fork` without the lock ends
when `copyuvm` has returned. -/
def allows (s : State C) : Act C → Bool
  | .call c a =>
    match (s.cpu c).proc, a with
    | some _, .yield | some _, .sleep _ | some _, .forkDone => true
    | some p, _ => m.work p = .idle
    | none, _ => true
  | .forkBody c ok =>
    match (s.cpu c).proc with
    | some p =>
      match m.work p with
      | .idle | .stacked _ => !ok
      | .copying _ _ => ok
      | _ => false
    | none => true
  | _ => true

end Pages

/-! ## Loading -/

instance : (pc : SchedPc) → Decidable pc.Away
  | .highRet _ | .lowRet => .isTrue trivial
  | .idle | .count .. | .high .. | .low _ | .done => .isFalse id

def switchuvm (m : Pages Page) (p : Slot) (r : Regs Page) : Except Fault (Regs Page) :=
  match m.kstack p, m.pgdir p with
  | none, _ => .error .noKstack
  | some _, none => .error .noPgdir
  | some k, some d => .ok { r with esp0 := some k, cr3 := d }

def switchkvm (kpgdir : Page) (r : Regs Page) : Regs Page := { r with cr3 := kpgdir }

namespace Mem

variable [DecidableEq C] (m : Mem C Page)

def setRegs (c : C) (r : Regs Page) : Mem C Page :=
  { m with regs := Function.update m.regs c r }

def load (c : C) (p : Slot) (f : Regs Page → Regs Page) : Mem C Page :=
  match switchuvm m.pages p (m.regs c) with
  | .ok r => m.setRegs c (f r)
  | .error e => { m with pages := { m.pages with fault := some e } }

/-- The registers of CPU `c` in the step from `s` to `t`: `scheduler()` calls `switchuvm` before it
switches to a process and `switchkvm` when `swtch` has returned. -/
def swtch (kpgdir : Page) (s t : State C) (c : C) : Mem C Page :=
  match (s.cpu c).thread, (t.cpu c).thread with
  | .scheduler, .scheduler =>
    if (s.cpu c).sched.Away then m.setRegs c (switchkvm kpgdir (m.regs c)) else m
  | .scheduler, _ =>
    match (t.cpu c).proc with
    | some p => m.load c p fun r => { r with stack := m.pages.kstack p }
    | none => m
  | _, .scheduler => m.setRegs c { m.regs c with stack := none }
  | _, _ => m

end Mem

def Act.cpu : Act C → Option C
  | .sched c | .resume c | .call c _ | .forkBody c _ => some c
  | .wakeup _ => none

def Mem.follow [DecidableEq C] (kpgdir : Page) (m : Mem C Page) (s : State C) (a : Act C)
    (t : State C) : Mem C Page :=
  let m' := { m with pages := m.pages.on (event s a) }
  match a.cpu with
  | some c => m'.swtch kpgdir s t c
  | none => m'

/-! ## `fork` and `exec` without the lock -/

/-- A statement of process `p`, which stands at `k` and does not hold `ptable.lock`. -/
inductive Statement (Page : Type)
  /-- `kalloc` of a kernel stack, in `allocproc`. -/
  | kstack (k : Page)
  /-- `kalloc` of a directory, in `exec` or `copyuvm`. -/
  | setupkvm (d : Page)
  /-- `kalloc` of a page table or user page, in `setupkvm`, `copyuvm`, `allocuvm`. -/
  | kalloc (v : Page)
  /-- `kfree` of a user page, in `deallocuvm`. -/
  | deallocuvm (v : Page)
  /-- `freevm` of the directory that is not finished, in `setupkvm`, `copyuvm`, `exec`. -/
  | bad
  /-- `curproc->pgdir = pgdir`. -/
  | commit
  /-- `switchuvm(curproc)`, in `exec` or `growproc`. -/
  | switchuvm
  /-- `freevm(oldpgdir)`. -/
  | freevm
  deriving DecidableEq, Repr

def Pages.target (m : Pages Page) (p : Slot) (k : Kernel) : Option Page :=
  match k, m.work p with
  | .user _, .idle => m.pgdir p
  | _, .building d | _, .copying _ d => some d
  | _, _ => none

def Mem.statement [DecidableEq C] (m : Mem C Page) (c : C) (p : Slot) (k : Kernel) :
    Statement Page → Option (Mem C Page)
  | .kstack v =>
    match k, m.pages.work p with
    | .allocated np, .idle =>
      if m.pages.use v = .free then
        some { m with pages :=
          ((m.pages.take v .kstack).setKstack np (some v)).setWork p (.stacked v) }
      else none
    | _, _ => none
  | .setupkvm d =>
    if m.pages.use d = .free then
      match k, m.pages.work p with
      | .user _, .idle =>
        some { m with pages := (m.pages.take d .pgdir).setWork p (.building d) }
      | .allocated _, .stacked v =>
        some { m with pages := (m.pages.take d .pgdir).setWork p (.copying v d) }
      | _, _ => none
    else none
  | .kalloc v =>
    match m.pages.target p k with
    | some d =>
      if m.pages.use v = .free then some { m with pages := m.pages.take v (.under d) } else none
    | none => none
  | .deallocuvm v =>
    match m.pages.target p k with
    | some d =>
      if m.pages.use v = .under d then some { m with pages := m.pages.kfree (some v) } else none
    | none => none
  | .bad =>
    match m.pages.work p with
    | .building d => some { m with pages := (m.pages.freevm (some d)).setWork p .idle }
    | .copying v d => some { m with pages := (m.pages.freevm (some d)).setWork p (.stacked v) }
    | _ => none
  | .commit =>
    match m.pages.work p with
    | .building d =>
      some { m with pages :=
        (m.pages.setPgdir p (some d)).setWork p (.assigned (m.pages.pgdir p)) }
    | _ => none
  | .switchuvm =>
    match k, m.pages.work p with
    | _, .assigned old =>
      some (Mem.load { m with pages := m.pages.setWork p (.switched old) } c p id)
    | .user _, .idle => some (m.load c p id)
    | _, _ => none
  | .freevm =>
    match m.pages.work p with
    | .switched old => some { m with pages := (m.pages.freevm old).setWork p .idle }
    | _ => none

/-! ## The system -/

inductive Deed (C Page : Type)
  | kernel (a : Act C)
  | statement (c : C) (w : Statement Page)
  deriving DecidableEq, Repr

def deedStep [DecidableEq C] (kpgdir : Page) (x : State C × Mem C Page) :
    Deed C Page → Option (State C × Mem C Page)
  | .kernel a =>
    if x.2.pages.fault = none ∧ x.2.pages.allows x.1 a then
      (step x.1 a).map fun t => (t, x.2.follow kpgdir x.1 a t)
    else none
  | .statement c w =>
    if x.2.pages.fault = none ∧ x.1.panic = none then
      match (x.1.cpu c).proc, (x.1.cpu c).thread with
      | some p, .process k => (x.2.statement c p k w).map fun m => (x.1, m)
      | _, _ => none
    else none

def Mem.boot (C : Type) (kpgdir k d : Page) : Mem C Page where
  pages :=
    { use := fun v =>
        if v = kpgdir then .kernel else if v = k then .kstack else if v = d then .pgdir else .free
      kstack := fun p => if p = initproc then some k else none
      pgdir := fun p => if p = initproc then some d else none
      work := fun _ => .idle
      fault := none }
  regs := fun _ => ⟨kpgdir, none, none⟩

def paged (C : Type) [DecidableEq C] (kpgdir : Page) : Lts (State C × Mem C Page) (Deed C Page) :=
  Lts.ofFun (fun x => ∃ k d, k ≠ d ∧ k ≠ kpgdir ∧ d ≠ kpgdir ∧
    x = (State.boot C, .boot C kpgdir k d)) (deedStep kpgdir)

end Xv6.Sched
