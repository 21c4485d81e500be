import Xv6.Vm.Syscall
import Xv6.Lib.Lts

/-!
# The system of processes

All processes and the memory they share, from the end of `userinit` on.  The calls of the
processes are taken one after the other, in any order.  Their arguments are any words, files and
strings, since processes put on their stacks what they like.

`initcode.S` calls `exec` and nothing else, and an `emptied` process has no instruction left to
call anything.  `exit` stands for the exit of a process and the `wait` of its parent; `pipe` and
`close` for the first and the last use of the page of a pipe; and `store` for any store to the
memory of a process, of its own or of the kernel on its behalf.
-/

namespace Xv6.Vm

open Function

structure System where
  mem : Mem
  proc : Fin nproc → Option Proc
  pipes : List Frame

inductive Action
  | exec (i : Fin nproc) (file : Option File) (argv : List CStr)
  | fork (i j : Fin nproc)
  | sbrk (i : Fin nproc) (n : Addr)
  | mprotect (i : Fin nproc) (addr len : Addr)
  | munprotect (i : Fin nproc) (addr len : Addr)
  | store (i : Fin nproc) (va : Addr) (b : Byte)
  | exit (i : Fin nproc)
  | pipe
  | close (f : Frame)

/-- The process in slot `i`, if it lives one of these lives. -/
def System.caller (s : System) (i : Fin nproc) (lives : List Life) : Option Proc :=
  (s.proc i).filter fun p => p.life ∈ lives

def System.setProc (s : System) (i : Fin nproc) (p : Option Proc) : System :=
  { s with proc := update s.proc i p }

@[simp] theorem System.setProc_self (s : System) (i : Fin nproc) (p : Option Proc) :
    (s.setProc i p).proc i = p := by
  simp [System.setProc]

theorem System.setProc_cases {s : System} {i j : Fin nproc} {p : Option Proc} {q : Proc}
    (at_j : (s.setProc i p).proc j = some q) : j = i ∧ p = some q ∨ j ≠ i ∧ s.proc j = some q := by
  change update s.proc i p j = some q at at_j
  rcases eq_or_ne j i with rfl | ne
  · rw [update_self] at at_j
    exact .inl ⟨rfl, at_j⟩
  · rw [update_of_ne ne] at at_j
    exact .inr ⟨ne, at_j⟩

def System.run {α : Type} (s : System) (x : K α) (rest : α → System → System) :
    Except Stop System :=
  match x s.mem with
  | .ok (a, m) => .ok (rest a { s with mem := m })
  | .error e => .error e

def reap (L : Layout) (p : Proc) : K Unit := do
  kfree L p.kstack
  freevm L p.pgdir

/-- The step for an action: `none` if nobody can take it, and an error if the kernel stops. -/
def System.step (L : Layout) (s : System) : Action → Option (Except Stop System)
  | .exec i file argv =>
    (s.caller i [.initcode, .loaded]).map fun p =>
      s.run (Vm.exec L file argv p.pgdir) fun r t =>
        match r with
        | none => t
        | some img => t.setProc i (some (p.load img))
  | .fork i j =>
    match s.proc j with
    | some _ => none
    | none =>
      (s.caller i [.loaded]).map fun p =>
        s.run (Vm.fork L p) fun r t =>
          match r with
          | none => t
          | some (pgdir, kstack) =>
            t.setProc j (some { p with pgdir := pgdir, kstack := kstack })
  | .sbrk i n =>
    (s.caller i [.loaded]).map fun p =>
      s.run (growproc L p n) fun r t => t.setProc i (some (p.grown n r))
  | .mprotect i addr len =>
    (s.caller i [.loaded]).map fun p =>
      s.run (sysProtect closed p addr len) fun _ t =>
        t.setProc i (some (p.sysMarked true addr len))
  | .munprotect i addr len =>
    (s.caller i [.loaded]).map fun p =>
      s.run (sysProtect opened p addr len) fun _ t =>
        t.setProc i (some (p.sysMarked false addr len))
  | .store i va b =>
    match s.proc i with
    | none => none
    | some p => if va < kernBase then some (s.run (storeByte p.pgdir va b) fun _ t => t) else none
  | .exit i =>
    (s.proc i).map fun p => s.run (reap L p) fun _ t => t.setProc i none
  | .pipe =>
    some (s.run kalloc fun r t =>
      match r with
      | none => t
      | some f => { t with pipes := f :: t.pipes })
  | .close f =>
    if f ∈ s.pipes then some (s.run (kfree L f) fun _ t => { t with pipes := t.pipes.erase f })
    else none

/-- The free list as `kinit1` and `kinit2` leave it: some pages outside the kernel, each once. -/
structure Boot (L : Layout) (m : Mem) : Prop where
  nodup : m.free.Nodup
  alloc : ∀ f ∈ m.free, Allocatable L f

def processes (L : Layout) (init : List Byte) : Lts System Action where
  init s := ∃ m p m', Boot L m ∧ userinit L init m = .ok (p, m') ∧
    s = System.setProc ⟨m', fun _ => none, []⟩ 0 (some p)
  step s a t := s.step L a = some (.ok t)

end Xv6.Vm
