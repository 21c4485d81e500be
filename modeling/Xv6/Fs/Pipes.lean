import Xv6.Fs.Accounting
import Xv6.Lib.Claims

/-!
# File structures and pipes

The calls of `Xv6.Fs.Calls` with the pages of pipes: `pipealloc` allocates a page and stores it in
two files, and `fileclose` ends with `pipeclose`, a step of its own, after which the page may be
freed.  The reference counts of files are those of `Xv6.Fs.Accounting`.

Each end of a pipe that is open has one owner: a file, a process that is about to close the end, or
a process in `pipealloc` that has not yet stored it.  So a page is freed once, when both files are
gone.
-/

namespace Xv6.Fs

open Function

/-- The page of a pipe: whether it is allocated, the fields of `struct pipe` that `pipeclose` uses,
and how often the page was allocated and freed. -/
structure Page where
  used : Bool
  readopen : Bool
  writeopen : Bool
  allocs : Nat
  frees : Nat

/-- One end of the pipe is open: `true` is the end for writing. -/
def Page.isOpen (x : Page) : Bool → Bool
  | true => x.writeopen
  | false => x.readopen

structure Plumbing (P D A : Type) where
  fs : State P D A
  /-- `f->pipe`. -/
  pipe : FilePtr → Nat
  page : Nat → Page
  /-- The arguments of `pipeclose`, in a process that is about to call it. -/
  closing : P → Option (Nat × Bool)
  /-- `p` in `pipealloc`. -/
  made : P → Nat

section

variable {P D A : Type} [DecidableEq P]

namespace Plumbing

/-- `kalloc` in `pipealloc`, and the assignments to the new `struct pipe`. -/
def alloc (s : Plumbing P D A) (p : P) (f : FilePtr) (n : Nat) : Plumbing P D A :=
  { s with
    pipe := update s.pipe f n
    page := update s.page n
      { s.page n with
        used := true, readopen := true, writeopen := true, allocs := (s.page n).allocs + 1 }
    made := update s.made p n }

/-- The pipe of the step `o` of process `p`, which had the result `r`.  The page that `kalloc`
returns is `kalloc s`. -/
def note (kalloc : Plumbing P D A → Nat) (s : Plumbing P D A) (p : P) :
    (o : Op P) → o.Res → Option (Plumbing P D A)
  | .openPipe f false, _ =>
    if (s.page (kalloc s)).used then none else some (s.alloc p f (kalloc s))
  | .openPipe f true, _ => some { s with pipe := update s.pipe f (s.made p) }
  | .filedrop f, some ff =>
    if ff.type = .pipe then
      some { s with closing := update s.closing p (some (s.pipe f, ff.writable)) }
    else some s
  | _, _ => some s

def pipeclose (s : Plumbing P D A) (p : P) (n : Nat) (writable : Bool) : Plumbing P D A :=
  let x := if writable then { s.page n with writeopen := false }
    else { s.page n with readopen := false }
  { s with
    closing := update s.closing p none
    page := update s.page n
      (if x.readopen = false ∧ x.writeopen = false then
        { x with used := false, frees := x.frees + 1 }
      else x) }

end Plumbing

variable [Store D A]

/-- The system calls; a process that is about to call `pipeclose` does nothing else before. -/
def plumbed (kalloc : Plumbing P D A → Nat) :
    Pool P (Syscall P) (Op P) Op.Res Int (Plumbing P D A) where
  allowed s p _ := (s.fs.proc p).status = .running
  body := Syscall.body
  exec p o s :=
    if s.closing p ≠ none then none
    else
      match State.exec p o s.fs with
      | .ok (r, t) => (s.note kalloc p o r).map fun u => (r, { u with fs := t })
      | .error _ => none

inductive PipeAct (P : Type)
  | act (a : Pool.Act P (Syscall P) Int)
  | pipeclose (p : P)

inductive PipeStep (kalloc : Plumbing P D A → Nat) :
    Threads P (Op P) Op.Res Int (Plumbing P D A) → PipeAct P →
    Threads P (Op P) Op.Res Int (Plumbing P D A) → Prop
  | act {s t : Threads P (Op P) Op.Res Int (Plumbing P D A)} {a : Pool.Act P (Syscall P) Int} :
      (plumbed kalloc).Step s a t → (∀ p r, a = .leave p r → s.shared.closing p = none) →
      PipeStep kalloc s (.act a) t
  | pipeclose {s : Threads P (Op P) Op.Res Int (Plumbing P D A)} {p : P} {n : Nat} {w : Bool} :
      s.shared.closing p = some (n, w) →
      PipeStep kalloc s (.pipeclose p) { s with shared := s.shared.pipeclose p n w }

def Plumbing.initial (disk : D) (init : P) : Plumbing P D A where
  fs := .initial disk init
  pipe _ := 0
  page _ := ⟨false, false, false, 0, 0⟩
  closing _ := none
  made _ := 0

def plumbing (kalloc : Plumbing P D A → Nat) (image : D → Prop) :
    Lts (Threads P (Op P) Op.Res Int (Plumbing P D A)) (PipeAct P) where
  init s := (∃ disk init, image disk ∧ s.shared = .initial disk init) ∧ ∀ p, s.code p = none
  step := PipeStep kalloc

end

/-! ## `pipealloc` stores the page in two files

The ghost is `true` between the two assignments. -/

section Pair

variable {P α β : Type}

@[grind] def pairNext : Op P → Bool → Option Bool
  | .openPipe _ w, b => if b = w then some !w else none
  | _, b => if b then none else some false

def pairLogic (P : Type) : Logic (Op P) Op.Res Bool where
  spec o b Q := ∃ b', pairNext o b = some b' ∧ ∀ r, Q r b'
  mono imp spec := by
    obtain ⟨b', next, post⟩ := spec
    exact ⟨b', next, fun r => imp r b' (post r)⟩

def Calm (c : Body P α) : Prop := c.wp (pairLogic P) false fun _ b => b = false

@[grind ←] theorem calm_pure (a : α) : Calm (pure a : Body P α) := rfl

@[grind ←] theorem calm_stop (why : Panic) : Calm (stop why : Body P α) :=
  ⟨false, rfl, fun r => r.elim⟩

@[grind ←] theorem Calm.bind {c : Body P α} {k : α → Body P β} (first : Calm c)
    (rest : ∀ a, Calm (k a)) : Calm (c >>= k) := by
  refine Code.wp.bind (Code.wp_mono (fun a b eq => ?_) first)
  subst eq
  exact rest a

@[grind ←] theorem calm_step {o : Op P} (plain : pairNext o false = some false) : Calm (step o) :=
  ⟨false, plain, fun _ => rfl⟩

@[grind ←] theorem calm_step_bind {o : Op P} {k : o.Res → Body P α}
    (plain : pairNext o false = some false) (rest : ∀ r, Calm (k r)) : Calm (step o >>= k) :=
  (calm_step plain).bind rest

-- The functions that have no `openPipe`, callees first.
section Functions

variable {ip dp : Ip} {f : FilePtr}

@[grind ←] theorem calm_ilock : Calm (ilock ip : Body P Unit) := by
  grind [ilock]

@[grind ←] theorem calm_iputFree : Calm (iputFree ip : Body P Unit) := by
  grind [iputFree]

@[grind ←] theorem calm_iput : Calm (iput ip : Body P Unit) := by
  grind [iput]

@[grind ←] theorem calm_iunlockput : Calm (iunlockput ip : Body P Unit) := by
  grind [iunlockput]

@[grind ←] theorem calm_readi {off n : Nat} {input : Int} :
    Calm (readi ip off n input : Body P Int) := by
  grind [readi, consoleIO]

@[grind ←] theorem calm_writei {off : Nat} {src : List Byte} :
    Calm (writei ip off src : Body P Int) := by
  grind [writei, consoleIO]

variable {name : List Byte}

@[grind ←] theorem calm_dirlookup : Calm (dirlookup dp name : Body P (Option (Ip × Nat))) := by
  grind [dirlookup]

@[grind ←] theorem calm_dirlink {inum : Nat} : Calm (dirlink dp name inum : Body P Bool) := by
  grind [dirlink]

@[grind ←] theorem calm_namexLoop {parent : Bool} {names : List (List Byte)} :
    Calm (namexLoop parent ip names : Body P (Option (Ip × List Byte))) := by
  induction names generalizing ip with
  | nil =>
    rw [namexLoop]
    split
    · exact calm_iput.bind fun _ => calm_pure _
    · exact calm_pure _
  | cons name rest ih =>
    refine calm_ilock.bind fun _ => calm_step_bind rfl fun a => ?_
    have drop : Calm (iunlockput ip >>= fun _ => pure none : Body P (Option (Ip × List Byte))) :=
      calm_iunlockput.bind fun _ => calm_pure _
    split
    · exact drop
    split
    · exact calm_step_bind rfl fun _ => calm_pure _
    · refine calm_dirlookup.bind fun r => ?_
      rcases r with _ | ⟨next, off⟩
      · exact drop
      · exact calm_iunlockput.bind fun _ => ih

variable {path : List Byte}

@[grind ←] theorem calm_namex {parent : Bool} :
    Calm (namex path parent : Body P (Option (Ip × List Byte))) := by
  unfold namex
  split <;> exact calm_step_bind rfl fun _ => calm_namexLoop

@[grind ←] theorem calm_namei : Calm (namei path : Body P (Option Ip)) :=
  calm_namex.bind fun _ => calm_pure _

@[grind ←] theorem calm_fileclose : Calm (fileclose f : Body P Unit) := by
  grind [fileclose]

@[grind ←] theorem calm_filewriteLoop {k : Nat} {src : List Byte} :
    Calm (filewriteLoop f ip k src : Body P Bool) := by
  induction k generalizing src with
  | zero => grind [filewriteLoop]
  | succ k ih =>
    rw [filewriteLoop]
    split
    · exact calm_pure _
    · refine calm_step_bind rfl fun _ => calm_ilock.bind fun _ => calm_step_bind rfl fun _ => ?_
      grind

variable {type : Short}

@[grind ←] theorem calm_iallocLoop {inums : List Nat} :
    Calm (iallocLoop type inums : Body P Nat) := by
  induction inums with
  | nil => grind [iallocLoop]
  | cons inum rest ih => grind [iallocLoop]

@[grind ←] theorem calm_createDots : Calm (createDots dp ip : Body P Unit) := by
  grind [createDots]

@[grind ←] theorem calm_createNew {major minor : Short} :
    Calm (createNew dp name type major minor : Body P Ip) := by
  refine calm_step_bind rfl fun _ => ?_
  grind [ialloc]

@[grind ←] theorem calm_create {major minor : Short} :
    Calm (create path type major minor : Body P (Option Ip)) := by
  refine calm_namex.bind fun r => ?_
  rcases r with _ | ⟨dp, name⟩
  · exact calm_pure _
  · refine calm_ilock.bind fun _ => calm_dirlookup.bind fun r => ?_
    rcases r with _ | ⟨ip, off⟩ <;> grind

@[grind ←] theorem calm_createFinish {r : Option Ip} : Calm (createFinish r : Body P Int) := by
  cases r <;> grind [createFinish]

@[grind ←] theorem calm_argfd {fd : Option Fd} :
    Calm (argfd fd : Body P (Option (Fd × FilePtr))) := by
  cases fd <;> grind [argfd]

@[grind ←] theorem calm_execReads {reads : List (Nat × Nat × Int)} :
    Calm (execReads ip reads : Body P Unit) := by
  induction reads with
  | nil => grind [execReads]
  | cons read rest ih => grind [execReads]

@[grind ←] theorem calm_forkFds {child : P} {fds : List Fd} : Calm (forkFds child fds) := by
  induction fds with
  | nil => grind [forkFds]
  | cons fd rest ih => grind [forkFds]

@[grind ←] theorem calm_exitFds {fds : List Fd} : Calm (exitFds fds : Body P Unit) := by
  induction fds with
  | nil => grind [exitFds]
  | cons fd rest ih => grind [exitFds]

end Functions

@[grind ←] theorem calm_pipealloc {page : Bool} :
    Calm (pipealloc page : Body P (Option (FilePtr × FilePtr))) := by
  refine calm_step_bind rfl fun r => ?_
  rcases r with _ | f0
  · exact calm_pure _
  · refine calm_step_bind rfl fun r => ?_
    rcases r with _ | f1
    · grind
    · dsimp only
      split
      · exact ⟨true, rfl, fun _ => ⟨false, rfl, fun _ => rfl⟩⟩
      · grind

@[grind ←] theorem calm_fileread {f : FilePtr} {n : Nat} {input : Int} :
    Calm (fileread f n input : Body P Int) := by
  refine calm_step_bind rfl fun x => ?_
  grind

@[grind ←] theorem calm_filewrite {f : FilePtr} {src : List Byte} {output : Int} :
    Calm (filewrite f src output : Body P Int) := by
  grind [filewrite]

theorem calm_sysLink {old new : Option (List Byte)} : Calm (sysLink old new : Body P Int) := by
  have entry : ∀ ip new, Calm (linkEntry ip new : Body P Bool) := by
    intro ip new
    refine calm_namex.bind fun r => ?_
    rcases r with _ | ⟨dp, name⟩ <;> grind
  unfold sysLink
  split
  · refine calm_step_bind rfl fun _ => calm_namei.bind fun r => ?_
    rcases r with _ | ip
    · grind
    · refine calm_ilock.bind fun _ => calm_step_bind rfl fun _ => ?_
      split
      · grind
      · refine calm_step_bind rfl fun _ => calm_step_bind rfl fun _ => (entry ip _).bind fun _ => ?_
        grind
  · exact calm_pure _

variable {path : Option (List Byte)}

theorem calm_sysUnlink : Calm (sysUnlink path : Body P Int) := by
  have entry : ∀ dp ip off type, Calm (unlinkEntry dp ip off type : Body P Int) := by
    intro dp ip off type
    refine calm_step_bind rfl fun _ => ?_
    grind
  rcases path with _ | path
  · exact calm_pure _
  refine calm_step_bind rfl fun _ => calm_namex.bind fun r => ?_
  rcases r with _ | ⟨dp, name⟩
  · grind
  · refine calm_ilock.bind fun _ => ?_
    split
    · grind [unlinkBad]
    · refine calm_dirlookup.bind fun r => ?_
      rcases r with _ | ⟨ip, off⟩
      · grind [unlinkBad]
      · refine calm_ilock.bind fun _ => calm_step_bind rfl fun _ => ?_
        grind [unlinkBad]

theorem calm_openFinish {ip : Ip} {omode : BitVec 32} :
    Calm (openFinish ip omode : Body P Int) := by
  refine calm_step_bind rfl fun r => ?_
  rcases r with _ | f
  · grind
  · refine calm_step_bind rfl fun r => ?_
    rcases r with _ | fd <;> grind

theorem calm_sysOpen {omode : Option (BitVec 32)} : Calm (sysOpen path omode : Body P Int) := by
  have existing : ∀ path mode, Calm (openExisting path mode : Body P (Option Ip)) := by
    intro path mode
    refine calm_namei.bind fun r => ?_
    rcases r with _ | ip <;> grind
  have finish : ∀ ip mode, Calm (openFinish ip mode : Body P Int) := fun _ _ => calm_openFinish
  unfold sysOpen
  split
  · grind
  · exact calm_pure _

theorem calm_sysChdir : Calm (sysChdir path : Body P Int) := by
  refine calm_step_bind rfl fun _ => ?_
  rcases path with _ | path
  · grind
  refine calm_namei.bind fun r => ?_
  rcases r with _ | ip
  · grind
  · refine calm_ilock.bind fun _ => calm_step_bind rfl fun _ => ?_
    grind

theorem calm_sysPipe {buffer page : Bool} : Calm (sysPipe buffer page : Body P Int) := by
  unfold sysPipe
  split
  · exact calm_pure _
  refine calm_pipealloc.bind fun r => ?_
  rcases r with _ | ⟨f0, f1⟩
  · exact calm_pure _
  · refine calm_step_bind rfl fun r => ?_
    rcases r with _ | fd <;> grind

theorem calm_of_argfd {fd : Option Fd} {k : Option (Fd × FilePtr) → Body P Int}
    (bad : Calm (k none)) (good : ∀ fd f, Calm (k (some (fd, f)))) : Calm (argfd fd >>= k) := by
  refine calm_argfd.bind fun r => ?_
  rcases r with _ | ⟨fd, f⟩
  · exact bad
  · exact good fd f

theorem calm_syscall (c : Syscall P) : Calm c.body := by
  cases c with
  | dup fd => exact calm_of_argfd (calm_pure _) (by grind)
  | read fd n input => exact calm_of_argfd (calm_pure _) (by cases n <;> grind)
  | write fd src output =>
    exact calm_of_argfd (calm_pure _) (by cases src <;> grind)
  | close fd => exact calm_of_argfd (calm_pure _) (by grind)
  | fstat fd buffer => exact calm_of_argfd (calm_pure _) (by grind [filestat])
  | link old new => exact calm_sysLink
  | unlink path => exact calm_sysUnlink
  | «open» path omode => exact calm_sysOpen
  | mkdir path => cases path <;> grind [Syscall.body, sysMkdir]
  | mknod path major minor =>
    refine calm_step_bind rfl fun _ => ?_
    grind
  | chdir path => exact calm_sysChdir
  | pipe buffer page => exact calm_sysPipe
  | exec path reads r =>
    refine calm_step_bind rfl fun _ => calm_namei.bind fun r => ?_
    rcases r with _ | ip <;> grind
  | fork child => grind [Syscall.body, fork]
  | exit =>
    refine calm_exitFds.bind fun _ => calm_step_bind rfl fun _ => ?_
    grind

end Pair

/-! ## What the steps do to the file table -/

section Files

variable {P D A : Type} [DecidableEq P] [Store D A] {s t : State P D A} {p : P} {f : FilePtr}
    {ip : Ip}

def Op.retypes : Op P → FilePtr → Bool
  | .openFile g _ _ _, f => f = g
  | .openPipe g _, f => f = g
  | .filedrop g, f => f = g
  | _, _ => false

def File.kind (x : File) : FdType × Bool := (x.type, x.writable)

omit [DecidableEq P] [Store D A] in
theorem onInode_ftable {α : Type} {g : Bool → Nat → Dinode A → Prog Panic D (α × Dinode A)} {r : α}
    (ran : State.onInode ip g s = .ok (r, t)) : t.ftable = s.ftable := by
  unfold State.onInode at ran
  split at ran
  · cases ran
    rfl
  · cases ran

omit [DecidableEq P] [Store D A] in
theorem setFile_kind {g : FilePtr} {x : File} (same : x.kind = (s.ftable g).kind) :
    ((s.setFile g x).ftable f).kind = (s.ftable f).kind := by
  rcases eq_or_ne f g with rfl | ne
  · rw [State.setFile_ftable_self, same]
  · rw [State.setFile_ftable_ne _ _ ne]

omit [DecidableEq P] [Store D A] in
theorem filedup_kind {g : FilePtr} (ran : State.filedup g s = .ok ((), t)) :
    (t.ftable f).kind = (s.ftable f).kind := by
  unfold State.filedup at ran
  split at ran
  · cases ran
  · cases ran
    exact setFile_kind rfl

theorem exec_kind {o : Op P} {r : o.Res} (ran : State.exec p o s = .ok (r, t))
    (other : o.retypes f = false) : (t.ftable f).kind = (s.ftable f).kind := by
  have same : t.ftable = s.ftable → (t.ftable f).kind = (s.ftable f).kind := fun eq => by rw [eq]
  cases o with
  | panic why => cases ran
  | iget dev inum =>
    refine same ?_
    simp only [State.exec, State.iget] at ran
    split at ran
    · cases ran
      rfl
    · split at ran
      · cases ran
        rfl
      · cases ran
  | idupCwd =>
    refine same ?_
    simp only [State.exec] at ran
    split at ran
    · cases ran
      rfl
    · cases ran
  | acquiresleep ip =>
    refine same ?_
    simp only [State.exec, State.acquiresleep] at ran
    split at ran
    · cases ran
      rfl
    · cases ran
  | iunlock ip =>
    refine same ?_
    simp only [State.exec, State.iunlock] at ran
    split at ran
    · cases ran
    · cases ran
      rfl
  | load ip =>
    refine same ?_
    simp only [State.exec, State.load] at ran
    split at ran
    · cases ran
      rfl
    · split at ran
      · cases ran
      · cases ran
        rfl
  | reclaim ip =>
    refine same ?_
    obtain ⟨_, u, first, last⟩ := Prog.of_bind ran
    cases last
    have kept := onInode_ftable first
    exact kept
  | incLink ip => exact same (onInode_ftable ran)
  | decLink ip => exact same (onInode_ftable ran)
  | initInode ip major minor => exact same (onInode_ftable ran)
  | claim inum type =>
    refine same ?_
    simp only [State.exec] at ran
    split at ran
    · cases ran
      rfl
    · cases ran
  | dirlookup dp name =>
    simp only [State.exec] at ran
    exact same (onInode_ftable ran)
  | emptyDirent dp =>
    simp only [State.exec] at ran
    exact same (onInode_ftable ran)
  | isdirempty dp =>
    simp only [State.exec] at ran
    exact same (onInode_ftable ran)
  | readi ip off n =>
    simp only [State.exec] at ran
    exact same (onInode_ftable ran)
  | writei ip off src =>
    simp only [State.exec] at ran
    exact same (onInode_ftable ran)
  | fdalloc g =>
    refine same ?_
    simp only [State.exec, State.fdalloc] at ran
    split at ran
    · cases ran
      rfl
    · cases ran
      rfl
  | filealloc =>
    simp only [State.exec, State.filealloc] at ran
    split at ran
    · cases ran
      exact setFile_kind rfl
    · cases ran
      rfl
  | filedup g => exact filedup_kind ran
  | filedrop g =>
    have ne : f ≠ g := by simpa [Op.retypes] using other
    simp only [State.exec, State.filedrop] at ran
    split at ran
    · cases ran
    · split at ran
      · cases ran
        exact setFile_kind rfl
      · cases ran
        rw [State.setFile_ftable_ne _ _ ne]
  | openFile g ip readable writable =>
    have ne : f ≠ g := by simpa [Op.retypes] using other
    cases ran
    rw [State.setFile_ftable_ne _ _ ne]
  | openPipe g writable =>
    have ne : f ≠ g := by simpa [Op.retypes] using other
    cases ran
    rw [State.setFile_ftable_ne _ _ ne]
  | advance g n =>
    cases ran
    exact setFile_kind rfl
  | cwd =>
    refine same ?_
    simp only [State.exec] at ran
    split at ran
    · cases ran
      rfl
    · cases ran
  | allocproc child =>
    refine same ?_
    simp only [State.exec] at ran
    split at ran
    · cases ran
      rfl
    · cases ran
      rfl
  | forkFd child fd =>
    simp only [State.exec] at ran
    split at ran
    · cases ran
      rfl
    · split at ran
      · cases ran
      · rename_i dup
        cases ran
        have kept := filedup_kind (f := f) dup
        exact kept
  | forkCwd child =>
    refine same ?_
    simp only [State.exec] at ran
    split at ran
    · cases ran
    · cases ran
      rfl
  | _ =>
    cases ran
    rfl

end Files

/-! ## The owners of the ends -/

inductive EndOwner (P : Type)
  | file (f : FilePtr)
  | closing (p : P)
  | making (p : P)
  deriving DecidableEq

section Ends

variable {P D A : Type}

/-- The end that an owner has; `half` has the processes between the two assignments. -/
def Plumbing.claim (s : Plumbing P D A) (half : P → Bool) : EndOwner P → Option (Nat × Bool)
  | .file f =>
    if (s.fs.ftable f).type = .pipe then some (s.pipe f, (s.fs.ftable f).writable) else none
  | .closing p => s.closing p
  | .making p => if half p then some (s.made p, true) else none

def Plumbing.Open (s : Plumbing P D A) (e : Nat × Bool) : Prop := (s.page e.1).isOpen e.2 = true

/-- A page is allocated while one of its ends is open. -/
structure Page.Sound (x : Page) : Prop where
  used : x.used = (x.readopen || x.writeopen)
  counts : x.allocs = x.frees + if x.used then 1 else 0

structure PipeInv [Fintype P] (s : Plumbing P D A) (γ : P → Ghost P × Bool) : Prop where
  inv : Inv s.fs fun p => (γ p).1
  ends : Exclusive (s.claim fun p => (γ p).2) s.Open
  owned : Covered (s.claim fun p => (γ p).2) s.Open
  pages : ∀ n, (s.page n).Sound

def pipeLogic (P : Type) : Logic (Op P) Op.Res (Ghost P × Bool) where
  spec o g Q := ∃ b, pairNext o g.2 = some b ∧ protocolSpec o g.1 fun r h => Q r (h, b)
  mono imp spec := by
    obtain ⟨b, next, spec⟩ := spec
    exact ⟨b, next, (protocol P).mono (fun r h => imp r (h, b)) spec⟩

theorem wp_pipeLogic {α : Type} {c : Body P α} {g : Ghost P} {b : Bool} {Q : α → Ghost P → Prop}
    {R : α → Bool → Prop} (first : c.wp (protocol P) g Q) (second : c.wp (pairLogic P) b R) :
    c.wp (pipeLogic P) (g, b) fun a h => Q a h.1 ∧ R a h.2 := by
  induction c generalizing g b with
  | done a => exact ⟨first, second⟩
  | call o k ih =>
    obtain ⟨b', next, rest⟩ := second
    exact ⟨b', next, (protocol P).mono (fun r h first => ih r first (rest r)) first⟩

variable [DecidableEq P] [Store D A]

theorem plumbed_exec {kalloc : Plumbing P D A → Nat} {p : P} {o : Op P} {s t : Plumbing P D A}
    {r : o.Res} (exec : (plumbed kalloc).exec p o s = some (r, t)) :
    s.closing p = none ∧ ∃ u v, State.exec p o s.fs = .ok (r, u) ∧ s.note kalloc p o r = some v ∧
      t = { v with fs := u } := by
  unfold plumbed at exec
  dsimp only at exec
  split at exec
  · cases exec
  · rename_i idle
    refine ⟨not_not.mp idle, ?_⟩
    split at exec
    · rename_i r' u ran
      obtain ⟨v, noted, eq⟩ := Option.map_eq_some_iff.mp exec
      cases eq
      exact ⟨u, v, ran, noted, rfl⟩
    · cases exec

variable [Fintype P] {kalloc : Plumbing P D A → Nat} {s : Plumbing P D A} {γ : P → Ghost P × Bool}
  {p : P} {f : FilePtr} {u : State P D A} {h : Ghost P} {b : Bool}

omit [Store D A] [Fintype P] in
theorem fst_update : (fun q => (update γ p (h, b) q).1) =
    update (fun q => (γ q).1) p h := by
  funext q
  rcases eq_or_ne q p with rfl | ne
  · simp
  · simp [ne]

variable (inv : PipeInv s γ)
include inv

omit [Store D A] in
theorem PipeInv.keep (calm : (γ p).2 = false)
    (kinds : ∀ f, (u.ftable f).kind = (s.fs.ftable f).kind ∨
      ((u.ftable f).type ≠ .pipe ∧ (s.fs.ftable f).type ≠ .pipe))
    (new : Inv u (update (fun q => (γ q).1) p h)) :
    PipeInv { s with fs := u } (update γ p (h, false)) := by
  have claims : ∀ o, ({ s with fs := u } : Plumbing P D A).claim
      (fun q => (update γ p (h, false) q).2) o = s.claim (fun q => (γ q).2) o := by
    intro o
    cases o with
    | file f =>
      simp only [Plumbing.claim]
      rcases kinds f with same | ⟨ne, ne'⟩
      · have type : (u.ftable f).type = (s.fs.ftable f).type := congrArg Prod.fst same
        have writable : (u.ftable f).writable = (s.fs.ftable f).writable := congrArg Prod.snd same
        rw [type, writable]
      · rw [if_neg ne, if_neg ne']
    | closing q => rfl
    | making q =>
      simp only [Plumbing.claim]
      rcases eq_or_ne q p with rfl | ne
      · simp [calm]
      · simp [ne]
  refine ⟨?_, inv.ends.keep claims fun _ => id, inv.owned.keep claims fun _ => id, inv.pages⟩
  rwa [fst_update]

omit [Store D A] in
theorem PipeInv.alloc {n : Nat} (calm : (γ p).2 = false) (unused : (s.page n).used = false)
    (untyped : (s.fs.ftable f).type = .none) {x : File} (type : x.type = .pipe)
    (writable : x.writable = false) (new : Inv (s.fs.setFile f x) (update (fun q => (γ q).1) p h)) :
    PipeInv { s.alloc p f n with fs := s.fs.setFile f x } (update γ p (h, true)) := by
  have closed : ∀ w, (s.page n).isOpen w = false := by
    have used := (inv.pages n).used
    rw [unused, eq_comm, Bool.or_eq_false_iff] at used
    intro w
    cases w with
    | false => exact used.1
    | true => exact used.2
  have shut : ∀ w, ¬ s.Open (n, w) := fun w is => by
    change (s.page n).isOpen w = true at is
    rw [closed w] at is
    cases is
  -- first the file, then the process gets its end
  have claim_f : s.claim (fun q => (γ q).2) (.file f) = none := by
    simp [Plumbing.claim, untyped]
  have claim_p : s.claim (fun q => (γ q).2) (.making p) = none := by
    simp [Plumbing.claim, calm]
  have at_f : Plumbing.claim { s.alloc p f n with fs := s.fs.setFile f x }
      (fun q => (update γ p (h, true) q).2) (.file f) = some (n, false) := by
    simp [Plumbing.claim, Plumbing.alloc, type, writable]
  have at_p : Plumbing.claim { s.alloc p f n with fs := s.fs.setFile f x }
      (fun q => (update γ p (h, true) q).2) (.making p) = some (n, true) := by
    simp [Plumbing.claim, Plumbing.alloc]
  have others : ∀ o, o ≠ .file f → o ≠ .making p →
      Plumbing.claim { s.alloc p f n with fs := s.fs.setFile f x }
        (fun q => (update γ p (h, true) q).2) o = s.claim (fun q => (γ q).2) o := by
    intro o ne_f ne_p
    cases o with
    | file g =>
      have ne : g ≠ f := fun eq => ne_f (by rw [eq])
      simp [Plumbing.claim, Plumbing.alloc, State.setFile_ftable_ne _ _ ne, ne]
    | closing q => rfl
    | making q =>
      have ne : q ≠ p := fun eq => ne_p (by rw [eq])
      simp [Plumbing.claim, Plumbing.alloc, ne]
  have opens : ∀ e, Plumbing.Open { s.alloc p f n with fs := s.fs.setFile f x } e ↔
      e = (n, true) ∨ e = (n, false) ∨ s.Open e := by
    rintro ⟨m, w⟩
    rcases eq_or_ne m n with rfl | ne
    · cases w <;> simp [Plumbing.Open, Plumbing.alloc, Page.isOpen]
    · simp [Plumbing.Open, Plumbing.alloc, ne]
  have next : ∀ o, o ≠ .making p →
      Plumbing.claim { s.alloc p f n with fs := s.fs.setFile f x }
        (fun q => (update γ p (h, true) q).2) o =
          update (s.claim fun q => (γ q).2) (.file f) (some (n, false)) o := by
    intro o ne_p
    rcases eq_or_ne o (.file f) with rfl | ne_f
    · rw [at_f, update_self]
    · rw [others o ne_f ne_p, update_of_ne ne_f]
  have first : Exclusive (update (s.claim fun q => (γ q).2) (.file f) (some (n, false)))
      fun e => e = (n, false) ∨ s.Open e :=
    inv.ends.take (shut false) (update_self ..) (fun g ne => update_of_ne ne ..)
      (.inl rfl) fun _ => .inr
  have first_owned :
      Covered (update (s.claim fun q => (γ q).2) (.file f) (some (n, false)))
        fun e => e = (n, false) ∨ s.Open e :=
    inv.owned.take claim_f (update_self ..) (fun g ne => update_of_ne ne ..)
      fun _ => id
  refine ⟨by rwa [fst_update], ?_, ?_, ?_⟩
  · exact first.take (by simpa using shut true) at_p next ((opens _).mpr (.inl rfl))
      fun e at_e => (opens e).mpr (.inr at_e)
  · refine first_owned.take ?_ at_p next fun e at_e => (opens e).mp at_e
    rw [update_of_ne (by simp), claim_p]
  · intro m
    rcases eq_or_ne m n with rfl | ne
    · have counts := (inv.pages m).counts
      refine ⟨by simp [Plumbing.alloc], ?_⟩
      simp [Plumbing.alloc, unused] at counts ⊢
      exact counts
    · simpa [Plumbing.alloc, ne] using inv.pages m

omit [Store D A] in
theorem PipeInv.store (half : (γ p).2 = true) (untyped : (s.fs.ftable f).type = .none) {x : File}
    (type : x.type = .pipe) (writable : x.writable = true)
    (new : Inv (s.fs.setFile f x) (update (fun q => (γ q).1) p h)) :
    PipeInv { s with pipe := update s.pipe f (s.made p), fs := s.fs.setFile f x }
      (update γ p (h, false)) := by
  have claim_f : s.claim (fun q => (γ q).2) (.file f) = none := by
    simp [Plumbing.claim, untyped]
  have at_p : Plumbing.claim
      { s with pipe := update s.pipe f (s.made p), fs := s.fs.setFile f x }
      (fun q => (update γ p (h, false) q).2) (.making p) = none := by
    simp [Plumbing.claim]
  have at_f : Plumbing.claim
      { s with pipe := update s.pipe f (s.made p), fs := s.fs.setFile f x }
      (fun q => (update γ p (h, false) q).2) (.file f) =
        s.claim (fun q => (γ q).2) (.making p) := by
    simp [Plumbing.claim, type, writable, half]
  have others : ∀ o, o ≠ .making p → o ≠ .file f → Plumbing.claim
      { s with pipe := update s.pipe f (s.made p), fs := s.fs.setFile f x }
      (fun q => (update γ p (h, false) q).2) o = s.claim (fun q => (γ q).2) o := by
    intro o ne_p ne_f
    cases o with
    | file g =>
      have ne : g ≠ f := fun eq => ne_f (by rw [eq])
      simp [Plumbing.claim, State.setFile_ftable_ne _ _ ne, ne]
    | closing q => rfl
    | making q =>
      have ne : q ≠ p := fun eq => ne_p (by rw [eq])
      simp [Plumbing.claim, ne]
  exact ⟨by rwa [fst_update], inv.ends.hand at_p at_f others fun _ => id,
    inv.owned.hand claim_f at_f others fun _ => id, inv.pages⟩

omit [Store D A] in
theorem PipeInv.last (calm : (γ p).2 = false) (idle : s.closing p = none)
    (type : (s.fs.ftable f).type = .pipe) {x : File} (none : x.type = .none)
    (new : Inv (s.fs.setFile f x) (update (fun q => (γ q).1) p h)) :
    PipeInv
      { s with
        closing := update s.closing p (some (s.pipe f, (s.fs.ftable f).writable))
        fs := s.fs.setFile f x }
      (update γ p (h, false)) := by
  have at_f : Plumbing.claim
      { s with
        closing := update s.closing p (some (s.pipe f, (s.fs.ftable f).writable))
        fs := s.fs.setFile f x }
      (fun q => (update γ p (h, false) q).2) (.file f) = Option.none := by
    simp [Plumbing.claim, none]
  have at_p : Plumbing.claim
      { s with
        closing := update s.closing p (some (s.pipe f, (s.fs.ftable f).writable))
        fs := s.fs.setFile f x }
      (fun q => (update γ p (h, false) q).2) (.closing p) =
        s.claim (fun q => (γ q).2) (.file f) := by
    simp [Plumbing.claim, type]
  have others : ∀ o, o ≠ .file f → o ≠ .closing p → Plumbing.claim
      { s with
        closing := update s.closing p (some (s.pipe f, (s.fs.ftable f).writable))
        fs := s.fs.setFile f x }
      (fun q => (update γ p (h, false) q).2) o = s.claim (fun q => (γ q).2) o := by
    intro o ne_f ne_p
    cases o with
    | file g =>
      have ne : g ≠ f := fun eq => ne_f (by rw [eq])
      simp [Plumbing.claim, State.setFile_ftable_ne _ _ ne]
    | closing q =>
      have ne : q ≠ p := fun eq => ne_p (by rw [eq])
      simp [Plumbing.claim, ne]
    | making q =>
      rcases eq_or_ne q p with rfl | ne
      · simp [Plumbing.claim, calm]
      · simp [Plumbing.claim, ne]
  exact ⟨by rwa [fst_update], inv.ends.hand at_f at_p others fun _ => id,
    inv.owned.hand (b := .closing p) idle at_p others fun _ => id, inv.pages⟩

omit [Store D A] in
theorem PipeInv.pipeclose {n : Nat} {w : Bool} (closing : s.closing p = some (n, w)) :
    PipeInv (s.pipeclose p n w) γ := by
  have had : s.claim (fun q => (γ q).2) (.closing p) = some (n, w) := closing
  have is_open : (s.page n).isOpen w = true := inv.ends.ok_of_claim _ _ had
  have others : ∀ o, o ≠ .closing p → (s.pipeclose p n w).claim (fun q => (γ q).2) o =
      s.claim (fun q => (γ q).2) o := by
    intro o ne_p
    cases o with
    | file g => rfl
    | closing q =>
      have ne : q ≠ p := fun eq => ne_p (by rw [eq])
      simp [Plumbing.claim, Plumbing.pipeclose, ne]
    | making q => rfl
  have opens : ∀ e, (s.pipeclose p n w).Open e ↔ e ≠ (n, w) ∧ s.Open e := by
    rintro ⟨m, w'⟩
    rcases eq_or_ne m n with rfl | ne
    · cases w <;> cases w' <;> simp [Plumbing.Open, Plumbing.pipeclose, Page.isOpen] <;>
        split <;> simp
    · simp [Plumbing.Open, Plumbing.pipeclose, ne]
  refine ⟨inv.inv, ?_, ?_, fun m => ?_⟩
  · exact inv.ends.drop had (by simp [Plumbing.claim, Plumbing.pipeclose]) others
      fun e ne was => (opens e).mpr ⟨ne, was⟩
  · exact inv.owned.drop had others fun e => (opens e).mp
  · rcases eq_or_ne m n with rfl | ne
    · obtain ⟨used, counts⟩ := inv.pages m
      have is_used : (s.page m).used = true := by
        rw [used]
        cases w with
        | false => exact Bool.or_eq_true_iff.mpr (.inl is_open)
        | true => exact Bool.or_eq_true_iff.mpr (.inr is_open)
      rw [is_used] at used counts
      constructor
      · cases w <;> cases r : (s.page m).readopen <;> cases v : (s.page m).writeopen <;>
          simp_all [Plumbing.pipeclose]
      · cases w <;> cases r : (s.page m).readopen <;> cases v : (s.page m).writeopen <;>
          simp_all [Plumbing.pipeclose]
    · simpa [Plumbing.pipeclose, ne] using inv.pages m

end Ends

section Sound

variable {P D A : Type} [DecidableEq P] [Fintype P] [Store D A] {kalloc : Plumbing P D A → Nat}

theorem calm_of_next {b b' : Bool} (next : (if b then none else some false) = some b') :
    b = false ∧ b' = false := by
  cases b with
  | false => exact ⟨rfl, (Option.some.inj next).symm⟩
  | true => cases next

theorem pipe_sound : (plumbed kalloc).Sound (pipeLogic P) PipeInv := by
  intro s t γ p o r Q inv spec exec
  obtain ⟨idle, u, v, ran, noted, rfl⟩ := plumbed_exec exec
  obtain ⟨b, next, spec⟩ := spec
  have step : (calls P D).exec p o s.fs = some (r, u) := by
    change (State.exec p o s.fs).toOption = _
    rw [ran]
    rfl
  obtain ⟨h, post, new⟩ := protocol_sound (γ := fun q => (γ q).1)
    (Q := fun r h => Q r (h, b)) inv.inv spec step
  refine ⟨(h, b), post, ?_⟩
  -- the steps that do not touch pipes
  have plain : v = s → (γ p).2 = false → b = false →
      (∀ f, (u.ftable f).kind = (s.fs.ftable f).kind ∨
        ((u.ftable f).type ≠ .pipe ∧ (s.fs.ftable f).type ≠ .pipe)) →
      PipeInv { v with fs := u } (update γ p (h, b)) := by
    rintro rfl calm rfl kinds
    exact inv.keep calm kinds new
  have other : (∀ f, o.retypes f = false) → v = s → (γ p).2 = false → b = false →
      PipeInv { v with fs := u } (update γ p (h, b)) := fun kept same calm eq =>
    plain same calm eq fun f => .inl (exec_kind ran (kept f))
  cases o with
  | openPipe f w =>
    have untyped := (inv.inv.fresh p f spec.1).type
    cases ran
    cases w with
    | false =>
      have calm : (γ p).2 = false := by
        by_contra half
        simp [pairNext, half] at next
      simp only [pairNext, calm, if_true, Option.some.injEq] at next
      subst next
      simp only [Plumbing.note] at noted
      split at noted
      · cases noted
      · rename_i unused
        cases noted
        exact inv.alloc calm (by simpa using unused) untyped rfl rfl new
    | true =>
      have half : (γ p).2 = true := by
        by_contra calm
        simp [pairNext, calm] at next
      simp only [pairNext, half, if_true, Option.some.injEq] at next
      subst next
      cases noted
      exact inv.store half untyped rfl rfl new
  | filedrop f =>
    obtain ⟨calm, rfl⟩ := calm_of_next next
    simp only [State.exec, State.filedrop] at ran
    split at ran
    · cases ran
    · split at ran
      · cases ran
        cases noted
        exact plain rfl calm rfl fun g => .inl (setFile_kind rfl)
      · cases ran
        simp only [Plumbing.note] at noted
        split at noted
        · rename_i type
          cases noted
          exact inv.last calm idle type rfl new
        · rename_i type
          cases noted
          refine plain rfl calm rfl fun g => ?_
          rcases eq_or_ne g f with rfl | ne
          · exact .inr ⟨by simp, type⟩
          · exact .inl (by rw [State.setFile_ftable_ne _ _ ne])
  | openFile f ip readable writable =>
    have untyped := (inv.inv.fresh p f spec.1).type
    obtain ⟨calm, rfl⟩ := calm_of_next next
    cases ran
    cases noted
    refine plain rfl calm rfl fun g => ?_
    rcases eq_or_ne g f with rfl | ne
    · exact .inr ⟨by simp, by simp [untyped]⟩
    · exact .inl (by rw [State.setFile_ftable_ne _ _ ne])
  | _ =>
    obtain ⟨calm, rfl⟩ := calm_of_next next
    cases noted
    exact other (fun f => rfl) rfl calm rfl

def PipeRest (g : Ghost P × Bool) : Prop := g.1.Rest ∧ g.2 = false

theorem pipe_starts : (plumbed kalloc).Starts PipeRest (Ghost.ready, false) PipeInv := by
  intro s γ p c inv rest running
  exact inv.keep rest.2 (fun f => .inl rfl) (protocol_starts (c := c) inv.inv rest.1 running)

omit [DecidableEq P] [Fintype P] in
theorem syscall_pipe (c : Syscall P) :
    c.body.wp (pipeLogic P) (Ghost.ready, false) fun _ h => PipeRest h :=
  wp_pipeLogic (syscall_protocol c) (calm_syscall c)

variable {o : Op P}

omit [Fintype P] [Store D A] in
theorem note_closing {s v : Plumbing P D A} {p q : P} {r : o.Res}
    (noted : s.note kalloc p o r = some v) (ne : q ≠ p) : v.closing q = s.closing q := by
  unfold Plumbing.note at noted
  split at noted
  · split at noted
    · cases noted
    · cases noted
      rfl
  · cases noted
    rfl
  · split at noted
    · cases noted
      simp [ne]
    · cases noted
      rfl
  · cases noted
    rfl

structure Plumbed (s : Threads P (Op P) Op.Res Int (Plumbing P D A)) (γ : P → Ghost P × Bool) :
    Prop where
  verified : Pool.Verified (pipeLogic P) PipeRest PipeInv s γ
  idle : ∀ p, s.code p = none → s.shared.closing p = none

theorem Plumbed.step {s t : Threads P (Op P) Op.Res Int (Plumbing P D A)} {γ : P → Ghost P × Bool}
    {a : PipeAct P} (inv : Plumbed s γ) (step : PipeStep kalloc s a t) : ∃ γ', Plumbed t γ' := by
  cases step with
  | act step guard =>
    obtain ⟨γ', ver⟩ := inv.verified.step pipe_sound pipe_starts syscall_pipe step
    refine ⟨γ', ver, fun q rest => ?_⟩
    cases step with
    | @start p c idle allowed =>
      rcases eq_or_ne q p with rfl | ne
      · exact inv.idle q idle
      · exact inv.idle q (by simpa [ne] using rest)
    | @op p o k r _ code exec =>
      rcases eq_or_ne q p with rfl | ne
      · simp at rest
      · obtain ⟨-, u, v, -, noted, rfl⟩ := plumbed_exec exec
        exact (note_closing noted ne).trans (inv.idle q (by simpa [ne] using rest))
    | @leave p r code =>
      rcases eq_or_ne q p with rfl | ne
      · exact guard q r rfl
      · exact inv.idle q (by simpa [ne] using rest)
  | @pipeclose p n w closing =>
    refine ⟨γ, ⟨inv.verified.inv.pipeclose closing, inv.verified.idle, inv.verified.safe⟩,
      fun q rest => ?_⟩
    rcases eq_or_ne q p with rfl | ne
    · exact update_self ..
    · exact (update_of_ne ne ..).trans (inv.idle q rest)

theorem plumbed_of_reachable {image : D → Prop} {s : Threads P (Op P) Op.Res Int (Plumbing P D A)}
    (reach : (plumbing kalloc image).Reachable s) : ∃ γ, Plumbed s γ := by
  refine reach.invariant (P := fun s => ∃ γ, Plumbed s γ)
    (fun s init => ?_) fun s a t _ inv step => ?_
  · obtain ⟨⟨disk, init, -, eq⟩, quiet⟩ := init
    have shut : ∀ n w, ((Plumbing.initial (A := A) disk init).page n).isOpen w = false := by
      intro n w
      cases w <;> rfl
    have claims : ∀ o, (Plumbing.initial (A := A) disk init).claim (fun _ => false) o = none := by
      intro o
      cases o <;> rfl
    refine ⟨fun _ => (Ghost.ready.gone, false),
      ⟨?_, fun p _ => ⟨rest_ready, rfl⟩, fun p c code => ?_⟩,
      fun p _ => ?_⟩
    · rw [eq]
      refine ⟨inv_initial disk init, .of_none claims, fun e is_open => ?_, fun n => ⟨rfl, rfl⟩⟩
      cases (shut e.1 e.2).symm.trans is_open
    · simp [quiet p] at code
    · rw [eq]
      rfl
  · obtain ⟨γ, inv⟩ := inv
    exact inv.step step

/-- The steps in which `filedup` and `fileclose` check the count of references. -/
def Op.counts : Op P → Bool
  | .filedup _ => true
  | .filedrop _ => true
  | .forkFd _ _ => true
  | _ => false

omit [DecidableEq P] [Store D A] in
theorem Inv.ref_of_ofile {s : State P D A} {γ : P → Ghost P} {p : P} {f : FilePtr} {fd : Fd}
    (inv : Inv s γ) (none_held : (γ p).frefs = 0) (at_fd : (s.proc p).ofile fd = some f) :
    1 ≤ (s.ftable f).ref := by
  have all := le_tally (inv.fdRefs_nonneg f) p
  have nonneg : ∀ fd, 0 ≤ fdRef f ((s.proc p).ofile fd) := fun fd => by
    unfold fdRef
    split <;> decide
  have one := le_tally nonneg fd
  have own : fdRefs f (pairs s γ p) = tally (fdRef f) (s.proc p).ofile := by
    simp [fdRefs, pairs, none_held]
  have is_one : fdRef f ((s.proc p).ofile fd) = 1 := if_pos at_fd
  have := inv.frefs f
  omega

theorem Inv.counts_safe {s : State P D A} {γ : P → Ghost P} {p : P} {Q : o.Res → Ghost P → Prop}
    (inv : Inv s γ) (spec : protocolSpec o (γ p) Q) (counts : o.counts = true) (why : Panic) :
    State.exec p o s ≠ .error (.panic why) := by
  have dup : ∀ f, 1 ≤ (s.ftable f).ref → State.filedup f s ≠ .error (.panic why) := by
    intro f held
    unfold State.filedup
    rw [if_neg (by omega)]
    simp
  cases o with
  | filedup f => exact dup f (spec.1.trans (inv.netFile_le_ref f p))
  | filedrop f =>
    have held : 1 ≤ (s.ftable f).ref := spec.1.trans (inv.netFile_le_ref f p)
    simp only [State.exec, State.filedrop]
    rw [if_neg (by omega)]
    split <;> simp
  | forkFd child fd =>
    simp only [State.exec]
    split
    · simp
    · rename_i f at_fd
      have safe := dup f (inv.ref_of_ofile spec.2.1 at_fd)
      split
      · rename_i failed
        rw [failed] at safe
        simpa using safe
      · simp
  | _ => cases counts

omit [Fintype P] [Store D A] in
theorem frees_of_note {s v : Plumbing P D A} {p : P} {r : o.Res} {n : Nat}
    (noted : s.note kalloc p o r = some v) : (v.page n).frees = (s.page n).frees := by
  unfold Plumbing.note at noted
  split at noted
  · split at noted
    · cases noted
    · cases noted
      rcases eq_or_ne n (kalloc s) with rfl | ne
      · simp [Plumbing.alloc]
      · simp [Plumbing.alloc, ne]
  · cases noted
    rfl
  · split at noted
    · cases noted
      rfl
    · cases noted
      rfl
  · cases noted
    rfl

omit [Store D A] in
theorem PipeInv.freed {s : Plumbing P D A} {γ : P → Ghost P × Bool} {p : P} {m n : Nat} {w : Bool}
    (inv : PipeInv s γ) (closing : s.closing p = some (m, w))
    (freed : ((s.pipeclose p m w).page n).frees ≠ (s.page n).frees) :
    (s.page n).used = true ∧ ((s.pipeclose p m w).page n).frees = (s.page n).frees + 1 ∧
      ∀ f, (s.fs.ftable f).type = .pipe → s.pipe f ≠ n := by
  rcases eq_or_ne n m with rfl | ne
  · have after := inv.pipeclose closing
    have is_open : (s.page n).isOpen w = true := inv.ends.ok_of_claim (.closing p) _ closing
    have shut : ∀ w', ((s.pipeclose p n w).page n).isOpen w' = false := by
      intro w'
      cases w <;> cases w' <;> revert freed <;> simp [Plumbing.pipeclose, Page.isOpen] <;>
        split <;> simp_all
    refine ⟨?_, ?_, fun f type at_f => ?_⟩
    · rw [(inv.pages n).used]
      cases w with
      | false => exact Bool.or_eq_true_iff.mpr (.inl is_open)
      | true => exact Bool.or_eq_true_iff.mpr (.inr is_open)
    · revert freed
      cases w <;> simp [Plumbing.pipeclose] <;> split <;> simp_all
    · have own : (s.pipeclose p n w).claim (fun q => (γ q).2) (.file f) =
          some (n, (s.fs.ftable f).writable) := by
        simp [Plumbing.claim, Plumbing.pipeclose, type, at_f]
      cases (shut _).symm.trans (after.ends.ok_of_claim _ _ own)
  · simp [Plumbing.pipeclose, ne] at freed

/-- When no call is in progress, the references to a file are the descriptors that point at it, a
free file has no type, and the pages in use are those of the open pipes.  At any time a page was
freed as often as it was allocated, except for the one time that it is in use; it is freed when no
file has one of its ends; `filedup` and `fileclose` do not panic. -/
theorem file_references_exact {image : D → Prop} {s : Threads P (Op P) Op.Res Int (Plumbing P D A)}
    (reach : (plumbing kalloc image).Reachable s) :
    (Pool.Quiet s →
      (∀ f, (s.shared.fs.ftable f).ref = (Finset.univ.filter fun x : P × Fd =>
        (s.shared.fs.proc x.1).ofile x.2 = some f).card) ∧
      (∀ f, (s.shared.fs.ftable f).ref = 0 → (s.shared.fs.ftable f).type = .none) ∧
      ∀ n, (s.shared.page n).used = true ↔ ∃ f, (s.shared.fs.ftable f).type = .pipe ∧
        s.shared.pipe f = n ∧ 0 < (s.shared.fs.ftable f).ref) ∧
    (∀ n, (s.shared.page n).allocs =
      (s.shared.page n).frees + if (s.shared.page n).used then 1 else 0) ∧
    (∀ a t n, (plumbing kalloc image).step s a t →
      (t.shared.page n).frees ≠ (s.shared.page n).frees →
      (s.shared.page n).used = true ∧ (t.shared.page n).frees = (s.shared.page n).frees + 1 ∧
        ∀ f, (t.shared.fs.ftable f).type = .pipe → t.shared.pipe f ≠ n) ∧
    ∀ p o k, s.code p = some (.call o k) → o.counts = true →
      ∀ why, State.exec p o s.shared.fs ≠ .error (.panic why) := by
  obtain ⟨γ, ver, idle⟩ := plumbed_of_reachable reach
  have inv := ver.inv
  refine ⟨fun quiet => ⟨fun f => ?_, fun f zero => ?_, fun n => ⟨fun used => ?_, fun is => ?_⟩⟩,
    fun n => (inv.pages n).counts, fun a t n step freed => ?_, fun p o k code counts why => ?_⟩
  · have own : tally (fdRefs f) (pairs s.shared.fs fun p => (γ p).1) =
        tally (fun pr : Proc => tally (fdRef f) pr.ofile) s.shared.fs.proc := by
      refine Finset.sum_congr rfl fun p _ => ?_
      unfold fdRefs pairs
      rw [(ver.idle p (quiet p)).1.2.2.1]
      exact add_zero _
    rw [inv.inv.frefs f, own]
    simp only [tally, fdRef]
    rw [← Finset.sum_product' Finset.univ Finset.univ
      fun p fd => if (s.shared.fs.proc p).ofile fd = some f then (1 : ℤ) else 0]
    simp
  · by_contra typed
    have := inv.inv.used f typed
    omega
  · -- somebody owns an open end, and without a call this is a file
    obtain ⟨w, is_open⟩ : ∃ w, s.shared.Open (n, w) := by
      have either := (inv.pages n).used
      rw [used, eq_comm, Bool.or_eq_true_iff] at either
      rcases either with left | right
      · exact ⟨false, left⟩
      · exact ⟨true, right⟩
    obtain ⟨o, own⟩ := inv.owned _ is_open
    cases o with
    | file f =>
      simp only [Plumbing.claim] at own
      split at own
      · rename_i type
        cases own
        exact ⟨f, type, rfl, inv.inv.used f (by simp [type])⟩
      · cases own
    | closing p =>
      have none := idle p (quiet p)
      cases none.symm.trans own
    | making p => simp [Plumbing.claim, (ver.idle p (quiet p)).2] at own
  · obtain ⟨f, type, rfl, -⟩ := is
    have own : s.shared.claim (fun q => (γ q).2) (.file f) =
        some (s.shared.pipe f, (s.shared.fs.ftable f).writable) := by
      simp [Plumbing.claim, type]
    have is_open :
        (s.shared.page (s.shared.pipe f)).isOpen (s.shared.fs.ftable f).writable = true :=
      inv.ends.ok_of_claim _ _ own
    rw [(inv.pages _).used, Bool.or_eq_true_iff]
    cases w : (s.shared.fs.ftable f).writable with
    | false => exact .inl (by rwa [w] at is_open)
    | true => exact .inr (by rwa [w] at is_open)
  · cases step with
    | act step guard =>
      cases step with
      | start => exact absurd rfl freed
      | op code exec =>
        obtain ⟨-, u, v, -, noted, rfl⟩ := plumbed_exec exec
        exact absurd (frees_of_note noted) freed
      | leave => exact absurd rfl freed
    | pipeclose closing => exact inv.freed closing freed
  · obtain ⟨b, -, spec⟩ := ver.safe p _ code
    exact inv.inv.counts_safe spec counts why

omit [Fintype P] in
theorem plumbing_run {image : D → Prop} {p : P} {c : Body P Int}
    {s : Threads P (Op P) Op.Res Int (Plumbing P D A)} {t : Plumbing P D A} {r : Int}
    (reach : (plumbing kalloc image).Reachable s) (code : s.code p = some c)
    (ran : c.run ((plumbed kalloc).exec p) s.shared = some (r, t)) (idle : t.closing p = none) :
    (plumbing kalloc image).Reachable ⟨t, update s.code p none⟩ := by
  induction c generalizing s with
  | done a =>
    cases ran
    exact .step reach (.act (.leave code) fun q r eq => by cases eq; exact idle)
  | call o k ih =>
    simp only [Code.run] at ran
    split at ran
    · rename_i v u eq
      have first : (plumbing kalloc image).Reachable ⟨u, update s.code p (some (k v))⟩ :=
        .step reach (.act (.op code eq) fun q r eq => by cases eq)
      have last := ih v first (by simp) ran
      simpa using last
    · cases ran

end Sound

/-- One process with a pipe: two files, one descriptor each, and a page in use. -/
theorem file_references_exact_pipe : ∃ s : Threads Unit (Op Unit) Op.Res Int
      (Plumbing Unit (Disk Disk.smallSb) Addrs),
    (plumbing (fun _ => 7) (· = Disk.rootDisk)).Reachable s ∧ Pool.Quiet s ∧
      (s.shared.fs.ftable 1).ref = 1 ∧ (s.shared.page 7).used = true ∧
      ∃ f, (s.shared.fs.ftable f).type = .pipe ∧ s.shared.pipe f = 7 ∧
        0 < (s.shared.fs.ftable f).ref := by
  let start : Plumbing Unit (Disk Disk.smallSb) Addrs := .initial Disk.rootDisk ()
  have ran : ((Syscall.body (.pipe true true) : Body Unit Int).run
      ((plumbed fun _ => 7).exec ()) start).map (fun x =>
        (x.2.closing (), (x.2.fs.ftable 1).ref, (x.2.page 7).used)) = some (none, 1, true) := by
    decide +kernel
  obtain ⟨⟨r, t⟩, ends, facts⟩ := Option.map_eq_some_iff.mp ran
  simp only [Prod.mk.injEq] at facts
  have begun : (plumbing (fun _ => 7) (· = Disk.rootDisk)).Reachable
      (⟨start, update (fun _ => none) () (some (Syscall.body (.pipe true true)))⟩ :
        Threads Unit (Op Unit) Op.Res Int (Plumbing Unit (Disk Disk.smallSb) Addrs)) :=
    .step (.init (s := ⟨start, fun _ => none⟩) ⟨⟨_, (), rfl, rfl⟩, fun _ => rfl⟩)
      (.act (a := .start () (.pipe true true)) (.start rfl rfl) fun q r eq => by cases eq)
  have reach := plumbing_run begun (by simp) ends facts.1
  have quiet : Pool.Quiet (⟨t, update (update (fun _ => none) ()
      (some (Syscall.body (.pipe true true)))) () none⟩ :
        Threads Unit (Op Unit) Op.Res Int (Plumbing Unit (Disk Disk.smallSb) Addrs)) := by
    intro p
    simp
  exact ⟨_, reach, quiet, facts.2.1, facts.2.2,
    (((file_references_exact reach).1 quiet).2.2 7).mp facts.2.2⟩

end Xv6.Fs
