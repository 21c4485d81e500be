import Xv6.Fs.Calls
import Xv6.Lib.Tally

/-!
# What a process owes and holds during a system call

The ghost of a process says which references to inodes and files it holds beyond those of its
descriptors and its current directory (a negative number is a debt: a pointer whose reference is
already gone), which inodes it has locked, how many operations it has begun, and what it has
learned about its own descriptors.  `protocol` specifies each step by what it does to the ghost;
here are the functions of `fs.c` and `file.c`, and `create`.
-/

namespace Xv6.Fs

open Function

/-- What a process holds, owes and knows in the middle of a call. -/
structure Ghost (P : Type) where
  /-- The process is known to be running. -/
  alive : Bool
  /-- References to inodes. -/
  refs : Ip → ℤ
  /-- Locked inodes. -/
  locks : Ip → Bool
  /-- References to files. -/
  frefs : FilePtr → ℤ
  /-- Files that were allocated and not yet opened. -/
  fresh : FilePtr → Bool
  /-- What is known of the descriptors. -/
  ofile : Fd → Option (Option FilePtr)
  /-- What is known of the current directory. -/
  cwd : Option Ip
  /-- The child that is being made, and the number of its descriptors that are set. -/
  child : Option (P × Nat)
  /-- Operations begun and not ended. -/
  ops : ℤ

namespace Ghost

variable {P : Type}

/-- The ghost at the start of a call. -/
def ready : Ghost P := ⟨true, 0, fun _ => false, 0, fun _ => false, fun _ => none, none, none, 0⟩

/-- Nothing is held, and nothing is owed. -/
def Rest (g : Ghost P) : Prop :=
  g.refs = 0 ∧ g.locks = (fun _ => false) ∧ g.frefs = 0 ∧ g.fresh = (fun _ => false) ∧
    g.child = none ∧ g.ops = 0

def addRef (g : Ghost P) (ip : Ip) (k : ℤ) : Ghost P :=
  { g with refs := update g.refs ip (g.refs ip + k) }

def setLock (g : Ghost P) (ip : Ip) (b : Bool) : Ghost P :=
  { g with locks := update g.locks ip b }

def addFile (g : Ghost P) (f : FilePtr) (k : ℤ) : Ghost P :=
  { g with frefs := update g.frefs f (g.frefs f + k) }

def setFresh (g : Ghost P) (f : FilePtr) (b : Bool) : Ghost P :=
  { g with fresh := update g.fresh f b }

def setFd (g : Ghost P) (fd : Fd) (x : Option FilePtr) : Ghost P :=
  { g with ofile := update g.ofile fd (some x) }

def setCwd (g : Ghost P) (cwd : Option Ip) : Ghost P := { g with cwd := cwd }

def setChild (g : Ghost P) (child : Option (P × Nat)) : Ghost P := { g with child := child }

def gone (g : Ghost P) : Ghost P := { g with alive := false, cwd := none, ofile := fun _ => none }

def addOps (g : Ghost P) (k : ℤ) : Ghost P := { g with ops := g.ops + k }

def known (f : FilePtr) (x : Option (Option FilePtr)) : ℤ := if x = some (some f) then 1 else 0

/-- The references of the process to `ip`, its current directory included where it is known. -/
def net (g : Ghost P) (ip : Ip) : ℤ := (if g.cwd = some ip then 1 else 0) + g.refs ip

/-- The references of the process to `f`, those of known descriptors included. -/
def netFile (g : Ghost P) (f : FilePtr) : ℤ := tally (known f) g.ofile + g.frefs f

variable {g : Ghost P} {ip jp : Ip} {f : FilePtr} {fd : Fd}

@[simp] theorem addRef_zero : g.addRef ip 0 = g := by
  simp [addRef]

@[simp] theorem addRef_addRef (a b : ℤ) : (g.addRef ip a).addRef ip b = g.addRef ip (a + b) := by
  simp [addRef, add_assoc]

theorem addRef_comm (a b : ℤ) : (g.addRef ip a).addRef jp b = (g.addRef jp b).addRef ip a := by
  rcases eq_or_ne ip jp with rfl | ne
  · simp [add_comm]
  · simp [addRef, ne, ne.symm, update_comm ne]

@[simp] theorem addFile_zero : g.addFile f 0 = g := by
  simp [addFile]

@[simp] theorem addFile_addFile (a b : ℤ) : (g.addFile f a).addFile f b = g.addFile f (a + b) := by
  simp [addFile, add_assoc]

@[simp] theorem addOps_zero : g.addOps 0 = g := by
  simp [addOps]

@[simp] theorem addOps_addOps (a b : ℤ) : (g.addOps a).addOps b = g.addOps (a + b) := by
  simp [addOps, add_assoc]

@[simp] theorem setLock_setLock (a b : Bool) : (g.setLock ip a).setLock ip b = g.setLock ip b := by
  simp [setLock]

theorem setLock_same {b : Bool} (same : g.locks ip = b) : g.setLock ip b = g := by
  simp [setLock, ← same]

theorem setLock_comm (ne : ip ≠ jp) (a b : Bool) :
    (g.setLock ip a).setLock jp b = (g.setLock jp b).setLock ip a := by
  simp [setLock, update_comm ne]

theorem setLock_release (free : g.locks ip = false) (ne : jp ≠ ip) :
    ((g.setLock ip true).setLock jp true).setLock ip false = g.setLock jp true := by
  rw [setLock_comm ne.symm, setLock_setLock, setLock_comm ne, setLock_same free]

theorem ne_of_locks (free : (g.setLock ip true).locks jp = false) : jp ≠ ip := by
  rintro rfl
  simp [setLock] at free

@[simp] theorem setFresh_setFresh (a b : Bool) :
    (g.setFresh f a).setFresh f b = g.setFresh f b := by
  simp [setFresh]

theorem setFresh_same {b : Bool} (same : g.fresh f = b) : g.setFresh f b = g := by
  simp [setFresh, ← same]

variable {f' : FilePtr}

theorem setFresh_comm (ne : f ≠ f') (a b : Bool) :
    (g.setFresh f a).setFresh f' b = (g.setFresh f' b).setFresh f a := by
  simp [setFresh, update_comm ne]

theorem addFile_comm (a b : ℤ) : (g.addFile f a).addFile f' b = (g.addFile f' b).addFile f a := by
  rcases eq_or_ne f f' with rfl | ne
  · simp [add_comm]
  · simp [addFile, ne, ne.symm, update_comm ne]

@[simp] theorem addFile_cancel (a : ℤ) :
    ((g.addFile f 1).addFile f' a).addFile f (-1) = g.addFile f' a := by
  rw [addFile_comm, addFile_addFile]
  simp

@[simp] theorem setFd_setFd (x y : Option FilePtr) :
    (g.setFd fd x).setFd fd y = g.setFd fd y := by
  simp [setFd]

@[simp] theorem ofile_setFd_self (x : Option FilePtr) : (g.setFd fd x).ofile fd = some x := by
  simp [setFd]

/-! Changes to different fields commute; these are put in one order: operations outermost, then
references, locks, files. -/

@[simp] theorem addOps_addRef (k a : ℤ) : (g.addOps k).addRef ip a = (g.addRef ip a).addOps k := rfl

@[simp] theorem addOps_setLock (k : ℤ) (b : Bool) :
    (g.addOps k).setLock ip b = (g.setLock ip b).addOps k := rfl

@[simp] theorem addRef_setLock (a : ℤ) (b : Bool) :
    (g.addRef ip a).setLock jp b = (g.setLock jp b).addRef ip a := rfl

@[simp] theorem addRef_addFile (a k : ℤ) :
    (g.addRef ip a).addFile f k = (g.addFile f k).addRef ip a := rfl

@[simp] theorem addRef_setFresh (a : ℤ) (b : Bool) :
    (g.addRef ip a).setFresh f b = (g.setFresh f b).addRef ip a := rfl

@[simp] theorem addOps_setFresh (a : ℤ) (b : Bool) :
    (g.addOps a).setFresh f b = (g.setFresh f b).addOps a := rfl

@[simp] theorem setFd_addFile (x : Option FilePtr) (k : ℤ) :
    (g.setFd fd x).addFile f k = (g.addFile f k).setFd fd x := rfl

@[simp] theorem setFd_setFresh (x : Option FilePtr) (b : Bool) :
    (g.setFd fd x).setFresh f b = (g.setFresh f b).setFd fd x := rfl

@[simp] theorem setFresh_addFile (b : Bool) (k : ℤ) :
    (g.setFresh f' b).addFile f k = (g.addFile f k).setFresh f' b := rfl

@[simp] theorem setLock_setFresh (b c : Bool) :
    (g.setLock ip b).setFresh f c = (g.setFresh f c).setLock ip b := rfl

@[simp] theorem setFd_setLock (x : Option FilePtr) (b : Bool) :
    (g.setFd fd x).setLock ip b = (g.setLock ip b).setFd fd x := rfl

@[simp] theorem setFd_addRef (x : Option FilePtr) (a : ℤ) :
    (g.setFd fd x).addRef ip a = (g.addRef ip a).setFd fd x := rfl

@[simp] theorem setFd_addOps (x : Option FilePtr) (k : ℤ) :
    (g.setFd fd x).addOps k = (g.addOps k).setFd fd x := rfl

@[simp] theorem setCwd_addRef (c : Option Ip) (a : ℤ) :
    (g.setCwd c).addRef ip a = (g.addRef ip a).setCwd c := rfl

@[simp] theorem setCwd_addOps (c : Option Ip) (k : ℤ) :
    (g.setCwd c).addOps k = (g.addOps k).setCwd c := rfl

@[simp] theorem rest_setCwd (c : Option Ip) : (g.setCwd c).Rest ↔ g.Rest := Iff.rfl

@[simp] theorem rest_gone : g.gone.Rest ↔ g.Rest := Iff.rfl

@[simp] theorem rest_setFd (x : Option FilePtr) : (g.setFd fd x).Rest ↔ g.Rest := Iff.rfl

@[simp] theorem locks_addRef (a : ℤ) : (g.addRef ip a).locks = g.locks := rfl

@[simp] theorem locks_addOps (k : ℤ) : (g.addOps k).locks = g.locks := rfl

@[simp] theorem locks_setLock_self (b : Bool) : (g.setLock ip b).locks ip = b := by simp [setLock]

theorem locks_setLock_ne (ne : jp ≠ ip) (b : Bool) : (g.setLock ip b).locks jp = g.locks jp := by
  simp [setLock, ne]

theorem locks_of_setLock (free : (g.setLock ip true).locks jp = false) : g.locks jp = false := by
  rwa [locks_setLock_ne (ne_of_locks free)] at free

@[simp] theorem net_addRef_self (a : ℤ) : (g.addRef ip a).net ip = g.net ip + a := by
  unfold net addRef
  dsimp only
  rw [update_self, add_assoc]

theorem net_addRef_ne (ne : ip ≠ jp) (a : ℤ) : (g.addRef jp a).net ip = g.net ip := by
  unfold net addRef
  dsimp only
  rw [update_of_ne ne]

theorem le_net_addRef {a : ℤ} (nonneg : 0 ≤ a) : g.net ip ≤ (g.addRef jp a).net ip := by
  rcases eq_or_ne ip jp with rfl | ne
  · rw [net_addRef_self]
    omega
  · rw [net_addRef_ne ne]

theorem net_nonneg_of_addRef (pos : 0 ≤ g.net jp) (pos' : 0 ≤ (g.addRef jp 1).net ip) :
    0 ≤ g.net ip := by
  rcases eq_or_ne ip jp with rfl | ne
  · exact pos
  · rwa [net_addRef_ne ne] at pos'

@[simp] theorem addRef_cancel (a : ℤ) :
    ((g.addRef ip 1).addRef jp a).addRef ip (-1) = g.addRef jp a := by
  rw [addRef_comm, addRef_addRef]
  simp

@[simp] theorem net_setLock (b : Bool) : (g.setLock jp b).net ip = g.net ip := rfl

@[simp] theorem net_addFile (k : ℤ) : (g.addFile f k).net ip = g.net ip := rfl

@[simp] theorem net_setFd (x : Option FilePtr) : (g.setFd fd x).net ip = g.net ip := rfl

@[simp] theorem net_setFresh (b : Bool) : (g.setFresh f b).net ip = g.net ip := rfl

@[simp] theorem netFile_addRef (a : ℤ) : (g.addRef ip a).netFile f = g.netFile f := rfl

@[simp] theorem netFile_addOps (k : ℤ) : (g.addOps k).netFile f = g.netFile f := rfl

@[simp] theorem netFile_setLock (b : Bool) : (g.setLock ip b).netFile f = g.netFile f := rfl

@[simp] theorem netFile_setFresh (b : Bool) : (g.setFresh f' b).netFile f = g.netFile f := rfl

@[simp] theorem netFile_addFile_self (k : ℤ) : (g.addFile f k).netFile f = g.netFile f + k := by
  unfold netFile addFile
  dsimp only
  rw [update_self, add_assoc]

theorem netFile_addFile_ne (ne : f ≠ f') (k : ℤ) : (g.addFile f' k).netFile f = g.netFile f := by
  unfold netFile addFile
  dsimp only
  rw [update_of_ne ne]

theorem netFile_setFd (x : Option FilePtr) :
    (g.setFd fd x).netFile f = g.netFile f - known f (g.ofile fd) + known f (some x) := by
  unfold netFile setFd
  dsimp only
  rw [tally_update]
  omega

theorem netFile_setFd_other {x : Option FilePtr} (unknown : g.ofile fd ≠ some (some f))
    (ne : x ≠ some f) : (g.setFd fd x).netFile f = g.netFile f := by
  rw [netFile_setFd, known, if_neg unknown, known, if_neg (by simpa using ne)]
  omega

theorem one_le_netFile (files : g.frefs = 0) (at_fd : g.ofile fd = some (some f)) :
    1 ≤ g.netFile f := by
  have le := le_tally (w := known f) (g := g.ofile) (fun d => by unfold known; split <;> decide) fd
  rw [at_fd, known, if_pos rfl] at le
  simpa [netFile, files] using le

@[simp] theorem known_some : known f (some (some f)) = 1 := if_pos rfl

theorem known_of_ne {x : Option (Option FilePtr)} (ne : x ≠ some (some f)) : known f x = 0 :=
  if_neg ne

@[simp] theorem net_addOps (k : ℤ) : (g.addOps k).net ip = g.net ip := rfl

end Ghost

/-! ## The steps -/

section

variable {P : Type}

/-- What a step asks of the ghost, and the ghosts it can lead to. -/
def protocolSpec : (o : Op P) → Ghost P → (o.Res → Ghost P → Prop) → Prop
  | .panic _, _, _ => True
  | .beginOp, g, Q => Q () (g.addOps 1)
  | .endOp, g, Q => Q () (g.addOps (-1))
  | .iget _ _, g, Q => ∀ ip, 0 ≤ g.net ip → Q ip (g.addRef ip 1)
  | .idupCwd, g, Q => g.cwd = none ∧ ∀ ip, 0 ≤ g.net ip → Q ip (g.addRef ip 1)
  | .unref ip, g, Q => 1 ≤ g.net ip ∧ Q () (g.addRef ip (-1))
  | .acquiresleep ip, g, Q => g.locks ip = false → Q () (g.setLock ip true)
  | .releasesleep ip, g, Q => g.locks ip = true ∧ Q () (g.setLock ip false)
  | .iunlock ip, g, Q => g.locks ip = true → Q () (g.setLock ip false)
  | .ofile fd, g, Q => g.alive = true ∧ ∀ r, Q r (g.setFd fd r)
  | .closeFd fd, g, Q =>
    g.alive = true ∧ ∃ f, g.ofile fd = some (some f) ∧ Q () ((g.setFd fd none).addFile f 1)
  | .fdalloc f, g, Q => g.alive = true ∧ 1 ≤ g.netFile f ∧ Q none g ∧
      ∀ fd, (∀ f, g.ofile fd ≠ some (some f)) → Q (some fd) ((g.setFd fd (some f)).addFile f (-1))
  | .filealloc, g, Q => Q none g ∧
      ∀ f, g.fresh f = false → Q (some f) ((g.addFile f 1).setFresh f true)
  | .filedup f, g, Q => 1 ≤ g.netFile f ∧ g.fresh f = false ∧ Q () (g.addFile f 1)
  | .filedrop f, g, Q => 1 ≤ g.netFile f ∧
      (g.fresh f = false → Q none (g.addFile f (-1))) ∧
      ∀ ff : File, (g.fresh f = true → ff.type = .none) → 0 ≤ g.net ff.ip →
        Q (some ff) (((if ff.type = .inode then g.addRef ff.ip 1 else g).addFile f (-1)).setFresh f
          false)
  | .openFile f ip _ _, g, Q =>
    g.fresh f = true ∧ 1 ≤ g.net ip ∧ Q () ((g.addRef ip (-1)).setFresh f false)
  | .openPipe f _, g, Q => g.fresh f = true ∧ Q () (g.setFresh f false)
  | .cwd, g, Q => ∀ ip, Q ip (g.setCwd (some ip))
  | .chdir ip, g, Q => g.alive = true ∧ 1 ≤ g.net ip ∧
      ∃ old, g.cwd = some old ∧ Q () (((g.addRef ip (-1)).addRef old 1).setCwd (some ip))
  | .allocproc child, g, Q => g.child = none ∧ Q false g ∧ Q true (g.setChild (some (child, 0)))
  | .forkFd child fd, g, Q => g.child = some (child, fd.val) ∧ g.frefs = 0 ∧
      g.fresh = (fun _ => false) ∧ Q () (g.setChild (some (child, fd.val + 1)))
  | .forkCwd child, g, Q => g.cwd = none ∧ g.child = some (child, nofile) ∧ Q () (g.setChild none)
  | .exit, g, Q => g.alive = true ∧ (∀ fd, g.ofile fd = some none) ∧
      ∃ old, g.cwd = some old ∧ Q () (g.addRef old 1).gone
  | _, g, Q => ∀ r, Q r g

def protocol (P : Type) : Logic (Op P) Op.Res (Ghost P) where
  spec := protocolSpec
  mono {o g Q R} imp spec := by
    cases o <;> simp only [protocolSpec] at spec ⊢ <;> grind

/-! ## The functions -/

variable {g : Ghost P} {ip dp : Ip} {f : FilePtr} {α : Type}

theorem wp_step {o : Op P} {k : o.Res → Body P α} {Q : α → Ghost P → Prop} :
    (step o >>= k).wp (protocol P) g Q ↔
      protocolSpec o g fun r h => (k r).wp (protocol P) h Q := Iff.rfl

theorem wp_end {o : Op P} {Q : o.Res → Ghost P → Prop} :
    (step o).wp (protocol P) g Q ↔ protocolSpec o g Q := Iff.rfl

theorem wp_stop (why : Panic) (Q : α → Ghost P → Prop) :
    (stop why : Body P α).wp (protocol P) g Q := trivial

variable {Q : Unit → Ghost P → Prop}

/-- `ilock` returns with the lock, which the process did not have. -/
theorem wp_ilock (locked : g.locks ip = false → Q () (g.setLock ip true)) :
    (ilock ip).wp (protocol P) g Q := by
  refine wp_step.mpr fun r => ?_
  dsimp only
  split
  · exact wp_stop ..
  · exact fun free _ => locked free

theorem wp_iputFree (post : Q () g) : (iputFree ip).wp (protocol P) g Q := by
  refine wp_step.mpr fun a => ?_
  dsimp only
  split
  · refine wp_step.mpr fun r => ?_
    dsimp only
    split
    · exact fun _ => post
    · exact post
  · exact post

/-- `iput` gives a reference back; it holds the lock in between only. -/
theorem wp_iput (held : 1 ≤ g.net ip) (post : Q () (g.addRef ip (-1))) :
    (iput ip).wp (protocol P) g Q := by
  refine wp_step.mpr fun free => wp_step.mpr fun valid => ?_
  have last : (step (.releasesleep ip) >>= fun _ => step (.unref ip)).wp (protocol P)
      (g.setLock ip true) Q := by
    refine ⟨by simp, ?_⟩
    rw [Ghost.setLock_setLock, Ghost.setLock_same free]
    exact ⟨held, post⟩
  dsimp only
  split
  · exact .bind (wp_iputFree last)
  · exact last

theorem wp_iunlockput (held : 1 ≤ g.net ip)
    (post : g.locks ip = true → Q () ((g.setLock ip false).addRef ip (-1))) :
    (iunlockput ip).wp (protocol P) g Q :=
  wp_step.mpr fun locked => wp_iput held (post locked)

theorem wp_consoleIO {Q : Int → Ghost P → Prop} {r : Int} (post : Q r g) :
    consoleIO ip r |>.wp (protocol P) g Q := by
  refine wp_step.mpr fun locked => .bind (wp_ilock fun _ => ?_)
  rw [Ghost.setLock_setLock, Ghost.setLock_same locked]
  exact post

theorem wp_readi {Q : Int → Ghost P → Prop} {off n : Nat} {input : Int} (post : ∀ r, Q r g) :
    (readi ip off n input).wp (protocol P) g Q := by
  refine wp_step.mpr fun a => ?_
  dsimp only
  split
  · split
    · exact post _
    · exact wp_consoleIO (post _)
  · refine wp_step.mpr fun r => ?_
    cases r with
    | none => exact post _
    | some bytes => exact post _

variable {src : List Byte}

theorem wp_writei {Q : Int → Ghost P → Prop} {off : Nat} (post : ∀ r, Q r g) :
    (writei ip off src).wp (protocol P) g Q := by
  refine wp_step.mpr fun a => ?_
  dsimp only
  split
  · split
    · exact post _
    · exact wp_consoleIO (post _)
  · refine wp_step.mpr fun r => ?_
    cases r with
    | none => exact post _
    | some n => exact post _

variable {name : List Byte}

/-- `dirlookup` returns a reference to the inode that it has found. -/
theorem wp_dirlookup {Q : Option (Ip × Nat) → Ghost P → Prop} (absent : Q none g)
    (found : ∀ ip off, 0 ≤ g.net ip → Q (some (ip, off)) (g.addRef ip 1)) :
    (dirlookup dp name).wp (protocol P) g Q := by
  refine wp_step.mpr fun r => ?_
  cases r with
  | none => exact absent
  | some r => exact fun _ ip => found ip r.2

theorem wp_dirlink {Q : Bool → Ghost P → Prop} {inum : Nat} (post : ∀ r, Q r g) :
    (dirlink dp name inum).wp (protocol P) g Q := by
  refine .bind (wp_dirlookup ?_ fun ip off pos => ?_)
  · refine wp_step.mpr fun off => wp_step.mpr fun r => ?_
    dsimp only
    split
    · exact post true
    · exact wp_stop ..
  · refine .bind (wp_iput (by simp; omega) ?_)
    simpa using post false

/-- The loop of `namex` gives back every directory on its way, on each of its exits. -/
theorem wp_namexLoop {Q : Option (Ip × List Byte) → Ghost P → Prop} {parent : Bool}
    {names : List (List Byte)} (pos : 0 ≤ g.net ip) (absent : Q none g)
    (found : ∀ ip name, 0 ≤ g.net ip → Q (some (ip, name)) (g.addRef ip 1)) :
    (namexLoop parent ip names).wp (protocol P) (g.addRef ip 1) Q := by
  induction names generalizing ip with
  | nil =>
    unfold namexLoop
    split
    · exact .bind (wp_iput (by simp; omega) (by simpa using absent))
    · exact found ip [] pos
  | cons name rest ih =>
    unfold namexLoop
    refine .bind (wp_ilock fun free => wp_step.mpr fun a => ?_)
    have unlocked : g.setLock ip false = g := Ghost.setLock_same free
    have held : 1 ≤ ((g.addRef ip 1).setLock ip true).net ip := by simp; omega
    dsimp only
    split
    · refine .bind (wp_iunlockput held fun _ => ?_)
      simpa [unlocked] using absent
    · split
      · refine wp_step.mpr fun _ => ?_
        simpa [unlocked] using found ip name pos
      · refine .bind (wp_dirlookup ?_ fun next off pos' => ?_)
        · refine .bind (wp_iunlockput held fun _ => ?_)
          simpa [unlocked] using absent
        · refine .bind (wp_iunlockput ?_ fun _ => ?_)
          · exact held.trans (Ghost.le_net_addRef zero_le_one)
          · simpa [unlocked] using ih (Ghost.net_nonneg_of_addRef pos pos')

variable {path : List Byte}

theorem wp_namex {Q : Option (Ip × List Byte) → Ghost P → Prop} {parent : Bool}
    (unknown : g.cwd = none) (absent : Q none g)
    (found : ∀ ip name, 0 ≤ g.net ip → Q (some (ip, name)) (g.addRef ip 1)) :
    (namex path parent).wp (protocol P) g Q := by
  unfold namex
  split
  · exact wp_step.mpr fun ip pos => wp_namexLoop pos absent found
  · exact wp_step.mpr ⟨unknown, fun ip pos => wp_namexLoop pos absent found⟩

theorem wp_namei {Q : Option Ip → Ghost P → Prop} (unknown : g.cwd = none) (absent : Q none g)
    (found : ∀ ip, 0 ≤ g.net ip → Q (some ip) (g.addRef ip 1)) : (namei path).wp (protocol P) g Q :=
  .bind (wp_namex unknown absent fun ip _ => found ip)

/-! ### `file.c` -/

theorem wp_fileclose (held : 1 ≤ g.netFile f) (post : Q () ((g.addFile f (-1)).setFresh f false)) :
    (fileclose f).wp (protocol P) g Q := by
  refine wp_step.mpr ⟨held, fun old => ?_, fun ff _ pos => ?_⟩
  · rw [Ghost.setFresh_same (g := g.addFile f (-1)) old] at post
    exact post
  · dsimp only
    split
    · refine wp_step.mpr (.bind (wp_iput ?_ (wp_end.mpr ?_)))
      · simpa using pos
      · simpa [protocolSpec] using post
    · exact post

theorem wp_filestat {Q : Int → Ghost P → Prop} (post : ∀ r, Q r g) :
    (filestat f).wp (protocol P) g Q := by
  refine wp_step.mpr fun x => ?_
  dsimp only
  split
  · refine .bind (wp_ilock fun free => wp_step.mpr fun _ => wp_step.mpr fun _ => ?_)
    simpa [Ghost.setLock_same free] using post 0
  · exact post (-1)

theorem wp_advance {Q : α → Ghost P → Prop} {r : Int} {k : Unit → Body P α}
    (free : g.locks ip = false) (post : (k ()).wp (protocol P) g Q) :
    (if 0 < r then step (.advance f r.toNat) >>= fun _ => step (.iunlock ip) >>= k
      else step (.iunlock ip) >>= k).wp (protocol P) (g.setLock ip true) Q := by
  have last : (step (.iunlock ip) >>= k).wp (protocol P) (g.setLock ip true) Q := by
    refine wp_step.mpr fun _ => ?_
    simpa [Ghost.setLock_same free] using post
  split
  · exact fun _ => last
  · exact last

/-- `fileread` has the lock of the inode only inside. -/
theorem wp_fileread {Q : Int → Ghost P → Prop} {n : Nat} {input : Int} (post : ∀ r, Q r g) :
    (fileread f n input).wp (protocol P) g Q := by
  refine wp_step.mpr fun x => ?_
  dsimp only
  split
  · exact post (-1)
  · split
    · exact post input
    · refine .bind (wp_ilock fun free => wp_step.mpr fun y => ?_)
      exact .bind (wp_readi fun r => wp_advance free (post r))
    · exact wp_stop ..

theorem wp_filewriteLoop {Q : Bool → Ghost P → Prop} {k : Nat} (post : ∀ r, Q r g) :
    (filewriteLoop f ip k src).wp (protocol P) g Q := by
  induction k generalizing src with
  | zero => exact post _
  | succ k ih =>
    unfold filewriteLoop
    split
    · exact post true
    · refine wp_step.mpr (.bind (wp_ilock fun free => wp_step.mpr fun x => ?_))
      refine .bind (wp_writei fun r => wp_advance free (wp_step.mpr ?_))
      have same : (g.addOps 1).addOps (-1) = g := by simp
      rw [protocolSpec, same]
      split
      · exact post false
      · split
        · exact wp_stop ..
        · exact ih

theorem wp_filewrite {Q : Int → Ghost P → Prop} {output : Int} (post : ∀ r, Q r g) :
    (filewrite f src output).wp (protocol P) g Q := by
  refine wp_step.mpr fun x => ?_
  dsimp only
  split
  · exact post (-1)
  · split
    · exact post output
    · refine .bind (wp_filewriteLoop fun r => ?_)
      split
      · exact post _
      · exact post (-1)
    · exact wp_stop ..

/-! ### `sysfile.c` -/

def Idle (g : Ghost P) : Prop := g.alive = true ∧ g.Rest

/-- `argfd` learns which file a descriptor stands for. -/
theorem wp_argfd {Q : Option (Fd × FilePtr) → Ghost P → Prop} {fd : Option Fd}
    (idle : Idle g) (bad : ∀ h : Ghost P, h.Rest → Q none h)
    (good : ∀ fd f, Q (some (fd, f)) (g.setFd fd (some f))) :
    (argfd fd).wp (protocol P) g Q := by
  cases fd with
  | none => exact bad g idle.2
  | some fd =>
    refine wp_step.mpr ⟨idle.1, fun r => ?_⟩
    cases r with
    | none => exact bad _ idle.2
    | some f => exact good fd f

theorem wp_createDots (post : Q () g) : (createDots dp ip).wp (protocol P) g Q := by
  refine wp_step.mpr fun _ => wp_step.mpr fun id => .bind (wp_dirlink fun r => ?_)
  dsimp only
  split
  · refine wp_step.mpr fun parent => .bind (wp_dirlink fun r => ?_)
    split
    · exact post
    · exact wp_stop ..
  · exact wp_stop ..

variable {type : Short}

theorem wp_iallocLoop {Q : Nat → Ghost P → Prop} {inums : List Nat} (post : ∀ inum, Q inum g) :
    (iallocLoop type inums).wp (protocol P) g Q := by
  induction inums with
  | nil => exact wp_stop ..
  | cons inum rest ih =>
    refine wp_step.mpr fun r => ?_
    dsimp only
    split
    · exact post inum
    · exact ih

theorem wp_ialloc {Q : Ip → Ghost P → Prop} {dev : Nat}
    (post : ∀ ip, 0 ≤ g.net ip → Q ip (g.addRef ip 1)) : (ialloc dev type).wp (protocol P) g Q :=
  wp_step.mpr fun _ => .bind (wp_iallocLoop fun _ => wp_end.mpr post)

/-- `create` of a new entry returns its inode locked, with a reference. -/
theorem wp_createNew {Q : Ip → Ghost P → Prop} {major minor : Short} (pos : 0 ≤ g.net dp)
    (free : g.locks dp = false)
    (post : ∀ ip, 0 ≤ g.net ip → g.locks ip = false → Q ip ((g.setLock ip true).addRef ip 1)) :
    (createNew dp name type major minor).wp (protocol P) ((g.addRef dp 1).setLock dp true) Q := by
  refine wp_step.mpr fun id => .bind (wp_ialloc fun ip pos' => ?_)
  refine .bind (wp_ilock fun free' => wp_step.mpr fun _ => ?_)
  have last : (step (.ident ip) >>= fun id => dirlink dp name id.2 >>= fun r =>
      if r then iunlockput dp >>= fun _ => pure ip else stop .createDirlink).wp (protocol P)
      ((((g.addRef dp 1).setLock dp true).addRef ip 1).setLock ip true) Q := by
    refine wp_step.mpr fun id => .bind (wp_dirlink fun r => ?_)
    split
    · refine .bind (wp_iunlockput ?_ fun _ => ?_)
      · rw [Ghost.net_setLock]
        exact le_trans (by simpa using pos) (Ghost.le_net_addRef zero_le_one)
      · have unlocked := Ghost.setLock_release free (Ghost.ne_of_locks (by simpa using free'))
        simpa [unlocked] using
          post ip (Ghost.net_nonneg_of_addRef pos pos')
          (Ghost.locks_of_setLock (by simpa using free'))
    · exact wp_stop ..
  dsimp only
  split
  · exact .bind (wp_createDots last)
  · exact last

/-- `create` returns no inode, or one that is locked, with a reference. -/
theorem wp_create {Q : Option Ip → Ghost P → Prop} {major minor : Short} (unknown : g.cwd = none)
    (absent : Q none g) (found : ∀ ip, 0 ≤ g.net ip → g.locks ip = false →
      Q (some ip) ((g.setLock ip true).addRef ip 1)) :
    (create path type major minor).wp (protocol P) g Q := by
  refine .bind (wp_namex unknown absent fun dp name pos => ?_)
  refine .bind (wp_ilock fun free => ?_)
  have unlocked : g.setLock dp false = g := Ghost.setLock_same free
  refine .bind (wp_dirlookup ?_ fun ip off pos' => ?_)
  · exact .bind (wp_createNew pos free fun ip => found ip)
  · have pos' : 0 ≤ g.net ip := Ghost.net_nonneg_of_addRef pos pos'
    refine .bind (wp_iunlockput ?_ fun _ => ?_)
    · refine le_trans ?_ (Ghost.le_net_addRef zero_le_one)
      simpa using pos
    · refine .bind (wp_ilock fun free' => wp_step.mpr fun a => ?_)
      simp only [Ghost.addRef_setLock, Ghost.setLock_setLock, unlocked,
        Ghost.addRef_cancel] at free' ⊢
      split
      · exact found ip pos' free'
      · refine .bind (wp_iunlockput (by simpa using pos') fun _ => ?_)
        simpa [Ghost.setLock_same (g := g) free'] using absent

end

end Xv6.Fs
