import Xv6.Fs.Protocol

/-!
# System calls give back what they take

Every system call starts and ends without references, locks, files and operations of its own, on
each of its paths (`syscall_protocol`).
-/

namespace Xv6.Fs

open List Ghost

/-- A call ends at rest that goes on from the ghost `g`. -/
abbrev Rests (P : Type) (c : Body P Int) (g : Ghost P) : Prop :=
  c.wp (protocol P) g fun _ h => h.Rest

variable {P : Type} {g : Ghost P} {ip dp : Ip} {f : FilePtr} {α : Type}

theorem rest_ready : (ready : Ghost P).Rest := ⟨rfl, rfl, rfl, rfl, rfl, rfl⟩

@[simp] theorem net_ready : (ready : Ghost P).net ip = 0 := rfl

@[simp] theorem netFile_ready : (ready : Ghost P).netFile f = 0 := by
  have zero : tally (known f) (ready : Ghost P).ofile = 0 := tally_eq_zero fun _ => rfl
  rw [netFile, zero]
  rfl

/-- A call that only has to end its operation. -/
theorem wp_leave {r : Int} : Rests P (step .endOp >>= fun _ => pure r) (ready.addOps 1) := by
  refine wp_step.mpr ?_
  simpa [protocolSpec] using rest_ready

/-- A call that has an inode locked gives it back and ends its operation. -/
theorem wp_leave_put {r : Int} :
    Rests P (iunlockput ip >>= fun _ => step .endOp >>= fun _ => pure r)
      (((ready.addOps 1).setLock ip true).addRef ip 1) := by
  refine .bind (wp_iunlockput (by simp) fun _ => ?_)
  have unlocked : (ready : Ghost P).setLock ip false = .ready := setLock_same rfl
  have back : ((((ready.addOps 1).setLock ip true).addRef ip 1).setLock ip false).addRef ip
      (-1) = (ready.addOps 1 : Ghost P) := by
    simp [unlocked]
  rw [back]
  exact wp_leave

theorem netFile_argfd (fd : Fd) : (ready.setFd fd (some f) : Ghost P).netFile f = 1 := by
  have unknown : known f ((ready : Ghost P).ofile fd) = 0 := rfl
  rw [netFile_setFd, unknown, netFile_ready, known_some]
  rfl

theorem sysDup_protocol (fd : Option Fd) : Rests P (sysDup fd) .ready := by
  refine .bind (wp_argfd ⟨rfl, rest_ready⟩ (fun h rest => rest) fun fd f => ?_)
  refine wp_step.mpr ⟨rfl, (netFile_argfd fd).ge, rest_ready, fun fd' unknown => ?_⟩
  refine wp_step.mpr ⟨?_, rfl, ?_⟩
  · rw [netFile_addFile_self, netFile_setFd, netFile_argfd,
      known_of_ne (unknown f), known_some]
    decide
  · simpa using rest_ready

theorem sysRead_protocol (fd : Option Fd) (n : Option Nat) (input : Int) :
    Rests P (sysRead fd n input) .ready := by
  refine .bind (wp_argfd ⟨rfl, rest_ready⟩ (fun h rest => rest) fun fd f => ?_)
  cases n with
  | none => exact rest_ready
  | some n => exact wp_fileread fun _ => rest_ready

theorem sysWrite_protocol (fd : Option Fd) (src : Option (List Byte)) (output : Int) :
    Rests P (sysWrite fd src output) .ready := by
  refine .bind (wp_argfd ⟨rfl, rest_ready⟩ (fun h rest => rest) fun fd f => ?_)
  cases src with
  | none => exact rest_ready
  | some src => exact wp_filewrite fun _ => rest_ready

theorem sysFstat_protocol (fd : Option Fd) (buffer : Bool) :
    Rests P (sysFstat fd buffer) .ready := by
  refine .bind (wp_argfd ⟨rfl, rest_ready⟩ (fun h rest => rest) fun fd f => ?_)
  dsimp only
  split
  · exact wp_filestat fun _ => rest_ready
  · exact rest_ready

theorem sysClose_protocol (fd : Option Fd) : Rests P (sysClose fd) .ready := by
  refine .bind (wp_argfd ⟨rfl, rest_ready⟩ (fun h rest => rest) fun fd f => ?_)
  have known : (ready.setFd fd (some f) : Ghost P).ofile fd = some (some f) := by
    simp [setFd]
  refine wp_step.mpr ⟨rfl, f, known, .bind (wp_fileclose ?_ ?_)⟩
  · rw [netFile_addFile_self, netFile_setFd, netFile_argfd, known, known_some]
    rfl
  · have old : (ready : Ghost P).setFresh f false = .ready := setFresh_same rfl
    simpa [old] using rest_ready

theorem wp_linkEntry {Q : Bool → Ghost P → Prop} {new : List Byte} (unknown : g.cwd = none)
    (post : ∀ r, Q r g) : (linkEntry ip new).wp (protocol P) g Q := by
  refine .bind (wp_namex unknown (post false) fun dp name pos => ?_)
  refine .bind
    (wp_ilock fun free => wp_step.mpr fun id => wp_step.mpr fun id' => ?_)
  have held : 1 ≤ ((g.addRef dp 1).setLock dp true).net dp := by simpa using pos
  have back : ((((g.addRef dp 1).setLock dp true)).setLock dp false).addRef dp (-1) = g := by
    simp [setLock_same (g := g) free]
  dsimp only
  split
  · refine .bind (wp_iunlockput held fun _ => ?_)
    rw [back]
    exact post false
  · refine .bind (wp_dirlink fun r => ?_)
    refine .bind (wp_iunlockput held fun _ => ?_)
    rw [back]
    exact post r

theorem sysLink_protocol (old new : Option (List Byte)) : Rests P (sysLink old new) .ready := by
  cases old with
  | none => exact rest_ready
  | some old =>
    cases new with
    | none => exact rest_ready
    | some new =>
      refine wp_step.mpr (.bind (wp_namei rfl wp_leave fun ip pos => ?_))
      refine .bind (wp_ilock fun _ => wp_step.mpr fun a => ?_)
      dsimp only
      split
      · exact wp_leave_put
      · refine wp_step.mpr fun _ => wp_step.mpr fun _ => ?_
        refine .bind (wp_linkEntry rfl fun r => ?_)
        have unlocked : (ready : Ghost P).setLock ip false = .ready :=
          setLock_same rfl
        simp only [addOps_addRef, addOps_setLock, addRef_setLock,
          setLock_setLock, unlocked]
        split
        · refine .bind (wp_iput (by simp) ?_)
          simpa using wp_leave (r := 0)
        · exact .bind (wp_ilock fun _ => wp_step.mpr fun _ => wp_leave_put)

theorem wp_unlinkBad : Rests P (unlinkBad dp)
    (((ready.addOps 1).setLock dp true).addRef dp 1) := wp_leave_put

/-- The end of `unlink`, with the directory and the file locked. -/
theorem wp_unlinkEntry {off : Nat} {type : Short} (ne : ip ≠ dp) :
    Rests P (unlinkEntry dp ip off type)
      (((((ready.addOps 1).addRef dp 1).setLock dp true).addRef ip 1).setLock ip true) := by
  refine wp_step.mpr fun r => ?_
  have last : Rests P (iunlockput dp >>= fun _ => step (.decLink ip) >>= fun _ =>
      iunlockput ip >>= fun _ => step .endOp >>= fun _ => pure 0)
      (((((ready.addOps 1).addRef dp 1).setLock dp true).addRef ip 1).setLock ip true) := by
    refine .bind (wp_iunlockput ?_ fun _ => wp_step.mpr fun _ => ?_)
    · rw [net_setLock]
      exact le_trans (by simp) (le_net_addRef zero_le_one)
    · have unlocked := setLock_release (g := (ready : Ghost P)) rfl ne
      simp only [addOps_addRef, addOps_setLock, addRef_setLock, unlocked,
        addRef_cancel]
      exact wp_leave_put
  dsimp only
  split
  · exact wp_stop ..
  · split
    · exact wp_step.mpr fun _ => last
    · exact last

theorem sysUnlink_protocol (path : Option (List Byte)) : Rests P (sysUnlink path) .ready := by
  cases path with
  | none => exact rest_ready
  | some path =>
    refine wp_step.mpr (.bind (wp_namex rfl wp_leave fun dp name pos => ?_))
    refine .bind (wp_ilock fun free => ?_)
    split
    · exact wp_unlinkBad
    · refine .bind (wp_dirlookup wp_unlinkBad fun ip off pos' => ?_)
      refine .bind (wp_ilock fun free' => wp_step.mpr fun a => ?_)
      have ne : ip ≠ dp := ne_of_locks (g := ready) (by simpa using free')
      dsimp only
      split
      · exact wp_stop ..
      · split
        · refine wp_step.mpr fun empty => ?_
          dsimp only
          split
          · exact wp_unlinkEntry ne
          · refine .bind (wp_iunlockput ?_ fun _ => ?_)
            · rw [net_setLock, net_addRef_self]
              omega
            have unlocked := setLock_same (g := (ready : Ghost P).setLock dp true)
              (b := false) (by simpa using free')
            have back : ((((((ready.addOps 1).addRef dp 1).setLock dp true).addRef ip
                1).setLock ip true).setLock ip false).addRef ip (-1) =
                (((ready.addOps 1).setLock dp true).addRef dp 1 : Ghost P) := by
              simp [unlocked]
            rw [back]
            exact wp_unlinkBad
        · exact wp_unlinkEntry ne

theorem wp_openExisting {Q : Option Ip → Ghost P → Prop} {path : List Byte} {omode : BitVec 32}
    (unknown : g.cwd = none) (absent : Q none g)
    (found : ∀ ip, 0 ≤ g.net ip → g.locks ip = false →
      Q (some ip) ((g.setLock ip true).addRef ip 1)) :
    (openExisting path omode).wp (protocol P) g Q := by
  refine .bind (wp_namei unknown absent fun ip pos => ?_)
  refine .bind (wp_ilock fun free => wp_step.mpr fun a => ?_)
  dsimp only
  split
  · refine .bind (wp_iunlockput (by simpa using pos) fun _ => ?_)
    simpa [setLock_same (g := g) free] using absent
  · exact found ip pos free

theorem wp_openFinish {omode : BitVec 32} : Rests P (openFinish ip omode)
    (((ready.addOps 1).setLock ip true).addRef ip 1) := by
  refine wp_step.mpr ⟨wp_leave_put, fun f old => ?_⟩
  have old : (ready : Ghost P).setFresh f false = .ready := setFresh_same rfl
  have unlocked : (ready : Ghost P).setLock ip false = .ready := setLock_same rfl
  refine wp_step.mpr ⟨rfl, by simp, ?_, fun fd unknown => ?_⟩
  · refine .bind (wp_fileclose (by simp) ?_)
    have back : ((((((ready.addOps 1).setLock ip true).addRef ip 1).addFile f 1).setFresh f
        true).addFile f (-1)).setFresh f false =
        (((ready.addOps 1).setLock ip true).addRef ip 1 : Ghost P) := by
      simp [old]
    rw [back]
    exact wp_leave_put
  · refine wp_step.mpr fun _ => wp_step.mpr (wp_step.mpr ⟨?_, by simp, ?_⟩)
    · exact Function.update_self f true (ready : Ghost P).fresh
    · simpa [old, unlocked] using rest_ready

theorem sysOpen_protocol (path : Option (List Byte)) (omode : Option (BitVec 32)) :
    Rests P (sysOpen path omode) .ready := by
  cases path with
  | none => exact rest_ready
  | some path =>
    cases omode with
    | none => exact rest_ready
    | some omode =>
      refine wp_step.mpr ?_
      split
      · exact .bind (wp_create rfl wp_leave fun ip _ _ => wp_openFinish)
      · exact .bind (wp_openExisting rfl wp_leave fun ip _ _ => wp_openFinish)

theorem sysMkdir_protocol (path : Option (List Byte)) : Rests P (sysMkdir path) .ready := by
  refine wp_step.mpr ?_
  cases path with
  | none => exact wp_leave
  | some path => exact .bind (wp_create rfl wp_leave fun ip _ _ => wp_leave_put)

theorem sysMknod_protocol (path : Option (List Byte)) (major minor : Option (BitVec 32)) :
    Rests P (sysMknod path major minor) .ready := by
  refine wp_step.mpr ?_
  split
  · exact .bind (wp_create rfl wp_leave fun ip _ _ => wp_leave_put)
  · exact wp_leave

/-- `chdir` can give back the old directory, and then set the new one. -/
theorem net_chdir (old : Ip) : 1 ≤ ((ready.addRef ip 1).setCwd (some old) : Ghost P).net old ∧
    1 ≤ (((ready.addRef ip 1).setCwd (some old)).addRef old (-1) : Ghost P).net ip := by
  rcases eq_or_ne ip old with rfl | ne
  · simp [net, setCwd, addRef, ready]
  · simp [net, setCwd, addRef, ready, ne, ne.symm]

theorem sysChdir_protocol (path : Option (List Byte)) : Rests P (sysChdir path) .ready := by
  refine wp_step.mpr ?_
  cases path with
  | none => exact wp_leave
  | some path =>
    refine .bind (wp_namei rfl wp_leave fun ip pos => ?_)
    refine .bind (wp_ilock fun free => wp_step.mpr fun a => ?_)
    dsimp only
    split
    · exact wp_leave_put
    · refine wp_step.mpr fun _ => wp_step.mpr fun old => ?_
      have unlocked : (ready : Ghost P).setLock ip false = .ready := setLock_same rfl
      simp only [addOps_addRef, addOps_setLock, addRef_setLock,
        setLock_setLock, unlocked]
      refine .bind (wp_iput (net_chdir old).1 (wp_step.mpr (wp_step.mpr ?_)))
      refine ⟨rfl, (net_chdir old).2, old, rfl, ?_⟩
      simpa using rest_ready

variable {Q : Unit → Ghost P → Prop}

theorem wp_fileclose_fresh (pos : 0 ≤ g.netFile f) (old : g.fresh f = false) (post : Q () g) :
    (fileclose f).wp (protocol P) ((g.addFile f 1).setFresh f true) Q := by
  refine wp_fileclose (by simpa using pos) ?_
  simpa [setFresh_same old] using post

section Pipe

variable {f0 f1 : FilePtr}

theorem setFresh_pair (ne : f1 ≠ f0) (old0 : g.fresh f0 = false) (old1 : g.fresh f1 = false) :
    (((g.setFresh f0 true).setFresh f1 true).setFresh f0 false).setFresh f1 false = g := by
  rw [setFresh_comm ne, setFresh_setFresh, setFresh_setFresh,
    setFresh_same old0, setFresh_same old1]

/-- `pipealloc` returns two files with a reference each, or nothing. -/
theorem wp_pipealloc {Q : Option (FilePtr × FilePtr) → Ghost P → Prop} {page : Bool}
    (absent : Q none .ready)
    (found : ∀ f0 f1, f1 ≠ f0 → Q (some (f0, f1)) ((ready.addFile f0 1).addFile f1 1)) :
    (pipealloc page).wp (protocol P) .ready Q := by
  refine wp_step.mpr ⟨absent, fun f0 _ => wp_step.mpr ⟨?_, fun f1 old => ?_⟩⟩
  · exact .bind (wp_fileclose_fresh (by simp) rfl absent)
  · have ne : f1 ≠ f0 := by
      rintro rfl
      simp [setFresh] at old
    let g : Ghost P := (ready.addFile f0 1).addFile f1 1
    have clear := setFresh_pair (g := g) ne rfl rfl
    change Code.wp (protocol P) _ ((g.setFresh f0 true).setFresh f1 true) Q
    dsimp only
    split
    · refine wp_step.mpr ⟨by simp [setFresh, ne.symm], wp_step.mpr ⟨?_, ?_⟩⟩
      · simp [setFresh, ne]
      · rw [clear]
        exact found f0 f1 ne
    · refine .bind (wp_fileclose ?_ (.bind (wp_fileclose ?_ ?_)))
      · simp [g, netFile_addFile_ne ne.symm]
      · simp [g]
      · have zero : (g.addFile f0 (-1)).addFile f1 (-1) = .ready := by simp [g]
        have all : ((((((g.setFresh f0 true).setFresh f1 true).addFile f0 (-1)).setFresh f0
            false).addFile f1 (-1)).setFresh f1 false) = .ready := by
          rw [← zero]
          exact congrArg (fun h => addFile (addFile h f0 (-1)) f1 (-1)) clear
        rw [all]
        exact absent

theorem sysPipe_protocol (buffer page : Bool) : Rests P (sysPipe buffer page) .ready := by
  unfold sysPipe
  split
  · exact rest_ready
  · refine .bind (wp_pipealloc rest_ready fun f0 f1 ne => ?_)
    have old : ∀ f, (ready : Ghost P).setFresh f false = .ready :=
      fun f => setFresh_same rfl
    refine wp_step.mpr ⟨rfl, ?_, ?_, fun fd0 unknown => ?_⟩
    · simp [netFile_addFile_ne ne.symm]
    · refine .bind (wp_fileclose ?_ (.bind (wp_fileclose ?_ ?_)))
      · simp [netFile_addFile_ne ne.symm]
      · simp
      · simpa [old] using rest_ready
    · have other : ∀ (h : Ghost P) x f, h.ofile = (fun _ => none) → x ≠ some f →
          (h.setFd fd0 x).netFile f = h.netFile f :=
        fun h x f none ne => netFile_setFd_other (by simp [none]) ne
      simp only [setFd_addFile, addFile_cancel]
      have one : ((ready.addFile f1 1).setFd fd0 (some f0) : Ghost P).netFile f1 = 1 := by
        rw [other _ _ _ rfl (by simpa using ne.symm)]
        simp
      refine wp_step.mpr ⟨rfl, one.ge, ?_, fun fd1 _ => ?_⟩
      · refine wp_step.mpr ⟨rfl, f0, by simp, ?_⟩
        refine .bind (wp_fileclose ?_ (.bind (wp_fileclose ?_ ?_)))
        · simp only [setFd_setFd, setFd_addFile]
          rw [other _ none _ rfl (by simp)]
          simp [netFile_addFile_ne ne.symm]
        · simp only [setFd_setFd, setFd_addFile, addFile_addFile,
            setFd_setFresh]
          rw [other _ none _ rfl (by simp)]
          simp
        · simpa [old] using rest_ready
      · simpa [old] using rest_ready

end Pipe

theorem wp_execReads {reads : List (Nat × Nat × Int)} (post : Q () g) :
    (execReads ip reads).wp (protocol P) g Q := by
  induction reads with
  | nil => exact post
  | cons read rest ih => exact .bind (wp_readi fun _ => ih)

theorem exec_protocol (path : List Byte) (reads : List (Nat × Nat × Int)) (r : Int) :
    Rests P (exec path reads r) .ready := by
  refine wp_step.mpr (.bind (wp_namei rfl wp_leave fun ip _ => ?_))
  refine .bind (wp_ilock fun _ => .bind (wp_execReads ?_))
  exact wp_leave_put

/-- The loop of `fork` over the descriptors from `n` on. -/
theorem wp_forkFds {child : P} {fds : List Fd} {n : Nat} (files : g.frefs = 0)
    (old : g.fresh = fun _ => false) (range : fds.map Fin.val = range' n fds.length)
    (post : Q () (g.setChild (some (child, n + fds.length)))) :
    (forkFds child fds).wp (protocol P) (g.setChild (some (child, n))) Q := by
  induction fds generalizing n with
  | nil => exact post
  | cons fd rest ih =>
    simp only [map_cons, length_cons, range'_succ, cons.injEq] at range
    obtain ⟨rfl, range⟩ := range
    refine wp_step.mpr ⟨rfl, files, old, ih range ?_⟩
    simpa [Nat.add_assoc, Nat.add_comm 1] using post

theorem fork_protocol (child : P) : Rests P (fork child) .ready := by
  refine wp_step.mpr ⟨rfl, rest_ready, .bind ?_⟩
  refine wp_forkFds (g := .ready) (n := 0) rfl rfl ?_ (wp_step.mpr ⟨rfl, ?_, rest_ready⟩)
  · rw [map_coe_finRange_eq_range, length_finRange, range_eq_range']
  · rw [length_finRange, Nat.zero_add]
    rfl

/-- The loop of `exit` closes every descriptor that it goes through. -/
theorem wp_exitFds {fds : List Fd} (idle : Idle g)
    (post : ∀ h, Idle h → (∀ fd, g.ofile fd = some none → h.ofile fd = some none) →
      (∀ fd ∈ fds, h.ofile fd = some none) → Q () h) : (exitFds fds).wp (protocol P) g Q := by
  induction fds generalizing g with
  | nil => exact post g idle (fun _ => id) (by simp)
  | cons fd rest ih =>
    -- what is known closed stays so
    have keeps : ∀ d, g.ofile d = some none → (g.setFd fd none).ofile d = some none := by
      intro d closed
      rcases eq_or_ne d fd with rfl | ne
      · simp
      · simpa [setFd, ne] using closed
    have closed : (exitFds rest).wp (protocol P) (g.setFd fd none) Q := by
      refine ih idle fun h idle keep all => ?_
      refine post h idle (fun d closed => keep d (keeps d closed)) fun d mem => ?_
      rcases mem_cons.mp mem with rfl | mem
      · exact keep d (by simp)
      · exact all d mem
    refine wp_step.mpr ⟨idle.1, fun r => ?_⟩
    cases r with
    | none => exact closed
    | some f =>
      have one := one_le_netFile (g := g.setFd fd (some f)) idle.2.2.2.1
        (ofile_setFd_self (some f))
      refine .bind (wp_fileclose one (wp_step.mpr ⟨idle.1, f, ?_, ?_⟩))
      · exact ofile_setFd_self (g := g) (some f)
      have old : g.setFresh f false = g := setFresh_same (by rw [idle.2.2.2.2.1])
      simpa [old] using closed

theorem exit_protocol : Rests P exit .ready := by
  refine .bind (wp_exitFds ⟨rfl, rest_ready⟩ fun h idle _ closed => ?_)
  refine wp_step.mpr (wp_step.mpr fun old => .bind (wp_iput ?_ (wp_step.mpr ?_)))
  · simp [net, setCwd, addOps, idle.2.1]
  · refine wp_step.mpr ⟨idle.1, fun fd => closed fd (mem_finRange fd), old, rfl, ?_⟩
    simpa using idle.2

/-- **No call keeps what it took**: each system call ends at rest, on all of its paths. -/
theorem syscall_protocol (c : Syscall P) : Rests P c.body .ready := by
  cases c with
  | dup fd => exact sysDup_protocol fd
  | read fd n input => exact sysRead_protocol fd n input
  | write fd src output => exact sysWrite_protocol fd src output
  | close fd => exact sysClose_protocol fd
  | fstat fd buffer => exact sysFstat_protocol fd buffer
  | link old new => exact sysLink_protocol old new
  | unlink path => exact sysUnlink_protocol path
  | «open» path omode => exact sysOpen_protocol path omode
  | mkdir path => exact sysMkdir_protocol path
  | mknod path major minor => exact sysMknod_protocol path major minor
  | chdir path => exact sysChdir_protocol path
  | pipe buffer page => exact sysPipe_protocol buffer page
  | exec path reads r => exact exec_protocol path reads r
  | fork child => exact fork_protocol child
  | exit => exact exit_protocol

end Xv6.Fs
