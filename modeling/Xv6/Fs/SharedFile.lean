import Xv6.Fs.Alone
import Xv6.Fs.Contents
import Mathlib.Data.List.Flatten

/-!
# Writers that share a file

Processes that got a `struct file` through `fork` or `dup` share its offset.  `filewrite` cuts what
it writes into pieces; it reads the offset, writes and advances the offset while it holds the lock
of the inode, and gives up the lock between the pieces.
-/

namespace Xv6.Fs

open Function List

/-! ## The rounds of `filewrite` -/

section Round

variable {P : Type}

def filewriteRound (f : FilePtr) (ip : Ip) (src : List Byte) : Body P Int := do
  step .beginOp
  ilock ip
  let x ← step (.file f)
  let r ← writei ip x.off src
  if 0 < r then step (.advance f r.toNat) else pure ()
  step (.iunlock ip)
  step .endOp
  pure r

theorem filewriteLoop_succ (f : FilePtr) (ip : Ip) (k : Nat) (src : List Byte) :
    (filewriteLoop f ip (k + 1) src : Body P Bool) =
      if src = [] then pure true
      else (do
        let r ← filewriteRound f ip (src.take maxWrite)
        if r < 0 then pure false
        else if r ≠ (src.take maxWrite).length then stop .shortFilewrite
        else filewriteLoop f ip k (src.drop maxWrite)) := by
  rw [filewriteLoop]
  split
  · rfl
  · unfold filewriteRound
    simp only [Code.bind_assoc]
    refine congrArg (step .beginOp >>= ·) (funext fun _ => congrArg (ilock ip >>= ·)
      (funext fun _ => congrArg (step (.file f) >>= ·) (funext fun x =>
        congrArg (writei ip x.off _ >>= ·) (funext fun r => ?_))))
    split <;> rfl

end Round

section

variable {P : Type} [DecidableEq P] {sb : Superblock} {f : FilePtr} {ip : Ip} {x : Nat}
  {s t : State P (Disk sb) Addrs} {p : P}

/-- `f` is open for writing on the regular file `x`, which nobody has locked. -/
structure Ready (f : FilePtr) (ip : Ip) (x : Nat) (s : State P (Disk sb) Addrs) : Prop where
  type : (s.ftable f).type = .inode
  inode : (s.ftable f).ip = ip
  writable : (s.ftable f).writable = true
  ref : 1 ≤ (s.icache ip).ref
  lock : (s.icache ip).lock = none
  inum : (s.icache ip).inum = x
  valid : (s.icache ip).valid = true → (s.icache ip).ino = s.disk.dinode x
  regular : (s.disk.dinode x).type = tFile
  ok : s.disk.FileOk x

structure Refused (f : FilePtr) (x : Nat) (s t : State P (Disk sb) Addrs) : Prop where
  contents : t.disk.file x = s.disk.file x
  off : (t.ftable f).off = (s.ftable f).off

structure Written (f : FilePtr) (x : Nat) (src : List Byte) (s t : State P (Disk sb) Addrs) :
    Prop where
  fits : Disk.Fits (s.disk.dinode x) (s.ftable f).off src
  contents : t.disk.file x = overwrite (s.disk.file x) (s.ftable f).off src
  off : (t.ftable f).off = (s.ftable f).off + src.length

/-- What `filewrite` knows while it holds the lock of the inode. -/
structure Writing (f : FilePtr) (ip : Ip) (x : Nat) (p : P) (s : State P (Disk sb) Addrs) :
    Prop where
  type : (s.ftable f).type = .inode
  inode : (s.ftable f).ip = ip
  writable : (s.ftable f).writable = true
  ref : 1 ≤ (s.icache ip).ref
  lock : (s.icache ip).lock = some p
  inum : (s.icache ip).inum = x
  same : (s.icache ip).ino = s.disk.dinode x
  regular : (s.disk.dinode x).type = tFile
  ok : s.disk.FileOk x

omit [DecidableEq P] in
theorem Ready.ilocked (ready : Ready f ip x s) : Writing f ip x p (s.ilocked p ip) := by
  have entry : (s.ilocked p ip).icache ip = { s.icache ip with
      lock := some p
      valid := true
      ino := if (s.icache ip).valid then (s.icache ip).ino
        else s.disk.dinode (s.icache ip).inum } := State.setEntry_icache_self ..
  refine ⟨ready.type, ready.inode, ready.writable, ?_, ?_, ?_, ?_, ready.regular, ready.ok⟩
  · rw [entry]
    exact ready.ref
  · rw [entry]
  · rw [entry]
    exact ready.inum
  · rw [entry]
    dsimp only
    split
    · rename_i valid
      exact ready.valid valid
    · rw [ready.inum]
      rfl

section Writing

variable (writing : Writing f ip x p s)
include writing

omit [DecidableEq P] in
theorem Writing.iunlocked : Ready f ip x (s.iunlocked ip) := by
  have entry : (s.iunlocked ip).icache ip = { s.icache ip with lock := none } :=
    State.setEntry_icache_self ..
  refine ⟨writing.type, writing.inode, writing.writable, ?_, ?_, ?_, ?_, writing.regular,
    writing.ok⟩
  · rw [entry]
    exact writing.ref
  · rw [entry]
  · rw [entry]
    exact writing.inum
  · rw [entry]
    exact fun _ => writing.same

theorem Writing.alone_end {r : Int} {Q : Int → State P (Disk sb) Addrs → Prop}
    (post : ∀ t, Ready f ip x t → t.disk = s.disk → t.ftable = s.ftable → Q r t) :
    Within (fun _ => True)
      (alone p (step (.iunlock ip) >>= fun _ => step .endOp >>= fun _ => pure r))
      s Q := by
  refine alone_step_bind.mpr (alone_iunlock writing.lock writing.ref ?_)
  refine alone_step_bind.mpr ((within_ok rfl).mpr ?_)
  exact post _ { writing.iunlocked with } rfl rfl

omit [DecidableEq P] in
/-- The file was written, and the inode in memory is that on the disk. -/
theorem Writing.stored {disk : Disk sb} (ok : disk.FileOk x)
    (type : (disk.dinode x).type = (s.disk.dinode x).type) : Writing f ip x p
      ({ s with disk := disk }.setEntry ip { s.icache ip with ino := disk.dinode x }) := by
  have entry : ({ s with disk := disk }.setEntry ip
      { s.icache ip with ino := disk.dinode x }).icache ip =
        { s.icache ip with ino := disk.dinode x } := State.setEntry_icache_self ..
  refine ⟨writing.type, writing.inode, writing.writable, ?_, ?_, ?_, ?_,
    type.trans writing.regular, ok⟩
  · rw [entry]
    exact writing.ref
  · rw [entry]
    exact writing.lock
  · rw [entry]
    exact writing.inum
  · rw [entry]
    rfl

omit [DecidableEq P] in
theorem Writing.advanced (off : Nat) :
    Writing f ip x p (s.setFile f { s.ftable f with off := off }) := by
  have file :
      (s.setFile f { s.ftable f with off := off }).ftable f = { s.ftable f with off := off } :=
    State.setFile_ftable_self ..
  refine { writing with type := ?_, inode := ?_, writable := ?_ }
  · rw [file]
    exact writing.type
  · rw [file]
    exact writing.inode
  · rw [file]
    exact writing.writable

/-- The section of a round that holds the lock of the inode. -/
theorem Writing.alone_write (src : List Byte) :
    Within (fun _ => True) (alone p (do
        let y ← step (.file f)
        let r ← writei ip y.off src
        if 0 < r then step (.advance f r.toNat) else pure ()
        step (.iunlock ip)
        step .endOp
        pure r)) s fun r t => Ready f ip x t ∧
      ((r = -1 ∧ Refused f x s t) ∨ (r = src.length ∧ Written f x src s t)) := by
  refine alone_step_bind.mpr ((within_ok rfl).mpr (alone_bind.mpr ?_))
  refine alone_step_bind.mpr ((within_ok rfl).mpr ?_)
  have file : ¬ (s.icache ip).ino.type = tDev := by
    rw [writing.same, writing.regular]
    decide
  refine (if_neg file).symm ▸ ?_
  have law := writing.ok.writei s.trans (s.ftable f).off src
  rw [← writing.same, ← writing.inum] at law
  refine alone_step_bind.mpr (within_onInode
    (g := fun trans inum ino => Store.writei trans inum ino (s.ftable f).off src) law
    (fun _ => id) ?_)
  rintro _ _ disk (⟨eq, rfl⟩ | ⟨fits, eq, ok, type, contents⟩)
  · -- `writei` returned -1
    cases eq
    have kept : Writing f ip x p (s.setEntry ip { s.icache ip with ino := (s.icache ip).ino }) := by
      rw [writing.same]
      exact writing.stored writing.ok rfl
    exact kept.alone_end fun t ready disk ftable =>
      ⟨ready, .inl ⟨rfl, by rw [disk]; rfl, by rw [ftable]; rfl⟩⟩
  · cases eq
    rw [writing.inum] at ok type contents ⊢
    rw [writing.same] at fits type
    have stored := writing.stored ok type
    have small : (s.ftable f).off + src.length < 2 ^ 32 := Nat.lt_of_le_of_lt fits.2 (by decide)
    change Within _ (alone p (if (0 : Int) < (src.length : Int) then _ else _)) _ _
    split
    · refine alone_step_bind.mpr ((within_ok rfl).mpr ((stored.advanced _).alone_end ?_))
      refine fun t ready disk ftable => ⟨ready, .inr ⟨rfl, fits, ?_, ?_⟩⟩
      · rw [disk]
        exact contents
      · rw [ftable, State.setFile_ftable_self]
        change ((s.ftable f).off + (src.length : Int).toNat) % 2 ^ 32 = _
        rw [Int.toNat_natCast, Nat.mod_eq_of_lt small]
    · rename_i none
      have empty : src.length = 0 := by omega
      refine stored.alone_end fun t ready disk ftable => ⟨ready, .inr ⟨rfl, fits, ?_, ?_⟩⟩
      · rw [disk]
        exact contents
      · rw [ftable, empty]
        rfl

end Writing

theorem alone_filewriteRound (ready : Ready f ip x s) (src : List Byte) :
    Within (fun _ => True) (alone p (filewriteRound f ip src)) s fun r t => Ready f ip x t ∧
      ((r = -1 ∧ Refused f x s t) ∨ (r = src.length ∧ Written f x src s t)) := by
  refine alone_step_bind.mpr ((within_ok rfl).mpr ?_)
  have begun : Ready f ip x ({ s with outstanding := s.outstanding + 1 }.setProc p
      { s.proc p with ops := (s.proc p).ops + 1 }) := { ready with }
  refine alone_bind.mpr (alone_ilock begun.ref (fun busy => absurd begun.lock busy)
    (fun _ _ => trivial) fun _ => ?_)
  refine (begun.ilocked.alone_write src).mono (fun _ => id) fun r t ⟨ready, outcome⟩ => ⟨ready, ?_⟩
  refine outcome.imp
    (fun ⟨eq, refused⟩ => ⟨eq, refused.contents, refused.off⟩) fun ⟨eq, written⟩ => ?_
  exact ⟨eq, written.fits, written.contents, written.off⟩

/-! ## One piece behind the other -/

theorem overwrite_nil (c : List Byte) (off : Nat) : overwrite c off [] = c := by
  simp [overwrite]

theorem overwrite_append {c : List Byte} {off : Nat} (le : off ≤ c.length) (src rest : List Byte) :
    overwrite (overwrite c off src) (off + src.length) rest = overwrite c off (src ++ rest) := by
  have front : (c.take off ++ src).length = off + src.length := by
    rw [length_append, length_take]
    omega
  have tail :
    (c.take off ++ src ++ c.drop (off + src.length)).drop (off + src.length + rest.length) =
      c.drop (off + (src ++ rest).length) := by
    rw [drop_append, drop_eq_nil_of_le (by omega), nil_append, drop_drop, front]
    congr 1
    rw [length_append]
    omega
  unfold overwrite
  rw [take_left' front, tail, append_assoc (c.take off)]

structure Appended (f : FilePtr) (x : Nat) (src : List Byte) (s t : State P (Disk sb) Addrs) :
    Prop where
  inside : src ≠ [] → (s.ftable f).off ≤ (s.disk.file x).length
  contents : t.disk.file x = overwrite (s.disk.file x) (s.ftable f).off src
  off : (t.ftable f).off = (s.ftable f).off + src.length

omit [DecidableEq P] in
theorem Appended.refl (s : State P (Disk sb) Addrs) : Appended f x [] s s :=
  ⟨fun ne => absurd rfl ne, (overwrite_nil ..).symm, rfl⟩

omit [DecidableEq P] in
theorem Appended.trans {src rest : List Byte} {u : State P (Disk sb) Addrs}
    (first : Appended f x src s t)
    (second : Appended f x rest t u) : Appended f x (src ++ rest) s u := by
  have off : (u.ftable f).off = (s.ftable f).off + (src ++ rest).length := by
    rw [second.off, first.off, length_append, Nat.add_assoc]
  rcases eq_or_ne src [] with rfl | some
  · have contents := first.contents
    rw [overwrite_nil] at contents
    have same : (t.ftable f).off = (s.ftable f).off := first.off
    refine ⟨fun ne => ?_, ?_, off⟩
    · rw [← contents, ← same]
      exact second.inside ne
    · rw [second.contents, contents, same, nil_append]
  · refine ⟨fun _ => first.inside some, ?_, off⟩
    rw [second.contents, first.contents, first.off, overwrite_append (first.inside some)]

omit [DecidableEq P] in
theorem Refused.appended (refused : Refused f x s t) : Appended f x [] s t := by
  refine ⟨fun ne => absurd rfl ne, ?_, refused.off⟩
  rw [refused.contents, overwrite_nil]

omit [DecidableEq P] in
theorem Written.appended {src : List Byte} (written : Written f x src s t) :
    Appended f x src s t := by
  refine ⟨fun _ => ?_, written.contents, written.off⟩
  rw [Disk.file, Disk.contents_length]
  exact written.fits.1

theorem alone_filewriteLoop (ready : Ready f ip x s) {k : Nat} {src : List Byte}
    (rounds : src.length ≤ k) :
    Within (fun _ => True) (alone p (filewriteLoop f ip k src)) s fun r t =>
      r = true → Appended f x src s t := by
  induction k generalizing s src with
  | zero =>
    obtain rfl : src = [] := length_eq_zero_iff.mp (by omega)
    exact fun _ => .refl s
  | succ k ih =>
    rw [filewriteLoop_succ]
    split
    · rename_i none
      subst none
      exact fun _ => .refl s
    · rename_i some
      have pos : 0 < src.length := length_pos_iff.mpr some
      refine alone_bind.mpr ((alone_filewriteRound ready _).mono (fun _ => id) ?_)
      rintro r t ⟨ready', ⟨rfl, -⟩ | ⟨rfl, written⟩⟩
      · rw [if_pos (by decide)]
        exact fun no => absurd no (by decide)
      · rw [if_neg (by omega), if_neg (by simp)]
        have step : 0 < maxWrite := by decide
        refine (ih ready' (by simp; omega)).mono (fun _ => id) fun r u rest yes => ?_
        have all := (written.appended).trans (rest yes)
        rwa [take_append_drop] at all

/-! ## Any number of writers -/

/-- The calls `W` of `filewrite` on one file: what each of them has still to write, what it
returned, and the pieces that were written, in this order, each with its call. -/
structure Writers (W P : Type) (sb : Superblock) where
  fs : State P (Disk sb) Addrs
  left : W → List Byte
  result : W → Option Int
  log : List (W × List Byte)

variable {W : Type} [DecidableEq W]

/-- Call `w` of process `caller w` does its next round, or returns. -/
def Writers.next (f : FilePtr) (ip : Ip) (caller : W → P) (buf : W → List Byte)
    (s : Writers W P sb) (w : W) : Option (Writers W P sb) :=
  if s.result w ≠ none then none
  else if s.left w = [] then
    some { s with result := update s.result w (some (buf w).length) }
  else
    match alone (caller w) (filewriteRound f ip ((s.left w).take maxWrite)) s.fs with
    | .error _ => none
    | .ok (r, t) =>
      if r < 0 then some { s with fs := t, result := update s.result w (some (-1)) }
      else if r ≠ ((s.left w).take maxWrite).length then none
      else some { s with
        fs := t
        left := update s.left w ((s.left w).drop maxWrite)
        log := s.log ++ [(w, (s.left w).take maxWrite)] }

def Writers.start (buf : W → List Byte) (s : State P (Disk sb) Addrs) : Writers W P sb :=
  ⟨s, buf, fun _ => none, []⟩

def writers (f : FilePtr) (ip : Ip) (caller : W → P) (buf : W → List Byte)
    (s : State P (Disk sb) Addrs) :
    Lts (Writers W P sb) W :=
  Lts.ofFun (· = .start buf s) (Writers.next f ip caller buf)

def Writers.written (s : Writers W P sb) : List Byte := s.log.flatMap Prod.snd

def Writers.writtenBy (s : Writers W P sb) (w : W) : List Byte :=
  (s.log.filter (·.1 = w)).flatMap Prod.snd

structure Progress (f : FilePtr) (ip : Ip) (x : Nat) (buf : W → List Byte)
    (s₀ : State P (Disk sb) Addrs) (s : Writers W P sb) : Prop where
  ready : Ready f ip x s.fs
  appended : Appended f x s.written s₀ s.fs
  pieces : ∀ w, s.writtenBy w ++ s.left w = buf w
  returned : ∀ w, s.result w = some ((buf w).length : Int) → s.left w = []

variable {buf : W → List Byte} {caller : W → P}

/-- A call that has written everything returns; another one does a round, which is refused or writes
the next piece. -/
theorem Writers.next_cases {s t : Writers W P sb} {w : W}
    (next : s.next f ip caller buf w = some t) : s.result w = none ∧
    ((s.left w = [] ∧ t = { s with result := update s.result w (some (buf w).length) }) ∨
    ∃ r u, alone (caller w) (filewriteRound f ip ((s.left w).take maxWrite)) s.fs = .ok (r, u) ∧
      ((r < 0 ∧ t = { s with fs := u, result := update s.result w (some (-1)) }) ∨
      (0 ≤ r ∧ t = { s with
        fs := u
        left := update s.left w ((s.left w).drop maxWrite)
        log := s.log ++ [(w, (s.left w).take maxWrite)] }))) := by
  unfold Writers.next at next
  split at next
  · cases next
  · rename_i running
    refine ⟨not_not.mp running, ?_⟩
    split at next
    · rename_i none
      exact .inl ⟨none, (Option.some.inj next).symm⟩
    · split at next
      · cases next
      · rename_i r u ran
        refine .inr ⟨r, u, ran, ?_⟩
        split at next
        · rename_i negative
          exact .inl ⟨negative, (Option.some.inj next).symm⟩
        · rename_i positive
          split at next
          · cases next
          · exact .inr ⟨Int.not_lt.mp positive, (Option.some.inj next).symm⟩

variable {s₀ : State P (Disk sb) Addrs}

theorem Progress.next {s t : Writers W P sb} {w : W} (progress : Progress f ip x buf s₀ s)
    (next : s.next f ip caller buf w = some t) : Progress f ip x buf s₀ t := by
  obtain ⟨running, ⟨none, rfl⟩ | ⟨r, u, ran, outcome⟩⟩ := Writers.next_cases next
  · refine { progress with returned := fun v eq => ?_ }
    dsimp only at eq
    rcases eq_or_ne v w with rfl | ne
    · exact none
    · rw [update_of_ne ne] at eq
      exact progress.returned v eq
  · obtain ⟨ready, round⟩ := (within_ok ran).mp
      (alone_filewriteRound (p := caller w) progress.ready ((s.left w).take maxWrite))
    rcases outcome with ⟨negative, rfl⟩ | ⟨positive, rfl⟩
    · rcases round with ⟨-, refused⟩ | ⟨rfl, -⟩
      · refine ⟨ready, ?_, progress.pieces, fun v eq => ?_⟩
        · have all := progress.appended.trans refused.appended
          rwa [append_nil] at all
        · dsimp only at eq
          rcases eq_or_ne v w with rfl | ne
          · rw [update_self] at eq
            have := Option.some.inj eq
            omega
          · rw [update_of_ne ne] at eq
            exact progress.returned v eq
      · omega
    · rcases round with ⟨rfl, -⟩ | ⟨-, written⟩
      · omega
      · refine ⟨ready, ?_, fun v => ?_, fun v eq => ?_⟩
        · have all := progress.appended.trans (written.appended)
          simpa [Writers.written] using all
        · have pieces := progress.pieces v
          rcases eq_or_ne v w with rfl | ne
          · simpa [Writers.writtenBy] using pieces
          · simpa [Writers.writtenBy, ne, ne.symm] using pieces
        · dsimp only at eq ⊢
          have ne : v ≠ w := by
            rintro rfl
            rw [running] at eq
            cases eq
          rw [update_of_ne ne]
          exact progress.returned v eq

theorem slice_overwrite {c : List Byte} {off : Nat} (le : off ≤ c.length) (src : List Byte) :
    slice (overwrite c off src) off src.length = src := by
  have front : (c.take off).length = off := by
    rw [length_take]
    omega
  unfold slice overwrite
  rw [append_assoc, drop_left' front, take_left' rfl]

/-- When all calls have returned the number of bytes they were asked to write, the pieces are in the
file one behind the other from the first offset on, in the order in which they were written; those
of each call make up its buffer, and the offset has gone past all of them.  One `filewrite` alone
does what a single `writei` of all its bytes would do. -/
theorem shared_offset (ready : Ready f ip x s₀) :
    (∀ s, (writers f ip caller buf s₀).Reachable s →
      (∀ w, s.result w = some ((buf w).length : Int)) →
      s.fs.disk.file x = overwrite (s₀.disk.file x) (s₀.ftable f).off s.written ∧
      slice (s.fs.disk.file x) (s₀.ftable f).off s.written.length = s.written ∧
      (∀ w, s.writtenBy w = buf w) ∧
      (s.fs.ftable f).off = (s₀.ftable f).off + s.written.length) ∧
    (∀ p src output t, alone p (filewrite f src output) s₀ = .ok ((src.length : Int), t) →
      t.disk.file x = overwrite (s₀.disk.file x) (s₀.ftable f).off src ∧
      (t.ftable f).off = (s₀.ftable f).off + src.length) := by
  constructor
  · intro s reach all
    have progress : Progress f ip x buf s₀ s := by
      refine reach.invariant (P := Progress f ip x buf s₀) ?_ fun s w t _ progress next =>
        progress.next next
      rintro s rfl
      exact ⟨ready, .refl s₀, fun w => rfl, fun w eq => by cases eq⟩
    have appended := progress.appended
    refine ⟨appended.contents, ?_, fun w => ?_, appended.off⟩
    · rcases eq_or_ne s.written [] with none | some
      · rw [none]
        simp [slice]
      · rw [appended.contents, slice_overwrite (appended.inside some)]
    · have pieces := progress.pieces w
      rwa [progress.returned w (all w), append_nil] at pieces
  · intro p src output t ran
    have whole : Within (fun _ => True) (alone p (filewrite f src output)) s₀ fun r t =>
        r = src.length → Appended f x src s₀ t := by
      refine alone_step_bind.mpr ((within_ok rfl).mpr ?_)
      rw [if_neg (by rw [ready.writable]; decide)]
      rw [ready.type, ready.inode]
      refine alone_bind.mpr ((alone_filewriteLoop ready le_rfl).mono (fun _ => id) ?_)
      intro r t loop
      cases r with
      | true => exact fun _ => loop rfl
      | false =>
        intro eq
        omega
    have appended := (within_ok ran).mp whole rfl
    exact ⟨appended.contents, appended.off⟩

end

/-! ## Two writers -/

/-- The file of `smallDisk` is open at its end, through one file structure. -/
def atEnd : State (Fin 2) (Disk Disk.smallSb) Addrs :=
  { State.initial (Disk.smallDisk 1) (Fin.last 1) with
    icache := fun _ => ⟨rootDev, 1, 1, none, false, Disk.fresh 0⟩
    ftable := fun _ => ⟨.inode, 2, true, true, 0, 1000⟩ }

theorem atEnd_ready : Ready 0 0 1 atEnd where
  type := rfl
  inode := rfl
  writable := rfl
  ref := by decide
  lock := rfl
  inum := rfl
  valid invalid := by cases invalid
  regular := by
    change ((Disk.smallDisk 1).dinode 1).type = tFile
    rw [Disk.smallDisk_dinode]
    rfl
  ok := Disk.smallDisk_ok 1

/-- The first writer needs two rounds. -/
def twoBuffers : Fin 2 → List Byte
  | 0 => replicate 2000 1
  | 1 => [3]

/-- The second writer comes between the rounds of the first. -/
theorem shared_offset_two :
    ∃ s, (writers 0 0 id twoBuffers atEnd).Reachable s ∧
      (∀ w, s.result w = some ((twoBuffers w).length : Int)) ∧
      s.written = replicate 1536 1 ++ 3 :: replicate 464 1 ∧
      s.fs.disk.file 1 =
        overwrite ((Disk.smallDisk 1).file 1) 1000 (replicate 1536 1 ++ 3 :: replicate 464 1) ∧
      (s.fs.ftable 0).off = 3001 := by
  have run : ((Lts.exec (Writers.next 0 0 id twoBuffers) (fun _ => true) (.start twoBuffers atEnd)
      [0, 1, 0, 0, 1]).map fun s => decide ((∀ w, s.result w = some ((twoBuffers w).length : Int)) ∧
        s.written = replicate 1536 1 ++ 3 :: replicate 464 1)) = some true := by
    decide +kernel
  have length : (replicate 1536 (1 : Byte) ++ 3 :: replicate 464 1).length = 2001 := by
    rw [length_append, length_cons, length_replicate, length_replicate]
  generalize replicate 1536 (1 : Byte) ++ 3 :: replicate 464 1 = src at run length ⊢
  obtain ⟨s, exec, facts⟩ := Option.map_eq_some_iff.mp run
  obtain ⟨all, written⟩ := of_decide_eq_true facts
  have start : (writers 0 0 id twoBuffers atEnd).Reachable (.start twoBuffers atEnd) := .init rfl
  have reach := start.of_exec (fun _ _ _ _ next _ => next) exec
  obtain ⟨contents, -, -, off⟩ := (shared_offset atEnd_ready).1 s reach all
  rw [written] at contents off
  rw [length] at off
  exact ⟨s, reach, all, written, contents, off⟩

end Xv6.Fs
