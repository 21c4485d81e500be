import Xv6.Log.Disk
import Xv6.Log.Space

/-!
# Crash atomicity

Every state of the system recovers to the transactions whose header write reached the disk (`Inv`),
wherever a crash falls: before the header write the header on disk is empty, after it the copies in
the log already hold the new contents, and an interrupted `install_trans`, in `commit()` or in
recovery, leaves a disk that recovers to the same contents.  All of it rests on the copies staying
inside the log area.
-/

namespace Xv6.Log

open Function

/-! ## The header block -/

variable {i : Nat}

theorem hdrInt_setHdrInt (b : Block) (lt : i < 128) (w : BitVec 32) (j : Nat) :
    hdrInt (setHdrInt b i w) j = if j = i then w else hdrInt b j :=
  b.word_setWord lt w j

theorem hdrInt_storeBlocks_le (xs : List BlockNo) (b : Block) {j : Nat} (le : j ≤ i)
    (room : i + xs.length < 128) : hdrInt (storeBlocks b i xs) j = hdrInt b j := by
  induction xs generalizing b i with
  | nil => rfl
  | cons x xs ih =>
    simp only [List.length_cons] at room
    rw [storeBlocks, ih _ (by omega) (by omega), hdrInt_setHdrInt b (by omega),
      if_neg (by omega)]

theorem hdrInt_storeBlocks (xs : List BlockNo) (b : Block) (i : Nat) {k : Nat} {x : BlockNo}
    (entry : xs[k]? = some x) (room : i + xs.length < 128) :
    hdrInt (storeBlocks b i xs) (i + k + 1) = BitVec.ofNat 32 x := by
  induction xs generalizing b i k with
  | nil => simp at entry
  | cons y ys ih =>
    simp only [List.length_cons] at room
    cases k with
    | zero =>
      simp only [List.getElem?_cons_zero, Option.some.injEq] at entry
      subst entry
      rw [storeBlocks, hdrInt_storeBlocks_le ys _ (by omega) (by omega),
        hdrInt_setHdrInt b (by omega), if_pos rfl]
    | succ k =>
      simp only [List.getElem?_cons_succ] at entry
      have rest := ih (setHdrInt b (i + 1) (BitVec.ofNat 32 y)) (i + 1) entry (by omega)
      rw [storeBlocks, ← rest]
      congr 1
      omega

theorem readHead_writeHead (b : Block) {lh : List BlockNo} (room : lh.length < 128)
    (small : ∀ x ∈ lh, x < 2 ^ 32) : readHead (writeHead b lh) = lh := by
  have count : hdrInt (writeHead b lh) 0 = BitVec.ofNat 32 lh.length := by
    rw [writeHead, hdrInt_storeBlocks_le lh _ (Nat.le_refl 0) (by omega),
      hdrInt_setHdrInt b (by omega),
      if_pos rfl]
  have length : (hdrInt (writeHead b lh) 0).toInt.toNat = lh.length := by
    have value : (BitVec.ofNat 32 lh.length).toNat = lh.length := by
      rw [BitVec.toNat_ofNat, Nat.mod_eq_of_lt (by omega)]
    rw [count, BitVec.toInt_eq_toNat_of_lt (by omega), value]
    rfl
  rw [readHead, length]
  apply List.ext_getElem?
  intro i
  by_cases lt : i < lh.length
  · have entry : lh[i]? = some (lh.get ⟨i, lt⟩) := List.getElem?_eq_getElem lt
    have word := hdrInt_storeBlocks lh (setHdrInt b 0 (BitVec.ofNat 32 lh.length)) 0 entry
      (by omega)
    simp only [Nat.zero_add] at word
    rw [List.getElem?_map, List.getElem?_range lt, Option.map_some, entry, writeHead, word,
      BitVec.toNat_ofNat, Nat.mod_eq_of_lt (small _ (List.get_mem _ _))]
  · rw [List.getElem?_eq_none (by simpa using lt), List.getElem?_eq_none (by omega)]

/-! ## Recovering a disk -/

/-- The blocks a transaction logs are 32-bit block numbers outside the log area. -/
def HomeBlocks (g : Geometry) (lh : List BlockNo) : Prop := ∀ b ∈ lh, Outside g b ∧ b < 2 ^ 32

/-- A block list as `log_write` keeps it: home blocks, at most `LOGSIZE` of them, and
their copies inside the log area. -/
structure TxnFits (g : Geometry) (lh : List BlockNo) : Prop where
  home : HomeBlocks g lh
  array : lh.length ≤ logSize
  area : lh.length < g.size

variable {g : Geometry} {d d' A : Disk}

theorem TxnFits.nil (pos : 0 < g.size) : TxnFits g [] :=
  ⟨fun _ member => absurd member List.not_mem_nil, Nat.zero_le _, pos⟩

variable {lh : List BlockNo} {b : BlockNo}

theorem TxnFits.copy_inside (fits : TxnFits g lh) (entry : lh[i]? = some b) :
    ¬ Outside g (g.start + i + 1) := by
  have lt := (List.getElem?_eq_some_iff.mp entry).1
  have area := fits.area
  unfold Outside
  omega

theorem TxnFits.start_inside (fits : TxnFits g lh) : ¬ Outside g g.start := by
  have area := fits.area
  unfold Outside
  omega

theorem TxnFits.outside (fits : TxnFits g lh) (entry : lh[i]? = some b) : Outside g b :=
  (fits.home b (List.mem_of_getElem? entry)).1

theorem pending_eq (head : readHead (d g.start) = lh) :
    pending g d = lh.mapIdx fun i b => (b, d (g.start + i + 1)) := by
  rw [pending, head]

structure Recovers (g : Geometry) (d A : Disk) : Prop where
  fits : TxnFits g (readHead (d g.start))
  logical : ∀ b, Outside g b → logical g d b = A b

theorem Recovers.of_clean (pos : 0 < g.size) (head : readHead (d g.start) = [])
    (clean : ∀ b, Outside g b → d b = A b) : Recovers g d A where
  fits := head ▸ TxnFits.nil pos
  logical := fun b out => by
    rw [Log.logical, pending_eq head]
    exact clean b out

/-- The header and the copies only look at the log area. -/
theorem pending_congr (fits : TxnFits g (readHead (d g.start)))
    (same : ∀ b, ¬ Outside g b → d' b = d b) : pending g d' = pending g d := by
  rw [pending, pending, same _ fits.start_inside]
  apply List.ext_getElem?
  intro i
  rw [List.getElem?_mapIdx, List.getElem?_mapIdx]
  cases entry : (readHead (d g.start))[i]? with
  | none => rfl
  | some b => simp only [Option.map_some, same _ (fits.copy_inside entry)]

theorem Recovers.install (rec : Recovers g d A) (entry : (readHead (d g.start))[i]? = some b) :
    Recovers g (update d b (d (g.start + i + 1))) A ∧
      pending g (update d b (d (g.start + i + 1))) = pending g d := by
  have out := rec.fits.outside entry
  have same : ∀ c, ¬ Outside g c → update d b (d (g.start + i + 1)) c = d c :=
    fun c inside => update_of_ne (fun eq : c = b => inside (eq ▸ out)) _ _
  have kept := pending_congr rec.fits same
  have member : (b, d (g.start + i + 1)) ∈ pending g d := by
    apply List.mem_of_getElem? (i := i)
    rw [pending, List.getElem?_mapIdx, entry]
    rfl
  refine ⟨⟨?_, fun c outC => ?_⟩, kept⟩
  · rw [same _ rec.fits.start_inside]
    exact rec.fits
  · rw [Log.logical, kept, applyWrites_update_of_mem member]
    exact rec.logical c outC

/-! ## The invariant -/

/-- `install_trans` has copied the first `tail` blocks home; copying the rest gives `A`. -/
structure Installing (g : Geometry) (s : DiskState) (A : Disk) (lh : List BlockNo) (tail : Nat) :
    Prop where
  recovers : Recovers g s.disk A
  head : readHead (s.disk g.start) = lh
  cached : ∀ i b, lh[i]? = some b → s.view (g.start + i + 1) = s.disk (g.start + i + 1)
  rest : ∀ b, Outside g b → applyWrites s.disk ((pending g s.disk).drop tail) b = A b

/-- `write_log` has copied the first `tail` blocks into the log; the header is empty. -/
structure Logging (g : Geometry) (s : DiskState) (A : Disk) (lh : List BlockNo) (tail : Nat) :
    Prop where
  fits : TxnFits g lh
  head : readHead (s.disk g.start) = []
  clean : ∀ b, Outside g b → s.disk b = A b
  copies : ∀ i b, i < tail → lh[i]? = some b →
    s.disk (g.start + i + 1) = s.view b ∧ s.view (g.start + i + 1) = s.view b

/-- What holds at each point of `commit()` and of recovery, for the contents `A` of the
transactions committed so far. -/
def Inv (g : Geometry) (s : DiskState) (A : Disk) : Prop :=
  match s.mode with
  | .off => Recovers g s.disk A
  | .recInstall lh tail | .install lh tail => Installing g s A lh tail
  | .recClear | .clear => Recovers g s.disk A ∧ ∀ b, Outside g b → s.disk b = A b
  | .idle => readHead (s.disk g.start) = [] ∧ ∀ b, Outside g b → s.disk b = A b
  | .writeLog lh tail => Logging g s A lh tail
  | .writeHead lh => Logging g s A lh lh.length

variable {s : DiskState}

theorem Inv.recovers (pos : 0 < g.size) (inv : Inv g s A) : Recovers g s.disk A := by
  unfold Inv at inv
  split at inv
  · exact inv
  · exact inv.recovers
  · exact inv.recovers
  · exact inv.1
  · exact inv.1
  · exact .of_clean pos inv.1 inv.2
  · exact .of_clean pos inv.head inv.clean
  · exact .of_clean pos inv.head inv.clean

variable {tail : Nat}

theorem Installing.step (inv : Installing g s A lh tail)
    (entry : lh[tail]? = some b) (mode : Mode) :
    Installing g (s.bwrite b (s.view (g.start + tail + 1)) mode) A lh (tail + 1) := by
  have entry' : (readHead (s.disk g.start))[tail]? = some b := by rwa [inv.head]
  have fits := inv.recovers.fits
  have ne : ∀ c, ¬ Outside g c → c ≠ b := fun c inside eq =>
    inside (eq ▸ fits.outside entry')
  obtain ⟨recovers, kept⟩ := inv.recovers.install entry'
  rw [← inv.cached tail b entry] at recovers kept
  refine ⟨recovers, ?_, fun i c at_i => ?_, fun c out => ?_⟩
  · simp only [DiskState.bwrite, update_of_ne (ne _ fits.start_inside), inv.head]
  · have inside := ne _ (fits.copy_inside (by rw [inv.head]; exact at_i))
    simp only [DiskState.bwrite, update_of_ne inside]
    exact inv.cached i c at_i
  · have split : (pending g s.disk).drop tail =
        (b, s.view (g.start + tail + 1)) :: (pending g s.disk).drop (tail + 1) := by
      have at_tail : (pending g s.disk)[tail]? = some (b, s.view (g.start + tail + 1)) := by
        rw [pending, List.getElem?_mapIdx, entry', inv.cached tail b entry]
        rfl
      obtain ⟨lt, eq⟩ := List.getElem?_eq_some_iff.mp at_tail
      rw [List.drop_eq_getElem_cons lt, eq]
    have rest := inv.rest c out
    rw [split] at rest
    simp only [DiskState.bwrite, kept]
    exact rest

theorem Installing.done (inv : Installing g s A lh tail) (none : lh[tail]? = none) (b : BlockNo)
    (out : Outside g b) : s.disk b = A b := by
  have rest := inv.rest b out
  rw [List.drop_of_length_le] at rest
  · exact rest
  · rw [pending_eq inv.head, List.length_mapIdx]
    exact List.getElem?_eq_none_iff.mp none

/-- `write_head` with `n = 0`: the transaction is forgotten, its blocks are home. -/
theorem clear_inv (recovers : Recovers g s.disk A) (home : ∀ b, Outside g b → s.disk b = A b) :
    Inv g (s.bwrite g.start (writeHead (s.view g.start) []) .idle) A := by
  refine ⟨?_, fun b out => ?_⟩
  · simp only [DiskState.bwrite, update_self]
    exact readHead_writeHead _ (by simp) (by simp)
  · have ne : b ≠ g.start := fun eq => recovers.fits.start_inside (eq ▸ out)
    simp only [DiskState.bwrite, update_of_ne ne]
    exact home b out

theorem Logging.step (inv : Logging g s A lh tail) (entry : lh[tail]? = some b) (mode : Mode) :
    Logging g (s.bwrite (g.start + tail + 1) (s.view b) mode) A lh (tail + 1) := by
  have inside := inv.fits.copy_inside entry
  have ne : ∀ c, Outside g c → c ≠ g.start + tail + 1 := fun c out eq => inside (eq ▸ out)
  refine ⟨inv.fits, ?_, fun c out => ?_, fun i c lt at_i => ?_⟩
  · simp only [DiskState.bwrite]
    rw [update_of_ne (by omega)]
    exact inv.head
  · simp only [DiskState.bwrite, update_of_ne (ne c out)]
    exact inv.clean c out
  · simp only [DiskState.bwrite, update_of_ne (ne c (inv.fits.outside at_i))]
    by_cases last : i = tail
    · subst last
      cases entry.symm.trans at_i
      simp
    · rw [update_of_ne (by omega), update_of_ne (by omega)]
      exact inv.copies i c (by omega) at_i

/-- **The commit point.**  The header write turns the logged copies into the pending
writes of the disk, and the contents it recovers to into those after the transaction. -/
theorem Logging.commit (inv : Logging g s A lh lh.length) :
    Installing g (s.bwrite g.start (writeHead (s.view g.start) lh) (.install lh 0))
      (applyWrites A (lh.map fun b => (b, s.view b))) lh 0 := by
  let t := s.bwrite g.start (writeHead (s.view g.start) lh) (.install lh 0)
  have array := inv.fits.array
  have lt : lh.length < 128 := by
    simp only [logSize, maxOpBlocks] at array
    omega
  have head : readHead (t.disk g.start) = lh := by
    simp only [t, DiskState.bwrite, update_self]
    exact readHead_writeHead _ lt fun x member => (inv.fits.home x member).2
  have copies : ∀ i b, lh[i]? = some b →
      t.disk (g.start + i + 1) = s.view b ∧ t.view (g.start + i + 1) = s.view b := by
    intro i b entry
    simp only [t, DiskState.bwrite]
    rw [update_of_ne (by omega), update_of_ne (by omega)]
    exact inv.copies i b (List.getElem?_eq_some_iff.mp entry).1 entry
  have pend : pending g t.disk = lh.map fun b => (b, s.view b) := by
    rw [pending_eq head]
    apply List.ext_getElem?
    intro i
    rw [List.getElem?_mapIdx, List.getElem?_map]
    cases entry : lh[i]? with
    | none => rfl
    | some b => simp only [Option.map_some, (copies i b entry).1]
  have after : ∀ b, Outside g b → applyWrites t.disk (pending g t.disk) b =
      applyWrites A (lh.map fun b => (b, s.view b)) b := by
    intro b out
    have ne : b ≠ g.start := fun eq => inv.fits.start_inside (eq ▸ out)
    have same : t.disk b = A b := by
      simp only [t, DiskState.bwrite, update_of_ne ne]
      exact inv.clean b out
    rw [pend]
    exact applyWrites_congr (.inl same)
  refine ⟨⟨head.symm ▸ inv.fits, after⟩, head, fun i b entry => ?_, after⟩
  exact (copies i b entry).2.trans (copies i b entry).1.symm

def DiskState.contents (s : DiskState) : Disk := applyAll s.base s.committed

theorem blockWrite_inv {t : DiskState} (inv : Inv g s s.contents)
    (write : blockWrite g s = some t) : Inv g t t.contents := by
  unfold blockWrite at write
  unfold Inv at inv
  split at write <;> rename_i mode <;> simp only [mode] at inv
  · -- recInstall
    split at write <;> rename_i entry <;> cases write
    · exact inv.step entry _
    · exact ⟨inv.recovers, inv.done entry⟩
  · -- recClear
    cases write
    exact clear_inv inv.1 inv.2
  · -- writeLog
    split at write <;> rename_i entry <;> cases write
    · exact inv.step entry _
    · have le := List.getElem?_eq_none_iff.mp entry
      exact ⟨inv.fits, inv.head, inv.clean, fun i b lt => inv.copies i b (by omega)⟩
  · -- writeHead
    cases write
    have contents : ∀ w, applyAll s.base (s.committed ++ [w]) = applyWrites s.contents w :=
      fun w => by simp [applyAll, DiskState.contents]
    have committed := inv.commit
    rw [← contents] at committed
    exact ⟨committed.recovers, committed.head, committed.cached, committed.rest⟩
  · -- install
    split at write <;> rename_i entry <;> cases write
    · exact inv.step entry _
    · exact ⟨inv.recovers, inv.done entry⟩
  · -- clear
    cases write
    exact clear_inv inv.1 inv.2
  · cases write
  · cases write

theorem next_inv {t : DiskState} {a : DiskAct} (pos : 0 < g.size) (inv : Inv g s s.contents)
    (step : next g s a = some t) (fits : ∀ lh data, a = .commit lh data → TxnFits g lh) :
    Inv g t t.contents := by
  cases a with
  | crash =>
    cases step
    have recovers := inv.recovers pos
    exact recovers
  | boot =>
    simp only [next] at step
    split at step <;> rename_i mode <;> cases step
    have recovers := inv.recovers pos
    exact ⟨recovers, rfl, fun _ _ _ => rfl, recovers.logical⟩
  | commit lh data =>
    simp only [next] at step
    split at step <;> rename_i mode
    · simp only [Inv, mode] at inv
      split at step <;> cases step
      · exact ⟨fits lh data rfl, inv.1, inv.2, fun _ _ lt => by omega⟩
      · simp only [Inv, mode]
        exact inv
    · cases step
  | write => exact blockWrite_inv inv step

theorem reachable_inv (reach : (disk g (TxnFits g)).Reachable s) :
    0 < g.size ∧ Inv g s s.contents := by
  induction reach with
  | init start =>
    obtain ⟨mode, ok, base, committed⟩ := start
    refine ⟨Nat.lt_of_le_of_lt (Nat.zero_le _) ok.area, ?_⟩
    simp only [Inv, mode, DiskState.contents, committed, base]
    exact ⟨ok, fun _ _ => rfl⟩
  | step _ step ih => exact ⟨ih.1, next_inv ih.1 ih.2 step.1 step.2⟩

/-- **Crash atomicity.**  Start from any disk, run any sequence of transactions whose copies
fit the log area, crash between any two block writes, also of recovery itself and any number
of times: whenever recovery has completed, the blocks outside the log area are those after
exactly the transactions whose header write reached the disk. -/
theorem crash_atomic {s : DiskState} (reach : (disk g (TxnFits g)).Reachable s)
    (up : s.mode = .idle) (b : Nat) (out : Outside g b) :
    s.disk b = applyAll s.base s.committed b := by
  have inv := (reachable_inv reach).2
  simp only [Inv, up] at inv
  exact inv.2 b out

/-! ## Groups on the disk -/

section Groups

variable {P : Type} [Fintype P] [DecidableEq P] {s : LogState P}

theorem committed_length
    (reach : ((log mkfsLog P).restrict (OpsBounded (maxOpBlocks - 1))).Reachable s) :
    ∀ T ∈ s.committed, T.blocks.length ≤ logSize - 2 := by
  induction reach with
  | init start =>
    cases start.1
    simp [LogState.initial]
  | step before step ih =>
    have le := (reachable_room before).1.length_le before.of_restrict.2
    cases step_moves step.1 with
    | head => exact List.forall_mem_append.mpr ⟨ih, List.forall_mem_singleton.mpr le⟩
    | _ => exact ih

/-- **Groups survive a crash.**  When operations of fewer than `MAXOPBLOCKS` home blocks each are
committed together, in any interleaving, every group is a transaction of those that recovery takes
whole, and the blocks of an operation in it are all in it. -/
theorem groups_recoverable
    (reach : ((log mkfsLog P).restrict (OpsBounded (maxOpBlocks - 1))).Reachable s)
    (home : HomeBlocks mkfsLog (s.history.map Prod.snd)) {T : Txn} (member : T ∈ s.committed) :
    TxnFits mkfsLog T.blocks ∧
      ∀ op b c, (op, b) ∈ T.writes → (op, c) ∈ s.history → c ∈ T.blocks := by
  obtain ⟨-, contents⟩ := reachable_contents reach.of_restrict.1
  have whole := contents.txns T member
  have le := committed_length reach T member
  refine ⟨⟨fun b logged => ?_, by omega, Nat.lt_of_le_of_lt le (by decide)⟩,
    fun op b c here known => ?_⟩
  · obtain ⟨op, written⟩ := (whole.blocks b).mp logged
    exact home b (List.mem_map_of_mem (contents.written T member _ written))
  · have all := (whole.all_or_none op).resolve_right fun none => none b here
    exact (whole.blocks c).mpr ⟨op, all c known⟩

end Groups

theorem groups_recoverable_two : ∃ s : LogState (Fin 3), ∃ T ∈ s.committed,
    ((log mkfsLog (Fin 3)).restrict (OpsBounded (maxOpBlocks - 1))).Reachable s ∧
      T.blocks = [40, 41] ∧ TxnFits mkfsLog T.blocks := by
  have run : (Lts.exec (step mkfsLog) (opsBounded (maxOpBlocks - 1)) (LogState.initial (Fin 3))
      (.beginOp 0 :: logs 0 40 ++ logs 0 41 ++ .endOp 0 :: List.replicate 5 (.commit 0))).map
      (fun s => (s.history, s.committed)) =
        some ([(0, 40), (0, 41)], [⟨[40, 41], [40, 41], [(0, 40), (0, 41)]⟩]) := by decide +kernel
  obtain ⟨s, exec, eq⟩ := Option.map_eq_some_iff.mp run
  obtain ⟨history, committed⟩ := Prod.mk.inj eq
  have reach : ((log mkfsLog (Fin 3)).restrict (OpsBounded (maxOpBlocks - 1))).Reachable s :=
    reachable_of_opsBounded exec
  have member : ⟨[40, 41], [40, 41], [(0, 40), (0, 41)]⟩ ∈ s.committed := by simp [committed]
  have home : HomeBlocks mkfsLog (s.history.map Prod.snd) := by
    rw [history]
    unfold HomeBlocks
    decide
  exact ⟨s, _, member, reach, rfl, (groups_recoverable reach home member).1⟩

/-! ## Two runs -/

def zeroDisk : Disk := fun _ _ => 0

def ones : Block := fun _ => 1

theorem readHead_zero (n : Nat) : readHead (zeroDisk n) = [] := by
  have zero : hdrInt (zeroDisk n) 0 = 0 := Words.Page.word_zero _
  rw [readHead, zero]
  rfl

/-- A transaction on two blocks is cut off after its first block was installed; recovery
is cut off as well, and completes the next time. -/
theorem crash_atomic_interrupted :
    ∃ s, (disk mkfsLog (TxnFits mkfsLog)).Reachable s ∧ s.mode = .idle ∧
      s.committed.length = 1 ∧ s.disk 41 = applyAll s.base s.committed 41 := by
  have run : ((Lts.exec (next mkfsLog) (fun _ => true) (.unbooted mkfsLog zeroDisk)
      ([.boot, .write, .write, .commit [40, 41] fun _ => ones] ++ List.replicate 5 .write ++
        [.crash, .boot, .write, .crash, .boot] ++ List.replicate 4 .write)).map
      fun s => (s.mode, s.committed.length)) = some (.idle, 1) := by decide +kernel
  obtain ⟨s, exec, eq⟩ := Option.map_eq_some_iff.mp run
  have idle : s.mode = .idle := (Prod.mk.inj eq).1
  have reach : (disk mkfsLog (TxnFits mkfsLog)).Reachable s := by
    refine disk_reachable_of_exec ?_ (fun lh data member => ?_) exec
    · rw [readHead_zero]
      exact TxnFits.nil (by decide)
    · have eq : lh = [40, 41] ∧ data = fun _ => ones := by simpa using member
      rw [eq.1]
      exact ⟨by unfold HomeBlocks; decide, by decide, by decide⟩
  exact ⟨s, reach, idle, (Prod.mk.inj eq).2, crash_atomic reach idle 41 (by decide)⟩

/-- A log of ten blocks, header included, right after the superblock. -/
def tenLog : Geometry := ⟨2, 10⟩

/-- Two operations of five blocks each.  Both pass `log_write`'s size test for their last block
while eight are logged; then both append and end, and the second one commits, up to the copy of the
tenth block. -/
def tornRun : List (Act Bool) :=
  [.beginOp false, .beginOp true] ++ (List.range 4).flatMap (fun i => logs false (100 + i)) ++
    (List.range 4).flatMap (fun i => logs true (200 + i)) ++
    [.test false 104, .test true 204, .append false, .append true, .endOp false, .endOp true] ++
    List.replicate 10 (.commit true)

def tornBlocks : List BlockNo := [100, 101, 102, 103, 200, 201, 202, 203, 104, 204]

/-- **A torn transaction.**  In a log of ten blocks two operations of five blocks each can hand
`commit()` the ten blocks `tornBlocks`.  All of them lie outside the log area, but the copy of the
last one is written to block 12, the one after it.  A crash before the header write leaves that
block changed, with no transaction committed. -/
theorem crash_torn :
    (∃ t, ((log tenLog Bool).restrict (OpsBounded maxOpBlocks)).Reachable t ∧
      t.lh = tornBlocks ∧ t.procs true = .commit (.writeLog 9)) ∧
    ∃ s, (disk tenLog fun lh => HomeBlocks tenLog lh ∧ lh.length ≤ logSize).Reachable s ∧
      s.mode = .idle ∧ s.committed = [] ∧ Outside tenLog 12 ∧
      s.disk 12 ≠ applyAll s.base s.committed 12 := by
  constructor
  · have run : (Lts.exec (step tenLog) (opsBounded maxOpBlocks) (LogState.initial Bool)
        tornRun).map (fun t => (t.lh, t.procs true)) =
          some (tornBlocks, .commit (.writeLog 9)) := by decide +kernel
    obtain ⟨t, exec, eq⟩ := Option.map_eq_some_iff.mp run
    exact ⟨t, reachable_of_opsBounded exec, Prod.mk.inj eq⟩
  have run : ((Lts.exec (next tenLog) (fun _ => true) (.unbooted tenLog zeroDisk)
      ([.boot, .write, .write, .commit tornBlocks fun _ => ones] ++ List.replicate 10 .write ++
        [.crash, .boot, .write, .write])).map
      fun s => (s.mode, s.committed.length, s.disk 12 0, applyAll s.base s.committed 12 0)) =
        some (.idle, 0, 1, 0) := by decide +kernel
  obtain ⟨s, exec, eq⟩ := Option.map_eq_some_iff.mp run
  simp only [Prod.mk.injEq] at eq
  refine ⟨s, ?_, eq.1, List.length_eq_zero_iff.mp eq.2.1, by decide, fun same => ?_⟩
  · refine disk_reachable_of_exec ?_ (fun lh data member => ?_) exec
    · rw [readHead_zero]
      exact ⟨(TxnFits.nil (g := tenLog) (by decide)).home, by decide⟩
    · have eq : lh = tornBlocks ∧ data = fun _ => ones := by simpa using member
      rw [eq.1]
      exact ⟨by unfold HomeBlocks; decide, by decide⟩
  · have byte := congrFun same 0
    rw [eq.2.2.1, eq.2.2.2] at byte
    exact absurd byte (by decide)

end Xv6.Log
