import Xv6.Log.GroupCommit

/-!
# Log space under concurrent operations

`begin_op` admits an operation when the blocks already logged and `MAXOPBLOCKS` for every operation
inside fit `LOGSIZE`.  The log area `mkfs` lays out has `LOGSIZE` blocks with the header among them,
so `LOGSIZE - 1` hold data, and `log_write` refuses a call as soon as that many are in use, whether
or not the block would be absorbed.
-/

namespace Xv6.Log

open Function

/-- The log `mkfs` lays out: it starts after the superblock and has `nlog = LOGSIZE`
blocks, header included. -/
def mkfsLog : Geometry := ⟨2, logSize⟩

/-- The distinct blocks the operation of a process has logged, the one its current
`log_write` is about to append included. -/
def Pc.demand : Pc → Nat
  | .inOp _ logged => logged.length
  | .logWrite _ logged b => (absorb logged b).length
  | _ => 0

/-- Every operation in progress logs at most `k` distinct blocks. -/
def OpsBounded {P : Type} (k : Nat) (s : LogState P) : Prop := ∀ p, (s.procs p).demand ≤ k

/-- No `log_write` found the log full, the header array stays within the data blocks
of the log area, and so does every block `write_log` is about to write. -/
structure InArea {P : Type} (g : Geometry) (s : LogState P) : Prop where
  panic : s.panic ≠ some .tooBigATransaction
  length : s.lh.length ≤ g.size - 1
  writeLog : ∀ p tail b, s.procs p = .commit (.writeLog tail) → s.lh[tail]? = some b →
    g.start + tail + 1 < g.start + g.size

theorem length_absorb_of_mem {l : List BlockNo} {b : BlockNo} (member : b ∈ l) :
    (absorb l b).length = l.length := by
  induction l with
  | nil => cases member
  | cons x xs ih =>
    simp only [absorb]
    split
    · rfl
    · rename_i ne
      rcases List.mem_cons.mp member with rfl | later
      · exact absurd rfl ne
      · simp [ih later]

theorem length_absorb_of_not_mem {l : List BlockNo} {b : BlockNo} (absent : b ∉ l) :
    (absorb l b).length = l.length + 1 := by
  induction l with
  | nil => rfl
  | cons x xs ih =>
    simp only [List.mem_cons, not_or] at absent
    simp only [absorb, if_neg (Ne.symm absent.1), List.length_cons, ih absent.2]

theorem length_absorb_le (l : List BlockNo) (b : BlockNo) :
    l.length ≤ (absorb l b).length := by
  by_cases member : b ∈ l
  · exact (length_absorb_of_mem member).ge
  · rw [length_absorb_of_not_mem member]
    omega

/-! ## The budget -/

/-- What an operation may still log out of `MAXOPBLOCKS - 1`. -/
def Pc.spare : Pc → ℤ
  | .inOp _ logged | .logWrite _ logged _ => (maxOpBlocks - 1 : ℤ) - logged.length
  | _ => 0

section Room

variable {P : Type} [Fintype P] {s t : LogState P}

theorem Pc.spare_nonneg {pc : Pc} (bound : pc.demand ≤ maxOpBlocks - 1) : 0 ≤ pc.spare := by
  cases pc with
  | inOp op logged =>
    simp only [Pc.demand, Pc.spare, maxOpBlocks] at bound ⊢
    omega
  | logWrite op logged b =>
    have le := length_absorb_le logged b
    simp only [Pc.demand, Pc.spare, maxOpBlocks] at bound ⊢
    omega
  | out | asleep | commit _ => exact le_refl 0

theorem Pc.spare_le_inside (pc : Pc) : pc.spare ≤ (maxOpBlocks - 1 : ℤ) * pc.inside := by
  cases pc <;> simp [Pc.spare, Pc.inside, Pc.op]

theorem tally_spare_wakeup (procs : P → Pc) :
    tally Pc.spare (wakeup procs) = tally Pc.spare procs :=
  tally_congr fun p => by
    unfold wakeup
    split
    · rename_i asleep
      simp [asleep, Pc.spare]
    · rfl

/-- Blocks logged and blocks still to come from the operations inside leave two data
blocks of `LOGSIZE` free; with nobody inside and no commit running the header is empty. -/
structure Room (s : LogState P) : Prop where
  room : (s.lh.length : ℤ) + tally Pc.spare s.procs ≤ logSize - 2
  empty : s.committing = false → s.outstanding = 0 → s.lh = []
  cleared : ∀ p, s.procs p = .commit .clearHead ∨ s.procs p = .commit .finish → s.lh = []

theorem Room.initial : Room (LogState.initial P) where
  room := by
    have zero : tally Pc.spare (LogState.initial P).procs = 0 := tally_eq_zero fun _ => rfl
    rw [zero]
    simp [LogState.initial]
  empty := fun _ _ => rfl
  cleared := fun _ _ => rfl

variable (inv : Room s)
include inv

theorem Room.length_le (bound : OpsBounded (maxOpBlocks - 1) s) : s.lh.length ≤ logSize - 2 := by
  have pos := tally_nonneg (w := Pc.spare) (g := s.procs) fun p => Pc.spare_nonneg (bound p)
  have room := inv.room
  omega

theorem Room.goto [DecidableEq P] (p : P) (pc : Pc) (spare : pc.spare ≤ (s.procs p).spare)
    (cleared : pc = .commit .clearHead ∨ pc = .commit .finish → s.lh = []) :
    Room (s.goto p pc) where
  room := by
    have room := inv.room
    simp only [LogState.goto, tally_update]
    omega
  empty := inv.empty
  cleared := fun q at_q => by
    by_cases eq : q = p
    · subst eq
      simp only [LogState.goto, update_self] at at_q
      exact cleared at_q
    · simp only [LogState.goto, update_of_ne eq] at at_q
      exact inv.cleared q at_q

theorem Room.leave [DecidableEq P] (bound : OpsBounded (maxOpBlocks - 1) s) {p : P}
    (procs : t.procs = wakeup (update s.procs p .out)) (lh : t.lh = s.lh)
    (empty : t.committing = false → t.outstanding = 0 → t.lh = []) : Room t where
  room := by
    have room := inv.room
    have pos := Pc.spare_nonneg (bound p)
    have gone : tally Pc.spare t.procs = tally Pc.spare s.procs - (s.procs p).spare := by
      rw [procs, tally_spare_wakeup, tally_update]
      simp [Pc.spare]
    rw [gone, lh]
    omega
  empty := empty
  cleared := fun q at_q => by
    rw [procs, wakeup_commit, wakeup_commit] at at_q
    by_cases eq : q = p
    · subst eq
      simp at at_q
    · rw [update_of_ne eq] at at_q
      exact lh.trans (inv.cleared q at_q)

theorem Room.enter [DecidableEq P] (counts : Counts s) {p : P} (out : s.procs p = .out)
    (idle : s.committing = false) (room : ¬ Full s) :
    Room { s.goto p (.inOp s.nextOp []) with
      outstanding := s.outstanding + 1, nextOp := s.nextOp + 1 } where
  room := by
    have reserved := tally_le_mul (g := s.procs) fun q => Pc.spare_le_inside (s.procs q)
    have inside := counts.outstanding
    have pos : 0 ≤ tally Pc.inside s.procs := tally_nonneg fun q => Pc.inside_nonneg _
    simp only [Full, maxOpBlocks, logSize] at room
    simp only [LogState.goto, tally_update, out, Pc.spare, List.length_nil, maxOpBlocks,
      logSize] at reserved ⊢
    by_cases first : s.outstanding = 0
    · -- nobody inside: the last commit emptied the header
      have length : s.lh.length = 0 := by rw [inv.empty idle first]; rfl
      omega
    · omega
  empty := fun _ zero => by
    have pos : 0 ≤ tally Pc.inside s.procs := tally_nonneg fun q => Pc.inside_nonneg _
    have inside := counts.outstanding
    simp only at zero
    omega
  cleared := fun q at_q => by
    by_cases eq : q = p
    · subst eq
      simp [LogState.goto] at at_q
    · simp only [LogState.goto, update_of_ne eq] at at_q
      exact inv.cleared q at_q

theorem Room.append [DecidableEq P] (counts : Counts s) (contents : Contents s) {p : P}
    {b : BlockNo} {op : Nat} {logged : List BlockNo} (tested : s.procs p = .logWrite op logged b) :
    Room { s.goto p (.inOp op (absorb logged b)) with
      lh := absorb s.lh b, cur := s.cur ++ [(op, b)], history := s.history ++ [(op, b)] } where
  room := by
    have room := inv.room
    have inside : Inside s.nextOp s.cur s.history s.committed op logged := by
      have fits := contents.procs p
      rwa [tested] at fits
    simp only [LogState.goto, tally_update, tested, Pc.spare]
    by_cases old : b ∈ logged
    · -- absorbed: the operation had logged `b` before, so the header holds it
      have inHeader : b ∈ s.lh := (contents.absorbed b).mpr ⟨op, inside.mine b old⟩
      rw [length_absorb_of_mem old, length_absorb_of_mem inHeader]
      omega
    · rw [length_absorb_of_not_mem old]
      by_cases inHeader : b ∈ s.lh
      · rw [length_absorb_of_mem inHeader]
        omega
      · rw [length_absorb_of_not_mem inHeader]
        omega
  empty := fun _ zero => by
    have le := le_tally (w := Pc.inside) (g := s.procs) (fun q => Pc.inside_nonneg _) p
    rw [tested, ← counts.outstanding, show s.outstanding = 0 from zero] at le
    simp [Pc.inside, Pc.op] at le
  cleared := fun q at_q => by
    have busy : ∀ c, s.procs q ≠ .commit c := fun c pc => by
      have none := counts.not_inside (counts.of_commit pc) p
      rw [tested] at none
      cases none
    by_cases eq : q = p
    · subst eq
      simp [LogState.goto] at at_q
    · simp only [LogState.goto, update_of_ne eq] at at_q
      rcases at_q with pc | pc <;> exact absurd pc (busy _)

theorem Room.keep [DecidableEq P] {g : Geometry} {a : Act P} (counts : Counts s)
    (contents : Contents s) (bound : OpsBounded (maxOpBlocks - 1) s) (m : Moves g s a t) :
    Room t := by
  cases m with
  | sleep out _ => exact inv.goto _ _ (by rw [out]; rfl) (by simp)
  | kill asleep => exact inv.goto _ _ (by rw [asleep]; rfl) (by simp)
  | test pc _ => exact inv.goto _ _ (by rw [pc]; rfl) (by simp)
  | enter out idle room => exact inv.enter counts out idle room
  | tooBig _ _ | outside _ _ => exact ⟨inv.room, inv.empty, inv.cleared⟩
  | append tested => exact inv.append counts contents tested
  | @clash p _ _ pc busy =>
    have none := counts.not_inside busy p
    rw [pc] at none
    cases none
  | @last p op logged pc idle zero =>
    have moved := inv.goto p (.commit .test) (Pc.spare_nonneg (bound p)) (by simp)
    exact ⟨moved.room, fun h => (by cases h), moved.cleared⟩
  | leave pc idle more => exact inv.leave bound rfl rfl fun _ zero => absurd zero more
  | start pc _ =>
    have moved := inv.goto _ (.commit (.writeLog 0)) (by rw [pc]; rfl) (by simp)
    exact ⟨moved.room, moved.empty, moved.cleared⟩
  | skip pc nil => exact inv.goto _ _ (by rw [pc]; rfl) fun _ => nil
  | @copy p tail b pc _ =>
    have moved := inv.goto p (.commit (.writeLog (tail + 1))) (by rw [pc]; rfl) (by simp)
    exact ⟨moved.room, moved.empty, moved.cleared⟩
  | logged pc _ | install pc _ | installed pc =>
    exact inv.goto _ _ (by rw [pc]; rfl) (by simp)
  | head pc =>
    have moved := inv.goto _ (.commit (.installTrans 0)) (by rw [pc]; rfl) (by simp)
    exact ⟨moved.room, moved.empty, moved.cleared⟩
  | @reset p pc =>
    have moved := inv.goto p (.commit .reset) (by rw [pc]) (by simp)
    have same : tally Pc.spare (s.goto p (.commit .clearHead)).procs =
        tally Pc.spare (s.goto p (.commit .reset)).procs := by
      simp only [LogState.goto, tally_update]
      rfl
    have room := moved.room
    refine ⟨?_, fun _ _ => rfl, fun _ _ => rfl⟩
    simp only [List.length_nil, same]
    omega
  | @clear p pc => exact inv.goto _ _ (by rw [pc]; rfl) fun _ => inv.cleared p (.inl pc)
  | @finish p pc => exact inv.leave bound rfl rfl fun _ _ => inv.cleared p (.inr pc)

end Room

/-! ## The exact bound -/

section Bound

variable {P : Type} [Fintype P] [DecidableEq P] {s : LogState P}

theorem reachable_room
    (reach : ((log mkfsLog P).restrict (OpsBounded (maxOpBlocks - 1))).Reachable s) :
    Room s ∧ s.panic ≠ some .tooBigATransaction := by
  induction reach with
  | init start =>
    cases start.1
    exact ⟨Room.initial, by simp [LogState.initial]⟩
  | @step s t a before step ih =>
    obtain ⟨reach, bound⟩ := before.of_restrict
    obtain ⟨counts, contents⟩ := reachable_contents reach
    have m := step_moves step.1
    refine ⟨ih.1.keep counts contents bound m, ?_⟩
    cases m with
    | tooBig _ big =>
      -- refused only with `LOGSIZE - 1` blocks in the header
      have le := ih.1.length_le bound
      simp only [mkfsLog, logSize, maxOpBlocks] at big le
      omega
    | outside _ _ | clash _ _ => simp
    | _ => exact ih.2

theorem inArea_of_bounded
    (reach : ((log mkfsLog P).restrict (OpsBounded (maxOpBlocks - 1))).Reachable s) :
    InArea mkfsLog s := by
  obtain ⟨room, panic⟩ := reachable_room reach
  have le := room.length_le reach.of_restrict.2
  simp only [logSize, maxOpBlocks] at le
  refine ⟨panic, ?_, fun p tail b _ entry => ?_⟩
  · show s.lh.length ≤ 30 - 1
    omega
  · have lt := (List.getElem?_eq_some_iff.mp entry).1
    show 2 + tail + 1 < 2 + 30
    omega

end Bound

/-- Process `p` logs block `b`: the unlocked tests, then the append. -/
def logs {P : Type} (p : P) (b : BlockNo) : List (Act P) := [.test p b, .append p]

/-- Three operations inside at once; the first has logged `MAXOPBLOCKS` blocks, the
others all but one of theirs, which leaves `LOGSIZE - 2` in the header. -/
def threeOps : List (Act (Fin 3)) :=
  [.beginOp 0, .beginOp 1, .beginOp 2] ++
    (List.range 10).flatMap (fun i => logs 0 (100 + i)) ++
    (List.range 9).flatMap (fun i => logs 1 (200 + i)) ++
    (List.range 9).flatMap fun i => logs 2 (300 + i)

/-- The second operation logs its last block; the third finds the log full. -/
def refusedRun : List (Act (Fin 3)) := threeOps ++ logs 1 209 ++ [.test 2 309]

/-- Both pass `log_write`'s size test before either appends. -/
def overrun : List (Act (Fin 3)) :=
  threeOps ++ [.test 1 209, .test 2 309, .append 1, .append 2]

def opsBounded {P : Type} [Fintype P] (k : Nat) (s : LogState P) : Bool :=
  decide (∀ p, (s.procs p).demand ≤ k)

/-- A replay in which every operation stays within `k` blocks. -/
theorem reachable_of_opsBounded {P : Type} [Fintype P] [DecidableEq P] {g : Geometry} {k : Nat}
    {acts : List (Act P)} {t : LogState P}
    (run : Lts.exec (step g) (opsBounded k) (LogState.initial P) acts = some t) :
    ((log g P).restrict (OpsBounded k)).Reachable t := by
  have start : ((log g P).restrict (OpsBounded k)).Reachable (LogState.initial P) :=
    .init ⟨rfl, fun _ => Nat.zero_le _⟩
  refine start.of_exec (fun _ _ _ _ step ok => ?_) run
  exact ⟨step, by simpa [opsBounded, OpsBounded] using ok⟩

theorem refusedRun_exec : ∃ t,
    Lts.exec (step mkfsLog) (opsBounded maxOpBlocks) (LogState.initial (Fin 3)) refusedRun =
      some t ∧ t.panic = some .tooBigATransaction := by
  have run : (Lts.exec (step mkfsLog) (opsBounded maxOpBlocks) (LogState.initial (Fin 3))
      refusedRun).map (·.panic) = some (some .tooBigATransaction) := by decide +kernel
  exact Option.map_eq_some_iff.mp run

theorem overrun_exec : ∃ t,
    Lts.exec (step mkfsLog) (opsBounded maxOpBlocks) (LogState.initial (Fin 3)) overrun =
      some t ∧ t.lh.length = logSize := by
  have run : (Lts.exec (step mkfsLog) (opsBounded maxOpBlocks) (LogState.initial (Fin 3))
      overrun).map (fun t => t.lh.length) = some logSize := by decide +kernel
  exact Option.map_eq_some_iff.mp run

/-- **The log overflows.**  With three operations of `MAXOPBLOCKS` distinct blocks each,
one interleaving panics in `log_write`; another fills the header past the data blocks of the log
area. -/
theorem log_overflow :
    (∃ s, ((log mkfsLog (Fin 3)).restrict (OpsBounded maxOpBlocks)).Reachable s ∧
      s.panic = some .tooBigATransaction) ∧
    ∃ s, ((log mkfsLog (Fin 3)).restrict (OpsBounded maxOpBlocks)).Reachable s ∧
      s.lh.length = logSize ∧ mkfsLog.size - 1 < s.lh.length := by
  constructor
  · obtain ⟨t, run, panic⟩ := refusedRun_exec
    exact ⟨t, reachable_of_opsBounded run, panic⟩
  · obtain ⟨t, run, length⟩ := overrun_exec
    exact ⟨t, reachable_of_opsBounded run, length, by rw [length]; decide⟩

/-- **Log space.**  Every interleaving of operations that log at most `k` distinct blocks
each stays inside the log area if and only if `k` is below `MAXOPBLOCKS`. -/
theorem log_fits_iff (k : Nat) :
    (∀ (n : Nat) (s : LogState (Fin n)),
      ((log mkfsLog (Fin n)).restrict (OpsBounded k)).Reachable s → InArea mkfsLog s) ↔
      k ≤ maxOpBlocks - 1 := by
  constructor
  · intro fits
    by_contra large
    obtain ⟨t, run, panic⟩ := refusedRun_exec
    have wider : ∀ s : LogState (Fin 3), OpsBounded maxOpBlocks s → OpsBounded k s :=
      fun s bound p => (bound p).trans (by simp only [maxOpBlocks] at large ⊢; omega)
    exact (fits 3 t ((reachable_of_opsBounded run).restrict_mono wider)).panic panic
  · intro small n s reach
    exact inArea_of_bounded (reach.restrict_mono fun s bound p => (bound p).trans small)

end Xv6.Log
