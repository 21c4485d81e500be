import Xv6.Lib.Tally
import Xv6.Log.Group

/-!
# Group commit never splits an operation

`Moves` lists what one step of the log can do, guards included; `step_moves` is the
only place that unfolds the step function.  `Counts` says what the counters count, and `Contents`
what the current group and the committed transactions hold, operation by operation.
-/

namespace Xv6.Log

open Function List

variable {P : Type}

/-! ## What a step can do -/

/-- The operation a process is inside of, with the blocks it has logged. -/
def Pc.op : Pc → Option (Nat × List BlockNo)
  | .inOp op logged => some (op, logged)
  | .logWrite op logged _ => some (op, logged)
  | _ => none

/-- `begin_op`'s space test: the reservations of the operations inside, of this one,
and the blocks already logged exceed `LOGSIZE`. -/
def Full (s : LogState P) : Prop :=
  (s.lh.length : Int) + (s.outstanding + 1) * maxOpBlocks > logSize

inductive Moves [DecidableEq P] (g : Geometry) (s : LogState P) : Act P → LogState P → Prop
  | sleep {p : P} : s.procs p = .out → s.committing = true ∨ Full s →
      Moves g s (.beginOp p) (s.goto p .asleep)
  | enter {p : P} : s.procs p = .out → s.committing = false → ¬ Full s →
      Moves g s (.beginOp p) { s.goto p (.inOp s.nextOp []) with
        outstanding := s.outstanding + 1, nextOp := s.nextOp + 1 }
  | kill {p : P} : s.procs p = .asleep → Moves g s (.kill p) (s.goto p .out)
  | tooBig {p : P} {b : BlockNo} {op : Nat} {logged : List BlockNo} :
      s.procs p = .inOp op logged →
      s.lh.length ≥ logSize ∨ (s.lh.length : Int) ≥ (g.size : Int) - 1 →
      Moves g s (.test p b) { s with panic := some .tooBigATransaction }
  | outside {p : P} {b : BlockNo} {op : Nat} {logged : List BlockNo} :
      s.procs p = .inOp op logged → s.outstanding < 1 →
      Moves g s (.test p b) { s with panic := some .logWriteOutsideOfTrans }
  | test {p : P} {b : BlockNo} {op : Nat} {logged : List BlockNo} :
      s.procs p = .inOp op logged →
      ¬ (s.lh.length ≥ logSize ∨ (s.lh.length : Int) ≥ (g.size : Int) - 1) →
      Moves g s (.test p b) (s.goto p (.logWrite op logged b))
  | append {p : P} {b : BlockNo} {op : Nat} {logged : List BlockNo} :
      s.procs p = .logWrite op logged b →
      Moves g s (.append p) { s.goto p (.inOp op (absorb logged b)) with
        lh := absorb s.lh b, cur := s.cur ++ [(op, b)], history := s.history ++ [(op, b)] }
  | clash {p : P} {op : Nat} {logged : List BlockNo} :
      s.procs p = .inOp op logged → s.committing = true →
      Moves g s (.endOp p) { s with
        outstanding := s.outstanding - 1, panic := some .logCommitting }
  | last {p : P} {op : Nat} {logged : List BlockNo} :
      s.procs p = .inOp op logged → s.committing = false → s.outstanding - 1 = 0 →
      Moves g s (.endOp p) { s.goto p (.commit .test) with
        outstanding := s.outstanding - 1, committing := true }
  | leave {p : P} {op : Nat} {logged : List BlockNo} :
      s.procs p = .inOp op logged → s.committing = false → s.outstanding - 1 ≠ 0 →
      Moves g s (.endOp p) { s with
        outstanding := s.outstanding - 1
        procs := wakeup (update s.procs p .out) }
  | start {p : P} : s.procs p = .commit .test → s.lh.length > 0 →
      Moves g s (.commit p) { s.goto p (.commit (.writeLog 0)) with copied := [] }
  | skip {p : P} : s.procs p = .commit .test → s.lh = [] →
      Moves g s (.commit p) (s.goto p (.commit .finish))
  | copy {p : P} {tail : Nat} {b : BlockNo} :
      s.procs p = .commit (.writeLog tail) → s.lh[tail]? = some b →
      Moves g s (.commit p)
        { s.goto p (.commit (.writeLog (tail + 1))) with copied := s.copied ++ [b] }
  | logged {p : P} {tail : Nat} :
      s.procs p = .commit (.writeLog tail) → s.lh.length ≤ tail →
      Moves g s (.commit p) (s.goto p (.commit .writeHead))
  | head {p : P} : s.procs p = .commit .writeHead →
      Moves g s (.commit p) { s.goto p (.commit (.installTrans 0)) with
        committed := s.committed ++ [⟨s.lh, s.copied, s.cur⟩] }
  | install {p : P} {tail : Nat} : s.procs p = .commit (.installTrans tail) →
      tail < s.lh.length →
      Moves g s (.commit p) (s.goto p (.commit (.installTrans (tail + 1))))
  | installed {p : P} {tail : Nat} : s.procs p = .commit (.installTrans tail) →
      Moves g s (.commit p) (s.goto p (.commit .reset))
  | reset {p : P} : s.procs p = .commit .reset →
      Moves g s (.commit p) { s.goto p (.commit .clearHead) with lh := [], cur := [] }
  | clear {p : P} : s.procs p = .commit .clearHead →
      Moves g s (.commit p) (s.goto p (.commit .finish))
  | finish {p : P} : s.procs p = .commit .finish →
      Moves g s (.commit p) { s with
        committing := false, procs := wakeup (update s.procs p .out) }

section Moves

variable [DecidableEq P] {g : Geometry} {s t : LogState P} {a : Act P} {p : P}

theorem beginOp_moves (h : beginOp s p = some t) : Moves g s (.beginOp p) t := by
  unfold beginOp at h
  split at h
  · rename_i out
    split at h
    · rename_i busy
      cases h
      exact .sleep out (.inl busy)
    · rename_i idle
      split at h
      · rename_i full
        cases h
        exact .sleep out (.inr full)
      · rename_i room
        cases h
        exact .enter out (by simpa using idle) room
  · cases h

theorem logWriteTest_moves {b : BlockNo} (h : logWriteTest g s p b = some t) :
    Moves g s (.test p b) t := by
  unfold logWriteTest at h
  split at h
  · rename_i inside
    split at h
    · rename_i big
      cases h
      exact .tooBig inside big
    · rename_i fits
      split at h
      · rename_i none
        cases h
        exact .outside inside none
      · cases h
        exact .test inside fits
  · cases h

theorem endOp_moves (h : endOp s p = some t) : Moves g s (.endOp p) t := by
  unfold endOp at h
  split at h
  · rename_i inside
    split at h
    · rename_i busy
      cases h
      exact .clash inside busy
    · rename_i idle
      have idle : s.committing = false := by simpa using idle
      split at h
      · rename_i zero
        cases h
        exact .last inside idle zero
      · rename_i more
        cases h
        exact .leave inside idle more
  · cases h

theorem commitStep_moves (h : commitStep s p = some t) : Moves g s (.commit p) t := by
  unfold commitStep at h
  split at h
  · rename_i pc
    split at h <;> rename_i nonempty <;> cases h
    · exact .start pc nonempty
    · exact .skip pc (length_eq_zero_iff.mp (by omega))
  · rename_i pc
    split at h <;> rename_i entry <;> cases h
    · exact .copy pc entry
    · exact .logged pc (by simpa using entry)
  · rename_i pc
    cases h
    exact .head pc
  · rename_i pc
    split at h <;> cases h
    · rename_i more
      exact .install pc more
    · exact .installed pc
  · rename_i pc
    cases h
    exact .reset pc
  · rename_i pc
    cases h
    exact .clear pc
  · rename_i pc
    cases h
    exact .finish pc
  · cases h

theorem step_moves (h : step g s a = some t) : Moves g s a t := by
  unfold step at h
  split at h
  · cases h
  cases a with
  | beginOp p => exact beginOp_moves h
  | kill p =>
    dsimp only [killWake] at h
    split at h
    · rename_i asleep
      cases h
      exact .kill asleep
    · cases h
  | test p b => exact logWriteTest_moves h
  | append p =>
    dsimp only [logWriteAppend] at h
    split at h
    · rename_i tested
      cases h
      exact .append tested
    · cases h
  | endOp p => exact endOp_moves h
  | commit p => exact commitStep_moves h

end Moves

/-! ## Who is inside, and who commits -/

def Pc.inside (pc : Pc) : ℤ := if pc.op.isSome then 1 else 0

def Pc.commits : Pc → ℤ
  | .commit _ => 1
  | _ => 0

theorem Pc.inside_nonneg (pc : Pc) : 0 ≤ pc.inside := by
  unfold Pc.inside
  split <;> omega

theorem Pc.commits_nonneg (pc : Pc) : 0 ≤ pc.commits := by
  cases pc <;> simp [Pc.commits]

@[simp] theorem wakeup_op (procs : P → Pc) (p : P) : (wakeup procs p).op = (procs p).op := by
  unfold wakeup
  split
  · rename_i asleep
    rw [asleep]
    rfl
  · rfl

@[simp] theorem wakeup_commit (procs : P → Pc) (p : P) (c : CommitPc) :
    wakeup procs p = .commit c ↔ procs p = .commit c := by
  unfold wakeup
  split
  · rename_i asleep
    simp [asleep]
  · rfl

variable {p : P} {c : CommitPc}

section Counting

variable [Fintype P] {s : LogState P}

theorem tally_inside_wakeup (procs : P → Pc) :
    tally Pc.inside (wakeup procs) = tally Pc.inside procs :=
  tally_congr fun p => by simp [Pc.inside]

theorem tally_commits_wakeup (procs : P → Pc) :
    tally Pc.commits (wakeup procs) = tally Pc.commits procs :=
  tally_congr fun p => by
    unfold wakeup
    split
    · rename_i asleep
      simp [asleep, Pc.commits]
    · rfl

/-- The counters of the struct `log` say what the processes are doing. -/
structure Counts (s : LogState P) : Prop where
  outstanding : s.outstanding = tally Pc.inside s.procs
  committing : s.committing.toInt = tally Pc.commits s.procs
  quiet : s.committing = true → s.outstanding = 0

theorem Counts.initial : Counts (LogState.initial P) where
  outstanding := (tally_eq_zero fun _ => rfl).symm
  committing := (tally_eq_zero fun _ => rfl).symm
  quiet := fun h => by cases h

variable (inv : Counts s)
include inv

theorem Counts.commit_goto [DecidableEq P] (pc : s.procs p = .commit c) (next : CommitPc) :
    Counts (s.goto p (.commit next)) := by
  refine ⟨?_, ?_, inv.quiet⟩
  · rw [LogState.goto, tally_update, pc, inv.outstanding]
    simp [Pc.inside, Pc.op]
  · rw [LogState.goto, tally_update, pc, ← inv.committing]
    simp [Pc.commits]

theorem Counts.goto [DecidableEq P] (p : P) (pc : Pc) (inside : pc.inside = (s.procs p).inside)
    (commits : pc.commits = (s.procs p).commits) : Counts (s.goto p pc) := by
  refine ⟨?_, ?_, inv.quiet⟩
  · rw [LogState.goto, tally_update, inside, inv.outstanding]
    omega
  · rw [LogState.goto, tally_update, commits, ← inv.committing]
    simp

theorem Counts.not_inside (busy : s.committing = true) (p : P) : (s.procs p).op = none := by
  have zero := inv.outstanding.symm.trans (inv.quiet busy)
  have le := le_tally (w := Pc.inside) (g := s.procs) (fun q => Pc.inside_nonneg _) p
  cases op : (s.procs p).op with
  | none => rfl
  | some x =>
    simp only [Pc.inside, op, Option.isSome_some, if_true] at le
    omega

theorem Counts.of_commit (pc : s.procs p = .commit c) : s.committing = true := by
  have le := le_tally (w := Pc.commits) (g := s.procs) (fun q => Pc.commits_nonneg _) p
  rw [pc, ← inv.committing] at le
  cases h : s.committing with
  | true => rfl
  | false => simp [h, Pc.commits] at le

theorem Counts.unique [DecidableEq P] {q : P} {d : CommitPc} (hp : s.procs p = .commit c)
    (hq : s.procs q = .commit d) : p = q := by
  by_contra ne
  have le := add_le_tally (w := Pc.commits) (g := s.procs) (fun q => Pc.commits_nonneg _) ne
  rw [hp, hq, ← inv.committing, inv.of_commit hp] at le
  simp [Pc.commits] at le

theorem Counts.keep [DecidableEq P] {g : Geometry} {a : Act P} {t : LogState P}
    (m : Moves g s a t) : Counts t := by
  cases m with
  | sleep out _ => exact inv.goto _ _ (by rw [out]; rfl) (by rw [out]; rfl)
  | kill asleep => exact inv.goto _ _ (by rw [asleep]; rfl) (by rw [asleep]; rfl)
  | test inside _ => exact inv.goto _ _ (by rw [inside]; rfl) (by rw [inside]; rfl)
  | @append p b op logged tested =>
    have moved := inv.goto p (.inOp op (absorb logged b))
      (by rw [tested]; rfl) (by rw [tested]; rfl)
    exact ⟨moved.outstanding, moved.committing, moved.quiet⟩
  | tooBig _ _ => exact ⟨inv.outstanding, inv.committing, inv.quiet⟩
  | outside _ _ => exact ⟨inv.outstanding, inv.committing, inv.quiet⟩
  | enter out idle _ =>
    refine ⟨?_, ?_, fun busy => ?_⟩
    · simp only [LogState.goto, tally_update, out, inv.outstanding, Pc.inside, Pc.op]
      simp
    · simp only [LogState.goto, tally_update, out, ← inv.committing, Pc.commits]
      simp
    · exact absurd (busy.symm.trans idle) (by simp)
  | @clash p _ _ inside busy =>
    -- unreachable: nobody is inside an operation during a commit
    have none := inv.not_inside busy p
    rw [inside] at none
    cases none
  | last inside idle zero =>
    refine ⟨?_, ?_, fun _ => zero⟩
    · simp only [LogState.goto, tally_update, inside, inv.outstanding, Pc.inside, Pc.op]
      simp
    · have none := inv.committing
      simp only [idle] at none
      simp only [LogState.goto, tally_update, inside, ← none, Pc.commits]
      simp
  | leave inside idle more =>
    refine ⟨?_, ?_, fun busy => absurd (busy.symm.trans idle) (by simp)⟩
    · simp only [tally_inside_wakeup, tally_update, inside, inv.outstanding, Pc.inside, Pc.op]
      simp
    · simp only [tally_commits_wakeup, tally_update, inside, ← inv.committing, Pc.commits]
      simp
  | start pc _ | skip pc _ | copy pc _ | logged pc _ | head pc | install pc _ | installed pc
  | reset pc | clear pc =>
    have moved := inv.commit_goto pc
    exact ⟨(moved _).outstanding, (moved _).committing, inv.quiet⟩
  | finish pc =>
    have busy := inv.of_commit pc
    refine ⟨?_, ?_, fun h => by cases h⟩
    · simp only [tally_inside_wakeup, tally_update, pc, inv.outstanding, Pc.inside, Pc.op]
      simp
    · have one := inv.committing
      simp only [busy] at one
      simp only [tally_commits_wakeup, tally_update, pc, ← one, Pc.commits]
      simp

end Counting

/-! ## What the groups contain -/

/-- A committed transaction against the whole history of `log_write` calls: its
header names exactly the blocks its operations logged, `write_log` copied those
blocks, and each operation has all its calls in the transaction or none. -/
structure Txn.Whole (T : Txn) (history : List (Nat × BlockNo)) : Prop where
  blocks : ∀ b, b ∈ T.blocks ↔ ∃ op, (op, b) ∈ T.writes
  copied : T.copied = T.blocks
  all_or_none : ∀ op, (∀ b, (op, b) ∈ history → (op, b) ∈ T.writes) ∨
    ∀ b, (op, b) ∉ T.writes

/-- What the log holds of an operation in progress: all its calls are in the
current group, and none in a committed transaction. -/
structure Inside (nextOp : Nat) (cur history : List (Nat × BlockNo)) (committed : List Txn)
    (op : Nat) (logged : List BlockNo) : Prop where
  known : op < nextOp
  current : ∀ b, (op, b) ∈ history → (op, b) ∈ cur
  mine : ∀ b ∈ logged, (op, b) ∈ cur
  uncommitted : ∀ T ∈ committed, ∀ b, (op, b) ∉ T.writes

def Fits (s : LogState P) : Pc → Prop
  | .inOp op logged | .logWrite op logged _ =>
    Inside s.nextOp s.cur s.history s.committed op logged
  | .commit (.writeLog tail) => s.copied = s.lh.take tail
  | .commit .writeHead => s.copied = s.lh
  | _ => True

structure Contents (s : LogState P) : Prop where
  absorbed : ∀ b, b ∈ s.lh ↔ ∃ op, (op, b) ∈ s.cur
  recorded : ∀ op b, (op, b) ∈ s.history → op < s.nextOp
  sublist : ∀ w ∈ s.cur, w ∈ s.history
  closed : ∀ op b c, (op, b) ∈ s.cur → (op, c) ∈ s.history → (op, c) ∈ s.cur
  written : ∀ T ∈ s.committed, ∀ w ∈ T.writes, w ∈ s.history
  txns : ∀ T ∈ s.committed, T.Whole s.history
  procs : ∀ p, Fits s (s.procs p)

theorem Contents.initial : Contents (LogState.initial P) := by
  constructor <;> simp [LogState.initial, Fits]

theorem Fits.of_op_none {s : LogState P} {pc : Pc} (op : pc.op = none)
    (writeLog : ∀ tail, pc ≠ .commit (.writeLog tail)) (writeHead : pc ≠ .commit .writeHead) :
    Fits s pc := by
  cases pc with
  | out | asleep => trivial
  | inOp _ _ | logWrite _ _ _ => cases op
  | commit c =>
    cases c with
    | writeLog tail => exact absurd rfl (writeLog tail)
    | writeHead => exact absurd rfl writeHead
    | _ => trivial

theorem Fits.wakeup {s : LogState P} {procs : P → Pc} (fits : Fits s (procs p)) :
    Fits s (wakeup procs p) := by
  unfold Log.wakeup
  split
  · trivial
  · exact fits

theorem Inside.record {nextOp op o : Nat} {cur history : List (Nat × BlockNo)}
    {committed : List Txn} {logged logged' : List BlockNo} {b : BlockNo}
    (inside : Inside nextOp cur history committed op logged)
    (own : ∀ c ∈ logged', c ∈ logged ∨ (op, c) = (o, b)) :
    Inside nextOp (cur ++ [(o, b)]) (history ++ [(o, b)]) committed op logged' where
  known := inside.known
  current := fun c member => by
    rcases mem_append.mp member with old | new
    · exact mem_append_left _ (inside.current c old)
    · exact mem_append_right _ new
  mine := fun c member => by
    rcases own c member with old | new
    · exact mem_append_left _ (inside.mine c old)
    · exact mem_append_right _ (mem_singleton.mpr new)
  uncommitted := inside.uncommitted

section Keep

variable [DecidableEq P] {g : Geometry} {a : Act P} {s t : LogState P}

theorem Fits.update {procs : P → Pc} (rest : ∀ q, Fits s (procs q)) {pc : Pc} (fits : Fits s pc)
    (q : P) : Fits s (update procs p pc q) := by
  by_cases eq : q = p
  · subst eq
    rwa [update_self]
  · rw [update_of_ne eq]
    exact rest q

section Contents

variable (inv : Contents s)
include inv

theorem Contents.goto (p : P) {pc : Pc} (fits : Fits s pc) :
    Contents (s.goto p pc) where
  absorbed := inv.absorbed
  recorded := inv.recorded
  sublist := inv.sublist
  closed := inv.closed
  written := inv.written
  txns := inv.txns
  procs := fun q => Fits.update (s := s) inv.procs fits q

theorem Contents.append [Fintype P] (counts : Counts s) {b : BlockNo} {op : Nat}
    {logged : List BlockNo} (tested : s.procs p = .logWrite op logged b) :
    Contents { s.goto p (.inOp op (absorb logged b)) with
      lh := absorb s.lh b, cur := s.cur ++ [(op, b)], history := s.history ++ [(op, b)] } := by
  have inside : Inside s.nextOp s.cur s.history s.committed op logged := by
    have fits := inv.procs p
    rwa [tested] at fits
  have idle : ∀ q c, s.procs q ≠ .commit c := fun q c pc => by
    have none := counts.not_inside (counts.of_commit pc) p
    rw [tested] at none
    cases none
  constructor
  · intro c
    simp only [mem_absorb, inv.absorbed, mem_append, mem_singleton, Prod.mk.injEq]
    constructor
    · rintro (⟨o, member⟩ | rfl)
      · exact ⟨o, .inl member⟩
      · exact ⟨op, .inr ⟨rfl, rfl⟩⟩
    · rintro ⟨o, member | ⟨_, rfl⟩⟩
      · exact .inl ⟨o, member⟩
      · exact .inr rfl
  · intro o c member
    simp only [mem_append, mem_singleton, Prod.mk.injEq] at member
    rcases member with old | ⟨rfl, rfl⟩
    · exact inv.recorded o c old
    · exact inside.known
  · intro w member
    rcases mem_append.mp member with old | new
    · exact mem_append_left _ (inv.sublist w old)
    · exact mem_append_right _ new
  · intro o c d inCur inHistory
    simp only [mem_append, mem_singleton, Prod.mk.injEq] at inCur inHistory ⊢
    rcases inHistory with old | new
    · left
      rcases inCur with here | ⟨rfl, rfl⟩
      · exact inv.closed o c d here old
      · exact inside.current d old
    · exact .inr new
  · intro T member w inT
    exact mem_append_left _ (inv.written T member w inT)
  · intro T member
    refine ⟨(inv.txns T member).blocks, (inv.txns T member).copied, fun o => ?_⟩
    by_cases eq : o = op
    · subst eq
      exact .inr (inside.uncommitted T member)
    · rcases (inv.txns T member).all_or_none o with all | none
      · refine .inl fun c inHistory => all c ?_
        simpa [eq] using inHistory
      · exact .inr none
  · refine Fits.update (fun q => ?_) ?_
    · have fits := inv.procs q
      cases pc : s.procs q with
      | out | asleep => trivial
      | commit c => exact absurd pc (idle q c)
      | inOp o l | logWrite o l _ =>
        rw [pc] at fits
        exact Inside.record fits fun c => Or.inl
    · refine Inside.record inside fun c member => ?_
      rcases mem_absorb.mp member with old | rfl
      · exact .inl old
      · exact .inr rfl

/-- The committer writes the header: the current group becomes a transaction. -/
theorem Contents.head [Fintype P] (counts : Counts s) (pc : s.procs p = .commit .writeHead) :
    Contents { s.goto p (.commit (.installTrans 0)) with
      committed := s.committed ++ [⟨s.lh, s.copied, s.cur⟩] } := by
  have copied : s.copied = s.lh := by
    have fits := inv.procs p
    rwa [pc] at fits
  constructor
  · exact inv.absorbed
  · exact inv.recorded
  · exact inv.sublist
  · exact inv.closed
  · intro T member w inT
    simp only [mem_append, mem_singleton] at member
    rcases member with old | rfl
    · exact inv.written T old w inT
    · exact inv.sublist w inT
  · intro T member
    simp only [mem_append, mem_singleton] at member
    rcases member with old | rfl
    · exact inv.txns T old
    · refine ⟨inv.absorbed, copied, fun op => ?_⟩
      by_cases logs : ∃ b, (op, b) ∈ s.cur
      · obtain ⟨b, member⟩ := logs
        exact .inl fun c => inv.closed op b c member
      · exact .inr fun b member => logs ⟨b, member⟩
  · refine Fits.update (fun q => ?_) trivial
    have outside := counts.not_inside (counts.of_commit pc) q
    have fits := inv.procs q
    cases at_q : s.procs q with
    | out | asleep => trivial
    | inOp _ _ | logWrite _ _ _ =>
      rw [at_q] at outside
      cases outside
    | commit c =>
      rw [at_q] at fits
      cases c <;> exact fits

theorem Contents.reset [Fintype P] (counts : Counts s) (pc : s.procs p = .commit .reset) :
    Contents { s.goto p (.commit .clearHead) with lh := [], cur := [] } := by
  constructor
  · simp
  · exact inv.recorded
  · simp
  · simp
  · exact inv.written
  · exact inv.txns
  · intro q
    by_cases eq : q = p
    · subst eq
      simp [LogState.goto, Fits]
    · -- the committer is the only process that reads the header
      simp only [LogState.goto, update_of_ne eq]
      refine Fits.of_op_none (counts.not_inside (counts.of_commit pc) q) ?_ ?_
      · exact fun tail pc' => eq (counts.unique pc' pc)
      · exact fun pc' => eq (counts.unique pc' pc)

theorem Contents.restart [Fintype P] (counts : Counts s) (pc : s.procs p = .commit c) {next : Pc}
    {copied : List BlockNo} (fits : Fits { s with copied := copied } next) :
    Contents { s.goto p next with copied := copied } := by
  refine ⟨inv.absorbed, inv.recorded, inv.sublist, inv.closed, inv.written, inv.txns, fun q => ?_⟩
  by_cases eq : q = p
  · subst eq
    simp only [LogState.goto, update_self]
    exact fits
  · simp only [LogState.goto, update_of_ne eq]
    refine Fits.of_op_none (counts.not_inside (counts.of_commit pc) q) ?_ ?_
    · exact fun tail pc' => eq (counts.unique pc' pc)
    · exact fun pc' => eq (counts.unique pc' pc)

theorem Contents.keep [Fintype P] (counts : Counts s) (m : Moves g s a t) : Contents t := by
  cases m with
  | sleep _ _ | kill _ | skip _ _ | install _ _ | installed _ | clear _ => exact inv.goto _ trivial
  | @enter p out idle _ =>
    refine ⟨inv.absorbed, fun op b member => Nat.lt_succ_of_lt (inv.recorded op b member),
      inv.sublist, inv.closed, inv.written, inv.txns, Fits.update (fun q => ?_) ?_⟩
    · have fits := inv.procs q
      cases pc : s.procs q with
      | out | asleep => trivial
      | commit c =>
        rw [pc] at fits
        cases c <;> exact fits
      | inOp _ _ | logWrite _ _ _ =>
        rw [pc] at fits
        exact ⟨Nat.lt_succ_of_lt fits.known, fits.current, fits.mine, fits.uncommitted⟩
    · -- no call has been recorded under the new number
      have fresh : ∀ b, (s.nextOp, b) ∉ s.history := fun b member =>
        absurd (inv.recorded _ b member) (lt_irrefl _)
      exact ⟨Nat.lt_succ_self _, fun b member => absurd member (fresh b), by simp,
        fun T inTxns b member => fresh b (inv.written T inTxns _ member)⟩
  | @test p b op logged inside _ =>
    have fits := inv.procs p
    rw [inside] at fits
    exact inv.goto p fits
  | append tested => exact inv.append counts tested
  | tooBig _ _ | outside _ _ | clash _ _ =>
    exact ⟨inv.absorbed, inv.recorded, inv.sublist, inv.closed, inv.written, inv.txns, inv.procs⟩
  | last _ _ _ =>
    have tested : Fits s (.commit .test) := trivial
    exact ⟨inv.absorbed, inv.recorded, inv.sublist, inv.closed, inv.written, inv.txns,
      (inv.goto _ tested).procs⟩
  | leave _ _ _ | finish _ =>
    have out : Fits s .out := trivial
    exact ⟨inv.absorbed, inv.recorded, inv.sublist, inv.closed, inv.written, inv.txns,
      fun q => ((inv.goto _ out).procs q).wakeup⟩
  | start pc _ => exact inv.restart counts pc rfl
  | @copy p tail b pc entry =>
    have copied : s.copied = s.lh.take tail := by
      have fits := inv.procs p
      rwa [pc] at fits
    refine inv.restart counts pc ?_
    simp only [Fits, copied, take_add_one, entry, Option.toList_some]
  | @logged p tail pc le =>
    have copied : s.copied = s.lh.take tail := by
      have fits := inv.procs p
      rwa [pc] at fits
    exact inv.goto p (copied.trans (take_of_length_le le))
  | head pc => exact inv.head counts pc
  | reset pc => exact inv.reset counts pc

end Contents

end Keep

/-! ## Every reachable state -/

section Reachable

variable [DecidableEq P] [Fintype P] {g : Geometry} {s : LogState P}

theorem reachable_contents (reach : (log g P).Reachable s) : Counts s ∧ Contents s := by
  refine Lts.Reachable.invariant (P := fun s => Counts s ∧ Contents s) ?_ ?_ reach
  · rintro s rfl
    exact ⟨Counts.initial, Contents.initial⟩
  · intro s a t _ inv step
    have m := step_moves step
    exact ⟨inv.1.keep m, inv.2.keep inv.1 m⟩

def Act.IsLogWrite : Act P → Prop
  | .test _ _ | .append _ => True
  | _ => False

theorem Moves.committing_of_logWrite {a : Act P} {t : LogState P} (counts : Counts s)
    (m : Moves g s a t) (call : a.IsLogWrite) : s.committing = false := by
  by_contra busy
  have none := counts.not_inside (by simpa using busy)
  cases m with
  | @tooBig p _ _ _ pc _ | @outside p _ _ _ pc _ | @test p _ _ _ pc _ | @append p _ _ _ pc =>
    have inside := none p
    rw [pc] at inside
    cases inside
  | _ => exact call

theorem panic_ne_logCommitting (reach : (log g P).Reachable s) :
    s.panic ≠ some .logCommitting := by
  induction reach with
  | init start =>
    cases start
    simp [LogState.initial]
  | @step s t a before step ih =>
    have counts := (reachable_contents before).1
    cases step_moves step with
    | @clash p _ _ pc busy =>
      have none := counts.not_inside busy p
      rw [pc] at none
      cases none
    | tooBig _ _ | outside _ _ => simp
    | _ => exact ih

/-- **Group commit.**  In every reachable state of the log, for any interleaving:
`commit()` runs only while no operation is outstanding, one process at a time; no
step of a `log_write` is taken while `committing` is set; every transaction whose
header was written holds all the calls of an operation or none of them; and
`end_op` has not panicked. -/
theorem commit_whole (reach : (log g P).Reachable s) :
    (∀ p c, s.procs p = .commit c → s.outstanding = 0) ∧
      (∀ p q c d, s.procs p = .commit c → s.procs q = .commit d → p = q) ∧
      (∀ a t, (log g P).step s a t → a.IsLogWrite → s.committing = false) ∧
      (∀ T ∈ s.committed, T.Whole s.history) ∧
      s.panic ≠ some .logCommitting := by
  obtain ⟨counts, contents⟩ := reachable_contents reach
  refine ⟨fun p c pc => counts.quiet (counts.of_commit pc), fun p q c d => counts.unique,
    fun a t step => (step_moves step).committing_of_logWrite counts, contents.txns,
    panic_ne_logCommitting reach⟩

end Reachable

/-- Two operations that overlap: both log block 41, the second also block 40, and the
commit that follows writes one header for both. -/
theorem commit_whole_overlap :
    ∃ s : LogState (Fin 2), (log ⟨2, 30⟩ (Fin 2)).Reachable s ∧
      s.committed = [⟨[41, 40], [41, 40], [(0, 41), (1, 40), (1, 41)]⟩] ∧
      ∀ T ∈ s.committed, T.Whole s.history := by
  have run : ((Lts.exec (step ⟨2, 30⟩) (fun _ => true) (LogState.initial (Fin 2))
      [.beginOp 0, .beginOp 1, .test 0 41, .append 0, .test 1 40, .append 1, .test 1 41,
        .endOp 0, .append 1, .endOp 1, .commit 1, .commit 1, .commit 1, .commit 1,
        .commit 1]).map (·.committed)) =
      some [⟨[41, 40], [41, 40], [(0, 41), (1, 40), (1, 41)]⟩] := by decide +kernel
  obtain ⟨s, exec, committed⟩ := Option.map_eq_some_iff.mp run
  have reach := reachable_of_exec exec
  exact ⟨s, reach, committed, (commit_whole reach).2.2.2.1⟩

end Xv6.Log
