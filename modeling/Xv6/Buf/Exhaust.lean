import Xv6.Buf.Commit
import Mathlib.Data.Fintype.Card

/-!
# Running out of buffers

`bget` panics when every buffer is referenced or dirty.  Readers outside operations are not bounded
by the log's reservations, and a reader asleep in `iderw` keeps its buffer, so `NBUF` readers of
different blocks leave none.
-/

namespace Xv6.Buf

variable {P D : Type} [DecidableEq P]

def Bcache.request (s : Bcache P D) : Act P D → Option Nat
  | .bread _ n => some n
  | .commit p =>
    match (s.proc p).code with
    | some (.bread n :: _) => some n
    | _ => none
  | _ => none

/-! ## Only `bget` runs out -/

omit [DecidableEq P] in
theorem idestart_panic (s : Bcache P D) (b : Ptr) (quiet : s.panic ≠ some .noBuffers) :
    (idestart s b).panic ≠ some .noBuffers := by
  unfold idestart
  split
  · simp [Bcache.stop]
  · split <;> exact quiet

theorem iderw_panic (s : Bcache P D) (p : P) (b : Ptr) (reading : Bool)
    (quiet : s.panic ≠ some .noBuffers) : (iderw s p b reading).panic ≠ some .noBuffers := by
  unfold iderw
  split
  · simp [Bcache.stop]
  · split
    · simp [Bcache.stop]
    · dsimp only
      split
      · exact idestart_panic _ b quiet
      · exact quiet

theorem bwrite_panic (s : Bcache P D) (p : P) (b : Ptr) (quiet : s.panic ≠ some .noBuffers) :
    (bwrite s p b).panic ≠ some .noBuffers := by
  unfold bwrite
  split
  · simp [Bcache.stop]
  · exact iderw_panic _ p b false quiet

theorem brelse_panic (s : Bcache P D) (p : P) (b : Ptr) (quiet : s.panic ≠ some .noBuffers) :
    (brelse s p b).panic ≠ some .noBuffers := by
  unfold brelse
  split
  · simp [Bcache.stop]
  · exact quiet

omit [DecidableEq P] in
theorem ideintr_panic {s t : Bcache P D} (quiet : s.panic ≠ some .noBuffers)
    (eq : ideintr s = some t) :
    t.panic ≠ some .noBuffers := by
  unfold ideintr at eq
  split at eq
  · cases eq
  · dsimp only at eq
    split at eq <;> cases eq
    · exact quiet
    · exact idestart_panic _ _ quiet

theorem logWriteTest_panic (g : Log.Geometry) (s : Bcache P D) (p : P) (b : Ptr)
    (quiet : s.panic ≠ some .noBuffers) : (logWriteTest g s p b).panic ≠ some .noBuffers := by
  unfold logWriteTest
  split
  · simp [Bcache.stop]
  · split
    · simp [Bcache.stop]
    · exact quiet

theorem endOp_panic (s : Bcache P D) (p : P) (quiet : s.panic ≠ some .noBuffers) :
    (endOp s p).panic ≠ some .noBuffers := by
  unfold endOp
  dsimp only
  split
  · simp [Bcache.stop]
  · split <;> exact quiet

/-! ## Buffers in use -/

variable [Fintype P]

def Bcache.inUse (s : Bcache P D) : Finset Ptr :=
  Finset.univ.filter fun b => ∃ p, (s.buf b).lock = some p ∨ (s.proc p).pc.awaits = some b

/-- A request for a block that is not cached finds fewer than `NBUF` buffers in use and blocks
logged. -/
def Room (s : Bcache P D) (a : Act P D) : Prop :=
  ∀ n, s.request a = some n → (∀ b, ¬ ((s.buf b).dev = rootDev ∧ (s.buf b).blockno = n)) →
    s.inUse.card + s.lh.length < nbuf

instance instDecidableRoom (s : Bcache P D) (a : Act P D) : Decidable (Room s a) :=
  decidable_of_iff (∀ n ∈ s.request a, (∀ b, ¬ ((s.buf b).dev = rootDev ∧ (s.buf b).blockno = n)) →
    s.inUse.card + s.lh.length < nbuf) Iff.rfl

section

variable {g : Log.Geometry} {header : List Nat → D → D} {disk : Nat → D} {s t : Bcache P D}
  {p : P} {b : Ptr}

section Good

variable (good : Good g s)
include good

theorem mem_inUse : b ∈ s.inUse ↔ 0 < (s.buf b).refcnt := by
  rw [Bcache.inUse, Finset.mem_filter, and_iff_right (Finset.mem_univ b)]
  have at_b := good.inv.at_buf b
  refine ⟨fun ⟨p, who⟩ => at_b.counted who, fun pos => ?_⟩
  cases lock : (s.buf b).lock with
  | some p => exact ⟨p, .inl rfl⟩
  | none =>
    by_contra nobody
    have refs := at_b.refs
    rw [lock, tally_eq_zero fun q => if_neg fun waits => nobody ⟨q, .inr waits⟩] at refs
    simp only [Option.isSome_none, Bool.false_eq_true, if_false] at refs
    omega

theorem Good.logged (dirty : (s.buf b).dirty = true) (idle : b ∉ s.inUse) :
    (s.buf b).blockno ∈ s.lh := by
  rcases good.log.pinned b dirty with queued | logged
  · obtain ⟨p, _, lock, _⟩ := (good.inv.at_buf b).queued queued
    exact absurd ((mem_inUse good).mpr ((good.inv.at_buf b).counted (.inl lock))) idle
  · exact logged.1

theorem Good.full (busy : ∀ b, ¬ ((s.buf b).refcnt = 0 ∧ (s.buf b).dirty = false)) :
    nbuf ≤ s.inUse.card + s.lh.length := by
  have dirty : ∀ b, b ∉ s.inUse → (s.buf b).dirty = true := by
    intro b idle
    rw [mem_inUse good] at idle
    have := busy b
    have zero : (s.buf b).refcnt = 0 := by omega
    simpa [zero] using this
  have rest : (Finset.univ \ s.inUse).card ≤ s.lh.toFinset.card := by
    refine Finset.card_le_card_of_injOn (fun b => (s.buf b).blockno) (fun b mem => ?_)
      fun b mem_b c mem_c same => ?_
    · have idle : b ∉ s.inUse := by simpa using mem
      simpa using good.logged (dirty b idle) idle
    · have root : ∀ x : Ptr, x ∈ Finset.univ \ s.inUse → (s.buf x).dev = rootDev := by
        intro x mem
        have at_x := good.inv.at_buf x
        exact at_x.used (.inr (at_x.dirty (dirty x (by simpa using mem))))
      exact good.inv.unique b c (root b (by simpa using mem_b)) (root c (by simpa using mem_c)) same
  have all : (Finset.univ \ s.inUse).card + s.inUse.card = nbuf := by
    rw [Finset.card_sdiff_add_card_eq_card (Finset.subset_univ _), Finset.card_univ,
      Fintype.card_fin]
  have := s.lh.toFinset_card_le
  omega

/-! ## Runs with room -/

theorem Good.bget_room {u : Bcache P D} {n : Nat} (settled : Settled u)
    (same : u.buf = s.buf) (quiet : u.panic ≠ some .noBuffers)
    (room : (∀ b, ¬ ((s.buf b).dev = rootDev ∧ (s.buf b).blockno = n)) →
      s.inUse.card + s.lh.length < nbuf)
    (eq : bget u p rootDev n = some t) : t.panic ≠ some .noBuffers := by
  rcases settled.bget p rootDev n with ⟨b, _, hit⟩ | ⟨absent, ⟨b, _, miss⟩ | ⟨busy, full⟩⟩
  · rw [hit] at eq
    cases eq
    exact quiet
  · rw [miss] at eq
    cases eq
    exact quiet
  · rw [same] at absent busy
    exact absurd (room absent) (Nat.not_lt.mpr (good.full busy))

theorem Good.execute_room {i : Instr} {rest : List Instr} (running : s.panic = none)
    (code : (s.proc p).code = some (i :: rest)) (room : Room s (.commit p))
    (eq : Buf.execute g header s p i rest = some t) : t.panic ≠ some .noBuffers := by
  have quiet : (s.setCode p rest).panic ≠ some .noBuffers := by simp [Bcache.setCode, running]
  cases i <;> simp only [Buf.execute] at eq
  case bread n =>
    refine good.bget_room (good.inv.setCode rest).toSettled rfl quiet (fun absent => ?_) eq
    exact room n (by simp [Bcache.request, code]) absent
  case writeLog | installTrans => split at eq <;> cases eq <;> exact quiet
  case writeHead | reset =>
    cases eq
    exact quiet
  case move =>
    split at eq
    · cases eq
      exact quiet
    · cases eq
  case fill =>
    split at eq
    · cases eq
      exact quiet
    · cases eq
  case bwrite =>
    split at eq
    · cases eq
      exact bwrite_panic _ p _ quiet
    · cases eq
  case brelse =>
    split at eq
    · cases eq
      exact brelse_panic _ p _ quiet
    · cases eq

theorem Good.step_room {a : Act P D} (room : Room s a) (eq : Buf.step g header s a = some t) :
    t.panic ≠ some .noBuffers := by
  unfold Buf.step at eq
  split at eq
  · cases eq
  rename_i running
  have running : s.panic = none := by simpa using running
  have quiet : s.panic ≠ some .noBuffers := by simp [running]
  cases a <;> dsimp only at eq
  case bread p n =>
    split at eq
    · exact good.bget_room good.inv.toSettled rfl quiet (room n rfl) eq
    · cases eq
  case acquire p =>
    unfold acquiresleep at eq
    split at eq
    · split at eq <;> cases eq
      exact quiet
    · cases eq
  case test p =>
    unfold breadTest at eq
    split at eq
    · split at eq <;> cases eq
      · exact quiet
      · exact iderw_panic _ p _ true quiet
    · cases eq
  case wake p =>
    unfold iderwWait at eq
    split at eq
    · split at eq <;> cases eq
      exact quiet
    · cases eq
  case edit p b d =>
    split at eq <;> cases eq
    exact quiet
  case logWrite p b =>
    split at eq <;> cases eq
    exact logWriteTest_panic g s p b quiet
  case append p =>
    unfold logWriteAppend at eq
    split at eq <;> cases eq
    exact quiet
  case bwrite p b =>
    split at eq <;> cases eq
    exact bwrite_panic s p b quiet
  case brelse p b =>
    split at eq <;> cases eq
    exact brelse_panic s p b quiet
  case unref p =>
    unfold brelseUnref at eq
    split at eq
    · dsimp only at eq
      split at eq <;> cases eq <;> exact quiet
    · cases eq
  case beginOp p =>
    unfold beginOp at eq
    split at eq
    · split at eq
      · cases eq
      · split at eq <;> cases eq
        exact quiet
    · cases eq
  case endOp p =>
    split at eq <;> cases eq
    exact endOp_panic s p quiet
  case commit p =>
    split at eq
    · unfold commitStep at eq
      split at eq
      · rename_i i rest code
        exact good.execute_room running code room eq
      · cases eq
        exact quiet
      · cases eq
    · cases eq
  case intr => exact ideintr_panic quiet eq

end Good

/-- `panic("bget: no buffers")` is not reached in a run in which every request for a block that is
not cached leaves room. -/
theorem no_exhaustion (reach : ((bcache P g header disk).guard Room).Reachable s) :
    s.panic ≠ some .noBuffers := by
  cases reach with
  | init start =>
    cases start
    simp [Bcache.initial]
  | step before step => exact (reachable_good before.of_guard).step_room step.2 step.1

end

/-- Each of the first 30 processes is in the middle of `readi`, asleep in `iderw` with the buffer
of its own block locked; one more process calls `bread`. -/
def readers : List (Act (Fin 64) Unit) :=
  ((List.finRange 64).take 30).flatMap (fun p => [.bread p (100 + p), .acquire p, .test p]) ++
    [.bread 30 130]

/-- No operation is in progress and nothing is logged; still there is no buffer left. -/
theorem readers_exhaust : ∃ s,
    (bcache (Fin 64) ⟨2, 30⟩ (fun _ d => d) fun _ => ()).Reachable s ∧
    (∀ p, (s.proc p).inOp = false) ∧ s.lh = [] ∧ s.panic = some .noBuffers := by
  let run := Lts.exec (step ⟨2, 30⟩ fun _ d => d) (fun _ => true)
    (Bcache.initial (Fin 64) fun _ => ()) readers
  have final : run.map (fun s => (decide (∀ p, (s.proc p).inOp = false), s.lh, s.panic)) =
      some (true, [], some .noBuffers) := by
    decide +kernel
  obtain ⟨s, reached, final⟩ := Option.map_eq_some_iff.mp final
  simp only [Prod.mk.injEq, decide_eq_true_eq] at final
  exact ⟨s, Lts.Reachable.of_exec (.init rfl) (fun _ _ _ _ step _ => step) reached, final⟩

/-- Process 15 logs three blocks, ten other processes fall asleep in `iderw` with a buffer each, and
process 15 ends its operation and asks for the first block of the log. -/
def roomyRun : List (Act (Fin 16) Unit) :=
  .beginOp 15 ::
    ((List.finRange nbuf).take 3).flatMap (fun b => [.bread 15 (200 + b), .acquire 15, .test 15,
      .intr, .wake 15, .edit 15 b (), .logWrite 15 b, .append 15, .brelse 15 b, .unref 15]) ++
    ((List.finRange 16).take 10).flatMap (fun p => [.bread p (100 + p), .acquire p, .test p]) ++
    [.endOp 15, .commit 15, .commit 15]

/-- Eleven buffers are in use and three more are dirty. -/
theorem no_exhaustion_commit : ∃ s,
    ((bcache (Fin 16) ⟨2, 30⟩ (fun _ d => d) fun _ => ()).guard Room).Reachable s ∧
    s.inUse.card = 11 ∧ s.lh.length = 3 ∧ s.committing = true ∧ s.panic ≠ some .noBuffers := by
  let run := Lts.exec (fun s a => if Room s a then step ⟨2, 30⟩ (fun _ d => d) s a else none)
    (fun _ => true) (Bcache.initial (Fin 16) fun _ => ()) roomyRun
  have final : run.map (fun s => (s.inUse.card, s.lh.length, s.committing)) =
      some (11, 3, true) := by
    decide +kernel
  obtain ⟨s, reached, final⟩ := Option.map_eq_some_iff.mp final
  simp only [Prod.mk.injEq] at final
  have reach : ((bcache (Fin 16) ⟨2, 30⟩ (fun _ d => d) fun _ => ()).guard Room).Reachable s := by
    refine Lts.Reachable.of_exec (.init rfl) (fun _ _ _ _ stepped _ => ?_) reached
    exact (Option.ite_none_right_eq_some.mp stepped).symm
  exact ⟨s, reach, final.1, final.2.1, final.2.2, no_exhaustion reach⟩

end Xv6.Buf
