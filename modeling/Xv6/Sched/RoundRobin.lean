import Xv6.Sched.Priority

/-!
# Who waits for whom on one CPU

Both loops of `scheduler()` scan the table in slot order, but only the high-priority loop goes on
behind the process it dispatched.  The low-priority loop breaks after one dispatch and starts again
at slot 0, so that a process can be dispatched again and again while another one waits in a higher
slot.
-/

namespace Xv6.Sched

abbrev uniprocessor : Lts (State Unit) (Act Unit) := kernel Unit

/-- From the step at `i` on and up to `j`, process `q` satisfies `P` until it is dispatched. -/
def WaitsAs (P : Proc → Prop) (r : uniprocessor.Run) (q : Slot) (i j : Nat) : Prop :=
  ∀ k, i < k → k ≤ j → (∀ m, i < m → m < k → ¬ Dispatched (r.state m) (r.state (m + 1)) q) →
    P ((r.state k).table q)

def Proc.Low (x : Proc) : Prop := x.state = .runnable ∧ x.priority = 0

instance (x : Proc) : Decidable x.Low := inferInstanceAs (Decidable (_ ∧ _))

variable {q : Slot}

theorem WaitsAs.of_not_dispatched {P : Proc → Prop} {r : uniprocessor.Run} {i j : Nat}
    (waits : WaitsAs P r q i j)
    (never : ¬ ∃ k, i < k ∧ k < j ∧ Dispatched (r.state k) (r.state (k + 1)) q) {k : Nat}
    (after : i < k) (before : k ≤ j) : P ((r.state k).table q) :=
  waits k after before fun m lo hi dispatched => never ⟨m, lo, by omega, dispatched⟩

section Step

variable {s t : State Unit}

theorem run_moves (r : uniprocessor.Run) {i : Nat} (lt : i < r.length) :
    Inv (r.state i) ∧ Moves (r.state i) (r.state (i + 1)) := by
  obtain ⟨_, step⟩ := r.next i lt
  exact ⟨reachable_inv (r.reachable (Nat.le_of_lt lt)), step_moves step⟩

theorem sched_of_process (move : Moves s t) (away : (s.cpu ()).thread ≠ .scheduler) :
    (t.cpu ()).sched = (s.cpu ()).sched := by
  cases move with
  | acquire idle _ _ | advance _ idle _ | dispatch idle _ | release idle _ => exact absurd idle away
  | yield _ | sleep _ _ _ | exit _ _ => rfl
  | leave _ _ | settickets _ _ | reap _ _ _ | allocate _ _ _ | forkDone _ => rfl
  | forkFail _ _ | forkCopy _ _ => rfl
  | wakeup _ _ | panic _ => rfl

/-- The steps of `scheduler()` with the lock held: it scans, dispatches or releases the lock,
and nobody else does anything. -/
theorem sched_cases (inv : Inv s) (move : Moves s t) (thread : (s.cpu ()).thread = .scheduler)
    (busy : (s.cpu ()).sched ≠ .idle) :
    (Advance s.table (s.cpu ()).sched (t.cpu ()).sched ∧ t.table = s.table) ∨
      (∃ p pc, Chooses s.table (s.cpu ()).sched p pc ∧ t = s.dispatch () p pc) ∨
      (s.cpu ()).sched = .done ∨
      ((t.cpu ()).sched = (s.cpu ()).sched ∧ t.table = s.table) := by
  cases move with
  | acquire _ idle _ => exact absurd idle busy
  | advance _ _ advance => exact .inl ⟨advance, rfl⟩
  | dispatch _ chooses => exact .inr (.inl ⟨_, _, chooses, rfl⟩)
  | release _ done => exact .inr (.inr (.inl done))
  | panic _ => exact .inr (.inr (.inr ⟨rfl, rfl⟩))
  | wakeup _ free => cases free.symm.trans (inv.lock_of_sched thread busy)
  | yield inside | sleep _ inside _ | exit inside _ | leave inside _ | settickets _ inside
  | reap inside _ _ | allocate _ inside _ | forkDone inside => exact absurd thread inside.thread
  | forkFail _ running | forkCopy _ running => cases thread.symm.trans running

theorem thread_of_not_away (inv : Inv s) (stays : ¬ (s.cpu ()).sched.Away) :
    (s.cpu ()).thread = .scheduler := by
  by_contra ne
  exact stays (inv.away () ne)

end Step

/-! ## A pass of the high-priority loop -/

/-- As long as nothing is dispatched, there is high-priority work at or after the scan. -/
theorem pass_keeps {s t : State Unit} (inv : Inv s) (move : Moves s t) {hasHP : Bool} {i : Nat}
    (pc : (s.cpu ()).sched = .high hasHP i) (work : ∃ p : Slot, i ≤ p ∧ (s.table p).High)
    (quiet : ∀ p, ¬ Dispatched s t p) :
    ∃ i', (t.cpu ()).sched = .high hasHP i' ∧ ∃ p : Slot, i' ≤ p ∧ (t.table p).High := by
  have thread := thread_of_not_away inv (by rw [pc]; exact id)
  obtain ⟨p, le, high⟩ := work
  rcases sched_cases inv move thread (by rw [pc]; simp) with
    ⟨advance, table⟩ | ⟨q, pc', chooses, rfl⟩ | done | ⟨same, table⟩
  · rw [pc] at advance
    rw [table]
    generalize (t.cpu ()).sched = after at advance ⊢
    cases advance with
    | highSkip lt skipped =>
      have ne : i ≠ p := by
        rintro rfl
        exact skipped high
      exact ⟨i + 1, rfl, p, by omega, high⟩
    | passEnd last => exact absurd p.isLt (by omega)
  · exact absurd (dispatch_dispatched chooses.ready) (quiet q)
  · cases pc.symm.trans done
  · exact ⟨i, same.trans pc, p, le, by rw [table]; exact high⟩

/-- Every pass dispatches a process: from its first slot to the end of the table. -/
theorem pass_dispatches (r : uniprocessor.Run) {i j : Nat} {hasHP hasHP' : Bool} (le : i ≤ j)
    (inside : j ≤ r.length) (start : ((r.state i).cpu ()).sched = .high hasHP 0)
    (stop : ((r.state j).cpu ()).sched = .high hasHP' nproc) :
    ∃ k p, i ≤ k ∧ k < j ∧ Dispatched (r.state k) (r.state (k + 1)) p := by
  by_contra none
  have quiet : ∀ k, i ≤ k → k < j → ∀ p, ¬ Dispatched (r.state k) (r.state (k + 1)) p :=
    fun k lo hi p dispatched => none ⟨k, p, lo, hi, dispatched⟩
  have ahead : ∃ m, ((r.state j).cpu ()).sched = .high hasHP m ∧
      ∃ p : Slot, m ≤ p ∧ ((r.state j).table p).High := by
    refine Lts.Run.carry (P := fun k => ∃ m, ((r.state k).cpu ()).sched = .high hasHP m ∧
      ∃ p : Slot, m ≤ p ∧ ((r.state k).table p).High) le ?_ fun k lo hi ⟨m, pc, work⟩ => ?_
    · have inv := reachable_inv (r.reachable (le.trans inside))
      have scanned := inv.scanned () (thread_of_not_away inv (by rw [start]; exact id))
      rw [start] at scanned
      obtain ⟨p, high⟩ := scanned rfl
      exact ⟨0, start, p, Nat.zero_le _, high⟩
    · obtain ⟨inv, move⟩ := run_moves r (i := k) (by omega)
      exact pass_keeps inv move pc work (quiet k lo hi)
  obtain ⟨m, pc, p, after, _⟩ := ahead
  cases pc.symm.trans stop
  exact absurd p.isLt (by omega)

/-! ## Between two dispatches -/

/-- The scan will meet `q` before it meets `p`. -/
def Ahead (p q : Slot) : SchedPc → Prop
  | .high _ m => (p.val < q.val → p < m ∧ m ≤ q) ∧ (q.val < p.val → m ≤ q ∨ p < m)
  | .highRet m =>
    (p.val < q.val → p < m + 1 ∧ m + 1 ≤ q) ∧ (q.val < p.val → m + 1 ≤ q ∨ p < m + 1)
  | .count _ _ _ => q.val < p.val
  | _ => False

variable {p : Slot}

theorem Ahead.next {hasHP : Bool} {m : Nat} (ahead : Ahead p q (.high hasHP m)) (ne : m ≠ q)
    (hasHP' : Bool) : Ahead p q (.high hasHP' (m + 1)) := by
  obtain ⟨right, left⟩ := ahead
  refine ⟨fun lt => ?_, fun lt => ?_⟩
  · have bounds := right lt
    omega
  · have bounds := left lt
    omega

/-- While `q` is ready and not chosen, the scan neither chooses `p` nor gives up. -/
theorem Ahead.advance {u : Table} {pc pc' : SchedPc} (ahead : Ahead p q pc) (ne : p ≠ q)
    (ready : (u q).High) (scanned : Scanned u pc) (advance : Advance u pc pc') : Ahead p q pc' := by
  cases advance with
  | count _ => exact ahead
  | passStart _ _ => exact ⟨fun lt => absurd ahead (Nat.lt_asymm lt), fun _ => .inl (Nat.zero_le _)⟩
  | @finish i last => exact absurd ready (scanned.1 rfl q (by omega))
  | @lowStart i last => exact absurd ready (scanned.1 rfl q (by omega))
  | @highSkip hasHP i lt skipped =>
    refine ahead.next ?_ hasHP
    rintro rfl
    exact skipped ready
  | @passEnd hasHP i last =>
    change q.val < p.val
    rcases Nat.lt_or_gt_of_ne (Fin.val_ne_of_ne ne) with lt | gt
    · have bounds := ahead.1 lt
      omega
    · exact gt
  | highRet => exact ahead
  | lowSkip _ _ | lowEnd _ | lowRet => exact ahead.elim

theorem Ahead.step {s t : State Unit} (inv : Inv s) (move : Moves s t) (ne : p ≠ q)
    (ahead : Ahead p q (s.cpu ()).sched) (ready : (s.table q).High) (waits : ¬ Dispatched s t q) :
    ¬ Dispatched s t p ∧ Ahead p q (t.cpu ()).sched := by
  by_cases thread : (s.cpu ()).thread = .scheduler
  · have busy : (s.cpu ()).sched ≠ .idle := fun idle => by rw [idle] at ahead; exact ahead
    have never : ∀ {u : State Unit}, u.table = s.table → ¬ Dispatched s u p :=
      fun table dispatched => dispatched.1 (table ▸ dispatched.2)
    rcases sched_cases inv move thread busy with
      ⟨advance, table⟩ | ⟨x, pc, chooses, rfl⟩ | done | ⟨same, table⟩
    · exact ⟨never table, ahead.advance ne ready (inv.scanned () thread) advance⟩
    · generalize before : (s.cpu ()).sched = pc' at chooses ahead
      cases chooses with
      | @high hasHP x high =>
        have other : x ≠ q := by
          rintro rfl
          exact waits (dispatch_dispatched high.1)
        have next := ahead.next (Fin.val_ne_of_ne other) true
        refine ⟨fun dispatched => ?_, next⟩
        have eq : p = x := by
          by_contra ne
          refine dispatched.1 ?_
          have running := dispatched.2
          simpa only [State.dispatch, Table.set_ne _ ne] using running
        subst eq
        rcases Nat.lt_or_gt_of_ne (Fin.val_ne_of_ne ne) with lt | gt
        · have bounds := ahead.1 lt
          omega
        · have bounds := ahead.2 gt
          omega
      | low _ => exact ahead.elim
    · rw [done] at ahead
      exact ahead.elim
    · exact ⟨never table, same ▸ ahead⟩
  · refine ⟨fun dispatched => ?_, by rwa [sched_of_process move thread]⟩
    obtain ⟨c, _, idle, _⟩ := dispatched.chooses move
    exact thread idle

/-- **Round robin in the high-priority loop.**  On one CPU and in every run: each pass of
`while(hpcnt > 0)` dispatches a process, and between two dispatches of a process `p` every
process that is `RUNNABLE` with priority 1 meanwhile gets its turn. -/
theorem high_round_robin (r : uniprocessor.Run) :
    (∀ i j hasHP hasHP', i ≤ j → j ≤ r.length →
      ((r.state i).cpu ()).sched = .high hasHP 0 →
      ((r.state j).cpu ()).sched = .high hasHP' nproc →
      ∃ k p, i ≤ k ∧ k < j ∧ Dispatched (r.state k) (r.state (k + 1)) p) ∧
    ∀ p q i j, i < j → j < r.length → Dispatched (r.state i) (r.state (i + 1)) p →
      Dispatched (r.state j) (r.state (j + 1)) p → WaitsAs Proc.High r q i j →
      ∃ k, i < k ∧ k < j ∧ Dispatched (r.state k) (r.state (k + 1)) q := by
  refine ⟨fun i j hasHP hasHP' le inside => pass_dispatches r le inside,
    fun p q i j lt inside first second waits => ?_⟩
  by_contra never
  have ready : ∀ {k}, i < k → k ≤ j → ((r.state k).table q).High := waits.of_not_dispatched never
  have ne : p ≠ q := by
    rintro rfl
    cases first.2.symm.trans (ready (Nat.lt_succ_self i) lt).1
  obtain ⟨inv, move⟩ := run_moves r (i := i) (by omega)
  have ahead : Ahead p q ((r.state j).cpu ()).sched := by
    refine Lts.Run.carry (P := fun k => Ahead p q ((r.state k).cpu ()).sched)
      (Nat.succ_le_of_lt lt) ?_ fun k lo hi ahead => ?_
    · obtain ⟨_, pc, thread, chooses, eq⟩ := first.chooses move
      have after := ready (Nat.lt_succ_self i) lt
      rw [eq] at after ⊢
      simp only [State.dispatch, Table.set_ne _ (Ne.symm ne)] at after
      generalize before : ((r.state i).cpu ()).sched = pc' at chooses
      cases chooses with
      | high _ => exact ⟨fun below => ⟨by omega, by omega⟩, fun _ => .inr (by omega)⟩
      | low _ => exact absurd after ((inv.low_scanned thread before).1 q)
    · obtain ⟨inv, move⟩ := run_moves r (i := k) (by omega)
      exact (ahead.step inv move ne (ready lo (by omega))
        fun dispatched => never ⟨k, lo, hi, dispatched⟩).2
  obtain ⟨inv, move⟩ := run_moves r inside
  have last : ¬ Dispatched (r.state j) (r.state (j + 1)) q := by
    intro dispatched
    obtain ⟨_, _, _, _, eq⟩ := dispatched.chooses move
    have running := second.2
    rw [eq] at running
    simp only [State.dispatch, Table.set_ne _ ne] at running
    exact second.1 running
  exact (ahead.step inv move ne (ready lt (Nat.le_refl j)) last).1 second

/-! ## Low priority -/

theorem low_of_step {s t : State Unit} (inv : Inv s) (move : Moves s t) {m : Nat}
    (pc : (t.cpu ()).sched = .low m) :
    m = 0 ∨ (t.table = s.table ∧
      ((s.cpu ()).sched = .low m ∨ ∃ i, m = i + 1 ∧ (s.cpu ()).sched = .low i)) := by
  have busy : (s.cpu ()).sched = .low m → (s.cpu ()).thread = .scheduler :=
    fun same => thread_of_not_away inv (by rw [same]; exact id)
  cases move with
  | acquire _ _ _ | release _ _ => cases pc
  | @advance c after _ _ advance =>
    change after = .low m at pc
    subst pc
    change Advance s.table (s.cpu ()).sched _ at advance
    generalize before : (s.cpu ()).sched = pc' at advance ⊢
    cases advance with
    | lowStart _ => exact .inl rfl
    | lowSkip _ _ => exact .inr ⟨rfl, .inr ⟨_, rfl, rfl⟩⟩
  | @dispatch c p after _ chooses =>
    change after = .low m at pc
    subst pc
    cases chooses.busy.2
  | yield inside | sleep _ inside _ | exit inside _ => exact absurd (busy pc) inside.thread
  | leave inside _ | settickets _ inside | reap inside _ _ | allocate _ inside _
  | forkDone inside => exact absurd (busy pc) inside.thread
  | forkFail _ running | forkCopy _ running => cases (busy pc).symm.trans running
  | wakeup _ free =>
    have lock := inv.lock_of_sched (busy pc) (by rw [show (s.cpu ()).sched = _ from pc]; simp)
    cases free.symm.trans lock
  | panic _ => exact .inr ⟨rfl, .inl pc⟩

theorem low_start (r : uniprocessor.Run) {n m : Nat} (le : n ≤ r.length)
    (pc : ((r.state n).cpu ()).sched = .low m) :
    ∃ k, k ≤ n ∧ ((r.state k).cpu ()).sched = .low 0 ∧ (r.state k).table = (r.state n).table ∧
      ∀ x, k ≤ x → x ≤ n → ∃ m, ((r.state x).cpu ()).sched = .low m := by
  induction n generalizing m with
  | zero =>
    have boot : r.state 0 = State.boot Unit := r.start
    rw [boot] at pc
    cases pc
  | succ n ih =>
    obtain ⟨inv, move⟩ := run_moves r (i := n) (by omega)
    -- either the scan starts here, or it was under way one step earlier
    rcases low_of_step inv move pc with rfl | ⟨table, earlier⟩
    · refine ⟨n + 1, Nat.le_refl _, pc, rfl, fun x lo hi => ?_⟩
      obtain rfl : x = n + 1 := by omega
      exact ⟨0, pc⟩
    · have before : ∃ i, ((r.state n).cpu ()).sched = .low i := by
        rcases earlier with same | ⟨i, _, before⟩
        · exact ⟨m, same⟩
        · exact ⟨i, before⟩
      obtain ⟨i, before⟩ := before
      obtain ⟨k, lo, start, same, scan⟩ := ih (by omega) before
      refine ⟨k, by omega, start, same.trans table.symm, fun x lo hi => ?_⟩
      rcases Nat.lt_succ_iff_lt_or_eq.mp (Nat.lt_succ_of_le hi) with inside | rfl
      · exact scan x lo (by omega)
      · exact ⟨m, pc⟩

theorem low_step {s t : State Unit} (inv : Inv s) (move : Moves s t) {q : Slot} {m : Nat}
    (pc : (s.cpu ()).sched = .low m) (le : m ≤ q)
    (clear : ∀ x, x < q → (s.table x).state ≠ .runnable) (ready : (s.table q).state = .runnable)
    (waits : ¬ Dispatched s t q) :
    ∃ m', (t.cpu ()).sched = .low m' ∧ m' ≤ q ∧
      ∀ x, x < q → (t.table x).state ≠ .runnable := by
  have thread := thread_of_not_away inv (by rw [pc]; exact id)
  rcases sched_cases inv move thread (by rw [pc]; simp) with
    ⟨advance, table⟩ | ⟨x, pc', chooses, rfl⟩ | done | ⟨same, table⟩
  · rw [pc] at advance
    rw [table]
    generalize (t.cpu ()).sched = after at advance ⊢
    cases advance with
    | lowSkip lt skipped =>
      have ne : m ≠ q := by
        rintro rfl
        exact skipped ready
      exact ⟨m + 1, rfl, by omega, clear⟩
    | lowEnd last => exact absurd q.isLt (by omega)
  · rw [pc] at chooses
    cases chooses with
    | low chosen =>
      rcases Nat.lt_or_eq_of_le le with below | here
      · exact absurd chosen (clear x below)
      · obtain rfl : x = q := Fin.ext here
        exact absurd (dispatch_dispatched ready) waits
  · cases pc.symm.trans done
  · exact ⟨m, same.trans pc, le, by rw [table]; exact clear⟩

/-- The low-priority loop starts a scan while nothing is `RUNNABLE` in the slots below `q`. -/
def ScanFinds (s : State Unit) (q : Slot) : Prop :=
  (s.cpu ()).sched = .low 0 ∧ ∀ x, x < q → (s.table x).state ≠ .runnable

/-- **Low priority.**  On one CPU and in every run: let `p` be dispatched twice at priority 0,
and let `q` stay `RUNNABLE` with priority 0 until it is dispatched.  Then `q` gets its turn in
between exactly when a scan of the low-priority loop starts in between with nothing to run in
the slots below `q`. -/
theorem low_turn_iff (r : uniprocessor.Run) {p q : Slot} {i j : Nat} (lt : i < j)
    (inside : j < r.length) (first : Dispatched (r.state i) (r.state (i + 1)) p)
    (low : ((r.state i).table p).priority = 0)
    (second : Dispatched (r.state j) (r.state (j + 1)) p)
    (low' : ((r.state j).table p).priority = 0) (waits : WaitsAs Proc.Low r q i j) :
    (∃ k, i < k ∧ k < j ∧ Dispatched (r.state k) (r.state (k + 1)) q) ↔
      ∃ k, i < k ∧ k < j ∧ ScanFinds (r.state k) q := by
  have left : ((r.state (i + 1)).cpu ()).sched = .lowRet := by
    obtain ⟨_, pc, _, chooses, eq⟩ := first.chooses (run_moves r (i := i) (by omega)).2
    rw [eq]
    exact (chooses.low_of_priority low).2
  constructor
  · intro turn
    -- the first turn of `q`: until then it is ready with priority 0
    classical
    obtain ⟨lo, hi, dispatched⟩ := Nat.find_spec turn
    generalize turn_at : Nat.find turn = k at lo hi dispatched
    have ready : ((r.state k).table q).Low := by
      refine waits k lo (Nat.le_of_lt hi) fun m after before earlier => ?_
      exact Nat.find_min turn (turn_at ▸ before) ⟨after, by omega, earlier⟩
    obtain ⟨inv, move⟩ := run_moves r (i := k) (by omega)
    obtain ⟨_, _, thread, chooses, _⟩ := dispatched.chooses move
    have pc := (chooses.low_of_priority ready.2).1
    obtain ⟨n, le, start, table, scan⟩ := low_start r (by omega) pc
    refine ⟨n, ?_, by omega, start, ?_⟩
    · by_contra early
      obtain ⟨m, at_left⟩ := scan (i + 1) (by omega) (by omega)
      cases left.symm.trans at_left
    · rw [table]
      exact (inv.low_scanned thread pc).2
  · rintro ⟨k, lo, hi, start, clear⟩
    by_contra never
    have ready : ∀ {x}, i < x → x ≤ j → ((r.state x).table q).Low := waits.of_not_dispatched never
    have scan : ∃ m, ((r.state j).cpu ()).sched = .low m ∧ m ≤ q ∧
        ∀ x, x < q → ((r.state j).table x).state ≠ .runnable := by
      refine Lts.Run.carry (P := fun n => ∃ m, ((r.state n).cpu ()).sched = .low m ∧ m ≤ q ∧
        ∀ x, x < q → ((r.state n).table x).state ≠ .runnable) (Nat.le_of_lt hi)
        ⟨0, start, Nat.zero_le _, clear⟩ fun n after before ⟨m, pc, le, empty⟩ => ?_
      obtain ⟨inv, move⟩ := run_moves r (i := n) (by omega)
      exact low_step inv move pc le empty (ready (by omega) (by omega)).1
        fun dispatched => never ⟨n, by omega, before, dispatched⟩
    obtain ⟨m, pc, le, empty⟩ := scan
    obtain ⟨_, _, _, chooses, _⟩ := second.chooses (run_moves r inside).2
    cases pc.symm.trans (chooses.low_of_priority low').1
    rcases Nat.lt_or_eq_of_le le with below | here
    · exact empty p below chooses.ready
    · obtain rfl : p = q := Fin.ext here
      cases first.2.symm.trans (ready (Nat.lt_succ_self i) lt).1

/-! ## Runs -/

def scheds (n : Nat) : List (Act Unit) := List.replicate n (.sched ())

def runs (calls : List Call) : List (Act Unit) := .resume () :: calls.map (.call ())

def replay (acts : List (Act Unit))
    (run : (Lts.exec step (fun _ => true) (State.boot Unit) acts).isSome) : uniprocessor.Run :=
  Lts.Run.ofExec rfl acts run

def forkChild : List (Act Unit) :=
  scheds 67 ++ runs [.fork] ++ [.forkBody () true, .call () .forkDone]

def highPair : List (Act Unit) := forkChild ++ [.call () .yield, .sched ()]

/-- Both processes lower their priority; the scheduler is about to start on the low ones. -/
def lowPair : List (Act Unit) :=
  forkChild ++ [.call () (.settickets 0), .call () .yield] ++ scheds 2 ++
    runs [.settickets 0, .yield] ++ scheds 196

theorem WaitsAs.of_turn {P : Proc → Prop} {r : uniprocessor.Run} {i j k : Nat} (lt : i < k)
    (turn : Dispatched (r.state k) (r.state (k + 1)) q)
    (ready : ∀ n, i < n → n ≤ k → P ((r.state n).table q)) : WaitsAs P r q i j := by
  intro n lo _ quiet
  rcases Nat.lt_or_ge k n with later | early
  · exact absurd turn (quiet k lt later)
  · exact ready n lo early

theorem lowPair_length : lowPair.length = 274 := by decide +kernel

/-- **Overtaking.**  Two processes of priority 0 stay ready.  The one in slot 0 is dispatched,
yields and is dispatched again, while the one in slot 1 waits. -/
theorem low_overtaken :
    ∃ (r : uniprocessor.Run) (p q : Slot) (i j : Nat), i < j ∧ j < r.length ∧
      Dispatched (r.state i) (r.state (i + 1)) p ∧ ((r.state i).table p).priority = 0 ∧
      Dispatched (r.state j) (r.state (j + 1)) p ∧ ((r.state j).table p).priority = 0 ∧
      ((r.state j).table p).pid = ((r.state i).table p).pid ∧
      (∀ k, i < k → k ≤ j → ((r.state k).table q).Low) ∧
      ¬ ∃ k, i < k ∧ k < j ∧ Dispatched (r.state k) (r.state (k + 1)) q := by
  let r := replay (lowPair ++ (scheds 1 ++ runs [.yield] ++ scheds 68) ++ scheds 1)
    (by decide +kernel)
  have ready : ∀ k, 274 < k → k ≤ 345 → ((r.state k).table 1).Low := by
    intro k lo hi
    have checked : ((Lts.exec step (fun _ => true) (State.boot Unit) lowPair).bind fun t =>
        Lts.exec step (fun s => decide (s.table 1).Low) t
          (scheds 1 ++ runs [.yield] ++ scheds 68)).isSome := by decide +kernel
    exact of_decide_eq_true (Lts.Run.ofExec_ok checked (lowPair_length ▸ lo) (lowPair_length ▸ hi))
  refine ⟨r, 0, 1, 274, 345, by decide, by decide +kernel, by decide +kernel, by decide +kernel,
    by decide +kernel, by decide +kernel, by decide +kernel, ready, ?_⟩
  rintro ⟨k, lo, hi, dispatched⟩
  cases dispatched.2.symm.trans (ready (k + 1) (by omega) (by omega)).1

/-- The process in slot 0 sleeps after its turn and is woken up by the one in slot 1, which a
scan finds with nothing ready below it. -/
theorem low_turn_iff_alternate :
    ∃ r : uniprocessor.Run, Dispatched (r.state 274) (r.state 275) 0 ∧
      Dispatched (r.state 418) (r.state 419) 0 ∧ WaitsAs Proc.Low r 1 274 418 ∧
      ∃ k, 274 < k ∧ k < 418 ∧ ScanFinds (r.state k) 1 := by
  let r := replay (lowPair ++ (scheds 1 ++ runs [.sleep (.object 0)] ++ scheds 69) ++
    (scheds 1 ++ runs [] ++ [.wakeup (.object 0), .call () .yield] ++ scheds 69))
    (by decide +kernel)
  have ready : ∀ k, 274 < k → k ≤ 346 → ((r.state k).table 1).Low := by
    intro k lo hi
    have checked : ((Lts.exec step (fun _ => true) (State.boot Unit) lowPair).bind fun t =>
        Lts.exec step (fun s => decide (s.table 1).Low) t
          (scheds 1 ++ runs [.sleep (.object 0)] ++ scheds 69)).isSome := by decide +kernel
    exact of_decide_eq_true (Lts.Run.ofExec_ok checked (lowPair_length ▸ lo) (lowPair_length ▸ hi))
  have first : Dispatched (r.state 274) (r.state 275) 0 := by decide +kernel
  have turn : Dispatched (r.state 346) (r.state 347) 1 := by decide +kernel
  have second : Dispatched (r.state 418) (r.state 419) 0 := by decide +kernel
  have waits : WaitsAs Proc.Low r 1 274 418 := .of_turn (by decide) turn ready
  have finds := (low_turn_iff r (by decide) (by decide +kernel) first (by decide +kernel) second
    (by decide +kernel) waits).mp ⟨346, by decide, by decide, turn⟩
  exact ⟨r, first, second, waits, finds⟩

/-- Two processes of priority 1 that yield in turn: one pass dispatches both, and between two
turns of the process in slot 1 comes the one in slot 0. -/
theorem high_round_robin_turns :
    ∃ r : uniprocessor.Run, ((r.state 66).cpu ()).sched = .high false 0 ∧
      ((r.state 139).cpu ()).sched = .high true nproc ∧
      (∃ k p, 66 ≤ k ∧ k < 139 ∧ Dispatched (r.state k) (r.state (k + 1)) p) ∧
      Dispatched (r.state 73) (r.state 74) 1 ∧ Dispatched (r.state 209) (r.state 210) 1 ∧
      WaitsAs Proc.High r 0 73 209 ∧
      ∃ k, 73 < k ∧ k < 209 ∧ Dispatched (r.state k) (r.state (k + 1)) 0 := by
  let r := replay (highPair ++ (scheds 1 ++ runs [.yield] ++ scheds 129) ++
    (scheds 1 ++ runs [.yield] ++ scheds 2)) (by decide +kernel)
  have length : highPair.length = 73 := by decide +kernel
  have ready : ∀ k, 73 < k → k ≤ 205 → ((r.state k).table 0).High := by
    intro k lo hi
    have checked : ((Lts.exec step (fun _ => true) (State.boot Unit) highPair).bind fun t =>
        Lts.exec step (fun s => decide (s.table 0).High) t
          (scheds 1 ++ runs [.yield] ++ scheds 129)).isSome := by decide +kernel
    refine of_decide_eq_true (Lts.Run.ofExec_ok checked (length ▸ lo) ?_)
    simpa [length, scheds, runs] using hi
  have start : ((r.state 66).cpu ()).sched = .high false 0 := by decide +kernel
  have stop : ((r.state 139).cpu ()).sched = .high true nproc := by decide +kernel
  have first : Dispatched (r.state 73) (r.state 74) 1 := by decide +kernel
  have turn : Dispatched (r.state 205) (r.state 206) 0 := by decide +kernel
  have second : Dispatched (r.state 209) (r.state 210) 1 := by decide +kernel
  have waits : WaitsAs Proc.High r 0 73 209 := .of_turn (by decide) turn ready
  obtain ⟨pass, fair⟩ := high_round_robin r
  exact ⟨r, start, stop, pass 66 139 _ _ (by decide) (by decide +kernel) start stop, first, second,
    waits, fair 1 0 73 209 (by decide) (by decide +kernel) first second waits⟩

end Xv6.Sched
