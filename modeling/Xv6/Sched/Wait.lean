import Xv6.Sched.Family

/-!
# `wait`

`Rested` is the invariant that no exit is slept through: a process that sleeps in `wait` has no
`ZOMBIE` child.  It holds because `exit` wakes the parent, or init, in the critical section in
which it makes the zombie, and `wait` scans and goes to sleep in one critical section.

The record of a run is checked against the table by `Recorded`, from which the promises of `fork`,
`exit` and `wait` follow.
-/

namespace Xv6.Sched

open List

/-! ## Sleeping in `wait` -/

def Proc.InWait (x : Proc) : Prop := x.state = .sleeping ∧ x.context = .wait

structure Rested (t : Table) : Prop where
  chan : ∀ p, (t p).InWait → (t p).chan = some (.proc p)
  child : ∀ p q, (t p).InWait → (t q).parent = some p → (t q).state ≠ .zombie

/-- `y` sleeps in `wait` or is a zombie only if `x` already was. -/
structure Proc.Calm (x y : Proc) : Prop where
  waits : y.InWait → x.InWait ∧ y.chan = x.chan
  zombie : y.state = .zombie → x.state = .zombie ∧ y.parent = x.parent

theorem Proc.Calm.refl (x : Proc) : x.Calm x := ⟨fun h => ⟨h, rfl⟩, fun h => ⟨h, rfl⟩⟩

theorem Rested.calm {t u : Table} (rest : Rested t) (calm : ∀ q, (t q).Calm (u q)) : Rested u where
  chan p waits := by
    obtain ⟨before, chan⟩ := (calm p).waits waits
    rw [chan]
    exact rest.chan p before
  child p q waits parent zombie := by
    obtain ⟨zombie', parent'⟩ := (calm q).zombie zombie
    exact rest.child p q ((calm p).waits waits).1 (parent' ▸ parent) zombie'

variable {p : Slot} {x : Proc}

theorem calm_set {t : Table} (calm : (t p).Calm x) (q : Slot) :
    (t q).Calm (t.set p x q) := Table.set_rel .refl calm q

variable {y : Proc}

theorem calm_of_up (awake : y.state ≠ .sleeping) (alive : y.state ≠ .zombie) : x.Calm y :=
  ⟨fun waits => absurd waits.1 awake, fun zombie => absurd zombie alive⟩

theorem wakeup1_chan (t : Table) (chan : Option Chan) (q : Slot) :
    (wakeup1 t chan q).chan = (t q).chan := by
  unfold wakeup1
  split <;> rfl

theorem calm_of_woken (woken : x.Woken y) (chan : y.chan = x.chan) (parent : y.parent = x.parent) :
    x.Calm y := by
  refine ⟨fun waits => ⟨⟨?_, woken.context ▸ waits.2⟩, chan⟩, fun zombie => ⟨?_, parent⟩⟩
  · rcases woken.state with eq | ⟨asleep, _⟩
    · exact eq ▸ waits.1
    · exact asleep
  · rcases woken.state with eq | ⟨_, awake⟩
    · exact eq ▸ zombie
    · cases awake.symm.trans zombie

theorem wakeup1_calm (t : Table) (chan : Option Chan) (q : Slot) : (t q).Calm (wakeup1 t chan q) :=
  calm_of_woken (wakeup1_woken t chan q) (wakeup1_chan t chan q) (wakeup1_kin t chan q).parent

theorem kill_calm (t : Table) (pid : BitVec 32) (q : Slot) : (t q).Calm ((kill t pid).1 q) := by
  refine calm_of_woken (kill_woken t pid q) ?_ (kill_kin t pid q).parent
  unfold kill
  split
  · rename_i r _
    exact Table.set_congr Proc.chan (by rfl) q
  · rfl

/-! ## The loop of `exit` -/

theorem Proc.Woken.asleep (woken : x.Woken y) (asleep : y.state = .sleeping) :
    x.state = .sleeping := by
  rcases woken.state with eq | ⟨before, _⟩
  · exact eq ▸ asleep
  · exact before

theorem passive_chan : Passive fun x y => y.chan = x.chan where
  refl _ := rfl
  trans xy yz := yz.trans xy
  wake _ _ := rfl
  pass _ := rfl

theorem wakeup1_awake {t : Table} {chan : Chan} (on : (t p).chan = some chan) :
    (wakeup1 t (some chan) p).state ≠ .sleeping := by
  unfold wakeup1
  split
  · simp
  · rename_i stays
    exact fun asleep => stays ⟨asleep, on⟩

/-- Init sleeps on only if no zombie was passed to it. -/
theorem reparentSlot_init {cur r : Slot} {t : Table}
    (on : (t initproc).chan = some (.proc initproc))
    (asleep : (reparentSlot cur t r initproc).state = .sleeping)
    (child : (t r).parent = some cur) : (t r).state ≠ .zombie := by
  intro zombie
  have before := (Proc.Woken.passive.reparentSlot cur t r initproc).asleep asleep
  have ne : initproc ≠ r := by
    rintro rfl
    cases before.symm.trans zombie
  unfold reparentSlot at asleep
  rw [if_pos child] at asleep
  dsimp only at asleep
  rw [if_pos (by rw [Table.set_self]; exact zombie)] at asleep
  refine wakeup1_awake (t := t.set r { t r with parent := some initproc }) ?_ asleep
  rw [Table.set_ne t ne]
  exact on

theorem reparent_init {cur : Slot} {t : Table} (on : (t initproc).chan = some (.proc initproc))
    (asleep : (reparent t cur initproc).state = .sleeping) (q : Slot)
    (child : (t q).parent = some cur) : (t q).state ≠ .zombie := by
  have loop : ∀ (slots : List Slot) (t : Table), (t initproc).chan = some (.proc initproc) →
      (slots.foldl (reparentSlot cur) t initproc).state = .sleeping →
      ∀ q ∈ slots, (t q).parent = some cur → (t q).state ≠ .zombie := by
    intro slots
    induction slots with
    | nil => exact fun t _ _ q member => absurd member not_mem_nil
    | cons r slots ih =>
      intro t on asleep q member child
      by_cases eq : q = r
      · subst eq
        have later := Proc.Woken.passive.foldl cur slots (reparentSlot cur t q) initproc
        exact reparentSlot_init on (later.asleep asleep) child
      · have chan := passive_chan.reparentSlot cur t r initproc
        have later := ih (reparentSlot cur t r) (chan.trans on) asleep q
          ((mem_cons.mp member).resolve_left eq)
          (by rw [reparentSlot_parent, if_neg eq]; exact child)
        intro zombie
        refine later ?_
        have woken := Proc.Woken.passive.reparentSlot cur t r q
        rw [woken.state_eq (by rw [zombie]; simp), zombie]
  exact loop _ t on asleep q (mem_finRange q) child

theorem exitTable_chan (t : Table) (p q : Slot) : (exitTable t p q).chan = (t q).chan := by
  exact (passive_chan.reparent _ p q).trans (wakeup1_chan _ _ q)

theorem Rested.exit {t : Table} (fam : Family t) (rest : Rested t) :
    Rested ((exitTable t p).set p { exitTable t p p with state := .zombie, context := .exit }) := by
  -- who sleeps in `wait` slept there before
  have before : ∀ r, ((exitTable t p).set p
      { exitTable t p p with state := .zombie, context := .exit } r).InWait →
      r ≠ p ∧ (exitTable t p r).state = .sleeping ∧ (t r).InWait := by
    intro r waits
    by_cases eq : r = p
    · subst eq
      rw [Table.set_self] at waits
      cases waits.1
    · rw [Table.set_ne _ eq] at waits
      have woken := exitTable_woken t p r
      exact ⟨eq, waits.1, woken.asleep waits.1, woken.context ▸ waits.2⟩
  refine ⟨fun r waits => ?_, fun r q waits parent zombie => ?_⟩
  · obtain ⟨ne, _, waits⟩ := before r waits
    rw [Table.set_ne _ ne, exitTable_chan]
    exact rest.chan r waits
  · obtain ⟨ne, asleep, waits⟩ := before r waits
    have on := rest.chan r waits
    by_cases eq : q = p
    · -- the parent of the process that exits has been woken
      subst eq
      rw [Table.set_self] at parent
      dsimp only at parent
      rw [exitTable_parent, passed, if_neg (fam.other q)] at parent
      have awake := (reparent_woken (wakeup1 t ((t q).parent.map .proc)) q r).asleep asleep
      rw [parent, Option.map_some] at awake
      exact wakeup1_awake on awake
    · rw [Table.set_ne _ eq] at parent zombie
      have dead : (t q).state = .zombie := by
        rcases (exitTable_woken t p q).state with same | ⟨_, awake⟩
        · exact same ▸ zombie
        · cases awake.symm.trans zombie
      rw [exitTable_parent, passed] at parent
      split at parent
      · -- a zombie was passed to init, and init has been woken
        rename_i child
        obtain rfl := Option.some.inj parent
        refine reparent_init (t := wakeup1 t ((t p).parent.map .proc)) ?_ asleep q ?_ ?_
        · rw [wakeup1_chan, on]
        · rw [(wakeup1_kin _ _ q).parent, child]
        · rw [(wakeup1_woken _ _ q).state_eq (by rw [dead]; simp), dead]
      · exact rest.child r q waits parent dead

/-! ## Every step -/

variable {C : Type} {s t : State C} {a : Act C}

theorem Waits.calm (inv : Inv s) {p : Slot} {c : C} {u : Table} (waits : Waits s p a c u)
    (q : Slot) : (s.table q).Calm (u q) := by
  have running := (waits.running inv).2
  cases waits with
  | call => exact .refl _
  | resume => exact calm_set (calm_of_up (by simp [running]) (by simp [running])) q

variable [DecidableEq C]

theorem Rested.turn (inv : Inv s) (fam : Family s.table) (rest : Rested s.table)
    (turn : Turn s a t) : Rested t.table := by
  cases turn with
  | acquire | advance | back | release | zombieExit | initExit | full => exact rest
  | dispatch _ _ => exact rest.calm (calm_set (calm_of_up (by simp) (by simp)))
  | @resume c p ctx k u proc thread resumes =>
      have running := inv.runs.ok_of_claim c p (by simp [Cpu.runs, thread, proc])
      cases resumes with
      | forkret | yield => exact rest
      | sleep => exact rest.calm (calm_set (calm_of_up (by simp [running]) (by simp [running])))
  | waitReap waits found =>
    exact (rest.calm (waits.calm inv)).calm (calm_set (calm_of_up (by simp) (by simp)))
  | waitFail waits _ _ => exact rest.calm (waits.calm inv)
  | @waitSleep _ c p u waits none _ =>
    have rest := rest.calm (waits.calm inv)
    have nobody : ∀ q, (u q).parent = some p → (u q).state ≠ .zombie := by
      intro q parent zombie
      have := find?_eq_none.mp none q (mem_finRange q)
      simp [parent, zombie] at this
    refine ⟨fun r waits => ?_, fun r q waits parent zombie => ?_⟩
    · change (u.set p _ r).InWait at waits
      change (u.set p _ r).chan = _
      by_cases eq : r = p
      · subst eq
        rw [Table.set_self]
      · rw [Table.set_ne _ eq] at waits ⊢
        exact rest.chan r waits
    · change (u.set p _ q).parent = _ at parent
      change (u.set p _ q).state = _ at zombie
      change (u.set p _ r).InWait at waits
      by_cases eq : q = p
      · rw [eq, Table.set_self] at zombie
        cases zombie
      · rw [Table.set_ne _ eq] at parent zombie
        by_cases eq' : r = p
        · exact nobody q (eq' ▸ parent) zombie
        · rw [Table.set_ne _ eq'] at waits
          exact rest.child r q waits parent zombie
  | yield enters => exact rest.calm (calm_set (calm_of_up (by simp) (by simp)))
  | sleep chan enters =>
    refine rest.calm (calm_set ⟨fun waits => ?_, fun zombie => ?_⟩)
    · cases waits.2
    · cases zombie
  | exit enters ne => exact rest.exit fam
  | kill pid enters => exact rest.calm (kill_calm _ pid)
  | settickets ticket priority enters =>
    have running := enters.running inv
    exact rest.calm (calm_set (calm_of_up (by simp [running]) (by simp [running])))
  | allocate enters found => exact rest.calm (calm_set (calm_of_up (by simp) (by simp)))
  | forkDone enters => exact rest.calm (calm_set (calm_of_up (by simp) (by simp)))
  | forkFail proc thread => exact rest.calm (calm_set (calm_of_up (by simp) (by simp)))
  | forkCopy proc thread =>
    have embryo := inv.embryo_of_allocated thread
    exact rest.calm (calm_set (calm_of_up (by simp [embryo]) (by simp [embryo])))
  | wakeup chan free => exact rest.calm (wakeup1_calm _ _)

theorem reachable_rested (reach : (kernel C).Reachable s) : Rested s.table := by
  refine reach.invariant (P := fun s => Rested s.table) (fun s start => ?_)
    fun s a t before rest step => ?_
  · cases start
    have awake : ∀ p, ¬ (bootTable p).InWait := by
      intro p waits
      have asleep := waits.1
      unfold bootTable at asleep
      split at asleep <;> cases asleep
    exact ⟨fun p waits => absurd waits (awake p), fun p q waits => absurd waits (awake p)⟩
  · exact rest.turn (reachable_inv before) (reachable_family before).1 (step_turn step)

/-- Whoever sleeps in `wait`, on its own address, has no `ZOMBIE` child, whether `ptable.lock` is
free or not. -/
theorem wait_misses_no_exit (reach : (kernel C).Reachable s) (p : Slot)
    (asleep : (s.table p).state = .sleeping) (inside : (s.table p).context = .wait) :
    (s.table p).chan = some (.proc p) ∧
      ∀ q, (s.table q).parent = some p → (s.table q).state ≠ .zombie := by
  have rest := reachable_rested reach
  exact ⟨rest.chan p ⟨asleep, inside⟩, fun q => rest.child p q ⟨asleep, inside⟩⟩

def forkAndWait : List (Act Unit) :=
  replicate 67 (.sched ()) ++
    [.resume (), .call () .fork, .forkBody () true, .call () .forkDone, .call () .wait]

theorem wait_misses_no_exit_init :
    ∃ s, (kernel Unit).Reachable s ∧ (s.table initproc).context = .wait ∧
      (s.table initproc).chan = some (.proc initproc) ∧
      ∀ q, (s.table q).parent = some initproc → (s.table q).state ≠ .zombie := by
  have run : ((Lts.exec step (fun _ => true) (State.boot Unit) forkAndWait).bind fun s =>
      some ((s.table initproc).state, (s.table initproc).context)) = some (.sleeping, .wait) := by
    decide +kernel
  obtain ⟨s, exec, here⟩ := Option.bind_eq_some_iff.mp run
  obtain ⟨asleep, inside⟩ := Prod.mk.injEq _ _ _ _ ▸ Option.some.inj here
  have start : (kernel Unit).Reachable (State.boot Unit) := .init rfl
  have reach : (kernel Unit).Reachable s := start.of_exec (fun _ _ _ _ step _ => step) exec
  exact ⟨s, reach, inside, wait_misses_no_exit reach initproc asleep inside⟩

/-! ## The record -/

structure WaitReturn.Good (w : WaitReturn) : Prop where
  child : w.ret ≠ -1 → w.ret ∈ w.exited ∧
    ∃ q, (w.table q).pid = w.ret ∧ (w.table q).parent = some w.caller
  none : w.ret = -1 → (∀ q, (w.table q).parent ≠ some w.caller) ∨ (w.table w.caller).killed = true

/-- The record agrees with the table.  Pids are handed out in order, so that a pid is never that
of two processes. -/
structure Recorded (t : Table) (nextpid : BitVec 32) (h : History) : Prop where
  next : nextpid.toNat = h.created + 1
  range : ∀ p, (t p).phase ≠ .unused → (t p).pid.toNat ≤ h.created
  distinct : ∀ p q, (t p).phase ≠ .unused → (t q).phase ≠ .unused → (t p).pid = (t q).pid → p = q
  exits : ∀ p, (t p).phase = .zombie → (t p).pid ∈ h.exited
  waited : ∀ w ∈ h.waits, w.ret ≠ -1 →
    w.ret.toNat ≤ h.created ∧ ∀ p, (t p).phase ≠ .unused → (t p).pid ≠ w.ret
  once : ∀ pid, pid ≠ -1 → (h.waits.filter (·.ret = pid)).length ≤ 1
  good : ∀ w ∈ h.waits, w.Good

namespace Recorded

variable {u v : Table} {nextpid : BitVec 32} {h : History} (rec : Recorded u nextpid h)
include rec

theorem fewer (used : ∀ p, (v p).phase ≠ .unused → (u p).phase ≠ .unused ∧ (v p).pid = (u p).pid)
    (zombie : ∀ p, (v p).phase = .zombie → (u p).phase = .zombie) : Recorded v nextpid h where
  next := rec.next
  range p use := (used p use).2 ▸ rec.range p (used p use).1
  distinct p q use use' eq := by
    rw [(used p use).2, (used q use').2] at eq
    exact rec.distinct p q (used p use).1 (used q use').1 eq
  exits p dead := by
    have use : (v p).phase ≠ .unused := by
      rw [dead]
      simp
    rw [(used p use).2]
    exact rec.exits p (zombie p dead)
  waited w member child := by
    obtain ⟨le, other⟩ := rec.waited w member child
    exact ⟨le, fun p use => (used p use).2 ▸ other p (used p use).1⟩
  once := rec.once
  good := rec.good

theorem kin (same : ∀ q, (u q).Kin (v q)) : Recorded v nextpid h :=
  rec.fewer (fun p use => ⟨(same p).phase ▸ use, (same p).pid⟩) fun p dead => (same p).phase ▸ dead

theorem store {q : Slot} {x : Proc} (used : (u q).phase ≠ .unused) (alive : x.phase ≠ .zombie)
    (pid : x.phase ≠ .unused → x.pid = (u q).pid) : Recorded (u.set q x) nextpid h := by
  refine rec.fewer (fun p use => ?_) fun p dead => ?_
  · by_cases eq : p = q
    · subst eq
      rw [Table.set_self] at use ⊢
      exact ⟨used, pid use⟩
    · rw [Table.set_ne _ eq] at use ⊢
      exact ⟨use, rfl⟩
  · by_cases eq : p = q
    · subst eq
      rw [Table.set_self] at dead
      exact absurd dead alive
    · rwa [Table.set_ne _ eq] at dead

theorem push {w : WaitReturn} (good : w.Good)
    (new : w.ret ≠ -1 → w.ret.toNat ≤ h.created ∧
      (∀ p, (u p).phase ≠ .unused → (u p).pid ≠ w.ret) ∧ ∀ w' ∈ h.waits, w'.ret ≠ w.ret) :
    Recorded u nextpid { h with waits := w :: h.waits } where
  next := rec.next
  range := rec.range
  distinct := rec.distinct
  exits := rec.exits
  waited w' member child := by
    rcases mem_cons.mp member with rfl | member
    · exact ⟨(new child).1, (new child).2.1⟩
    · exact rec.waited w' member child
  once pid ne := by
    rw [filter_cons]
    split
    · rename_i eq
      have eq : w.ret = pid := by simpa using eq
      have none : h.waits.filter (·.ret = pid) = [] := by
        rw [filter_eq_nil_iff]
        intro w' member same
        have same : w'.ret = pid := by simpa using same
        exact (new (eq ▸ ne)).2.2 w' member (same.trans eq.symm)
      rw [none]
      exact le_refl 1
    · exact rec.once pid ne
  good w' member := by
    rcases mem_cons.mp member with rfl | member
    · exact good
    · exact rec.good w' member

end Recorded

theorem havekids_eq_false {u : Table} (none : havekids u p = false) (q : Slot) :
    (u q).parent ≠ some p := by
  intro parent
  have := any_eq_false.mp none q (mem_finRange q)
  simp [parent] at this

omit [DecidableEq C] in
theorem Recorded.affair {h : History} {e : Event} (few : (h.log s.table e).created < 2 ^ 31)
    (rec : Recorded s.table s.nextpid h) (affair : Affair s t e) :
    Recorded t.table t.nextpid (h.log s.table e) := by
  cases affair with
  | quiet kin next _ =>
    rw [next]
    exact rec.kin kin
  | @exit p _ alive _ phase _ pid next _ =>
    rw [next]
    have used : ∀ q, (t.table q).phase ≠ .unused → (s.table q).phase ≠ .unused := by
      intro q use
      rw [phase] at use
      split at use
      · rename_i eq
        rw [eq, alive]
        simp
      · exact use
    refine ⟨rec.next, fun q use => ?_, fun q r use use' eq => ?_, fun q dead => ?_,
      fun w member child => ?_, rec.once, rec.good⟩
    · rw [pid]
      exact rec.range q (used q use)
    · rw [pid, pid] at eq
      exact rec.distinct q r (used q use) (used r use') eq
    · rw [pid]
      rw [phase] at dead
      split at dead
      · rename_i eq
        rw [eq]
        exact mem_cons_self
      · exact mem_cons_of_mem _ (rec.exits q dead)
    · obtain ⟨le, other⟩ := rec.waited w member child
      exact ⟨le, fun q use => pid q ▸ other q (used q use)⟩
  | @reap p q u x zombie parent kin unused none table next _ _ =>
    rw [next, table]
    have use : (s.table q).phase ≠ .unused := by
      rw [zombie]
      simp
    have low := rec.range q use
    have valid : (s.table q).pid ≠ -1 := by
      intro eq
      have top : (-1 : BitVec 32).toNat = 4294967295 := rfl
      rw [eq, top] at low
      change h.created < 2 ^ 31 at few
      omega
    have rec' := (rec.kin kin).store (q := q) (x := x) (by rwa [(kin q).phase])
      (by rw [unused]; simp) (fun use => absurd unused use)
    refine rec'.push ⟨fun _ => ⟨rec.exits q zombie, q, rfl, parent⟩, fun eq => absurd eq valid⟩
      fun _ => ⟨low, fun r use' eq => ?_, fun w member eq => ?_⟩
    · by_cases same : r = q
      · rw [same, Table.set_self] at use'
        exact use' unused
      · rw [Table.set_ne _ same] at use' eq
        rw [(kin r).phase] at use'
        rw [(kin r).pid] at eq
        exact same (rec.distinct r q use' use eq)
    · have child : w.ret ≠ -1 := by rwa [eq]
      exact (rec.waited w member child).2 q use eq.symm
  | @waitFail p kin next _ fails =>
    rw [next]
    refine (rec.kin kin).push ⟨fun child => absurd rfl child, fun _ => ?_⟩
      fun child => absurd rfl child
    rcases fails with none | killed
    · exact .inl (havekids_eq_false none)
    · exact .inr killed
  | @allocate _ np x unused embryo _ pid table next _ =>
    change h.created + 1 < 2 ^ 31 at few
    have number : x.pid.toNat = h.created + 1 := by rw [pid, rec.next]
    have others : ∀ q, q ≠ np → t.table q = s.table q := by
      intro q ne
      rw [table, Table.set_ne _ ne]
    have here : t.table np = x := by rw [table, Table.set_self]
    have fresh : ∀ q, q ≠ np → (t.table q).phase ≠ .unused → (t.table q).pid ≠ x.pid := by
      intro q ne use eq
      rw [others q ne] at use eq
      have := rec.range q use
      rw [eq, number] at this
      omega
    refine ⟨?_, fun q use => ?_, fun q r use use' eq => ?_, fun q dead => ?_,
      fun w member child => ?_, rec.once, rec.good⟩
    · rw [next, BitVec.toNat_add, rec.next]
      change (h.created + 1 + 1) % 2 ^ 32 = h.created + 1 + 1
      omega
    · by_cases same : q = np
      · rw [same, here, number]
        exact le_refl _
      · rw [others q same] at use ⊢
        exact Nat.le_succ_of_le (rec.range q use)
    · by_cases same : q = np
      · by_cases same' : r = np
        · rw [same, same']
        · rw [same, here] at eq
          exact absurd eq.symm (fresh r same' use')
      · by_cases same' : r = np
        · rw [same', here] at eq
          exact absurd eq (fresh q same use)
        · rw [others q same] at use eq
          rw [others r same'] at use' eq
          exact rec.distinct q r use use' eq
    · by_cases same : q = np
      · rw [same, here, embryo] at dead
        cases dead
      · rw [others q same] at dead ⊢
        exact rec.exits q dead
    · obtain ⟨le, other⟩ := rec.waited w member child
      refine ⟨Nat.le_succ_of_le le, fun q use eq => ?_⟩
      by_cases same : q = np
      · rw [same, here] at eq
        rw [← eq, number] at le
        omega
      · rw [others q same] at use eq
        exact other q use eq
  | @forkDone p np x _ _ embryo phase _ pid table next _ =>
    rw [next, table]
    exact rec.store (by rw [embryo]; simp) (by rw [phase]; simp) fun _ => pid
  | @forkFail p np x _ embryo phase _ table next _ =>
    rw [next, table]
    exact rec.store (by rw [embryo]; simp) (by rw [phase]; simp) fun use => absurd phase use
  | @forkCopy p np x _ _ embryo phase _ pid table next _ =>
    rw [next, table]
    exact rec.store (by rw [embryo]; simp) (by rw [phase]; simp) fun _ => pid

theorem log_created (h : History) (u : Table) (e : Event) : h.created ≤ (h.log u e).created := by
  cases e <;> first | exact le_refl _ | exact Nat.le_succ _

theorem reachable_recorded {h : History} (reach : (annals C).Reachable (s, h))
    (few : h.created < 2 ^ 31) : Recorded s.table s.nextpid h := by
  have all : h.created < 2 ^ 31 → Recorded s.table s.nextpid h := by
    refine reach.invariant
      (P := fun x => x.2.created < 2 ^ 31 → Recorded x.1.table x.1.nextpid x.2)
      (fun x start _ => ?_) fun x a y before rec step few => ?_
    · cases start
      have only : ∀ p, (bootTable p).phase ≠ .unused → p = initproc := by
        intro p use
        by_contra ne
        simp [bootTable, ne, Proc.phase] at use
      refine ⟨rfl, fun p use => ?_, fun p q use use' _ => ?_, fun p dead => ?_,
        fun w member => absurd member not_mem_nil, fun _ _ => Nat.zero_le 1,
        fun w member => absurd member not_mem_nil⟩
      · rw [only p use]
        exact le_refl 1
      · rw [only p use, only q use']
      · have := only p (by
          change (bootTable p).phase = .zombie at dead
          rw [dead]
          simp)
        rw [this] at dead
        cases dead
    · obtain ⟨kernel, seen⟩ := step
      obtain ⟨e, _, affair, logged⟩ :=
        (step_turn kernel).affair (reachable_inv (reachable_of_annals before))
      rw [logged] at seen
      rw [seen] at few ⊢
      exact (rec (lt_of_le_of_lt (log_created _ _ _) few)).affair few affair
  exact all few

/-- No exit is lost and none is reported twice, as long as fewer than `2 ^ 31` processes are
created. -/
theorem no_exit_lost {h : History} (reach : (annals C).Reachable (s, h))
    (few : h.created < 2 ^ 31) :
    (∀ p q, (s.table p).state ≠ .unused → (s.table q).state ≠ .unused →
      (s.table p).pid = (s.table q).pid → p = q) ∧
    (∀ p, p ≠ initproc →
      (s.table p).state ∈ [ProcState.sleeping, .runnable, .running, .zombie] →
      ∃ r, (s.table p).parent = some r ∧ (s.table r).state ≠ .unused ∧
        (s.table r).state ≠ .zombie) ∧
    (∀ pid, pid ≠ -1 → (h.waits.filter (·.ret = pid)).length ≤ 1) ∧
    (∀ w ∈ h.waits, w.ret ≠ -1 → w.ret ∈ w.exited ∧
      ∃ q, (w.table q).pid = w.ret ∧ (w.table q).parent = some w.caller) ∧
    ∀ w ∈ h.waits, w.ret = -1 →
      (∀ q, (w.table q).parent ≠ some w.caller) ∨ (w.table w.caller).killed = true := by
  have good := reachable_recorded reach few
  have fam := (reachable_family (reachable_of_annals reach)).1
  have used : ∀ p, (s.table p).state ≠ .unused → (s.table p).phase ≠ .unused := by
    intro p use
    unfold Proc.phase
    split <;> simp_all
  refine ⟨fun p q use use' => good.distinct p q (used p use) (used q use'), fun p ne state => ?_,
    good.once, fun w member => (good.good w member).child,
    fun w member => (good.good w member).none⟩
  have phase : (s.table p).phase = .alive ∨ (s.table p).phase = .zombie := by
    unfold Proc.phase
    simp only [mem_cons, not_mem_nil, or_false] at state
    rcases state with state | state | state | state <;> simp [state]
  obtain ⟨r, parent, alive⟩ := fam.parent p ne phase
  refine ⟨r, parent, fun unused => ?_, fun zombie => ?_⟩
  · simp [Proc.phase, unused] at alive
  · simp [Proc.phase, zombie] at alive

def chronicle (x : State Unit × History) (a : Act Unit) : Option (State Unit × History) :=
  (step x.1 a).map fun t => (t, x.2.record x.1 a t)

theorem annals_of_chronicle {x y : State Unit × History} {a : Act Unit}
    (step : chronicle x a = some y) : (annals Unit).step x a y := by
  obtain ⟨t, run, rfl⟩ := Option.map_eq_some_iff.mp step
  exact ⟨run, rfl⟩

/-- The child exits, and `wait` returns its pid to init. -/
theorem no_exit_lost_child :
    ∃ s h, (annals Unit).Reachable (s, h) ∧ (h.waits.filter (·.ret = 2)).length = 1 ∧
      ∀ w ∈ h.waits, w.ret ≠ -1 → w.ret ∈ w.exited ∧
        ∃ q, (w.table q).pid = w.ret ∧ (w.table q).parent = some w.caller := by
  have run : ((Lts.exec chronicle (fun _ => true) (State.boot Unit, .boot)
      (forkAndWait ++ replicate 2 (.sched ()) ++ [.resume (), .call () .exit] ++
        replicate 130 (.sched ()) ++ [.resume ()])).bind fun x =>
      some (x.2.created, (x.2.waits.filter (·.ret = 2)).length)) = some (2, 1) := by
    decide +kernel
  obtain ⟨⟨s, h⟩, exec, here⟩ := Option.bind_eq_some_iff.mp run
  obtain ⟨created, waited⟩ := Prod.mk.injEq _ _ _ _ ▸ Option.some.inj here
  have start : (annals Unit).Reachable (State.boot Unit, .boot) := .init rfl
  have reach : (annals Unit).Reachable (s, h) :=
    start.of_exec (fun _ _ _ _ step _ => annals_of_chronicle step) exec
  have few : h.created < 2 ^ 31 := by
    change h.created = 2 at created
    rw [created]
    decide
  exact ⟨s, h, reach, waited, (no_exit_lost reach few).2.2.2.1⟩

end Xv6.Sched
