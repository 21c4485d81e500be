import Xv6.Sched.Outline

/-!
# Sleep-locks

`sleeplock.c` over the statements of `Sched/Sleep.lean`.  Any process may take the lock, keep it as
long as it likes, ask whether it holds it and release it; and any process may be killed at any time,
which wakes it inside `acquiresleep`.

The only channel is the address of the sleep-lock and the only spin lock is `lk->lk`.  The condition
of the monitor is that the lock is not taken.
-/

namespace Xv6.Sleep

open Sched (Slot ProcState)

/-- `struct sleeplock`.  `holder` is history: the process that last stored `locked = 1`. -/
structure Sleeplock where
  locked : Bool
  pid : BitVec 32
  holder : Option Slot
  deriving DecidableEq, Repr

def Sleeplock.init : Sleeplock := ⟨false, 0, none⟩

/-- The statements of `acquiresleep`, `releasesleep` and `holdingsleep`.  `has` is whether the
process holds the sleep-lock while it does something else. -/
inductive LockPc
  | idle
  | acquire
  | test
  | sleep
  | take
  | setPid
  | leave
  | holding
  | release
  | clear
  | clearPid
  | wake
  | done
  | ask (has : Bool)
  | askTest (has : Bool)
  | askDone (has r : Bool)
  | kill (has : Bool) (q : Slot)
  deriving DecidableEq, Repr

namespace LockPc

def rest (has : Bool) : LockPc := if has then .holding else .idle

def calls (has : Bool) : LockPc → Bool
  | .acquire => !has
  | .release => has
  | .ask h | .kill h _ => h == has
  | _ => false

end LockPc

section Program

variable (pid : Slot → BitVec 32)

def sleeplock : Program Unit Unit LockPc Sleeplock := fun p pc =>
  match pc with
  | .idle => .pick fun _ k => k.calls false
  -- acquiresleep
  | .acquire => .acquire () .test
  | .test => .act fun d _ => (d, if d.locked then .sleep else .take)
  | .sleep => .sleep () () .test
  | .take => .act fun d _ => ({ d with locked := true, holder := some p }, .setPid)
  | .setPid => .act fun d _ => ({ d with pid := pid p }, .leave)
  | .leave => .release () .holding
  | .holding => .pick fun _ k => k.calls true
  -- releasesleep
  | .release => .acquire () .clear
  | .clear => .act fun d _ => ({ d with locked := false, holder := none }, .clearPid)
  | .clearPid => .act fun d _ => ({ d with pid := 0 }, .wake)
  | .wake => .wakeup () .done
  | .done => .release () .idle
  -- holdingsleep
  | .ask has => .acquire () (.askTest has)
  | .askTest has => .act fun d _ => (d, .askDone has (d.locked && d.pid == pid p))
  | .askDone has _ => .release () (.rest has)
  | .kill has q => .kill q (.rest has)

def sleeplocks : Lts (State Unit Unit LockPc Sleeplock) (Act LockPc) :=
  system (sleeplock pid) .init .idle

end Program

def LockPc.owns : LockPc → Bool
  | .setPid | .leave | .holding | .release | .clear => true
  | .ask has | .askTest has | .askDone has _ | .kill has _ => has
  | _ => false

def Holding (s : State Unit Unit LockPc Sleeplock) (p : Slot) : Prop :=
  (s.point p).next.owns = true

/-! ## Verification -/

def lockFree : Monitor Unit Unit Sleeplock := ⟨(), (), fun d => !d.locked⟩

def Sleeplock.Good (d : Sleeplock) : Prop := d.locked = d.holder.isSome

def LockPc.held : LockPc → Bool
  | .idle | .acquire | .holding | .release | .ask _ | .kill _ _ => false
  | _ => true

def LockPc.asn (d : Sleeplock) (o : Section) : LockPc → Prop
  | .test | .askTest _ | .askDone _ _ => o.changed = false
  | .sleep => d.locked = true ∧ o.changed = false
  | .take => d.locked = false
  | .done => o.told = true
  | _ => True

def lockOutline : Assertions Unit LockPc Sleeplock where
  held := LockPc.held
  inv := Sleeplock.Good
  asn _ pc d o := d.Good ∧ pc.asn d o
  own p pc d := pc.owns = true → d.locked = true ∧ d.holder = some p
  via _ pc := pc = .test

variable {k : LockPc}

theorem calls_held {has : Bool} (call : k.calls has = true) : k.held = false := by
  cases k <;> first | rfl | cases call

theorem calls_owns {has : Bool} (call : k.calls has = true) : k.owns = has := by
  cases k <;> simp_all [LockPc.calls, LockPc.owns]

theorem own_other {d d' : Sleeplock} {q : Slot} (not : d.holder ≠ some q)
    (own : lockOutline.own q k d) : lockOutline.own q k d' :=
  fun yes => absurd (own yes).2 not

theorem lockOutline_fits (pid : Slot → BitVec 32) (p : Slot) (pc : LockPc) :
    lockOutline.Fits lockFree (fun _ _ _ => True) p pc (sleeplock pid p pc) := by
  cases pc with
  | idle =>
    refine ⟨rfl, fun d k call => ⟨calls_held call, fun _ yes => ?_⟩⟩
    simp [calls_owns call] at yes
  | acquire => exact ⟨rfl, rfl, fun d good _ => ⟨⟨good, rfl⟩, fun yes => by cases yes⟩⟩
  | test =>
    intro d b o _ _ asn
    obtain ⟨good, same⟩ := asn rfl
    cases taken : d.locked <;>
      simp_all [lockOutline, LockPc.held, LockPc.owns, LockPc.asn, Monitor.change]
  | sleep =>
    refine ⟨rfl, rfl, rfl,
      fun d o asn own => ⟨asn.1, fun _ changed => ?_, fun _ => ?_, fun yes => by cases yes⟩,
      fun d good _ => ⟨good, rfl⟩⟩
    · simp [asn.2.2] at changed
    · simp [lockFree, asn.2.1]
  | take =>
    intro d b o _ _ asn
    obtain ⟨good, free⟩ := asn rfl
    have nobody : d.holder = none := by
      have free : d.locked = false := free
      simpa [Sleeplock.Good, free] using good.symm
    refine ⟨rfl, fun _ => ⟨rfl, rfl⟩, fun q k ne own => own_other (by simp [nobody]) own,
      fun _ => ⟨rfl, trivial⟩, fun out => by cases out⟩
  | setPid =>
    intro d b o _ own asn
    exact ⟨rfl, fun _ => own rfl, fun q k _ own => own, fun _ => ⟨(asn rfl).1, trivial⟩,
      fun out => by cases out⟩
  | leave =>
    refine ⟨rfl, rfl, fun d o asn own => ⟨asn.1, fun holds => ?_, fun _ => own rfl⟩⟩
    simp [lockFree, (own rfl).1] at holds
  | holding =>
    exact ⟨rfl, fun d k call => ⟨calls_held call, fun own yes => own rfl⟩⟩
  | release => exact ⟨rfl, rfl, fun d good own => ⟨⟨good, trivial⟩, fun _ => own rfl⟩⟩
  | clear =>
    intro d b o _ own _
    have mine := (own rfl).2
    refine ⟨rfl, fun yes => (by cases yes),
      fun q k ne own => own_other (by simpa [mine] using ne.symm) own,
      fun _ => ⟨rfl, trivial⟩, fun out => by cases out⟩
  | clearPid =>
    intro d b o _ _ asn
    exact ⟨rfl, fun yes => (by cases yes), fun q k _ own => own, fun _ => ⟨(asn rfl).1, trivial⟩,
      fun out => by cases out⟩
  | wake => exact ⟨rfl, fun d _ yes => (by cases yes), fun d o _ asn _ => ⟨asn.1, rfl⟩⟩
  | done => exact ⟨rfl, rfl, fun d o asn _ => ⟨asn.1, fun _ _ => asn.2, fun yes => by cases yes⟩⟩
  | ask has => exact ⟨rfl, rfl, fun d good own => ⟨⟨good, rfl⟩, own⟩⟩
  | askTest has =>
    intro d b o _ own asn
    refine ⟨rfl, own, fun q k _ own => own, fun _ => ?_, fun out => by cases out⟩
    obtain ⟨good, same⟩ := asn rfl
    exact ⟨good, by simpa [Monitor.change, LockPc.asn] using same⟩
  | askDone has r =>
    refine ⟨rfl, by cases has <;> rfl,
      fun d o asn own => ⟨asn.1, fun _ changed => ?_, fun yes => own ?_⟩⟩
    · simp [show o.changed = false from asn.2] at changed
    · cases has <;> exact yes
  | kill has q =>
    refine ⟨by cases has <;> rfl, fun d own yes => own ?_, fun d o held => by cases held⟩
    cases has <;> exact yes

theorem lockOutline_reachable {pid : Slot → BitVec 32} {s : State Unit Unit LockPc Sleeplock}
    (reach : (sleeplocks pid).Reachable s) :
    ∃ o, (lockFree.observed (sleeplock pid) .init .idle).Reachable (s, o) ∧
      lockOutline.Inv lockFree s o :=
  Assertions.reachable (lockOutline_fits pid) rfl rfl (fun p yes => by cases yes)
    (reach.to_guard fun _ _ _ _ _ _ => trivial)

/-- A process sleeps on a channel only as long as its condition is false, for every program that
changes the condition and calls `wakeup` under the lock.  In particular a sleep-lock has one holder
at a time, and whoever sleeps on it finds it taken. -/
theorem sleep_wakeup_correct :
    (∀ {L C K D : Type} [DecidableEq L] [DecidableEq C] (M : Monitor L C D)
        (prog : Program L C K D) (d : D) (entry : K) (s : State L C K D) (o : Section),
        (M.observed prog d entry).Reachable (s, o) → ∀ p, s.Asleep p M.chan →
          (s.lock M.lock = none → M.cond s.data = false) ∧
          (M.cond s.data = true →
            ∃ h, s.lock M.lock = some h ∧ o.changed = true ∧ o.told = false)) ∧
    (∀ (pid : Slot → BitVec 32) (s : State Unit Unit LockPc Sleeplock),
        (sleeplocks pid).Reachable s →
          (∀ p q, Holding s p → Holding s q → p = q) ∧
          (s.lock () = none → ∀ p, s.Asleep p () → s.data.locked = true)) := by
  refine ⟨fun {L C K D} _ _ M prog d entry s o reach p asleep => ⟨fun free => ?_, fun holds => ?_⟩,
    fun pid s reach => ?_⟩
  · by_contra holds
    exact (Monitor.asleep_of_observed reach asleep (by simpa using holds)).1 free
  · obtain ⟨held, changed, told⟩ := Monitor.asleep_of_observed reach asleep holds
    obtain ⟨h, eq⟩ := Option.ne_none_iff_exists'.mp held
    exact ⟨h, eq, changed, told⟩
  · obtain ⟨o, seen, inv⟩ := lockOutline_reachable reach
    refine ⟨fun p q left right => ?_, fun free p asleep => ?_⟩
    · have left := (inv.own p left).2
      have right := (inv.own q right).2
      exact Option.some.inj (left.symm.trans right)
    · by_contra notTaken
      exact (Monitor.asleep_of_observed (M := lockFree) seen asleep
        (by simpa [lockFree] using notTaken)).1 free

def contended : List (Act LockPc) :=
  .pick 0 .acquire :: List.replicate 5 (.run 0) ++
    .pick 1 .acquire :: List.replicate 8 (.run 1) ++ [.unschedule]

theorem sleep_wakeup_correct_contended :
    ∃ s, (sleeplocks fun p => p.val).Reachable s ∧ s.lock () = none ∧ s.Asleep 1 () ∧
      s.data.locked = true := by
  let run :=
    Lts.exec (step (sleeplock fun p => p.val)) (fun _ => true) (.start .init .idle) contended
  have final : run.map (fun s => (s.lock (), s.state 1, s.chan 1)) =
      some (none, .sleeping, some ()) := by
    decide +kernel
  obtain ⟨s, reached, final⟩ := Option.map_eq_some_iff.mp final
  simp only [Prod.mk.injEq] at final
  have reach : (sleeplocks fun p => p.val).Reachable s :=
    Lts.Reachable.of_exec (.init rfl) (fun _ _ _ _ step _ => step) reached
  exact ⟨s, reach, final.1, final.2, (sleep_wakeup_correct.2 _ s reach).2 final.1 1 final.2⟩

end Xv6.Sleep
