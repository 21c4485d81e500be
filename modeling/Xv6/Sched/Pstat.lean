import Xv6.Sched.Diary
import Mathlib.Data.BitVec

/-!
# `getpinfo`

`getpinfo` goes through the table under `ptable.lock`, one slot a step here.  The lock does not
keep other CPUs from slots that a `fork` is filling in: such a slot may become free again between
the time it is read and the return.  A process past `fork` stays as it was read, so that its numbers
are still its accounts at the return.
-/

namespace Xv6.Sched

open Function

structure Pstat where
  inuse : Slot → BitVec 32
  tickets : Slot → BitVec 32
  pid : Slot → BitVec 32
  ticks : Slot → BitVec 32

/-- The loop body of `getpinfo`, for slot `q`. -/
def Pstat.put (stat : Pstat) (q : Slot) (x : Proc) : Pstat where
  inuse := update stat.inuse q (if x.state ≠ .unused then 1 else 0)
  tickets := update stat.tickets q x.priority
  pid := update stat.pid q x.pid
  ticks := update stat.ticks q x.runTicks

/-- A call in progress on CPU `cpu`: the slot `p` points to, the caller's `struct pstat`, and the
states the slots had when they were read. -/
structure Scan (C : Type) where
  cpu : C
  i : Nat
  stat : Pstat
  seen : Slot → ProcState

/-- The system with its diary and the call in progress, if there is one. -/
structure Survey (C : Type) where
  sys : State C
  diary : Diary
  scan : Option (Scan C)

/-- What happens next: something else, or `getpinfo` takes the lock, reads a slot, returns. -/
inductive Survey.Act (C : Type)
  | happen (h : Happening C)
  | call (c : C) (stat : Pstat)
  | read
  | ret

section Survey

variable {C : Type} [DecidableEq C]

namespace Survey

def boot (C : Type) : Survey C := ⟨State.boot C, .boot, none⟩

/-- A process does not fault in user space while it is inside `getpinfo`. -/
def inside (x : Survey C) : Happening C → Bool
  | .fault c => x.scan.any fun scan => scan.cpu = c
  | .act _ => false

/-- One step.  `stat` is what the caller's memory holds before the call. -/
def step (x : Survey C) (a : Act C) : Option (Survey C) :=
  if x.sys.panic.isSome then none
  else match a with
    | .happen h =>
      if x.inside h then none
      else (Sched.happen x.sys h).map fun t => ⟨t, x.diary.note x.sys (h.noted x.sys t), x.scan⟩
    | .call c stat =>
      match (x.sys.cpu c).proc, (x.sys.cpu c).thread with
      | some _, .process (.user _) =>
        if x.sys.lock = none then
          some ⟨{ x.sys with lock := some c }, x.diary, some ⟨c, 0, stat, fun _ => .unused⟩⟩
        else none
      | _, _ => none
    | .read =>
      match x.scan with
      | some scan =>
        if lt : scan.i < nproc then
          let p : Slot := ⟨scan.i, lt⟩
          some { x with scan := some { scan with
            i := scan.i + 1
            stat := scan.stat.put p (x.sys.table p)
            seen := update scan.seen p (x.sys.table p).state } }
        else none
      | none => none
    | .ret =>
      match x.scan with
      | some scan =>
        if scan.i < nproc then none
        else some ⟨x.sys.leave scan.cpu x.sys.table (.user 0), x.diary, none⟩
      | none => none

end Survey

def survey (C : Type) [DecidableEq C] : Lts (Survey C) (Survey.Act C) :=
  Lts.ofFun (· = Survey.boot C) Survey.step

/-! ## What changes during the call -/

/-- What other CPUs may do to a slot while somebody goes through the table. -/
structure Proc.Hushed (x y : Proc) : Prop where
  unused : x.state = .unused → y.state = .unused
  embryo : x.state = .embryo → y.state = .embryo ∨ y.state = .unused
  born : x.Born → x.Alike y

variable {x y : Proc}

theorem Proc.Alike.hushed (alike : x.Alike y) : x.Hushed y where
  unused := alike.unused.mpr
  embryo embryo := .inl (alike.embryo.mpr embryo)
  born _ := alike

theorem hushed_set {t : Table} {p : Slot} (hushed : (t p).Hushed x) (q : Slot) :
    (t q).Hushed (t.set p x q) := by
  by_cases eq : q = p
  · subst eq
    rwa [Table.set_self]
  · rw [Table.set_ne t eq]
    exact (Proc.Alike.refl _).hushed

theorem hushed_of_embryo (embryo : x.state = .embryo)
    (after : y.state = .embryo ∨ y.state = .unused) : x.Hushed y where
  unused unused := by
    rw [embryo] at unused
    cases unused
  embryo _ := after
  born born := absurd embryo born.2

variable {s t : State C} {c : C}

omit [DecidableEq C] in
/-- Without the lock, only slots that `fork` is filling in change. -/
theorem Shift.hushed {a : Act C} {n : Option Note} (closed : ¬ Open s) (shift : Shift s a t n)
    (q : Slot) : (s.table q).Hushed (t.table q) ∧ n = none := by
  cases shift with
  | quiet steady _ => exact ⟨(steady q).toAlike.hushed, rfl⟩
  | dispatch «open» => exact absurd «open» closed
  | kill «open» => exact absurd «open» closed
  | settickets enters => exact absurd (.inl enters.free) closed
  | reap «open» => exact absurd «open» closed
  | allocate enters => exact absurd (.inl enters.free) closed
  | forkDone enters => exact absurd (.inl enters.free) closed
  | forkFail _ _ embryo table _ =>
    rw [table]
    exact ⟨hushed_set (hushed_of_embryo embryo (.inr rfl)) q, rfl⟩
  | forkCopy _ _ embryo table _ =>
    rw [table, Sched.forkCopy]
    refine ⟨hushed_set ?_ q, rfl⟩
    exact hushed_of_embryo embryo (.inl embryo)

theorem Turn.hushed {a : Act C} {ret : BitVec 32} (turn : Turn s a t) (closed : ¬ Open s)
    (thread : (s.cpu c).thread = .process (.user ret)) :
    t.lock = s.lock ∧ t.cpu c = s.cpu c := by
  have busy : ∀ d, (s.cpu d).thread = .scheduler → (s.cpu d).sched ≠ .idle → False :=
    fun d idle pc => closed (.inr ⟨d, by simpa only [Cpu.Holds, idle] using pc⟩)
  have other : ∀ d np, (s.cpu d).thread = .process (.allocated np) → c ≠ d := fun d np at_d eq => by
    subst eq
    cases thread.symm.trans at_d
  cases turn with
  | acquire _ _ free => exact absurd (.inl free) closed
  | advance idle advance _ => exact (busy _ idle advance.busy.1).elim
  | back idle advance _ => exact (busy _ idle advance.busy.1).elim
  | dispatch idle chooses => exact (busy _ idle chooses.busy.1).elim
  | release idle pc => exact (busy _ idle (by simp [pc])).elim
  | @resume d _ _ _ _ _ back _ => exact absurd (.inr ⟨d, by simp only [Cpu.Holds, back]⟩) closed
  | waitReap waits _ => exact absurd waits.open closed
  | waitFail waits _ _ => exact absurd waits.open closed
  | waitSleep waits _ _ => exact absurd waits.open closed
  | zombieExit _ => exact ⟨rfl, rfl⟩
  | yield enters => exact absurd (.inl enters.free) closed
  | sleep _ enters => exact absurd (.inl enters.free) closed
  | exit enters _ => exact absurd (.inl enters.free) closed
  | initExit enters => exact absurd (.inl enters.free) closed
  | kill _ enters => exact absurd (.inl enters.free) closed
  | settickets _ _ enters => exact absurd (.inl enters.free) closed
  | allocate enters _ => exact absurd (.inl enters.free) closed
  | full enters _ => exact absurd (.inl enters.free) closed
  | forkDone enters => exact absurd (.inl enters.free) closed
  | forkFail _ at_d =>
    refine ⟨rfl, ?_⟩
    rw [State.unlocked, s.setCpu_ne (other _ _ at_d)]
  | forkCopy _ at_d =>
    refine ⟨rfl, ?_⟩
    rw [State.unlocked, s.setCpu_ne (other _ _ at_d)]
  | wakeup _ free => exact absurd (.inl free) closed

/-! ## The invariant -/

structure Scan.Saw (scan : Scan C) (q : Slot) (x : Proc) : Prop where
  inuse : scan.stat.inuse q = if scan.seen q ≠ .unused then 1 else 0
  unused : scan.seen q = .unused → x.state = .unused
  embryo : scan.seen q = .embryo → x.state = .embryo ∨ x.state = .unused
  born : scan.seen q ≠ .unused → scan.seen q ≠ .embryo → x.Born ∧ scan.stat.pid q = x.pid ∧
    scan.stat.ticks q = x.runTicks ∧ scan.stat.tickets q = x.priority

structure Scanning (s : State C) (scan : Scan C) : Prop where
  lock : s.lock = some scan.cpu
  caller : ∃ p ret, (s.cpu scan.cpu).proc = some p ∧
    (s.cpu scan.cpu).thread = .process (.user ret)
  saw : ∀ q : Slot, q < scan.i → scan.Saw q (s.table q)

structure Surveyed (x : Survey C) : Prop where
  inv : Inv x.sys
  told : Told x.sys x.diary
  scan : ∀ scan, x.scan = some scan → Scanning x.sys scan

omit [DecidableEq C] in
theorem Scan.Saw.hushed {scan : Scan C} {q : Slot} (saw : scan.Saw q x) (hushed : x.Hushed y) :
    scan.Saw q y where
  inuse := saw.inuse
  unused seen := hushed.unused (saw.unused seen)
  embryo seen := by
    rcases saw.embryo seen with embryo | unused
    · exact hushed.embryo embryo
    · exact .inr (hushed.unused unused)
  born seen seen' := by
    obtain ⟨born, pid, ticks, tickets⟩ := saw.born seen seen'
    have alike := hushed.born born
    exact ⟨alike.born.mpr born, pid.trans alike.pid.symm, ticks.trans alike.runTicks.symm,
      tickets.trans alike.priority.symm⟩

namespace Scanning

variable {scan : Scan C} (scanning : Scanning s scan)
include scanning

omit [DecidableEq C] in
theorem nobody (inv : Inv s) (d : C) : ¬ (s.cpu d).Holds := by
  intro holds
  obtain ⟨p, ret, _, thread⟩ := scanning.caller
  cases scanning.lock.symm.trans (inv.held d holds)
  simp only [Cpu.Holds, thread] at holds

omit [DecidableEq C] in
theorem closed (inv : Inv s) : ¬ Open s := by
  rintro (free | ⟨d, holds⟩)
  · cases scanning.lock.symm.trans free
  · exact scanning.nobody inv d holds

theorem happen {h : Happening C} (inv : Inv s) (step : happen s h = some t) : Scanning t scan := by
  cases h with
  | act a =>
    have closed := scanning.closed inv
    obtain ⟨p, ret, proc, thread⟩ := scanning.caller
    obtain ⟨lock, same⟩ := (step_turn step).hushed closed thread
    refine ⟨lock.trans scanning.lock, ⟨p, ret, ?_⟩, fun q lt =>
      (scanning.saw q lt).hushed ((step_shift inv step).hushed closed q).1⟩
    rw [same]
    exact ⟨proc, thread⟩
  | fault c =>
    have alike := (fault_alike step).2
    obtain ⟨p, _, _, _, rfl⟩ := fault_eq step
    exact ⟨scanning.lock, scanning.caller, fun q lt =>
      (scanning.saw q lt).hushed (alike q).hushed⟩

omit [DecidableEq C] in
theorem read (lt : scan.i < nproc) :
    Scanning s { scan with
      i := scan.i + 1
      stat := scan.stat.put ⟨scan.i, lt⟩ (s.table ⟨scan.i, lt⟩)
      seen := update scan.seen ⟨scan.i, lt⟩ (s.table ⟨scan.i, lt⟩).state } := by
  refine ⟨scanning.lock, scanning.caller, fun q below => ?_⟩
  by_cases eq : q = ⟨scan.i, lt⟩
  · subst eq
    refine ⟨?_, ?_, ?_, ?_⟩ <;> simp only [Pstat.put, update_self]
    · exact id
    · exact .inl
    · exact fun used born => ⟨⟨used, born⟩, trivial, trivial, trivial⟩
  · have before : q < scan.i := by
      have ne : q.val ≠ scan.i := fun same => eq (Fin.ext same)
      change q.val < scan.i + 1 at below
      omega
    have saw := scanning.saw q before
    refine ⟨?_, ?_, ?_, ?_⟩ <;> simp only [Pstat.put, update_of_ne eq]
    · exact saw.inuse
    · exact saw.unused
    · exact saw.embryo
    · exact saw.born

end Scanning

omit [DecidableEq C] in
theorem Inv.relock (inv : Inv s) (nobody : ∀ d, ¬ (s.cpu d).Holds) (lock : Option C) :
    Inv { s with lock := lock } :=
  { inv with held := fun d holds => absurd holds (nobody d) }

omit [DecidableEq C] in
theorem Told.relock {d : Diary} (told : Told s d) (lock : Option C) :
    Told { s with lock := lock } d :=
  told.quiet (fun _ _ _ here => here.of_same rfl rfl) fun _ => .refl _

theorem Scanning.ret {scan : Scan C} {d : Diary} (scanning : Scanning s scan) (inv : Inv s)
    (told : Told s d) : Inv (s.leave scan.cpu s.table (.user 0)) ∧
      Told (s.leave scan.cpu s.table (.user 0)) d := by
  obtain ⟨p, ret, proc, thread⟩ := scanning.caller
  have unlocked := inv.relock (scanning.nobody inv) none
  have inside : Section { s with lock := none } scan.cpu p (Kernel.user 0).forks :=
    ⟨proc, by simp [thread], by simp [thread, Thread.forks, Kernel.forks], .inl rfl⟩
  refine ⟨unlocked.keep (.leave inside fun q => .refl _), told.quiet ?_ fun q => .refl _⟩
  exact .of_thread (c := scan.cpu) rfl rfl fun q k _ context state => .away context state

theorem reachable_surveyed {x : Survey C} (reach : (survey C).Reachable x) : Surveyed x := by
  refine reach.invariant (fun x start => ?_) fun x a y _ good step => ?_
  · cases start
    exact ⟨.boot, .boot, fun scan none => by cases none⟩
  · change Survey.step x a = some y at step
    unfold Survey.step at step
    split at step
    · cases step
    cases a with
    | happen h =>
      simp only at step
      split at step
      · cases step
      · obtain ⟨t, happens, rfl⟩ := Option.map_eq_some_iff.mp step
        exact ⟨good.inv.happen happens, good.told.happen good.inv happens, fun scan found =>
          (good.scan scan found).happen good.inv happens⟩
    | call c stat =>
      simp only at step
      split at step
      · rename_i p ret proc thread
        split at step <;> cases step
        rename_i free
        have nobody : ∀ d, ¬ (x.sys.cpu d).Holds := fun d holds => by
          cases free.symm.trans (good.inv.held d holds)
        refine ⟨good.inv.relock nobody _, good.told.relock _, fun scan found => ?_⟩
        cases found
        exact ⟨rfl, ⟨p, ret, proc, thread⟩, fun q lt => absurd lt (Nat.not_lt_zero q)⟩
      · cases step
    | read =>
      simp only at step
      split at step
      · rename_i scan found
        split at step <;> cases step
        rename_i lt
        refine ⟨good.inv, good.told, fun scan' same => ?_⟩
        cases same
        exact (good.scan scan found).read lt
      · cases step
    | ret =>
      simp only at step
      split at step
      · rename_i scan found
        split at step <;> cases step
        obtain ⟨inv, told⟩ := (good.scan scan found).ret good.inv good.told
        exact ⟨inv, told, fun _ none => by cases none⟩
      · cases step

/-- When `getpinfo` returns, `inuse` says of every slot whether it was in use when it was read; only
a slot that `fork` was filling in then may have become free since.  For every process past `fork`,
the pid, the ticks and the tickets are those of the diary: the pid it was created with, how many
times it was dispatched since then, and what it last set its tickets to or, if it never did, the
priority of its parent at the call of `fork`. -/
theorem getpinfo_true_history {x y : Survey C} {scan : Scan C} (reach : (survey C).Reachable x)
    (calling : x.scan = some scan) (ret : (survey C).step x .ret y) (q : Slot) :
    (scan.stat.inuse q = if scan.seen q ≠ .unused then 1 else 0) ∧
    (scan.seen q = .unused → (x.sys.table q).state = .unused) ∧
    ((x.sys.table q).state = .unused → scan.seen q = .unused ∨ scan.seen q = .embryo) ∧
    ((x.sys.table q).Born → scan.stat.inuse q = 1 ∧
      x.diary.pid (x.diary.owner q) = some (scan.stat.pid q) ∧
      scan.stat.ticks q = BitVec.ofNat 32 (x.diary.dispatches (x.diary.owner q)) ∧
      x.diary.tickets (x.diary.owner q) = some (scan.stat.tickets q)) := by
  have good := reachable_surveyed reach
  have finished : ¬ scan.i < nproc := by
    intro lt
    change Survey.step x .ret = some y at ret
    simp [Survey.step, calling, lt] at ret
  have saw := (good.scan scan calling).saw q (by omega)
  refine ⟨saw.inuse, saw.unused, fun unused => ?_, fun born => ?_⟩
  · by_contra neither
    rw [not_or] at neither
    exact (saw.born neither.1 neither.2).1.1 unused
  · have used : scan.seen q ≠ .unused := fun seen => born.1 (saw.unused seen)
    have past : scan.seen q ≠ .embryo := fun seen =>
      (saw.embryo seen).elim (fun embryo => born.2 embryo) fun unused => born.1 unused
    obtain ⟨_, pid, ticks, tickets⟩ := saw.born used past
    have tells := good.told.born q born
    rw [pid, ticks, tickets]
    exact ⟨by rw [saw.inuse, if_pos used], tells.pid, tells.ticks, tells.tickets⟩

/-- Init forks a child, sets its tickets to 0 and calls `getpinfo`. -/
def forkAndGetpinfo : List (Survey.Act Unit) :=
  let acts : List (Act Unit) := List.replicate 67 (.sched ()) ++
    [.resume (), .call () .fork, .forkBody () true, .call () .forkDone, .call () (.settickets 0)]
  acts.map (fun a => .happen (.act a)) ++ .call () ⟨0, 0, 0, 0⟩ :: List.replicate 64 .read

/-- Init was dispatched once and has set its tickets to 0; its child was never dispatched and has
the one ticket that init had at `fork`. -/
theorem getpinfo_true_history_child :
    ∃ (x : Survey Unit) (scan : Scan Unit), (survey Unit).Reachable x ∧ x.scan = some scan ∧
      (x.sys.table 0).Born ∧ (x.sys.table 1).Born ∧
      x.diary.dispatches (x.diary.owner 0) = 1 ∧ x.diary.dispatches (x.diary.owner 1) = 0 ∧
      scan.stat.ticks 0 = 1 ∧ scan.stat.ticks 1 = 0 ∧
      scan.stat.tickets 0 = 0 ∧ scan.stat.tickets 1 = 1 := by
  have run : ((Lts.exec Survey.step (fun _ => true) (Survey.boot Unit) forkAndGetpinfo).bind
      fun x => x.scan.bind fun scan => (x.step .ret).bind fun _ =>
      some (decide ((x.sys.table 0).Born ∧ (x.sys.table 1).Born),
        (x.diary.dispatches (x.diary.owner 0), x.diary.dispatches (x.diary.owner 1)),
        (x.diary.tickets (x.diary.owner 0), x.diary.tickets (x.diary.owner 1)))) =
      some (true, (1, 0), some 0, some 1) := by
    decide +kernel
  obtain ⟨x, exec, run⟩ := Option.bind_eq_some_iff.mp run
  obtain ⟨scan, calling, run⟩ := Option.bind_eq_some_iff.mp run
  obtain ⟨y, ret, run⟩ := Option.bind_eq_some_iff.mp run
  simp only [Option.some.injEq, Prod.mk.injEq, decide_eq_true_eq] at run
  obtain ⟨⟨born, born'⟩, ⟨once, never⟩, tickets, tickets'⟩ := run
  have start : (survey Unit).Reachable (Survey.boot Unit) := .init rfl
  have reach : (survey Unit).Reachable x := start.of_exec (fun _ _ _ _ step _ => step) exec
  obtain ⟨_, _, ticks, set⟩ := (getpinfo_true_history reach calling ret 0).2.2.2 born
  obtain ⟨_, _, ticks', set'⟩ := (getpinfo_true_history reach calling ret 1).2.2.2 born'
  rw [once] at ticks
  rw [never] at ticks'
  exact ⟨x, scan, reach, calling, born, born', once, never, ticks, ticks',
    Option.some.inj (set.symm.trans tickets), Option.some.inj (set'.symm.trans tickets')⟩

end Survey

end Xv6.Sched
