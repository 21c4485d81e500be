import Xv6.Param
import Mathlib.Data.List.FinRange
import Mathlib.Logic.Function.Basic

/-!
# The process table

The part of `struct proc` that `proc.c` schedules by, and what the functions of `proc.c` do to the
table while they hold `ptable.lock`.  `Context` is what `swtch` finds on the kernel stack of a
process that is not running.  The stack itself, the page table, the open files and the name play no
part here.
-/

namespace Xv6.Sched

open Function

inductive ProcState
  | unused
  | embryo
  | sleeping
  | runnable
  | running
  | zombie
  deriving DecidableEq, Repr

abbrev Slot := Fin nproc

def initproc : Slot := 0

/-- A sleep channel: the address of a process, as in `wait`, or of another object. -/
inductive Chan
  | proc (p : Slot)
  | object (addr : Nat)
  deriving DecidableEq, Repr

/-- Where the thread of a running process stands while it does not hold `ptable.lock`.

`user` is any code outside the functions modelled here, in user or kernel mode; `ret` is
what the last call returned.  `allocated` and `copied` are inside `fork`, before and after
the fields of the child `np` are filled in. -/
inductive Kernel
  | user (ret : BitVec 32)
  | allocated (np : Slot)
  | copied (np : Slot)
  deriving DecidableEq, Repr

/-- Where a process goes on once `swtch` returns to it, still under `ptable.lock`. -/
inductive Context
  | forkret
  | yield (k : Kernel)
  | sleep (ret : BitVec 32)
  | wait
  | exit
  deriving DecidableEq, Repr

structure Proc where
  state : ProcState
  pid : BitVec 32
  parent : Option Slot
  context : Context
  chan : Option Chan
  killed : Bool
  priority : BitVec 32
  runTicks : BitVec 32
  deriving DecidableEq, Repr

abbrev Table := Slot → Proc

def Table.set (t : Table) (p : Slot) (x : Proc) : Table := update t p x

@[simp] theorem Table.set_self (t : Table) (p : Slot) (x : Proc) : t.set p x p = x := by
  rw [Table.set, update_self]

theorem Table.set_ne (t : Table) {p q : Slot} (ne : q ≠ p) (x : Proc) : t.set p x q = t q := by
  rw [Table.set, update_of_ne ne]

variable {t : Table} {p : Slot} {x : Proc}

theorem Table.forall_set {P : Slot → Proc → Prop} (here : P p x) (others : ∀ q, q ≠ p → P q (t q)) :
    ∀ q, P q (t.set p x q) :=
  (forall_update_iff t P).mpr ⟨here, others⟩

theorem Table.set_rel {R : Proc → Proc → Prop} (refl : ∀ x, R x x) {t : Table} {p : Slot} {x : Proc}
    (here : R (t p) x) : ∀ q, R (t q) (t.set p x q) :=
  Table.forall_set (P := fun q => R (t q)) here fun q _ => refl (t q)

theorem Table.set_congr {α : Type} (f : Proc → α) {t : Table} {p : Slot} {x : Proc}
    (same : f x = f (t p)) (q : Slot) : f (t.set p x q) = f (t q) :=
  Table.set_rel (R := fun x y => f y = f x) (fun _ => rfl) same q

/-- The test of `getHighPriority` and of the high-priority loop. -/
def Proc.High (x : Proc) : Prop := x.state = .runnable ∧ x.priority = 1

instance (x : Proc) : Decidable x.High := inferInstanceAs (Decidable (_ ∧ _))

/-! ## The loops of `proc.c` -/

def wakeup1 (t : Table) (chan : Option Chan) : Table := fun p =>
  if (t p).state = .sleeping ∧ (t p).chan = chan then { t p with state := .runnable } else t p

def findUnused (t : Table) : Option Slot :=
  (List.finRange nproc).find? fun p => (t p).state = .unused

/-- What `allocproc` stores into the slot it found.  The new context returns to `forkret`. -/
def allocproc (t : Table) (p : Slot) (nextpid : BitVec 32) : Table :=
  t.set p { t p with
    state := .embryo, pid := nextpid, priority := 1, runTicks := 0, context := .forkret }

/-- What `fork` stores into the child before it takes the lock again. -/
def forkCopy (t : Table) (cur np : Slot) : Table :=
  t.set np { t np with runTicks := 0, priority := (t cur).priority, parent := some cur }

/-- `kill`: the first process with this pid. -/
def kill (t : Table) (pid : BitVec 32) : Table × BitVec 32 :=
  match (List.finRange nproc).find? fun p => (t p).pid = pid with
  | some p =>
    -- Wake process from sleep if necessary.
    let state := if (t p).state = .sleeping then .runnable else (t p).state
    (t.set p { t p with killed := true, state := state }, 0)
  | none => (t, -1)

/-- The loop of `exit`, for one slot: pass an abandoned child to init. -/
def reparentSlot (cur : Slot) (t : Table) (p : Slot) : Table :=
  if (t p).parent = some cur then
    let t' := t.set p { t p with parent := some initproc }
    if (t' p).state = .zombie then wakeup1 t' (some (.proc initproc)) else t'
  else t

def reparent (t : Table) (cur : Slot) : Table :=
  (List.finRange nproc).foldl (reparentSlot cur) t

def zombieChild (t : Table) (cur : Slot) : Option Slot :=
  (List.finRange nproc).find? fun p => (t p).parent = some cur ∧ (t p).state = .zombie

def havekids (t : Table) (cur : Slot) : Bool :=
  (List.finRange nproc).any fun p => (t p).parent = some cur

def reap (t : Table) (p : Slot) : Table :=
  t.set p { t p with pid := 0, parent := none, killed := false, state := .unused }

/-! ## Wake-ups -/

theorem wakeup1_rel {R : Proc → Proc → Prop} (refl : ∀ x, R x x)
    (wake : ∀ x : Proc, x.state = .sleeping → R x { x with state := .runnable }) (t : Table)
    (chan : Option Chan) (p : Slot) : R (t p) (wakeup1 t chan p) := by
  unfold wakeup1
  split
  · rename_i asleep
    exact wake _ asleep.1
  · exact refl _

/-- A slot is woken and passed to init, any number of times. -/
structure Passive (R : Proc → Proc → Prop) : Prop where
  refl : ∀ x, R x x
  trans : ∀ {x y z}, R x y → R y z → R x z
  wake : ∀ x : Proc, x.state = .sleeping → R x { x with state := .runnable }
  pass : ∀ x : Proc, R x { x with parent := some initproc }

namespace Passive

variable {R : Proc → Proc → Prop} (passive : Passive R)
include passive

theorem reparentSlot (cur : Slot) (t : Table) (q p : Slot) : R (t p) (reparentSlot cur t q p) := by
  unfold Sched.reparentSlot
  split
  · have passed := Table.set_rel passive.refl (passive.pass (t q)) p
    dsimp only
    split
    · exact passive.trans passed (wakeup1_rel passive.refl passive.wake _ _ p)
    · exact passed
  · exact passive.refl _

theorem foldl (cur : Slot) (slots : List Slot) (t : Table) (p : Slot) :
    R (t p) (slots.foldl (Sched.reparentSlot cur) t p) := by
  induction slots generalizing t with
  | nil => exact passive.refl _
  | cons q slots ih => exact passive.trans (passive.reparentSlot cur t q p) (ih _)

theorem reparent (t : Table) (cur p : Slot) : R (t p) (reparent t cur p) :=
  passive.foldl cur _ t p

end Passive

/-- `y` is `x`, perhaps woken, killed or passed to another parent. -/
structure Proc.Woken (x y : Proc) : Prop where
  state : y.state = x.state ∨ x.state = .sleeping ∧ y.state = .runnable
  pid : y.pid = x.pid
  context : y.context = x.context
  priority : y.priority = x.priority

theorem Proc.Woken.refl (x : Proc) : x.Woken x := ⟨.inl rfl, rfl, rfl, rfl⟩

theorem Proc.Woken.trans {y z : Proc} (xy : x.Woken y) (yz : y.Woken z) : x.Woken z where
  state := by
    rcases xy.state with eq | ⟨asleep, awake⟩
    · rw [← eq]
      exact yz.state
    · rcases yz.state with eq | ⟨again, _⟩
      · exact .inr ⟨asleep, eq.trans awake⟩
      · cases awake.symm.trans again
  pid := yz.pid.trans xy.pid
  context := yz.context.trans xy.context
  priority := yz.priority.trans xy.priority

theorem Proc.Woken.passive : Passive Proc.Woken where
  refl := .refl
  trans := .trans
  wake _ asleep := ⟨.inr ⟨asleep, rfl⟩, rfl, rfl, rfl⟩
  pass _ := ⟨.inl rfl, rfl, rfl, rfl⟩

theorem Proc.Woken.state_eq {y : Proc} (woken : x.Woken y) (up : x.state ≠ .sleeping) :
    y.state = x.state :=
  woken.state.resolve_right fun h => up h.1

theorem woken_set (woken : (t p).Woken x) (q : Slot) :
    (t q).Woken (t.set p x q) := Table.set_rel .refl woken q

theorem wakeup1_woken (t : Table) (chan : Option Chan) (p : Slot) :
    (t p).Woken (wakeup1 t chan p) :=
  wakeup1_rel .refl Proc.Woken.passive.wake t chan p

theorem kill_woken (t : Table) (pid : BitVec 32) (p : Slot) :
    (t p).Woken ((kill t pid).1 p) := by
  unfold kill
  split
  · rename_i q _
    apply woken_set
    refine ⟨?_, rfl, rfl, rfl⟩
    by_cases asleep : (t q).state = .sleeping
    · exact .inr ⟨asleep, if_pos asleep⟩
    · exact .inl (if_neg asleep)
  · exact .refl _

theorem reparent_woken (t : Table) (cur p : Slot) : (t p).Woken (reparent t cur p) :=
  Proc.Woken.passive.reparent t cur p

/-! ## What the searches find -/

theorem findUnused_state (found : findUnused t = some p) : (t p).state = .unused := by
  simpa using List.find?_some found

theorem zombieChild_state {cur : Slot} (found : zombieChild t cur = some p) :
    (t p).parent = some cur ∧ (t p).state = .zombie := by
  simpa using List.find?_some found

end Xv6.Sched
