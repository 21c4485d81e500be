import Xv6.Fs.Calls

/-!
# A process alone in the file system

`alone p c` runs the code `c` of process `p` while no other process makes a step.  The code comes to
its end or stops: it panics, or it waits for a sleep lock, which nobody will release.
-/

namespace Xv6.Fs

section

variable {P D A α β : Type} [DecidableEq P] [Store D A]

def alone (p : P) (c : Body P α) : Kernel P D A α := c.prog (State.exec p)

variable {p : P} {s : State P D A} {ip : Ip} {f : FilePtr} {E : Stop → Prop}

variable {Q : α → State P D A → Prop}

theorem alone_pure {a : α} :
    Within E (alone p (pure a)) s Q ↔ Q a s := Iff.rfl

theorem alone_step {o : Op P} {Q : o.Res → State P D A → Prop} :
    Within E (alone p (step o)) s Q ↔ Within E (State.exec p o) s Q :=
  Code.within_prog_call o Code.done Q

theorem alone_step_bind {o : Op P} {k : o.Res → Body P α} :
    Within E (alone p (step o >>= k)) s Q ↔
      Within E (State.exec p o) s fun r t => Within E (alone p (k r)) t Q :=
  Code.within_prog_call o k Q

theorem alone_bind {c : Body P α} {k : α → Body P β} {Q : β → State P D A → Prop} :
    Within E (alone p (c >>= k)) s Q ↔
      Within E (alone p c) s fun r t => Within E (alone p (k r)) t Q :=
  Code.within_prog_bind c k Q

theorem alone_stop {why : Panic} : Within E (alone p (stop why)) s Q ↔ E (.panic why) :=
  Code.within_prog_call _ _ Q

/-! ## Locks -/

namespace State

def ilocked (s : State P D A) (p : P) (ip : Ip) : State P D A :=
  s.setEntry ip { s.icache ip with
    lock := some p
    valid := true
    ino := if (s.icache ip).valid then (s.icache ip).ino
      else Store.dinode s.disk (s.icache ip).inum }

def iunlocked (s : State P D A) (ip : Ip) : State P D A :=
  s.setEntry ip { s.icache ip with lock := none }

end State

theorem alone_ilock {Q : Unit → State P D A → Prop} (held : 1 ≤ (s.icache ip).ref)
    (waits : (s.icache ip).lock ≠ none → E .wait)
    (unused : (s.icache ip).valid = false →
      (Store.dinode s.disk (s.icache ip).inum).type = 0 → E (.panic .ilockNoType))
    (post : (s.icache ip).lock = none → Q () (s.ilocked p ip)) :
    Within E (alone p (ilock ip)) s Q := by
  refine alone_step_bind.mpr ?_
  change Within E (alone p (if (s.icache ip).ref < 1 then _ else _)) s Q
  rw [if_neg (by omega)]
  refine alone_step_bind.mpr ?_
  change Within E (State.acquiresleep p ip) s _
  cases lock : (s.icache ip).lock with
  | some q =>
    refine (within_error (e := .wait) ?_).mpr (waits (by rw [lock]; simp))
    rw [State.acquiresleep, lock]
  | none =>
    have taken : State.acquiresleep p ip s =
        .ok ((), s.setEntry ip { s.icache ip with lock := some p }) := by
      rw [State.acquiresleep, lock]
    refine (within_ok taken).mpr (alone_step.mpr ?_)
    have post := post lock
    unfold State.ilocked at post
    cases valid : (s.icache ip).valid with
    | true =>
      rw [valid, if_pos rfl] at post
      refine (within_ok (?_ : State.load ip _ = .ok ((), _))).mpr post
      rw [State.load, State.setEntry_icache_self, if_pos valid]
      dsimp only
      rw [valid]
    | false =>
      rw [valid, if_neg (by simp)] at post
      by_cases zero : (Store.dinode s.disk (s.icache ip).inum).type = 0
      · refine (within_error (?_ : State.load ip _ = .error (.panic .ilockNoType))).mpr
          (unused valid zero)
        rw [State.load, State.setEntry_icache_self, if_neg (by simp [valid]),
          State.setEntry_disk, if_pos zero]
      · refine (within_ok (?_ : State.load ip _ = .ok ((), _))).mpr post
        rw [State.load, State.setEntry_icache_self, if_neg (by simp [valid]),
          State.setEntry_disk, if_neg zero]
        simp [State.setEntry]

theorem alone_iunlock {Q : Unit → State P D A → Prop} (lock : (s.icache ip).lock = some p)
    (held : 1 ≤ (s.icache ip).ref) (post : Q () (s.iunlocked ip)) :
    Within E (State.exec p (.iunlock ip)) s Q := by
  change Within E (State.iunlock p ip) s Q
  unfold Within State.iunlock
  rw [if_neg (by simp [lock]; omega)]
  exact post

/-! ## Locked inodes -/

omit [DecidableEq P] [Store D A] in
theorem within_onInode {g : Bool → Nat → Dinode A → Prog Panic D (α × Dinode A)}
    {F : Panic → Prop} {R : α × Dinode A → D → Prop}
    (law : Within F (g s.trans (s.icache ip).inum (s.icache ip).ino) s.disk R)
    (quit : ∀ why, F why → E (.panic why)) (post : ∀ a ino disk, R (a, ino) disk →
      Q a ({ s with disk := disk }.setEntry ip { s.icache ip with ino := ino })) :
    Within E (State.onInode ip g) s Q := by
  unfold Within at law
  cases eq : g s.trans (s.icache ip).inum (s.icache ip).ino s.disk with
  | error why =>
    rw [eq] at law
    refine (within_error (e := .panic why) ?_).mpr (quit why law)
    rw [State.onInode, eq]
  | ok x =>
    rw [eq] at law
    refine (within_ok ?_).mpr (post x.1.1 x.1.2 x.2 law)
    rw [State.onInode, eq]

end

end Xv6.Fs
