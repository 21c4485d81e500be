import Xv6.Sched.Sleep

/-!
# No lost wake-up

A `Monitor` is a condition on the shared data, the spin lock under which it changes and the
channel on which processes wait for it.  `Section` is the history of the section that holds the
lock: whether it made the condition true, and whether it called `wakeup` on the channel.

`Keeps` is what the code promises at each instruction:

* the condition changes only under the lock;
* a process goes to sleep on the channel with the lock, and with the condition false;
* the lock is not given up with the condition made true and no `wakeup` called.
-/

namespace Xv6.Sleep

open Function

open Sched (Slot ProcState)

variable {L C K D : Type} [DecidableEq L] [DecidableEq C]

structure Monitor (L C D : Type) where
  lock : L
  chan : C
  cond : D → Bool

structure Section where
  changed : Bool
  told : Bool
  deriving DecidableEq, Repr

def Section.fresh : Section := ⟨false, false⟩

namespace Monitor

variable (M : Monitor L C D)

/-- If the section made the condition true, it has called `wakeup`. -/
def Settled (d : D) (o : Section) : Prop :=
  M.cond d = true → o.changed = true → o.told = true

def Keeps (s : State L C K D) (o : Section) (p : Slot) : Instr L C K D → Prop
  | .release l _ => l = M.lock → M.Settled s.data o
  | .sleep c l _ => (l = M.lock → M.Settled s.data o) ∧
      (c = M.chan → l = M.lock ∧ s.lock M.lock = some p ∧ M.cond s.data = false)
  | .act f => M.cond (f s.data (s.killed p)).1 ≠ M.cond s.data → s.lock M.lock = some p
  | _ => True

def note (s : State L C K D) (o : Section) (p : Slot) : Instr L C K D → Section
  | .acquire l _ => if l = M.lock then .fresh else o
  | .act f =>
    if M.cond s.data = false ∧ M.cond (f s.data (s.killed p)).1 = true then
      { o with changed := true }
    else o
  | _ => o

def observe (prog : Program L C K D) (s : State L C K D) (o : Section) : Act K → Section
  | .run p =>
    match s.point p with
    | .code k => M.note s o p (prog p k)
    | .sleep .relock _ l _ => if l = M.lock then .fresh else o
    | .wakeup (.scan i) c _ =>
      if ¬ i < nproc ∧ c = M.chan ∧ s.lock M.lock = some p then { o with told := true } else o
    | _ => o
  | _ => o

/-- The processes running `prog`, as long as they keep their promises. -/
def observed (prog : Program L C K D) (d : D) (entry : K) :
    Lts (State L C K D × Section) (Act K) where
  init x := x = (State.start d entry, .fresh)
  step x a y := step prog x.1 a = some y.1 ∧ y.2 = M.observe prog x.1 x.2 a ∧
    ∀ p k, a = .run p → x.1.point p = .code k → M.Keeps x.1 x.2 p (prog p k)

/-! ## The invariant -/

def Safe (s : State L C K D) (o : Section) : Prop :=
  (s.lock M.lock = none → M.cond s.data = false) ∧
    (s.lock M.lock ≠ none → o.told = false ∧ (M.cond s.data = true → o.changed = true))

/-- Process `p` has called `sleep(c, l)` and still holds `l`. -/
def Entering (s : State L C K D) (o : Section) (p : Slot) (c : C) (l : L) : Prop :=
  (l = M.lock → s.lock M.lock = some p → M.Settled s.data o) ∧
    (c = M.chan → l = M.lock ∧ s.lock M.lock = some p ∧ M.cond s.data = false)

def Local (s : State L C K D) (o : Section) (p : Slot) : Prop :=
  match s.point p with
  | .code _ => s.state p ≠ .sleeping
  | .sleep .acquire c l _ => s.state p ≠ .sleeping ∧ M.Entering s o p c l
  | .sleep .release c l _ =>
    s.state p ≠ .sleeping ∧ M.Entering s o p c l ∧ s.ptable = some (.proc p)
  | .sleep .chan c _ _ =>
    s.state p ≠ .sleeping ∧ s.ptable = some (.proc p) ∧ (c = M.chan → M.Safe s o)
  | .sleep .state c _ _ =>
    s.state p ≠ .sleeping ∧ s.ptable = some (.proc p) ∧ (c = M.chan → M.Safe s o) ∧
      s.chan p = some c
  | .sleep .sched c _ _ =>
    s.ptable = some (.proc p) ∧ (c = M.chan → M.Safe s o) ∧ s.chan p = some c
  | .sleep .parked c _ _ =>
    (s.state p = .sleeping → c = M.chan → M.Safe s o) ∧ s.chan p = some c
  | .sleep .clear _ _ _ => s.state p ≠ .sleeping ∧ s.ptable = some (.proc p)
  | .sleep .unlock _ _ _ => s.state p ≠ .sleeping ∧ s.ptable = some (.proc p)
  | .sleep .relock _ _ _ => s.state p ≠ .sleeping
  | .wakeup .acquire _ _ => s.state p ≠ .sleeping
  | .wakeup (.scan i) c _ =>
    s.state p ≠ .sleeping ∧ s.ptable = some (.proc p) ∧
      (c = M.chan → ∀ q : Slot, q.val < i → ¬ s.Asleep q M.chan)
  | .kill .acquire _ _ => s.state p ≠ .sleeping
  | .kill _ _ _ => s.state p ≠ .sleeping ∧ s.ptable = some (.proc p)

/-- What a step of another process may do, as seen from process `q`. -/
structure Frame (s : State L C K D) (o : Section) (t : State L C K D) (o' : Section) (q : Slot) :
    Prop where
  point : t.point q = s.point q
  chan : t.chan q = s.chan q
  state : t.state q = s.state q ∨ s.state q = .sleeping ∧ t.state q = .runnable
  ptable : s.ptable = some (.proc q) → t.ptable = some (.proc q)
  lock : t.lock M.lock = some q ↔ s.lock M.lock = some q
  cond : s.lock M.lock = some q → M.cond t.data = M.cond s.data ∧ o' = o
  safe : M.Safe s o → M.Safe t o' ∨ s.ptable ≠ some (.proc q) ∧ ¬ s.Asleep q M.chan
  calm : s.ptable = some (.proc q) → ∀ r, t.Asleep r M.chan → s.Asleep r M.chan

section Frame

variable {M} {s t : State L C K D} {o o' : Section} {p q : Slot}

omit [DecidableEq L] [DecidableEq C]

theorem Frame.awake (frame : M.Frame s o t o' q) (awake : s.state q ≠ .sleeping) :
    t.state q ≠ .sleeping := by
  rcases frame.state with eq | ⟨asleep, _⟩
  · rwa [eq]
  · exact absurd asleep awake

theorem Frame.entering (frame : M.Frame s o t o' q) {c : C} {l : L}
    (entering : M.Entering s o q c l) : M.Entering t o' q c l := by
  refine ⟨fun eq held => ?_, fun eq => ?_⟩
  · have mine := frame.lock.mp held
    obtain ⟨cond, rfl⟩ := frame.cond mine
    unfold Settled
    rw [cond]
    exact entering.1 eq mine
  · obtain ⟨lock, mine, cond⟩ := entering.2 eq
    exact ⟨lock, frame.lock.mpr mine, (frame.cond mine).1.trans cond⟩

/-- A process that holds `ptable.lock` on its way to sleep may still sleep. -/
theorem Frame.safe_of_ptable (frame : M.Frame s o t o' q) (pt : s.ptable = some (.proc q))
    (safe : M.Safe s o) : M.Safe t o' :=
  (frame.safe safe).resolve_right fun not => not.1 pt

theorem Local.frame (frame : M.Frame s o t o' q) (loc : M.Local s o q) : M.Local t o' q := by
  unfold Local at loc ⊢
  rw [frame.point]
  split at loc
  · exact frame.awake loc
  · exact ⟨frame.awake loc.1, frame.entering loc.2⟩
  · exact ⟨frame.awake loc.1, frame.entering loc.2.1, frame.ptable loc.2.2⟩
  · exact ⟨frame.awake loc.1, frame.ptable loc.2.1,
      fun eq => frame.safe_of_ptable loc.2.1 (loc.2.2 eq)⟩
  · exact ⟨frame.awake loc.1, frame.ptable loc.2.1,
      fun eq => frame.safe_of_ptable loc.2.1 (loc.2.2.1 eq), frame.chan.trans loc.2.2.2⟩
  · exact ⟨frame.ptable loc.1, fun eq => frame.safe_of_ptable loc.1 (loc.2.1 eq),
      frame.chan.trans loc.2.2⟩
  · refine ⟨fun asleep eq => ?_, frame.chan.trans loc.2⟩
    have before : s.state q = .sleeping := by
      by_contra awake
      exact frame.awake awake asleep
    exact (frame.safe (loc.1 before eq)).resolve_right fun not => not.2 ⟨before, eq ▸ loc.2⟩
  · exact ⟨frame.awake loc.1, frame.ptable loc.2⟩
  · exact ⟨frame.awake loc.1, frame.ptable loc.2⟩
  · exact frame.awake loc
  · exact frame.awake loc
  · exact ⟨frame.awake loc.1, frame.ptable loc.2.1,
      fun eq r lt asleep => loc.2.2 eq r lt (frame.calm loc.2.1 r asleep)⟩
  · exact frame.awake loc
  · exact ⟨frame.awake loc.1, frame.ptable loc.2⟩

theorem Frame.apart (point : t.point q = s.point q) (chan : t.chan q = s.chan q)
    (state : t.state q = s.state q ∨ s.state q = .sleeping ∧ t.state q = .runnable)
    (lock : t.lock = s.lock) (data : t.data = s.data)
    (ptable : s.ptable = some (.proc q) → t.ptable = some (.proc q) ∧
      ∀ r, t.Asleep r M.chan → s.Asleep r M.chan) : M.Frame s o t o q where
  point := point
  chan := chan
  state := state
  ptable pt := (ptable pt).1
  lock := by rw [lock]
  cond _ := ⟨by rw [data], rfl⟩
  safe safe := by
    left
    unfold Safe
    rw [lock, data]
    exact safe
  calm pt := (ptable pt).2

end Frame

/-! ## One step -/

section Step

variable {M} {prog : Program L C K D} {s t : State L C K D} {o : Section} {p q : Slot}

/-- Only the lock, the data and the point of `p` differ. -/
structure Inside (s t : State L C K D) (p : Slot) : Prop where
  state : t.state = s.state
  chan : t.chan = s.chan
  ptable : t.ptable = s.ptable
  point : ∀ q, q ≠ p → t.point q = s.point q

omit [DecidableEq L] [DecidableEq C] in
theorem Inside.frame (inside : Inside s t p) (ne : q ≠ p) {o' : Section}
    (lock : t.lock M.lock = some q ↔ s.lock M.lock = some q)
    (cond : s.lock M.lock = some q → M.cond t.data = M.cond s.data ∧ o' = o)
    (safe : M.Safe s o → M.Safe t o') : M.Frame s o t o' q where
  point := inside.point q ne
  chan := by rw [inside.chan]
  state := .inl (by rw [inside.state])
  ptable pt := by rw [inside.ptable, pt]
  lock := lock
  cond := cond
  safe h := .inl (safe h)
  calm _ r asleep := by rwa [State.Asleep, inside.state, inside.chan] at asleep

variable {l : L}

omit [DecidableEq C] in
theorem Frame.acquire (inside : Inside s t p) (ne : q ≠ p) (data : t.data = s.data)
    (free : s.lock l = none) (lock : t.lock = update s.lock l (some p)) :
    M.Frame s o t (if l = M.lock then .fresh else o) q := by
  by_cases eq : l = M.lock
  · subst eq
    refine inside.frame ne ?_ (fun held => ?_) fun safe => ?_
    · simp [lock, free, ne.symm]
    · simp [free] at held
    · have calm := safe.1 free
      refine ⟨fun none => ?_, fun _ => ⟨by simp [Section.fresh], fun holds => ?_⟩⟩
      · simp [lock] at none
      · rw [data, calm] at holds
        cases holds
  · have same : t.lock M.lock = s.lock M.lock := by simp [lock, Ne.symm eq]
    rw [if_neg eq]
    refine inside.frame ne (by rw [same]) (fun _ => ⟨by rw [data], rfl⟩) fun safe => ?_
    unfold Safe
    rw [same, data]
    exact safe

omit [DecidableEq C] in
theorem Frame.release (inside : Inside s t p) (ne : q ≠ p) (data : t.data = s.data)
    (held : s.lock l = some p) (lock : t.lock = update s.lock l none)
    (settled : l = M.lock → M.Settled s.data o) : M.Frame s o t o q := by
  by_cases eq : l = M.lock
  · subst eq
    refine inside.frame ne ?_ (fun _ => ⟨by rw [data], rfl⟩) fun safe => ?_
    · simp [lock, held, ne.symm]
    · obtain ⟨told, changed⟩ := safe.2 (by simp [held])
      refine ⟨fun _ => ?_, fun some => ?_⟩
      · rw [data]
        by_contra holds
        have holds : M.cond s.data = true := by simpa using holds
        have := settled rfl holds (changed holds)
        simp [told] at this
      · simp [lock] at some
  · have same : t.lock M.lock = s.lock M.lock := by simp [lock, Ne.symm eq]
    refine inside.frame ne (by rw [same]) (fun _ => ⟨by rw [data], rfl⟩) fun safe => ?_
    unfold Safe
    rw [same, data]
    exact safe

omit [DecidableEq L] [DecidableEq C] in
theorem Frame.act (inside : Inside s t p) (ne : q ≠ p) (lock : t.lock = s.lock)
    (keeps : M.cond t.data ≠ M.cond s.data → s.lock M.lock = some p) :
    M.Frame s o t (if M.cond s.data = false ∧ M.cond t.data = true then
      { o with changed := true } else o) q := by
  by_cases same : M.cond t.data = M.cond s.data
  · have stays : ¬ (M.cond s.data = false ∧ M.cond t.data = true) := by
      rw [same]
      simp
    rw [if_neg stays]
    refine inside.frame ne (by rw [lock]) (fun _ => ⟨same, rfl⟩) fun safe => ?_
    unfold Safe
    rw [lock, same]
    exact safe
  · have held := keeps same
    refine inside.frame ne (by rw [lock]) (fun other => ?_) fun safe => ?_
    · simp [held, ne.symm] at other
    · obtain ⟨told, changed⟩ := safe.2 (by simp [held])
      refine ⟨fun none => by simp [lock, held] at none, fun _ => ?_⟩
      split
      · exact ⟨told, fun _ => rfl⟩
      · rename_i stays
        refine ⟨told, fun holds => absurd ⟨?_, holds⟩ stays⟩
        by_contra before
        exact same (by simp [holds, before])

omit [DecidableEq L] [DecidableEq C] in
theorem Local.all {o' : Section} (loc : ∀ q, M.Local s o q) (own : M.Local t o' p)
    (frame : ∀ q, q ≠ p → M.Frame s o t o' q) (q : Slot) : M.Local t o' q := by
  rcases eq_or_ne q p with rfl | ne
  · exact own
  · exact (loc q).frame (frame q ne)

omit [DecidableEq L] [DecidableEq C] in
theorem Frame.move {x : Point L C K} (ne : q ≠ p) (point : t.point = update s.point p x)
    (lock : t.lock = s.lock) (data : t.data = s.data)
    (state : ∀ r, r ≠ p → t.state r = s.state r) (chan : ∀ r, r ≠ p → t.chan r = s.chan r)
    (pt : s.ptable = some (.proc q) →
      t.ptable = some (.proc q) ∧ t.state p = s.state p ∧ t.chan p = s.chan p) :
    M.Frame s o t o q := by
  refine .apart ?_ (chan q ne) (.inl (state q ne)) lock data fun held => ?_
  · simp [point, ne]
  · obtain ⟨held', state', chan'⟩ := pt held
    refine ⟨held', fun r asleep => ?_⟩
    rcases eq_or_ne r p with rfl | ne'
    · rwa [State.Asleep, state', chan'] at asleep
    · rwa [State.Asleep, state r ne', chan r ne'] at asleep

omit [DecidableEq L] [DecidableEq C] in
/-- A step that only moves `p` on. -/
theorem Local.goto {x : Point L C K} (loc : ∀ q, M.Local s o q) (own : M.Local (s.goto p x) o p)
    (q : Slot) : M.Local (s.goto p x) o q :=
  Local.all loc own (fun _ ne => .move ne rfl rfl rfl (fun _ _ => rfl) (fun _ _ => rfl) fun pt =>
    ⟨pt, rfl, rfl⟩) q

variable {k : K}

omit [DecidableEq C] in
theorem Local.instr {i : Instr L C K D} (loc : ∀ q, M.Local s o q) (here : s.point p = .code k)
    (keeps : M.Keeps s o p i) (step : instr s p i = some t) (q : Slot) :
    M.Local t (M.note s o p i) q := by
  have awake : s.state p ≠ .sleeping := by simpa [Local, here] using loc p
  have others : ∀ x, ∀ r, r ≠ p → update s.point p x r = s.point r := by
    intro x r ne
    simp [ne]
  cases i with
  | acquire l k' =>
    simp only [Sleep.instr] at step
    split at step
    · rename_i free
      cases step
      refine Local.all (p := p) loc (by simpa [Local, State.goto] using awake) (fun q ne => ?_) q
      exact .acquire (s := s) ⟨rfl, rfl, rfl, others _⟩ ne rfl free rfl
    · cases step
  | release l k' =>
    simp only [Sleep.instr] at step
    split at step
    · rename_i held
      cases step
      refine Local.all (p := p) loc (by simpa [Local, State.goto] using awake) (fun q ne => ?_) q
      exact .release (s := s) ⟨rfl, rfl, rfl, others _⟩ ne rfl held rfl keeps
    · cases step
  | sleep c l k' =>
    cases step
    refine .goto loc ?_ q
    simp only [Local, State.goto, update_self]
    exact ⟨awake, fun eq _ => keeps.1 eq, keeps.2⟩
  | wakeup c k' =>
    cases step
    exact .goto loc (by simpa [Local, State.goto] using awake) q
  | kill r k' =>
    cases step
    exact .goto loc (by simpa [Local, State.goto] using awake) q
  | act f =>
    cases step
    refine Local.all (p := p) loc (by simpa [Local, State.goto] using awake) (fun q ne => ?_) q
    exact .act (s := s) ⟨rfl, rfl, rfl, others _⟩ ne rfl keeps
  | pick ok => cases step

omit [DecidableEq C] in
theorem Local.sleep {pc : SleepPc} {c : C} (loc : ∀ q, M.Local s o q)
    (here : s.point p = .sleep pc c l k) (step : sleep s p c l k pc = some t) (q : Slot) :
    M.Local t (if pc = .relock ∧ l = M.lock then .fresh else o) q := by
  have own := loc p
  simp only [Local, here] at own
  have others : ∀ x, ∀ r, r ≠ p → update s.point p x r = s.point r := by
    intro x r ne
    simp [ne]
  cases pc with
  | acquire =>
    simp only [Sleep.sleep] at step
    split at step
    · rename_i free
      cases step
      refine Local.all (p := p) loc ?_ (fun q ne => ?_) q
      · simp only [Local, State.goto, update_self]
        exact ⟨own.1, own.2, trivial⟩
      · exact .move (s := s) ne rfl rfl rfl (fun _ _ => rfl)
          (fun _ _ => rfl) fun pt => by simp [free] at pt
    · cases step
  | release =>
    simp only [Sleep.sleep] at step
    split at step
    · rename_i held
      cases step
      refine Local.all (p := p) loc ?_ (fun q ne => ?_) q
      · simp only [Local, State.goto, update_self]
        refine ⟨own.1, own.2.2, fun eq => ?_⟩
        obtain ⟨rfl, mine, calm⟩ := own.2.1.2 eq
        exact ⟨fun _ => calm, fun some => by simp at some⟩
      · refine .release (s := s) ⟨rfl, rfl, rfl, others _⟩ ne rfl held rfl fun eq => ?_
        exact own.2.1.1 eq (eq ▸ held)
    · cases step
  | chan =>
    cases step
    refine Local.all (p := p) loc ?_ (fun q ne => ?_) q
    · simp only [Local, State.goto, update_self]
      exact ⟨own.1, own.2.1, own.2.2, trivial⟩
    · refine .move (s := s) ne rfl rfl rfl (fun _ _ => rfl) (fun r ne => by simp [ne]) fun pt => ?_
      simp [own.2.1, ne.symm] at pt
  | state =>
    cases step
    refine Local.all (p := p) loc ?_ (fun q ne => ?_) q
    · simp only [Local, State.goto, update_self]
      exact ⟨own.2.1, own.2.2.1, own.2.2.2⟩
    · refine .move (s := s) ne rfl rfl rfl (fun r ne => by simp [ne]) (fun _ _ => rfl) fun pt => ?_
      simp [own.2.1, ne.symm] at pt
  | sched =>
    cases step
    refine Local.all (p := p) loc ?_ (fun q ne => ?_) q
    · simp only [Local, State.goto, update_self]
      exact ⟨fun _ => own.2.1, own.2.2⟩
    · refine .move (s := s) ne rfl rfl rfl (fun _ _ => rfl) (fun _ _ => rfl) fun pt => ?_
      simp [own.1, ne.symm] at pt
  | parked => cases step
  | clear =>
    cases step
    refine Local.all (p := p) loc ?_ (fun q ne => ?_) q
    · simp only [Local, State.goto, update_self]
      exact own
    · refine .move (s := s) ne rfl rfl rfl (fun _ _ => rfl) (fun r ne => by simp [ne]) fun pt => ?_
      simp [own.2, ne.symm] at pt
  | unlock =>
    cases step
    refine Local.all (p := p) loc ?_ (fun q ne => ?_) q
    · simp only [Local, State.goto, update_self]
      exact own.1
    · refine .move (s := s) ne rfl rfl rfl (fun _ _ => rfl) (fun _ _ => rfl) fun pt => ?_
      simp [own.2, ne.symm] at pt
  | relock =>
    simp only [Sleep.sleep] at step
    split at step
    · rename_i free
      cases step
      simp only [true_and]
      refine Local.all (p := p) loc (by simpa [Local, State.goto] using own) (fun q ne => ?_) q
      exact .acquire (s := s) ⟨rfl, rfl, rfl, others _⟩ ne rfl free rfl
    · cases step

omit [DecidableEq L] [DecidableEq C] in
theorem Frame.wake {x : Point L C K} {r : Slot} (ne : q ≠ p)
    (held : s.ptable = some (.proc p)) (asleep : s.state r = .sleeping) :
    M.Frame s o { s.goto p x with state := update s.state r .runnable } o q := by
  refine .apart ?_ rfl ?_ rfl rfl fun pt => ?_
  · simp [State.goto, ne]
  · rcases eq_or_ne q r with rfl | ne'
    · exact .inr ⟨asleep, by simp⟩
    · exact .inl (by simp [ne'])
  · simp [held, ne.symm] at pt

theorem Local.wakeup {pc : WakePc} {c : C} (loc : ∀ q, M.Local s o q)
    (here : s.point p = .wakeup pc c k) (step : wakeup s p c k pc = some t) (q : Slot) :
    M.Local t (M.observe prog s o (.run p)) q := by
  have own := loc p
  simp only [Local, here] at own
  cases pc with
  | acquire =>
    simp only [observe, here]
    simp only [Sleep.wakeup] at step
    split at step
    · rename_i free
      cases step
      refine Local.all (p := p) loc ?_ (fun q ne => ?_) q
      · simp only [Local, State.goto, update_self]
        exact ⟨own, trivial, fun _ q lt => absurd lt (Nat.not_lt_zero _)⟩
      · exact .move (s := s) ne rfl rfl rfl (fun _ _ => rfl)
          (fun _ _ => rfl) fun pt => by simp [free] at pt
    · cases step
  | scan i =>
    obtain ⟨awake, held, scanned⟩ := own
    simp only [observe, here]
    simp only [Sleep.wakeup] at step
    split at step
    · rename_i lt
      simp only [lt, not_true_eq_false, false_and, if_false]
      split at step
      · rename_i asleep
        cases step
        have other : p ≠ ⟨i, lt⟩ := fun eq => awake (eq ▸ asleep.1)
        refine Local.all (p := p) loc ?_ (fun q ne => .wake ne held asleep.1) q
        simp only [Local, State.goto, update_self]
        refine ⟨by simpa [other] using awake, held, fun eq r le rests => ?_⟩
        rcases eq_or_ne r ⟨i, lt⟩ with rfl | ne
        · simp [State.Asleep] at rests
        · have before : r.val < i := by
            have := Fin.val_ne_of_ne ne
            dsimp only at this
            omega
          exact scanned eq r before (by simpa [State.Asleep, ne] using rests)
      · rename_i stays
        cases step
        refine .goto loc ?_ q
        simp only [Local, State.goto, update_self]
        refine ⟨awake, held, fun eq r le rests => ?_⟩
        rcases eq_or_ne r ⟨i, lt⟩ with rfl | ne
        · exact stays (eq ▸ rests)
        · have before : r.val < i := by
            have := Fin.val_ne_of_ne ne
            dsimp only at this
            omega
          exact scanned eq r before rests
    · rename_i finished
      cases step
      refine Local.all (p := p) loc (by simpa [Local, State.goto] using awake) (fun q ne => ?_) q
      have elsewhere : s.ptable ≠ some (.proc q) := by simp [held, ne.symm]
      split
      · rename_i tells
        refine ⟨by simp [State.goto, ne], rfl, .inl rfl, fun pt => absurd pt elsewhere, Iff.rfl,
          fun mine => ?_,
          fun _ => .inr ⟨elsewhere, scanned tells.2.1 q (by omega)⟩, fun pt => absurd pt elsewhere⟩
        simp [tells.2.2, ne.symm] at mine
      · exact .move (s := s) ne rfl rfl rfl (fun _ _ => rfl)
          (fun _ _ => rfl) fun pt => absurd pt elsewhere

omit [DecidableEq L] [DecidableEq C] in
theorem Local.kill {pc : KillPc} {r : Slot} (loc : ∀ q, M.Local s o q)
    (here : s.point p = .kill pc r k) (step : kill s p r k pc = some t) (q : Slot) :
    M.Local t o q := by
  have own := loc p
  simp only [Local, here] at own
  cases pc with
  | acquire =>
    simp only [Sleep.kill] at step
    split at step
    · rename_i free
      cases step
      refine Local.all (p := p) loc ?_ (fun q ne => ?_) q
      · simp only [Local, State.goto, update_self]
        exact ⟨own, trivial⟩
      · exact .move (s := s) ne rfl rfl rfl (fun _ _ => rfl)
          (fun _ _ => rfl) fun pt => by simp [free] at pt
    · cases step
  | mark =>
    cases step
    refine Local.all (p := p) loc ?_ (fun q ne => ?_) q
    · simp only [Local, State.goto, update_self]
      exact own
    · exact .move (s := s) ne rfl rfl rfl (fun _ _ => rfl) (fun _ _ => rfl) fun pt => ⟨pt, rfl, rfl⟩
  | wake =>
    simp only [Sleep.kill] at step
    split at step
    · rename_i asleep
      cases step
      have other : p ≠ r := fun eq => own.1 (eq ▸ asleep)
      refine Local.all (p := p) loc ?_ (fun q ne => .wake ne own.2 asleep) q
      simp only [Local, State.goto, update_self]
      exact ⟨by simpa [other] using own.1, own.2⟩
    · cases step
      refine .goto loc ?_ q
      simp only [Local, State.goto, update_self]
      exact own
  | release =>
    cases step
    refine Local.all (p := p) loc ?_ (fun q ne => ?_) q
    · simp only [Local, State.goto, update_self]
      exact own.1
    · refine .move (s := s) ne rfl rfl rfl (fun _ _ => rfl) (fun _ _ => rfl) fun pt => ?_
      simp [own.2, ne.symm] at pt

theorem Local.step {a : Act K} (loc : ∀ q, M.Local s o q) (step : step prog s a = some t)
    (keeps : ∀ p k, a = .run p → s.point p = .code k → M.Keeps s o p (prog p k)) (q : Slot) :
    M.Local t (M.observe prog s o a) q := by
  cases a with
  | run p =>
    simp only [Sleep.step, run] at step
    cases here : s.point p with
    | code k =>
      rw [here] at step
      simp only [observe, here]
      exact Local.instr loc here (keeps p k rfl here) step q
    | sleep pc c l k =>
      rw [here] at step
      have := Local.sleep loc here step q
      cases pc <;> simpa [observe, here] using this
    | wakeup pc c k =>
      rw [here] at step
      exact Local.wakeup loc here step q
    | kill pc r k =>
      rw [here] at step
      simp only [observe, here]
      exact Local.kill loc here step q
  | pick p k =>
    simp only [Sleep.step, pick] at step
    split at step
    · rename_i k₀ here
      split at step
      · split at step
        · cases step
          have own := loc p
          simp only [Local, here] at own
          exact .goto loc (by simpa [Local, State.goto] using own) q
        · cases step
      · cases step
    · cases step
  | schedule =>
    simp only [Sleep.step] at step
    split at step
    · rename_i free
      cases step
      refine (loc q).frame (.apart (s := s) rfl rfl (.inl rfl) rfl rfl fun pt => ?_)
      simp [free] at pt
    · cases step
  | dispatch p =>
    simp only [Sleep.step, dispatch] at step
    split at step
    · rename_i c l k here
      split at step
      · rename_i ready
        cases step
        refine Local.all (p := p) loc (by simp [Local, State.goto]) (fun q ne => ?_) q
        refine .move (s := s) ne rfl rfl rfl (fun r ne => by simp [ne])
          (fun _ _ => rfl) fun pt => ?_
        simp [ready.1] at pt
      · cases step
    · cases step
  | unschedule =>
    simp only [Sleep.step] at step
    split at step
    · rename_i held
      cases step
      refine (loc q).frame (.apart (s := s) rfl rfl (.inl rfl) rfl rfl fun pt => ?_)
      simp [held] at pt
    · cases step

end Step

variable {M}

theorem local_of_observed {prog : Program L C K D} {d : D} {entry : K}
    {x : State L C K D × Section} (reach : (M.observed prog d entry).Reachable x) (q : Slot) :
    M.Local x.1 x.2 q := by
  refine reach.invariant (P := fun x => ∀ q, M.Local x.1 x.2 q) (fun x start q => ?_)
    (fun x a y _ loc step => ?_) q
  · cases start
    simp [Local, State.start]
  · obtain ⟨step, seen, keeps⟩ := step
    rw [seen]
    exact Local.step loc step keeps

section Asleep

variable {s : State L C K D} {o : Section} {p : Slot}

omit [DecidableEq L] [DecidableEq C]

theorem Local.asleep (loc : M.Local s o p) (asleep : s.Asleep p M.chan) :
    ∃ pc l k, s.point p = .sleep pc M.chan l k := by
  obtain ⟨state, chan⟩ := asleep
  unfold Local at loc
  split at loc
  case h_6 c l k here =>
    have eq : c = M.chan := Option.some.inj (loc.2.2.symm.trans chan)
    exact ⟨_, l, k, eq ▸ here⟩
  case h_7 c l k here =>
    have eq : c = M.chan := Option.some.inj (loc.2.symm.trans chan)
    exact ⟨_, l, k, eq ▸ here⟩
  all_goals first | exact absurd state loc | exact absurd state loc.1

theorem Local.safe (loc : M.Local s o p) (asleep : s.Asleep p M.chan) : M.Safe s o := by
  obtain ⟨pc, l, k, here⟩ := loc.asleep asleep
  unfold Local at loc
  rw [here] at loc
  cases pc with
  | sched => exact loc.2.1 rfl
  | parked => exact loc.1 asleep.1 rfl
  | _ => first | exact absurd asleep.1 loc | exact absurd asleep.1 loc.1

end Asleep

/-- A process that sleeps while the condition holds waits for the `wakeup` of the section that
made it so. -/
theorem asleep_of_observed {prog : Program L C K D} {d : D} {entry : K}
    {x : State L C K D × Section} (reach : (M.observed prog d entry).Reachable x) {p : Slot}
    (asleep : x.1.Asleep p M.chan) (holds : M.cond x.1.data = true) :
    x.1.lock M.lock ≠ none ∧ x.2.changed = true ∧ x.2.told = false := by
  have safe := (local_of_observed reach p).safe asleep
  have held : x.1.lock M.lock ≠ none := by
    intro free
    simp [safe.1 free] at holds
  exact ⟨held, (safe.2 held).2 holds, (safe.2 held).1⟩

end Monitor

end Xv6.Sleep
