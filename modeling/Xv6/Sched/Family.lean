import Xv6.Sched.Locking

/-!
# Parents and children

Of a slot only its phase, its parent and its pid matter here.  Most steps change none of them;
`Family` is what the six that do keep: every process but init has a parent that is alive.

The slot that a `fork` fills in gets its parent without the lock.  `At` is where a process stands
inside `fork`, on a CPU or preempted, and `Forks` what is known of the slot meanwhile.
-/

namespace Xv6.Sched

open Function

/-! ## Phases -/

inductive Phase
  | unused
  | embryo
  | alive
  | zombie
  deriving DecidableEq, Repr

def Proc.phase (x : Proc) : Phase :=
  match x.state with
  | .unused => .unused
  | .embryo => .embryo
  | .sleeping | .runnable | .running => .alive
  | .zombie => .zombie

structure Proc.Kin (x y : Proc) : Prop where
  phase : y.phase = x.phase
  parent : y.parent = x.parent
  pid : y.pid = x.pid

theorem Proc.Kin.refl (x : Proc) : x.Kin x := ⟨rfl, rfl, rfl⟩

theorem kin_set {t : Table} {p : Slot} {x : Proc} (kin : (t p).Kin x) (q : Slot) :
    (t q).Kin (t.set p x q) := Table.set_rel .refl kin q

theorem wakeup1_kin (t : Table) (chan : Option Chan) (q : Slot) : (t q).Kin (wakeup1 t chan q) :=
  wakeup1_rel .refl (fun _ asleep => ⟨by simp [Proc.phase, asleep], rfl, rfl⟩) t chan q

theorem kill_kin (t : Table) (pid : BitVec 32) (q : Slot) : (t q).Kin ((kill t pid).1 q) := by
  unfold kill
  split
  · rename_i r _
    apply kin_set
    refine ⟨?_, rfl, rfl⟩
    by_cases asleep : (t r).state = .sleeping
    · simp [Proc.phase, asleep]
    · simp [Proc.phase, asleep]
  · exact .refl _

/-! ## The loop of `exit` -/

/-- The parent after the children of `cur` were passed to init. -/
def passed (cur : Slot) (parent : Option Slot) : Option Slot :=
  if parent = some cur then some initproc else parent

theorem passive_phase : Passive fun x y => y.phase = x.phase ∧ y.pid = x.pid where
  refl _ := ⟨rfl, rfl⟩
  trans xy yz := ⟨yz.1.trans xy.1, yz.2.trans xy.2⟩
  wake x asleep := ⟨by simp [Proc.phase, asleep], rfl⟩
  pass _ := ⟨rfl, rfl⟩

theorem reparentSlot_parent (cur : Slot) (t : Table) (r q : Slot) :
    (reparentSlot cur t r q).parent = if q = r then passed cur (t q).parent else (t q).parent := by
  have store : ((t.set r { t r with parent := some initproc }) q).parent =
      if q = r then some initproc else (t q).parent := by
    by_cases eq : q = r
    · subst eq
      rw [Table.set_self, if_pos rfl]
    · rw [Table.set_ne t eq, if_neg eq]
  unfold reparentSlot
  split
  · rename_i child
    have result : (if q = r then some initproc else (t q).parent) =
        if q = r then passed cur (t q).parent else (t q).parent := by
      by_cases eq : q = r
      · subst eq
        rw [if_pos rfl, if_pos rfl, passed, if_pos child]
      · rw [if_neg eq, if_neg eq]
    dsimp only
    split
    · rw [(wakeup1_kin _ _ q).parent, store, result]
    · rw [store, result]
  · rename_i other
    by_cases eq : q = r
    · subst eq
      rw [if_pos rfl, passed, if_neg other]
    · rw [if_neg eq]

theorem passed_passed (cur : Slot) (parent : Option Slot) :
    passed cur (passed cur parent) = passed cur parent := by
  by_cases child : parent = some cur
  · simp [passed, child]
  · simp [passed, child]

theorem reparent_parent (t : Table) (cur q : Slot) :
    (reparent t cur q).parent = passed cur (t q).parent := by
  have loop : ∀ (slots : List Slot) (t : Table), (slots.foldl (reparentSlot cur) t q).parent =
      if q ∈ slots then passed cur (t q).parent else (t q).parent := by
    intro slots
    induction slots with
    | nil => exact fun t => rfl
    | cons r slots ih =>
      intro t
      rw [List.foldl_cons, ih, reparentSlot_parent]
      by_cases eq : q = r
      · subst eq
        rw [if_pos rfl, passed_passed, if_pos List.mem_cons_self]
        split <;> rfl
      · simp only [eq, if_false, List.mem_cons, false_or]
  rw [reparent, loop, if_pos (List.mem_finRange q)]

theorem exitTable_phase (t : Table) (p q : Slot) :
    (exitTable t p q).phase = (t q).phase ∧ (exitTable t p q).pid = (t q).pid := by
  obtain ⟨phase, pid⟩ := passive_phase.reparent (wakeup1 t ((t p).parent.map .proc)) p q
  have woken := wakeup1_kin t ((t p).parent.map .proc) q
  exact ⟨phase.trans woken.phase, pid.trans woken.pid⟩

theorem exitTable_parent (t : Table) (p q : Slot) :
    (exitTable t p q).parent = passed p (t q).parent := by
  rw [exitTable, reparent_parent, (wakeup1_kin _ _ q).parent]

/-! ## The family -/

/-- Init is alive, and every other process has a parent that is alive. -/
structure Family (t : Table) : Prop where
  root : (t initproc).phase = .alive
  orphan : (t initproc).parent = none
  unused : ∀ p, (t p).phase = .unused → (t p).parent = none
  other : ∀ p, (t p).parent ≠ some p
  parent : ∀ p, p ≠ initproc → (t p).phase = .alive ∨ (t p).phase = .zombie →
    ∃ r, (t p).parent = some r ∧ (t r).phase = .alive

namespace Family

variable {t u : Table} {p np : Slot}

theorem quiet (fam : Family t) (kin : ∀ q, (t q).Kin (u q)) : Family u where
  root := (kin _).phase.trans fam.root
  orphan := (kin _).parent.trans fam.orphan
  unused q phase := (kin q).parent.trans (fam.unused q ((kin q).phase ▸ phase))
  other q parent := fam.other q ((kin q).parent ▸ parent)
  parent q ne phase := by
    obtain ⟨r, parent, alive⟩ := fam.parent q ne ((kin q).phase ▸ phase)
    exact ⟨r, (kin q).parent.trans parent, (kin r).phase.trans alive⟩

theorem store {x : Proc} (fam : Family t) (not_init : np ≠ initproc) (phase : (t np).phase ≠ .alive)
    (unused : x.phase = .unused → x.parent = none) (other : x.parent ≠ some np)
    (parent : x.phase = .alive ∨ x.phase = .zombie →
      ∃ r, x.parent = some r ∧ (t r).phase = .alive) : Family (t.set np x) := by
  have same : ∀ r, (t r).phase = .alive → t.set np x r = t r := by
    intro r alive
    have ne : r ≠ np := fun eq => phase (eq ▸ alive)
    exact Table.set_ne t ne x
  have living : ∀ y : Proc, (∃ r, y.parent = some r ∧ (t r).phase = .alive) →
      ∃ r, y.parent = some r ∧ (t.set np x r).phase = .alive := by
    rintro y ⟨r, is, alive⟩
    exact ⟨r, is, by rwa [same r alive]⟩
  refine ⟨?_, ?_, ?_, ?_, fun q ne => ?_⟩
  · rw [Table.set_ne t not_init.symm]
    exact fam.root
  · rw [Table.set_ne t not_init.symm]
    exact fam.orphan
  · exact Table.forall_set (P := fun _ y => y.phase = .unused → y.parent = none) unused
      fun q _ => fam.unused q
  · exact Table.forall_set (P := fun q y => y.parent ≠ some q) other fun q _ => fam.other q
  · by_cases eq : q = np
    · rw [eq, Table.set_self]
      exact fun phase' => living x (parent phase')
    · rw [Table.set_ne t eq]
      exact fun phase' => living (t q) (fam.parent q ne phase')

theorem exit (fam : Family t) (not_init : p ≠ initproc) (alive : (t p).phase = .alive)
    (phase : ∀ q, (u q).phase = if q = p then .zombie else (t q).phase)
    (parent : ∀ q, (u q).parent = passed p (t q).parent) : Family u := by
  have init : (u initproc).phase = .alive := by
    rw [phase, if_neg not_init.symm]
    exact fam.root
  refine ⟨init, ?_, fun q unused => ?_, fun q self => ?_, fun q ne alive' => ?_⟩
  · rw [parent, fam.orphan, passed, if_neg (by simp)]
  · rw [phase] at unused
    split at unused
    · cases unused
    · rw [parent, fam.unused q unused, passed, if_neg (by simp)]
  · rw [parent, passed] at self
    split at self
    · rename_i child
      rw [← Option.some.inj self, fam.orphan] at child
      cases child
    · exact fam.other q self
  · have before : (t q).phase = .alive ∨ (t q).phase = .zombie := by
      rw [phase] at alive'
      split at alive'
      · rename_i eq
        exact .inl (eq ▸ alive)
      · exact alive'
    obtain ⟨r, is, living⟩ := fam.parent q ne before
    by_cases eq : r = p
    · exact ⟨initproc, by rw [parent, is, passed, if_pos (by rw [eq])], init⟩
    · refine ⟨r, ?_, ?_⟩
      · rw [parent, is, passed, if_neg (fun h => eq (Option.some.inj h))]
      · rw [phase, if_neg eq]
        exact living

end Family

/-! ## Inside `fork` -/

section Fork

variable {C : Type}

inductive At (s : State C) (p : Slot) (k : Kernel) : Prop
  | process {c : C} : (s.cpu c).proc = some p → (s.cpu c).thread = .process k → At s p k
  | resume {c : C} : (s.cpu c).proc = some p → (s.cpu c).thread = .resume (.yield k) → At s p k
  | away : (s.table p).context = .yield k →
      (s.table p).state = .runnable ∨ (s.table p).state = .sleeping → At s p k

structure Forks (s : State C) : Prop where
  allocated : ∀ p np, At s p (.allocated np) → (s.table np).parent = none
  copied : ∀ p np, At s p (.copied np) → (s.table np).parent = some p

variable {s t : State C} {p np : Slot} {k : Kernel}

theorem At.claim (here : At s p k) : ∃ h, claim s.cpu s.table h = k.forks ∧
    (h = .inr p ∨ ∃ c, h = .inl c ∧ (s.cpu c).runs = some p) := by
  cases here with
  | @process c proc thread =>
    refine ⟨.inl c, by simp [Sched.claim, thread, Thread.forks], .inr ⟨c, rfl, ?_⟩⟩
    simp [Cpu.runs, thread, proc]
  | @resume c proc thread =>
    refine ⟨.inl c, by simp [Sched.claim, thread, Thread.forks, Context.forks], .inr ⟨c, rfl, ?_⟩⟩
    simp [Cpu.runs, thread, proc]
  | away context state =>
    refine ⟨.inr p, ?_, .inl rfl⟩
    rcases state with state | state <;>
      simp [Sched.claim, Proc.forks, state, context, Context.forks]

theorem At.embryo (inv : Inv s) (here : At s p k) (forks : k.forks = some np) :
    (s.table np).state = .embryo := by
  obtain ⟨h, claimed, _⟩ := here.claim
  exact inv.forks.ok_of_claim h np (claimed.trans forks)

theorem At.place (here : At s p k) :
    (∃ c, (s.cpu c).runs = some p ∧
      ((s.cpu c).thread = .process k ∨ (s.cpu c).thread = .resume (.yield k))) ∨
    (s.table p).context = .yield k ∧ (s.table p).state ≠ .running := by
  cases here with
  | @process c proc thread => exact .inl ⟨c, by simp [Cpu.runs, thread, proc], .inl thread⟩
  | @resume c proc thread => exact .inl ⟨c, by simp [Cpu.runs, thread, proc], .inr thread⟩
  | away context state => exact .inr ⟨context, by rcases state with state | state <;> simp [state]⟩

theorem At.eq (inv : Inv s) {k' : Kernel} (here : At s p k) (there : At s p k') : k = k' := by
  rcases here.place with ⟨c, runs, thread⟩ | ⟨context, out⟩ <;>
    rcases there.place with ⟨d, runs', thread'⟩ | ⟨context', out'⟩
  · obtain rfl := inv.runs.unique c d p runs runs'
    rcases thread with thread | thread <;> rcases thread' with thread' | thread' <;>
      cases thread.symm.trans thread' <;> rfl
  · exact absurd (inv.runs.ok_of_claim c p runs) out'
  · exact absurd (inv.runs.ok_of_claim d p runs') out
  · cases context.symm.trans context'
    rfl

/-- Nobody comes to a point inside `fork`. -/
def Stays (s t : State C) : Prop := ∀ p k, k.forks ≠ none → At t p k → At s p k

inductive Affair (s t : State C) : Event → Prop
  | quiet : (∀ q, (s.table q).Kin (t.table q)) → t.nextpid = s.nextpid → Stays s t →
      Affair s t .quiet
  | exit {p : Slot} : p ≠ initproc → (s.table p).phase = .alive →
      (∀ k, k.forks ≠ none → ¬ At s p k) →
      (∀ q, (t.table q).phase = if q = p then .zombie else (s.table q).phase) →
      (∀ q, (t.table q).parent = passed p (s.table q).parent) →
      (∀ q, (t.table q).pid = (s.table q).pid) → t.nextpid = s.nextpid → Stays s t →
      Affair s t (.exit p)
  | reap {p q : Slot} {u : Table} {x : Proc} : (s.table q).phase = .zombie →
      (s.table q).parent = some p → (∀ r, (s.table r).Kin (u r)) → x.phase = .unused →
      x.parent = none → t.table = u.set q x → t.nextpid = s.nextpid → Stays s t →
      (∀ c, (s.cpu c).Holds → (s.cpu c).thread ≠ .scheduler) → Affair s t (.reap p q)
  | waitFail {p : Slot} : (∀ q, (s.table q).Kin (t.table q)) → t.nextpid = s.nextpid → Stays s t →
      havekids s.table p = false ∨ (s.table p).killed = true → Affair s t (.waitFail p)
  | allocate {p np : Slot} {x : Proc} : (s.table np).phase = .unused → x.phase = .embryo →
      x.parent = (s.table np).parent → x.pid = s.nextpid → t.table = s.table.set np x →
      t.nextpid = s.nextpid + 1 →
      (∀ p' k, k.forks ≠ none → At t p' k → At s p' k ∨ p' = p ∧ k = .allocated np) →
      Affair s t (.allocate p np)
  | forkDone {p np : Slot} {x : Proc} : At s p (.copied np) → (s.table p).phase = .alive →
      (s.table np).phase = .embryo → x.phase = .alive → x.parent = (s.table np).parent →
      x.pid = (s.table np).pid → t.table = s.table.set np x → t.nextpid = s.nextpid →
      Stays s t → Affair s t (.forkDone p np)
  | forkFail {p np : Slot} {x : Proc} : At s p (.allocated np) → (s.table np).phase = .embryo →
      x.phase = .unused → x.parent = (s.table np).parent → t.table = s.table.set np x →
      t.nextpid = s.nextpid → Stays s t → Affair s t (.forkFail p np)
  | forkCopy {p np : Slot} {x : Proc} : At s p (.allocated np) → (s.table p).phase = .alive →
      (s.table np).phase = .embryo → x.phase = .embryo → x.parent = some p →
      x.pid = (s.table np).pid → t.table = s.table.set np x → t.nextpid = s.nextpid →
      (∀ p' k, k.forks ≠ none → At t p' k →
        At s p' k ∧ k.forks ≠ some np ∨ p' = p ∧ k = .copied np) → Affair s t (.forkCopy p np)

variable {x : Cpu} {u : Table}

theorem At.of_setCpu [DecidableEq C] {c : C} (cpu : t.cpu = update s.cpu c x)
    (table : t.table = u) (here : At t p k)
    (moved : x.proc = some p → x.thread = .process k ∨ x.thread = .resume (.yield k) → At s p k)
    (away : (u p).context = .yield k → (u p).state = .runnable ∨ (u p).state = .sleeping →
      At s p k) : At s p k := by
  subst table
  cases here with
  | @process d proc thread =>
    rw [cpu] at proc thread
    by_cases eq : d = c
    · subst eq
      rw [update_self] at proc thread
      exact moved proc (.inl thread)
    · rw [update_of_ne eq] at proc thread
      exact .process proc thread
  | @resume d proc thread =>
    rw [cpu] at proc thread
    by_cases eq : d = c
    · subst eq
      rw [update_self] at proc thread
      exact moved proc (.inr thread)
    · rw [update_of_ne eq] at proc thread
      exact .resume proc thread
  | away context state => exact away context state

theorem At.of_same (here : At t p k) (cpu : t.cpu = s.cpu) (table : t.table = s.table) :
    At s p k := by
  cases here with
  | process proc thread => exact .process (cpu ▸ proc) (cpu ▸ thread)
  | resume proc thread => exact .resume (cpu ▸ proc) (cpu ▸ thread)
  | away context state => exact .away (table ▸ context) (table ▸ state)

/-- A process that was woken, killed or passed on is preempted where it was. -/
theorem At.of_woken (woken : (s.table p).Woken (u p)) (context : (u p).context = .yield k)
    (state : (u p).state = .runnable ∨ (u p).state = .sleeping) : At s p k := by
  refine .away (woken.context ▸ context) ?_
  rcases woken.state with eq | ⟨asleep, _⟩
  · rwa [eq] at state
  · exact .inr asleep

theorem At.of_set {r : Slot} {x : Proc} (woken : (s.table p).Woken (u p))
    (own : p = r → x.context = .yield k → x.state = .runnable ∨ x.state = .sleeping → At s p k)
    (context : (u.set r x p).context = .yield k)
    (state : (u.set r x p).state = .runnable ∨ (u.set r x p).state = .sleeping) : At s p k := by
  by_cases eq : p = r
  · rw [eq, Table.set_self] at context state
    exact own eq context state
  · rw [Table.set_ne u eq] at context state
    exact .of_woken woken context state

theorem Stays.of_thread [DecidableEq C] {c : C} (cpu : t.cpu = update s.cpu c x)
    (out : x.thread.forks = none) (away : ∀ p k, k.forks ≠ none → (t.table p).context = .yield k →
      (t.table p).state = .runnable ∨ (t.table p).state = .sleeping → At s p k) : Stays s t := by
  intro p k forks here
  refine here.of_setCpu cpu rfl (fun _ thread => absurd ?_ forks) (away p k forks)
  rcases thread with thread | thread
  · rwa [thread] at out
  · rwa [thread] at out

variable {a : Act C} {c : C}

theorem Waits.running (inv : Inv s) (waits : Waits s p a c u) :
    (s.cpu c).runs = some p ∧ (s.table p).state = .running := by
  have runs : (s.cpu c).runs = some p := by
    cases waits with
    | call proc thread _ => simp [Cpu.runs, thread, proc]
    | resume proc thread => simp [Cpu.runs, thread, proc]
  exact ⟨runs, inv.runs.ok_of_claim c p runs⟩

/-- No CPU is inside `scheduler()` meanwhile. -/
theorem Waits.alone (inv : Inv s) (waits : Waits s p a c u) (d : C) (holds : (s.cpu d).Holds) :
    (s.cpu d).thread ≠ .scheduler := by
  have lock := inv.held d holds
  cases waits with
  | call _ _ free => cases free.symm.trans lock
  | resume _ thread =>
    have own := inv.held c (by simp only [Cpu.Holds, thread])
    cases lock.symm.trans own
    simp [thread]

theorem Waits.table (waits : Waits s p a c u) (q : Slot) :
    (s.table q).Woken (u q) ∧ (s.table q).Kin (u q) ∧ (u q).killed = (s.table q).killed ∧
      (u q).state = (s.table q).state := by
  cases waits with
  | call => exact ⟨.refl _, .refl _, rfl, rfl⟩
  | resume =>
    exact ⟨woken_chan _ p q, kin_set (by exact ⟨rfl, rfl, rfl⟩) q,
      Table.set_congr Proc.killed (by rfl) q,
      Table.set_congr Proc.state (by rfl) q⟩

theorem Enters.runs {k : Kernel} (enters : Enters s c p k) : (s.cpu c).runs = some p := by
  simp [Cpu.runs, enters.thread, enters.proc]

theorem Enters.running (inv : Inv s) {k : Kernel} (enters : Enters s c p k) :
    (s.table p).state = .running :=
  inv.runs.ok_of_claim c p enters.runs

variable [DecidableEq C]

theorem Affair.idle (cpu : t.cpu = update s.cpu c x) (out : x.thread = .scheduler)
    (table : t.table = s.table) (nextpid : t.nextpid = s.nextpid) : Affair s t .quiet := by
  refine .quiet (fun q => by rw [table]; exact .refl _) nextpid (.of_thread cpu ?_ ?_)
  · rw [out]
    rfl
  · intro p k _ context state
    rw [table] at context state
    exact .away context state

variable {ret : BitVec 32}

theorem Affair.leave (woken : ∀ q, (s.table q).Woken (u q)) (kin : ∀ q, (s.table q).Kin (u q)) :
    Affair s (s.leave c u (.user ret)) .quiet :=
  .quiet kin rfl (.of_thread (c := c) rfl rfl fun p _ _ context state =>
    .of_woken (woken p) context state)

theorem Affair.sched {x : Proc} (kin : ∀ q, (s.table q).Kin (u q))
    (woken : ∀ q, (s.table q).Woken (u q)) (same : (u p).Kin x) (out : x.context.forks = none) :
    Affair s (s.sched c (u.set p x)) .quiet := by
  refine .quiet (fun q => ?_) rfl (.of_thread (c := c) rfl rfl fun q k forks context state => ?_)
  · have after := kin_set same q
    exact ⟨after.phase.trans (kin q).phase, after.parent.trans (kin q).parent,
      after.pid.trans (kin q).pid⟩
  · refine .of_set (woken q) (fun _ yields _ => ?_) context state
    rw [yields] at out
    exact absurd out forks

theorem exitTable_woken (t : Table) (p q : Slot) : (t q).Woken (exitTable t p q) :=
  (wakeup1_woken _ _ q).trans (reparent_woken _ p q)

theorem exit_affair (inv : Inv s) {ret : BitVec 32} (enters : Enters s c p (.user ret))
    (not_init : p ≠ initproc) :
    Affair s (s.sched c ((exitTable s.table p).set p
      { exitTable s.table p p with state := .zombie, context := .exit })) (.exit p) := by
  have running := enters.running inv
  refine .exit not_init (by simp [Proc.phase, running]) (fun k forks here => ?_) (fun q => ?_)
    (fun q => ?_) (fun q => ?_) rfl (.of_thread (c := c) rfl rfl fun q k forks context state => ?_)
  · obtain rfl := here.eq inv (.process enters.proc enters.thread)
    exact forks rfl
  · change ((exitTable s.table p).set p _ q).phase = _
    by_cases eq : q = p
    · subst eq
      rw [Table.set_self, if_pos rfl]
      rfl
    · rw [Table.set_ne _ eq, if_neg eq]
      exact (exitTable_phase _ _ _).1
  · rw [← exitTable_parent]
    generalize exitTable s.table p = u
    exact Table.set_congr Proc.parent (by rfl) q
  · rw [← (exitTable_phase s.table p q).2]
    generalize exitTable s.table p = u
    exact Table.set_congr Proc.pid (by rfl) q
  · exact .of_set (exitTable_woken _ _ q) (fun _ yields => by cases yields) context state

theorem allocate_affair (enters : Enters s c p (.user ret)) (found : findUnused s.table = some np) :
    Affair s { s.leave c (allocproc s.table np s.nextpid) (.allocated np) with
      nextpid := s.nextpid + 1 } (.allocate p np) := by
  have free := findUnused_state found
  refine .allocate (x := { s.table np with
      state := .embryo, pid := s.nextpid, priority := 1, runTicks := 0, context := .forkret })
    (by simp [Proc.phase, free]) rfl rfl rfl rfl rfl fun q k forks here => ?_
  by_cases new : q = p ∧ k = .allocated np
  · exact .inr new
  · left
    refine here.of_setCpu (c := c) rfl rfl (fun proc thread => ?_) fun context state => ?_
    · rcases thread with thread | thread
      · cases thread
        exact absurd ⟨Option.some.inj (proc.symm.trans enters.proc), rfl⟩ new
      · cases thread
    · refine .of_set (.refl _) (fun _ yields => ?_) context state
      cases yields

theorem forkDone_affair (inv : Inv s) (enters : Enters s c p (.copied np)) :
    Affair s (s.leave c (s.table.set np { s.table np with state := .runnable })
      (.user (s.table np).pid)) (.forkDone p np) := by
  have embryo := (At.process enters.proc enters.thread).embryo inv rfl
  refine .forkDone (x := { s.table np with state := .runnable })
    (.process enters.proc enters.thread) (by simp [Proc.phase, enters.running inv])
    (by simp [Proc.phase, embryo]) rfl rfl rfl rfl rfl
    (.of_thread (c := c) rfl rfl fun q k _ context state => ?_)
  refine .of_set (.refl _) (fun _ yields _ => ?_) context state
  cases (inv.fresh np embryo).symm.trans yields

theorem forkFail_affair (inv : Inv s) (proc : (s.cpu c).proc = some p)
    (thread : (s.cpu c).thread = .process (.allocated np)) {ret : BitVec 32} :
    Affair s (s.unlocked c (s.table.set np { s.table np with state := .unused }) (.user ret))
      (.forkFail p np) := by
  have embryo := inv.embryo_of_allocated thread
  refine .forkFail (x := { s.table np with state := .unused }) (.process proc thread)
    (by simp [Proc.phase, embryo]) rfl rfl rfl rfl
    (.of_thread (c := c) rfl rfl fun q k _ context state => ?_)
  refine .of_set (.refl _) (fun _ _ state => ?_) context state
  rcases state with state | state <;> cases state

theorem forkCopy_affair (inv : Inv s) (proc : (s.cpu c).proc = some p)
    (thread : (s.cpu c).thread = .process (.allocated np)) :
    Affair s (s.unlocked c (forkCopy s.table p np) (.copied np)) (.forkCopy p np) := by
  have embryo := inv.embryo_of_allocated thread
  have runs : (s.cpu c).runs = some p := by simp [Cpu.runs, thread, proc]
  have running := inv.runs.ok_of_claim c p runs
  refine .forkCopy (x := { s.table np with
      runTicks := 0, priority := (s.table p).priority, parent := some p })
    (.process proc thread) (by simp [Proc.phase, running]) (by simp [Proc.phase, embryo])
    (by simp [Proc.phase, embryo]) rfl rfl rfl rfl fun q k forks here => ?_
  -- nobody else has a claim on the slot
  have alone : ∀ h, claim s.cpu s.table h = some np → h = .inl c := fun h claimed =>
    inv.forks.unique h (.inl c) np claimed (by simp [claim, thread, Thread.forks, Kernel.forks])
  cases here with
  | @process d proc' thread' =>
    by_cases eq : d = c
    · subst eq
      simp only [State.unlocked, State.setCpu_self] at proc' thread'
      cases thread'
      exact .inr ⟨Option.some.inj (proc'.symm.trans proc), rfl⟩
    · simp only [State.unlocked, s.setCpu_ne eq] at proc' thread'
      refine .inl ⟨.process proc' thread', fun claimed => eq ?_⟩
      exact Sum.inl.inj (alone (.inl d) (by simpa [claim, thread', Thread.forks] using claimed))
  | @resume d proc' thread' =>
    by_cases eq : d = c
    · subst eq
      simp only [State.unlocked, State.setCpu_self] at thread'
      cases thread'
    · simp only [State.unlocked, s.setCpu_ne eq] at proc' thread'
      refine .inl ⟨.resume proc' thread', fun claimed => eq ?_⟩
      exact Sum.inl.inj (alone (.inl d)
        (by simpa [claim, thread', Thread.forks, Context.forks] using claimed))
  | away context state =>
    change (s.table.set np _ q).context = _ at context
    change (s.table.set np _ q).state = _ ∨ (s.table.set np _ q).state = _ at state
    by_cases eq : q = np
    · subst eq
      rw [Table.set_self] at context
      cases (inv.fresh q embryo).symm.trans context
    · rw [Table.set_ne _ eq] at context state
      refine .inl ⟨.away context state, fun claimed => ?_⟩
      have held : claim s.cpu s.table (.inr q) = some np := by
        rcases state with state | state <;>
          simpa [claim, Proc.forks, state, context, Context.forks] using claimed
      cases alone _ held

theorem Waits.returned {w : Table} (waits : Waits s p a c u) (h : History) :
    h.record s a (s.leave c w (.user ret)) =
      { h with waits := ⟨p, ret, s.table, h.exited⟩ :: h.waits } := by
  have back :
      (s.leave c w (.user ret)).cpu c = { s.cpu c with thread := .process (.user ret) } := by
    simp only [State.leave, State.setCpu_self]
  cases waits with
  | call proc thread _ => simp only [History.record, History.returned, back, proc]
  | resume proc thread => simp only [History.record, thread, if_true, History.returned, back, proc]

theorem Waits.sleeps {w : Table} (waits : Waits s p a c u) (h : History) :
    h.record s a (s.sched c w) = h := by
  have back : (s.sched c w).cpu c = { s.cpu c with thread := .scheduler } := by
    simp only [State.sched, State.setCpu_self]
  cases waits with
  | call proc thread _ => simp only [History.record, History.returned, back, proc]
  | resume proc thread => simp only [History.record, thread, if_true, History.returned, back, proc]

omit [DecidableEq C] in
theorem Waits.event (waits : Waits s p a c u) : event s a = waitEvent u p := by
  cases waits with
  | call proc thread _ => simp only [Sched.event, proc, thread]
  | resume proc thread => simp only [Sched.event, proc, thread]

theorem Turn.affair (inv : Inv s) (turn : Turn s a t) :
    ∃ e, event s a = e ∧ Affair s t e ∧ ∀ h, History.record h s a t = h.log s.table e := by
  cases turn with
  | acquire idle _ _ => exact ⟨.quiet, rfl, .idle rfl idle rfl rfl, fun _ => rfl⟩
  | advance idle _ _ => exact ⟨.quiet, rfl, .idle rfl idle rfl rfl, fun _ => rfl⟩
  | back idle _ _ => exact ⟨.quiet, rfl, .idle rfl idle rfl rfl, fun _ => rfl⟩
  | release idle _ => exact ⟨.quiet, rfl, .idle rfl idle rfl rfl, fun _ => rfl⟩
  | @dispatch c p pc idle chooses =>
    have ready := chooses.ready
    refine ⟨.quiet, rfl, .quiet (kin_set ⟨?_, rfl, rfl⟩) rfl fun q k forks here => ?_, fun _ => rfl⟩
    · simp [Proc.phase, ready]
    refine here.of_setCpu rfl rfl (fun proc thread => ?_) fun context state => ?_
    · obtain rfl : p = q := Option.some.inj proc
      rcases thread with thread | thread
      · cases thread
      · exact .away (Thread.resume.inj thread) (.inl ready)
    · refine .of_set (.refl _) (fun _ _ state => ?_) context state
      rcases state with state | state <;> cases state
  | @resume c p ctx k u proc thread resumes =>
    have unrecorded : ctx ≠ .wait → ∀ h : History, ∀ t, h.record s (.resume c) t = h := by
      intro ne h t
      exact if_neg (by simpa [thread] using ne)
    have quiet : ctx ≠ .wait → event s (.resume c) = .quiet := by
      intro ne
      cases ctx <;> simp_all [event]
    cases resumes with
    | forkret =>
      exact ⟨.quiet, quiet (by simp), .leave (fun q => .refl _) fun q => .refl _,
        fun h => unrecorded (by simp) h _⟩
    | sleep =>
      exact ⟨.quiet, quiet (by simp), .leave (woken_chan _ p) (kin_set ⟨rfl, rfl, rfl⟩),
        fun h => unrecorded (by simp) h _⟩
    | yield =>
      refine ⟨.quiet, quiet (by simp), .quiet (fun q => .refl _) rfl fun q k' forks here => ?_,
        fun h => unrecorded (by simp) h _⟩
      refine here.of_setCpu (c := c) rfl rfl (fun proc' thread' => ?_) fun context state =>
        .away context state
      obtain rfl : p = q := Option.some.inj (proc.symm.trans proc')
      rcases thread' with thread' | thread'
      · cases thread'
        exact .resume proc thread
      · cases thread'
  | @waitReap _ c p q u waits found =>
    have child := zombieChild_state found
    obtain ⟨woken, kin, _, state⟩ := waits.table q
    refine ⟨.reap p q, by rw [waits.event, waitEvent, found],
      .reap ?_ ?_ (fun r => (waits.table r).2.1) rfl rfl rfl rfl
      (.of_thread (c := c) rfl rfl fun r k forks context state => ?_) (waits.alone inv),
      fun h => ?_⟩
    · simp [Proc.phase, ← state, child.2]
    · rw [← kin.parent, child.1]
    · refine .of_set (waits.table r).1 (fun _ _ state => ?_) context state
      rcases state with state | state <;> cases state
    · rw [waits.returned, kin.pid]
      rfl
  | @waitFail _ c p u waits none fails =>
    have kids : havekids u p = havekids s.table p := by
      unfold havekids
      congr 1
      funext q
      rw [(waits.table q).2.1.parent]
    refine ⟨.waitFail p, by rw [waits.event, waitEvent, none, if_pos fails],
      .waitFail (fun q => (waits.table q).2.1) rfl
      (.of_thread (c := c) rfl rfl fun q k _ context state =>
        .of_woken (waits.table q).1 context state) ?_, fun h => waits.returned h⟩
    rwa [kids, (waits.table p).2.2.1] at fails
  | @waitSleep _ c p u waits none stays =>
    refine ⟨.quiet, by rw [waits.event, waitEvent, none, if_neg stays],
      .sched (fun q => (waits.table q).2.1) (fun q => (waits.table q).1)
      ⟨?_, rfl, rfl⟩ rfl, fun h => waits.sleeps h⟩
    simp [Proc.phase, (waits.table p).2.2.2, (waits.running inv).2]
  | zombieExit thread =>
    refine ⟨.quiet, ?_, .quiet (fun q => .refl _) rfl fun q k _ here => here.of_same rfl rfl,
      fun h => if_neg (by simp [thread])⟩
    simp [event, thread]
  | initExit enters =>
    refine ⟨.quiet, ?_, .quiet (fun q => .refl _) rfl fun q k _ here => here.of_same rfl rfl,
      fun h => ?_⟩
    · simp only [event, enters.proc, enters.thread, if_true]
    · simp [History.record, enters.proc, History.log]
  | @yield c p k enters =>
    have running := enters.running inv
    refine ⟨.quiet, by simp [event], .quiet (kin_set ⟨by simp [Proc.phase, running], rfl, rfl⟩) rfl
      fun q k' forks here => ?_, fun _ => rfl⟩
    refine here.of_setCpu (c := c) rfl rfl (fun _ thread => ?_) fun context state => ?_
    · rcases thread with thread | thread <;> cases thread
    · refine .of_set (.refl _) (fun eq yields _ => ?_) context state
      cases yields
      exact eq ▸ .process enters.proc enters.thread
  | @sleep c p ret chan enters =>
    have running := enters.running inv
    exact ⟨.quiet, by simp [event], .sched (fun q => .refl _) (fun q => .refl _)
      ⟨by simp [Proc.phase, running], rfl, rfl⟩ rfl, fun _ => rfl⟩
  | exit enters not_init =>
    refine ⟨_, by simp only [event, enters.proc, enters.thread, if_neg not_init],
      exit_affair inv enters not_init, fun h => ?_⟩
    simp [History.record, enters.proc, not_init, History.log]
  | kill pid enters =>
      exact ⟨.quiet, by simp [event], .leave (kill_woken _ pid) (kill_kin _ pid), fun _ => rfl⟩
  | @settickets c p ret ret' ticket priority enters =>
    refine ⟨.quiet, by simp [event], .quiet (kin_set ⟨rfl, rfl, rfl⟩) rfl
      (.of_thread (c := c) rfl rfl fun q k _ context state => ?_), fun _ => rfl⟩
    exact .of_set (x := { s.table p with priority := priority }) (.refl _)
      (fun eq yields state => eq ▸ .away yields state) context state
  | allocate enters found =>
    refine ⟨_, by simp only [event, enters.proc, enters.thread, found],
      allocate_affair enters found, fun h => ?_⟩
    simp [History.record, found, History.log]
  | full enters found =>
    refine ⟨.quiet, by simp only [event, enters.proc, enters.thread, found],
      .leave (fun q => .refl _) fun q => .refl _, fun h => ?_⟩
    simp [History.record, found, History.log]
  | forkDone enters =>
    exact ⟨_, by simp only [event, enters.proc, enters.thread], forkDone_affair inv enters,
      fun _ => rfl⟩
  | forkFail proc thread =>
    refine ⟨_, ?_, forkFail_affair inv proc thread, fun _ => rfl⟩
    simp only [event, proc, thread]
    rfl
  | forkCopy proc thread =>
    refine ⟨_, ?_, forkCopy_affair inv proc thread, fun _ => rfl⟩
    simp only [event, proc, thread]
    rfl
  | wakeup chan _ =>
    refine ⟨.quiet, rfl, .quiet (wakeup1_kin _ _) rfl fun q k _ here => ?_, fun _ => rfl⟩
    cases here with
    | process proc thread => exact .process proc thread
    | resume proc thread => exact .resume proc thread
    | away context state => exact .of_woken (wakeup1_woken _ _ q) context state

/-! ## Every step keeps the family -/

section

omit [DecidableEq C]

theorem Family.affair {e : Event} (fam : Family s.table) (forks : Forks s)
    (affair : Affair s t e) : Family t.table := by
  have not_init : ∀ {q}, (s.table q).phase ≠ .alive → q ≠ initproc := by
    rintro q not rfl
    exact not fam.root
  cases affair with
  | quiet kin _ _ => exact fam.quiet kin
  | waitFail kin _ _ _ => exact fam.quiet kin
  | exit ne alive _ phase parent _ _ _ => exact fam.exit ne alive phase parent
  | @reap p q u x zombie parent kin unused none table _ _ _ =>
    rw [table]
    have dead : (u q).phase ≠ .alive := by
      rw [(kin q).phase, zombie]
      simp
    refine (fam.quiet kin).store (not_init (by rw [zombie]; simp)) dead (fun _ => none) ?_ ?_
    · rw [none]
      simp
    · rw [unused]
      simp
  | @allocate _ np x unused embryo parent _ table _ _ =>
    rw [table]
    refine fam.store (not_init (by rw [unused]; simp)) (by rw [unused]; simp) ?_ ?_ ?_
    · rw [embryo]
      simp
    · rw [parent, fam.unused np unused]
      simp
    · rw [embryo]
      simp
  | @forkDone p np x here alive embryo phase parent _ table _ _ =>
    rw [table]
    have is := forks.copied p np here
    have ne : p ≠ np := fun eq => by
      rw [eq, embryo] at alive
      cases alive
    refine fam.store (not_init (by rw [embryo]; simp)) (by rw [embryo]; simp) ?_ ?_ fun _ => ?_
    · rw [phase]
      simp
    · rw [parent, is]
      simpa using ne
    · exact ⟨p, parent.trans is, alive⟩
  | @forkFail p np x here embryo unused parent table _ _ =>
    rw [table]
    have is := forks.allocated p np here
    refine fam.store (not_init (by rw [embryo]; simp)) (by rw [embryo]; simp)
      (fun _ => parent.trans is) ?_ ?_
    · rw [parent, is]
      simp
    · rw [unused]
      simp
  | @forkCopy p np x _ alive embryo phase parent _ table _ _ =>
    rw [table]
    have ne : p ≠ np := fun eq => by
      rw [eq, embryo] at alive
      cases alive
    refine fam.store (not_init (by rw [embryo]; simp)) (by rw [embryo]; simp) ?_ ?_ ?_
    · rw [phase]
      simp
    · rw [parent]
      simpa using ne
    · rw [phase]
      simp

theorem Forks.keep (inv : Inv s) (forks : Forks s) (stays : Stays s t)
    (parent : ∀ p k np, At s p k → k.forks = some np → (s.table np).phase = .embryo →
      (t.table np).parent = (s.table np).parent) : Forks t := by
  refine ⟨fun p np here => ?_, fun p np here => ?_⟩
  · have before := stays p _ (by simp [Kernel.forks]) here
    have embryo := before.embryo inv rfl
    rw [parent p _ np before rfl (by simp [Proc.phase, embryo])]
    exact forks.allocated p np before
  · have before := stays p _ (by simp [Kernel.forks]) here
    have embryo := before.embryo inv rfl
    rw [parent p _ np before rfl (by simp [Proc.phase, embryo])]
    exact forks.copied p np before

theorem Forks.affair {e : Event} (inv : Inv s) (fam : Family s.table) (forks : Forks s)
    (affair : Affair s t e) : Forks t := by
  cases affair with
  | quiet kin _ stays => exact forks.keep inv stays fun _ _ np _ _ _ => (kin np).parent
  | waitFail kin _ stays _ => exact forks.keep inv stays fun _ _ np _ _ _ => (kin np).parent
  | @exit p _ _ nowhere _ parent _ _ stays =>
    refine forks.keep inv stays fun p' k np here some _ => ?_
    rw [parent, passed, if_neg]
    intro child
    cases k with
    | user ret => cases some
    | allocated np' =>
      cases some
      rw [forks.allocated p' np here] at child
      cases child
    | copied np' =>
      cases some
      rw [forks.copied p' np here] at child
      obtain rfl := Option.some.inj child
      exact nowhere _ (by simp [Kernel.forks]) here
  | @reap p q u x zombie _ kin _ _ table _ stays _ =>
    refine forks.keep inv stays fun _ _ np _ _ embryo => ?_
    have ne : np ≠ q := fun eq => by
      rw [eq, zombie] at embryo
      cases embryo
    rw [table, Table.set_ne _ ne]
    exact (kin np).parent
  | @allocate _ np x unused _ parent _ table _ came =>
    have same : ∀ q, (t.table q).parent = (s.table q).parent := by
      rw [table]
      exact Table.set_congr Proc.parent parent
    refine ⟨fun p np' here => ?_, fun p np' here => ?_⟩
    · rw [same]
      rcases came p _ (by simp [Kernel.forks]) here with before | new
      · exact forks.allocated p np' before
      · obtain rfl := Kernel.allocated.inj new.2
        exact fam.unused np' unused
    · rw [same]
      rcases came p _ (by simp [Kernel.forks]) here with before | new
      · exact forks.copied p np' before
      · cases new.2
  | @forkDone p np x _ _ _ _ parent _ table _ stays =>
    refine forks.keep inv stays fun _ _ np' _ _ _ => ?_
    rw [table]
    exact Table.set_congr Proc.parent parent np'
  | @forkFail p np x _ _ _ parent table _ stays =>
    refine forks.keep inv stays fun _ _ np' _ _ _ => ?_
    rw [table]
    exact Table.set_congr Proc.parent parent np'
  | @forkCopy p np x _ _ _ _ parent _ table _ came =>
    have other : ∀ q, q ≠ np → (t.table q).parent = (s.table q).parent := by
      intro q ne
      rw [table, Table.set_ne _ ne]
    refine ⟨fun p' np' here => ?_, fun p' np' here => ?_⟩
    · rcases came p' _ (by simp [Kernel.forks]) here with ⟨before, ne⟩ | ⟨_, new⟩
      · rw [other np' fun eq => ne (by rw [eq]; rfl)]
        exact forks.allocated p' np' before
      · cases new
    · rcases came p' _ (by simp [Kernel.forks]) here with ⟨before, ne⟩ | ⟨rfl, new⟩
      · rw [other np' fun eq => ne (by rw [eq]; rfl)]
        exact forks.copied p' np' before
      · obtain rfl := Kernel.copied.inj new
        rw [table, Table.set_self, parent]

theorem not_at_boot (p : Slot) (k : Kernel) : ¬ At (State.boot C) p k := by
  intro here
  cases here with
  | process _ thread => cases thread
  | resume _ thread => cases thread
  | away context _ =>
    simp only [State.boot, bootTable] at context
    split at context <;> cases context

end

theorem reachable_family (reach : (kernel C).Reachable s) : Family s.table ∧ Forks s := by
  refine reach.invariant (P := fun s => Family s.table ∧ Forks s) (fun s start => ?_)
    fun s a t before fam step => ?_
  · cases start
    refine ⟨⟨rfl, rfl, fun p => ?_, fun p => ?_, fun p ne => ?_⟩,
      fun p np here => absurd here (not_at_boot p _),
      fun p np here => absurd here (not_at_boot p _)⟩
    · simp only [State.boot, bootTable]
      split <;> simp
    · simp only [State.boot, bootTable]
      split <;> simp
    · simp [State.boot, bootTable, ne, Proc.phase]
  · have inv := reachable_inv before
    obtain ⟨e, _, affair, _⟩ := (step_turn step).affair inv
    exact ⟨fam.1.affair fam.2 affair, fam.2.affair inv fam.1 affair⟩

end Fork

end Xv6.Sched
