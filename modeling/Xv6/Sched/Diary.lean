import Xv6.Sched.Slots

/-!
# The accounts of the processes

A diary of the run: who was created, dispatched, and set its tickets.  It names a process by the
order of its creation, since slots are used again and pids come again after 2^32 forks.  `Told` is
the invariant that the counters in a slot are the diary's accounts of the slot's process.

A child gets its priority from its parent without the lock, some time after the parent called
`fork`.  The diary takes the parent's priority at the call; that the copy finds the same needs the
points inside `fork` (`Told.allocated`, `Told.copied`).
-/

namespace Xv6.Sched

open List

/-- What happened to process `n`.  `create` has the pid that `allocproc` gave out and the priority
of the caller of `fork`. -/
inductive Entry
  | create (n : Nat) (pid priority : BitVec 32)
  | dispatch (n : Nat)
  | settickets (n : Nat) (ticket : BitVec 32)
  deriving DecidableEq, Repr

namespace Entry

def process : Entry → Nat
  | create n _ _ | dispatch n | settickets n _ => n

def pidOf (n : Nat) : Entry → Option (BitVec 32)
  | create m pid _ => if m = n then some pid else none
  | _ => none

def ticketsOf (n : Nat) : Entry → Option (BitVec 32)
  | create m _ priority => if m = n then some priority else none
  | settickets m ticket => if m = n then some ticket else none
  | dispatch _ => none

theorem pidOf_ne {n : Nat} {e : Entry} (ne : e.process ≠ n) : e.pidOf n = none := by
  cases e with
  | create => exact if_neg ne
  | dispatch => rfl
  | settickets => rfl

theorem ticketsOf_ne {n : Nat} {e : Entry} (ne : e.process ≠ n) : e.ticketsOf n = none := by
  cases e with
  | create => exact if_neg ne
  | dispatch => rfl
  | settickets => exact if_neg ne

end Entry

/-- The number of processes created, the process each slot belongs to or belonged to last, and the
entries, latest first. -/
structure Diary where
  created : Nat
  owner : Slot → Nat
  entries : List Entry

namespace Diary

def boot : Diary := ⟨1, fun _ => 0, [.create 0 1 1]⟩

def pid (d : Diary) (n : Nat) : Option (BitVec 32) := d.entries.findSome? (Entry.pidOf n)

/-- The tickets process `n` set last or, if it never did, the priority its parent had at `fork`. -/
def tickets (d : Diary) (n : Nat) : Option (BitVec 32) := d.entries.findSome? (Entry.ticketsOf n)

def dispatches (d : Diary) (n : Nat) : Nat := d.entries.count (.dispatch n)

def add (d : Diary) (e : Entry) : Diary := { d with entries := e :: d.entries }

def note {C : Type} (d : Diary) (s : State C) : Option Note → Diary
  | some (.create p np) =>
    { d.add (.create d.created s.nextpid (s.table p).priority) with
      created := d.created + 1, owner := Function.update d.owner np d.created }
  | some (.dispatch p) => d.add (.dispatch (d.owner p))
  | some (.settickets p ticket) => d.add (.settickets (d.owner p) ticket)
  | none => d

structure Tells (d : Diary) (n : Nat) (x : Proc) : Prop where
  pid : d.pid n = some x.pid
  ticks : x.runTicks = BitVec.ofNat 32 (d.dispatches n)
  tickets : d.tickets n = some x.priority

variable {d : Diary} {n : Nat} {e : Entry} {x y : Proc}

theorem pid_add_ne (ne : e.process ≠ n) : (d.add e).pid n = d.pid n := by
  simp only [pid, add, findSome?_cons, Entry.pidOf_ne ne]

theorem tickets_add_ne (ne : e.process ≠ n) : (d.add e).tickets n = d.tickets n := by
  simp only [tickets, add, findSome?_cons, Entry.ticketsOf_ne ne]

theorem dispatches_add_ne (ne : e.process ≠ n) : (d.add e).dispatches n = d.dispatches n := by
  refine count_cons_of_ne fun eq => ?_
  subst eq
  exact ne rfl

theorem Tells.add_ne (tells : d.Tells n x) (ne : e.process ≠ n) : (d.add e).Tells n x where
  pid := (pid_add_ne ne).trans tells.pid
  ticks := by rw [dispatches_add_ne ne, tells.ticks]
  tickets := (tickets_add_ne ne).trans tells.tickets

theorem Tells.alike (tells : d.Tells n x) (alike : x.Alike y) : d.Tells n y where
  pid := by rw [alike.pid, tells.pid]
  ticks := by rw [alike.runTicks, tells.ticks]
  tickets := by rw [alike.priority, tells.tickets]

theorem Tells.dispatch (tells : d.Tells n x) :
    (d.add (.dispatch n)).Tells n { x with state := .running, runTicks := x.runTicks + 1 } where
  pid := tells.pid
  ticks := by
    have once : (d.add (.dispatch n)).dispatches n = d.dispatches n + 1 := count_cons_self
    simp only [once, tells.ticks, BitVec.ofNat_add]
    rfl
  tickets := tells.tickets

theorem Tells.settickets (tells : d.Tells n x) (ticket : BitVec 32) :
    (d.add (.settickets n ticket)).Tells n { x with priority := ticket } where
  pid := tells.pid
  ticks := by
    have same : (d.add (.settickets n ticket)).dispatches n = d.dispatches n :=
      count_cons_of_ne (by simp)
    rw [same, tells.ticks]
  tickets := by simp [Diary.tickets, add, Entry.ticketsOf]

end Diary

section Told

variable {C : Type}

structure Told (s : State C) (d : Diary) : Prop where
  born : ∀ q, (s.table q).Born → d.Tells (d.owner q) (s.table q)
  embryo : ∀ q, (s.table q).state = .embryo → d.pid (d.owner q) = some (s.table q).pid ∧
    d.dispatches (d.owner q) = 0 ∧ (s.table q).runTicks = 0
  allocated : ∀ p np, At s p (.allocated np) → d.tickets (d.owner np) = some (s.table p).priority
  copied : ∀ p np, At s p (.copied np) → d.tickets (d.owner np) = some (s.table np).priority
  known : ∀ q, (s.table q).state ≠ .unused → d.owner q < d.created
  apart : ∀ q r, (s.table q).state ≠ .unused → (s.table r).state ≠ .unused →
    d.owner q = d.owner r → q = r
  past : ∀ e ∈ d.entries, e.process < d.created

variable {s t : State C} {d : Diary} {p np : Slot}

theorem At.born (inv : Inv s) {k : Kernel} (here : At s p k) : (s.table p).Born := by
  have running : ∀ c, (s.cpu c).runs = some p → (s.table p).Born := fun c runs => by
    simp [Proc.Born, inv.runs.ok_of_claim c p runs]
  cases here with
  | @process c proc thread => exact running c (by simp [Cpu.runs, thread, proc])
  | @resume c proc thread => exact running c (by simp [Cpu.runs, thread, proc])
  | away _ state => rcases state with state | state <;> simp [Proc.Born, state]

theorem Told.boot [DecidableEq C] : Told (State.boot C) .boot where
  born q born := by
    have init : q = initproc := by
      by_contra ne
      simp [State.boot, bootTable, ne, Proc.Born] at born
    subst init
    exact ⟨rfl, rfl, rfl⟩
  embryo q embryo := by
    simp only [State.boot, bootTable] at embryo
    split at embryo <;> cases embryo
  allocated p np here := absurd here (not_at_boot p _)
  copied p np here := absurd here (not_at_boot p _)
  known q _ := Nat.one_pos
  apart q r used used' _ := by
    have init : ∀ q, ((State.boot C).table q).state ≠ .unused → q = initproc := fun q used => by
      by_contra ne
      simp [State.boot, bootTable, ne] at used
    rw [init q used, init r used']
  past e member := by
    cases member with
    | head => exact Nat.one_pos
    | tail _ member => cases member

namespace Told

theorem free (told : Told s d) (stays : Stays s t)
    (alike : ∀ q, (t.table q).state ≠ .unused → (s.table q).Alike (t.table q))
    (priority : ∀ q, (t.table q).priority = (s.table q).priority) : Told t d where
  born q born := (told.born q ((alike q born.1).born.mp born)).alike (alike q born.1)
  embryo q embryo := by
    have same := alike q (by simp [embryo])
    rw [same.pid, same.runTicks]
    exact told.embryo q (same.embryo.mp embryo)
  allocated p np here := by
    rw [priority]
    exact told.allocated p np (stays p _ (by simp [Kernel.forks]) here)
  copied p np here := by
    rw [priority]
    exact told.copied p np (stays p _ (by simp [Kernel.forks]) here)
  known q used := told.known q fun unused => used ((alike q used).unused.mpr unused)
  apart q r used used' := told.apart q r (fun unused => used ((alike q used).unused.mpr unused))
    fun unused => used' ((alike r used').unused.mpr unused)
  past := told.past

theorem quiet (told : Told s d) (stays : Stays s t)
    (alike : ∀ q, (s.table q).Alike (t.table q)) : Told t d :=
  told.free stays (fun q _ => alike q) fun q => (alike q).priority

theorem stamp {x : Proc} {e : Entry} (inv : Inv s) (told : Told s d) (stays : Stays s t)
    (table : t.table = s.table.set p x) (alive : (s.table p).Born) (born : x.Born)
    (process : e.process = d.owner p) (tells : (d.add e).Tells (d.owner p) x)
    (inside : ∀ np, At s p (.allocated np) → x.priority = (s.table p).priority) :
    Told t (d.add e) := by
  have self : t.table p = x := by rw [table, Table.set_self]
  have other : ∀ q, q ≠ p → t.table q = s.table q := fun q ne => by rw [table, Table.set_ne _ ne]
  have foreign : ∀ q, (s.table q).state ≠ .unused → q ≠ p → e.process ≠ d.owner q :=
    fun q used ne same => ne (told.apart q p used alive.1 (same.symm.trans process))
  have used : ∀ q, (t.table q).state ≠ .unused → (s.table q).state ≠ .unused := fun q used => by
    by_cases eq : q = p
    · exact eq ▸ alive.1
    · exact other q eq ▸ used
  have child : ∀ p' k np, k.forks = some np → At s p' k →
      np ≠ p ∧ (s.table np).state ≠ .unused := fun p' k np forks here => by
    have embryo := here.embryo inv forks
    exact ⟨fun eq => alive.2 (eq ▸ embryo), by simp [embryo]⟩
  refine ⟨fun q here => ?_, fun q here => ?_, fun p' np here => ?_, fun p' np here => ?_,
    fun q here => told.known q (used q here), fun q r here here' =>
      told.apart q r (used q here) (used r here'), fun e' member => ?_⟩
  · by_cases eq : q = p
    · rw [eq, self]
      exact tells
    · rw [other q eq] at here ⊢
      exact (told.born q here).add_ne (foreign q here.1 eq)
  · have ne : q ≠ p := fun eq => born.2 (self ▸ eq ▸ here)
    rw [other q ne] at here ⊢
    have apart := foreign q (by simp [here]) ne
    obtain ⟨pid, never, ticks⟩ := told.embryo q here
    exact ⟨(Diary.pid_add_ne apart).trans pid, (Diary.dispatches_add_ne apart).trans never, ticks⟩
  · have before := stays p' _ (by simp [Kernel.forks]) here
    obtain ⟨ne, used'⟩ := child p' _ np rfl before
    refine (Diary.tickets_add_ne (foreign np used' ne)).trans ?_
    rw [told.allocated p' np before]
    by_cases eq : p' = p
    · rw [eq, self, inside np (eq ▸ before)]
    · rw [other p' eq]
  · have before := stays p' _ (by simp [Kernel.forks]) here
    obtain ⟨ne, used'⟩ := child p' _ np rfl before
    refine (Diary.tickets_add_ne (foreign np used' ne)).trans ?_
    rw [told.copied p' np before, other np ne]
  · rcases mem_cons.mp member with rfl | member
    · exact process ▸ told.known p alive.1
    · exact told.past e' member

theorem create {c : C} {ret : BitVec 32} (inv : Inv s) (told : Told s d)
    (enters : Enters s c p (.user ret)) (unused : (s.table np).state = .unused)
    (table : t.table = allocproc s.table np s.nextpid)
    (came : ∀ p' k, k.forks ≠ none → At t p' k → At s p' k ∨ p' = p ∧ k = .allocated np) :
    Told t (d.note s (some (.create p np))) := by
  have self : t.table np = { s.table np with
      state := .embryo, pid := s.nextpid, priority := 1, runTicks := 0, context := .forkret } := by
    rw [table, allocproc, Table.set_self]
  have other : ∀ q, q ≠ np → t.table q = s.table q := fun q ne => by
    rw [table, allocproc, Table.set_ne _ ne]
  have owner : (d.note s (some (.create p np))).owner np = d.created :=
    Function.update_self (f := d.owner) ..
  have owners : ∀ q, q ≠ np → (d.note s (some (.create p np))).owner q = d.owner q :=
    fun q ne => Function.update_of_ne (f := d.owner) ne ..
  have foreign : ∀ q, (s.table q).state ≠ .unused → d.created ≠ d.owner q :=
    fun q used => Nat.ne_of_gt (told.known q used)
  have parent : p ≠ np := fun eq => by
    have running := inv.runs.ok_of_claim c p (by simp [Cpu.runs, enters.thread, enters.proc])
    rw [eq, unused] at running
    cases running
  have old : ∀ p' k np', k.forks = some np' → At s p' k →
      np' ≠ np ∧ (s.table np').state ≠ .unused ∧ p' ≠ np := fun p' k np' forks here => by
    have embryo := here.embryo inv forks
    refine ⟨fun eq => ?_, by simp [embryo], fun eq => (here.born inv).1 (eq ▸ unused)⟩
    rw [eq, unused] at embryo
    cases embryo
  -- the entry is about nobody who was there before
  have pid : ∀ n, d.created ≠ n → (d.note s (some (.create p np))).pid n = d.pid n :=
    fun n ne => Diary.pid_add_ne (d := d) ne
  have tickets : ∀ n, d.created ≠ n → (d.note s (some (.create p np))).tickets n = d.tickets n :=
    fun n ne => Diary.tickets_add_ne (d := d) ne
  have dispatches : ∀ n, (d.note s (some (.create p np))).dispatches n = d.dispatches n :=
    fun n => count_cons_of_ne (by simp)
  refine ⟨fun q here => ?_, fun q here => ?_, fun p' np' here => ?_, fun p' np' here => ?_,
    fun q here => ?_, fun q r here here' same => ?_, fun e member => ?_⟩
  · have ne : q ≠ np := fun eq => by
      rw [eq, self] at here
      exact here.2 rfl
    rw [other q ne] at here ⊢
    rw [owners q ne]
    have tells := told.born q here
    have apart := foreign q here.1
    exact ⟨(pid _ apart).trans tells.pid, by rw [dispatches, tells.ticks],
      (tickets _ apart).trans tells.tickets⟩
  · by_cases eq : q = np
    · subst eq
      rw [owner, self, dispatches]
      refine ⟨?_, ?_, rfl⟩
      · simp [Diary.pid, Diary.note, Diary.add, Entry.pidOf]
      · refine count_eq_zero.mpr fun member => ?_
        exact absurd (told.past _ member) (Nat.lt_irrefl _)
    · rw [other q eq] at here ⊢
      rw [owners q eq, dispatches, pid _ (foreign q (by simp [here]))]
      exact told.embryo q here
  · rcases came p' _ (by simp [Kernel.forks]) here with before | ⟨rfl, new⟩
    · obtain ⟨ne, used, alive⟩ := old p' _ np' rfl before
      rw [owners np' ne, tickets _ (foreign np' used), other p' alive]
      exact told.allocated p' np' before
    · cases new
      rw [owner, other p' parent]
      simp [Diary.tickets, Diary.note, Diary.add, Entry.ticketsOf]
  · rcases came p' _ (by simp [Kernel.forks]) here with before | ⟨_, new⟩
    · obtain ⟨ne, used, alive⟩ := old p' _ np' rfl before
      rw [owners np' ne, tickets _ (foreign np' used), other np' ne]
      exact told.copied p' np' before
    · cases new
  · change _ < d.created + 1
    by_cases eq : q = np
    · rw [eq, owner]
      exact Nat.lt_succ_self _
    · rw [owners q eq]
      rw [other q eq] at here
      exact Nat.lt_succ_of_lt (told.known q here)
  · by_cases eq : q = np
    · by_cases eq' : r = np
      · rw [eq, eq']
      · rw [eq, owner, owners r eq'] at same
        rw [other r eq'] at here'
        exact absurd same (foreign r here')
    · by_cases eq' : r = np
      · rw [eq', owner, owners q eq] at same
        rw [other q eq] at here
        exact absurd same.symm (foreign q here)
      · rw [owners q eq, owners r eq'] at same
        rw [other q eq] at here
        rw [other r eq'] at here'
        exact told.apart q r here here' same
  · rcases mem_cons.mp member with rfl | member
    · exact Nat.lt_succ_self _
    · exact Nat.lt_succ_of_lt (told.past e member)

theorem fill {x : Proc} (inv : Inv s) (told : Told s d) (embryo : (s.table np).state = .embryo)
    (table : t.table = s.table.set np x)
    (born : x.Born → d.Tells (d.owner np) x)
    (pid : x.pid = (s.table np).pid) (ticks : x.runTicks = 0)
    (came : ∀ p k, k.forks ≠ none → At t p k →
      (At s p k ∧ (k.forks = some np → x.priority = (s.table np).priority)) ∨
        k = .copied np ∧ d.tickets (d.owner np) = some x.priority) : Told t d := by
  have self : t.table np = x := by rw [table, Table.set_self]
  have other : ∀ q, q ≠ np → t.table q = s.table q := fun q ne => by rw [table, Table.set_ne _ ne]
  have used' : ∀ q, (t.table q).state ≠ .unused → (s.table q).state ≠ .unused := fun q here => by
    by_cases eq : q = np
    · simp [eq, embryo]
    · exact other q eq ▸ here
  refine ⟨fun q here => ?_, fun q here => ?_, fun p' np' here => ?_, fun p' np' here => ?_,
    fun q here => told.known q (used' q here), fun q r here here' =>
      told.apart q r (used' q here) (used' r here'), told.past⟩
  · by_cases eq : q = np
    · rw [eq, self] at here ⊢
      exact born here
    · rw [other q eq] at here ⊢
      exact told.born q here
  · by_cases eq : q = np
    · rw [eq, self, pid, ticks]
      exact ⟨(told.embryo np embryo).1, (told.embryo np embryo).2.1, rfl⟩
    · rw [other q eq] at here ⊢
      exact told.embryo q here
  · rcases came p' _ (by simp [Kernel.forks]) here with ⟨before, _⟩ | ⟨new, _⟩
    · have ne : p' ≠ np := fun eq => (before.born inv).2 (eq ▸ embryo)
      rw [other p' ne]
      exact told.allocated p' np' before
    · cases new
  · rcases came p' _ (by simp [Kernel.forks]) here with ⟨before, kept⟩ | ⟨new, tickets⟩
    · rw [told.copied p' np' before]
      by_cases eq : np' = np
      · rw [eq, self, kept (by rw [eq]; rfl)]
      · rw [other np' eq]
    · cases new
      rw [self]
      exact tickets

end Told

theorem Told.shift [DecidableEq C] {a : Act C} {n : Option Note} (inv : Inv s) (told : Told s d)
    (shift : Shift s a t n) : Told t (d.note s n) := by
  cases shift with
  | quiet steady stays => exact told.quiet stays fun q => (steady q).toAlike
  | @dispatch c p _ _ ready table stays =>
    have alive : (s.table p).Born := by simp [Proc.Born, ready]
    exact told.stamp inv stays table alive (by simp [Proc.Born]) rfl (told.born p alive).dispatch
      fun _ _ => rfl
  | @kill _ pid _ _ table stays =>
    refine told.quiet stays fun q => ?_
    rw [table]
    exact kill_alike s.table pid q
  | @settickets c p ret ticket _ enters table stays =>
    have alive : (s.table p).Born := by simp [Proc.Born, enters.running inv]
    refine told.stamp inv stays table alive alive rfl ((told.born p alive).settickets ticket)
      fun np here => ?_
    cases here.eq inv (.process enters.proc enters.thread)
  | @reap _ q u _ _ steady _ table stays =>
    rw [Sched.reap] at table
    refine told.free stays (fun r used => ?_) fun r => ?_
    · have ne : r ≠ q := fun eq => by
        rw [table, eq, Table.set_self] at used
        exact used rfl
      rw [table, Table.set_ne _ ne]
      exact (steady r).toAlike
    · rw [table, ← (steady r).priority]
      by_cases eq : r = q
      · rw [eq, Table.set_self]
      · rw [Table.set_ne _ eq]
  | allocate enters unused table came => exact told.create inv enters unused table came
  | @forkDone c p np _ enters embryo table stays =>
    obtain ⟨pid, never, ticks⟩ := told.embryo np embryo
    have tickets := told.copied p np (.process enters.proc enters.thread)
    refine told.fill inv embryo table (fun _ => ⟨pid, ?_, tickets⟩) rfl ticks
      fun p' k forks here => .inl ⟨stays p' k forks here, fun _ => rfl⟩
    change (s.table np).runTicks = BitVec.ofNat 32 (d.dispatches (d.owner np))
    rw [never]
    exact ticks
  | @forkFail c p np _ _ _ embryo table stays =>
    refine told.free stays (fun r used => ?_) fun r => ?_
    · have ne : r ≠ np := fun eq => by
        rw [table, eq, Table.set_self] at used
        exact used rfl
      rw [table, Table.set_ne _ ne]
      exact .refl _
    · rw [table]
      by_cases eq : r = np
      · rw [eq, Table.set_self]
      · rw [Table.set_ne _ eq]
  | @forkCopy c p np _ proc thread embryo table came =>
    have tickets := told.allocated p np (.process proc thread)
    refine told.fill inv embryo table (fun born => ?_) rfl rfl
      fun p' k forks here => ?_
    · exact absurd embryo born.2
    · rcases came p' k forks here with ⟨before, ne⟩ | ⟨_, new⟩
      · exact .inl ⟨before, fun same => absurd same ne⟩
      · exact .inr ⟨new, tickets⟩

theorem fault_alike {c : C} (step : fault s c = some t) :
    Stays s t ∧ ∀ q, (s.table q).Alike (t.table q) := by
  obtain ⟨p, _, _, _, rfl⟩ := fault_eq step
  have woken : ∀ q, (s.table q).Woken (s.table.set p { s.table p with killed := true } q) :=
    woken_set ⟨.inl rfl, rfl, rfl, rfl⟩
  refine ⟨fun q k _ here => ?_, alike_set ⟨.rfl, .rfl, rfl, rfl, rfl⟩⟩
  cases here with
  | process proc thread => exact .process proc thread
  | resume proc thread => exact .resume proc thread
  | away context state => exact .of_woken (woken q) context state

def Happening.noted (s t : State C) : Happening C → Option Note
  | .act a => Sched.noted s a t
  | .fault _ => none

theorem Told.happen [DecidableEq C] {h : Happening C} (inv : Inv s) (told : Told s d)
    (step : happen s h = some t) : Told t (d.note s (h.noted s t)) := by
  cases h with
  | act a => exact told.shift inv (step_shift inv step)
  | fault c => exact told.quiet (fault_alike step).1 (fault_alike step).2

end Told

end Xv6.Sched
