import Xv6.Pipe.Program

/-!
# A pipe is a channel

One proof outline of `pipe.c` serves three readings.  `Watch.bytes` is only about the data: what is
stored was taken or is in the ring, in order.  `Watch.readers` and `Watch.writers` add that a
section which lets a sleeping reader or writer go on calls `wakeup`.

For the readers this is not so.  A `pipewrite` that fills the pipe and then finds itself killed
leaves without the `wakeup(&p->nread)` for the bytes it stored.  `Announced` excludes that.
-/

namespace Xv6.Pipe

open Sched (Slot)
open Sleep (Monitor Section Assertions Instr)

/-! ## Assertions -/

def Shared.Good (d : Shared) : Prop :=
  d.pipe.ring.count ≤ pipeSize ∧ d.stored = d.taken.map Prod.snd ++ d.pipe.ring.contents

/-- There are no descriptors of an end that is closed. -/
def Shared.Counted (d : Shared) : Prop := ∀ w, d.pipe.isOpen w = false → ∀ q, d.fds w q = 0

def Pc.held : Pc → Bool
  | .write pc _ _ _ => pc ≠ .acquire
  | .read pc _ _ => pc ≠ .acquire ∧ pc ≠ .ret
  | .close _ pc => pc ≠ .acquire ∧ pc ≠ .free
  | _ => false

def Pc.has (d : Shared) (p : Slot) : Pc → Prop
  | .write _ _ i told => told ≤ i ∧ 0 < d.fds true p
  | .read _ _ _ => 0 < d.fds false p
  | .close w _ => ∀ q, d.fds w q = 0
  | .drop w | .dup w => 0 < d.fds w p
  | _ => True

/-- Where `piperead` has not come to copying. -/
def ReadPc.waits : ReadPc → Bool
  | .acquire | .empty | .check | .sleep | .fail => true
  | _ => false

/-- What a call has copied to the buffer of its caller so far. -/
def Pc.got : Pc → List Byte
  | .read _ _ got => got
  | _ => []

def Pc.Waits : Pc → Prop
  | .read pc _ got => pc.waits = true → got = []
  | _ => True

/-- What process `p` took out of the pipe was returned by its calls, or is in the buffer of the call
that it is in, at `k`. -/
def Shared.Handed (d : Shared) (p : Slot) (k : Pc) : Prop :=
  d.takenBy p = (d.returned p).flatten ++ k.got

def Pc.fact (d : Shared) : Pc → Prop
  | .write .check _ _ _ => d.pipe.ring.Full
  | .write .tell _ _ _ | .write .sleep _ _ _ => d.pipe.ring.Full ∧ d.pipe.readopen = true
  | .write .store _ _ _ => ¬ d.pipe.ring.Full
  | .read .check _ _ | .read .sleep _ _ => d.pipe.ring.Empty ∧ d.pipe.writeopen = true
  | .read .take _ _ => ¬ d.pipe.ring.Empty
  | _ => True

inductive Watch
  | bytes
  | readers
  | writers

def Watch.monitor : Watch → Monitor Unit Chan Shared
  | bytes => ⟨(), .nread, fun _ => false⟩
  | readers => ⟨(), .nread,
      fun d => d.pipe.readopen && (!decide d.pipe.ring.Empty || !d.pipe.writeopen)⟩
  | writers => ⟨(), .nwrite, fun d => !decide d.pipe.ring.Full || !d.pipe.readopen⟩

/-- Where `pipewrite` may still owe the readers a wake-up. -/
def WritePc.owes : WritePc → Bool
  | .sleep | .release | .fail => false
  | _ => true

/-- Where `piperead` may still owe the writers a wake-up. -/
def ReadPc.owes : ReadPc → Bool
  | .loop | .test | .take | .wake => true
  | _ => false

/-- The wake-ups the section may still owe. -/
def Watch.duty (d : Shared) (o : Section) : Watch → Pc → Prop
  | bytes, _ => True
  | readers, .write pc _ i told => o.changed = true → o.told = true ∨
      pc.owes = true ∧ told < i ∧ d.pipe.readopen = true
  | readers, .close true .wake => True
  | writers, .read pc _ _ => o.changed = true → o.told = true ∨ pc.owes = true
  | writers, .close false .wake => True
  | _, _ => o.changed = true → o.told = true

def outline (v : Watch) : Assertions Chan Pc Shared where
  held := Pc.held
  inv := Shared.Good
  asn _ k d o := d.Good ∧ k.fact d ∧ v.duty d o k
  own p k d := d.Counted ∧ k.has d p ∧ d.Handed p k ∧ k.Waits
  via c k := c = .nread → ∃ n got, k = .read .empty n got

/-- No writer is killed that has stored bytes since its last `wakeup(&p->nread)`, when it comes to
look at its `killed` flag. -/
def Announced : Slot → Pc → Bool → Prop
  | _, .write .check _ i told, killed => told < i → killed = false
  | _, _, _ => True

def Watch.allow : Watch → Slot → Pc → Bool → Prop
  | readers => Announced
  | _ => fun _ _ _ => True

/-! ## The ring -/

section Ring

variable {d : Shared}

theorem Shared.Good.push {b : Byte} (good : d.Good) (room : ¬ d.pipe.ring.Full) :
    Shared.Good { d with
      pipe := { d.pipe with ring := d.pipe.ring.push b }
      stored := d.stored ++ [b] } := by
  have lt : d.pipe.ring.count < pipeSize :=
    lt_of_le_of_ne good.1 fun eq => room ((Fifo.count_eq_size (by decide)).mp eq)
  refine ⟨?_, ?_⟩
  · change (d.pipe.ring.push b).count ≤ pipeSize
    have small : pipeSize < 2 ^ 32 := by decide
    rw [Fifo.count_push _ (by omega)]
    exact lt
  · change d.stored ++ [b] = d.taken.map Prod.snd ++ (d.pipe.ring.push b).contents
    rw [Fifo.contents_push (by decide) (by decide) lt, good.2, List.append_assoc]

theorem Shared.Good.pop (p : Slot) (good : d.Good) (some : ¬ d.pipe.ring.Empty) :
    Shared.Good { d with
      pipe := { d.pipe with ring := d.pipe.ring.pop }
      taken := d.taken ++ [(p, d.pipe.ring.head)] } := by
  refine ⟨?_, ?_⟩
  · change d.pipe.ring.pop.count ≤ pipeSize
    have := Fifo.count_pop some
    have := good.1
    omega
  · change d.stored = (d.taken ++ [(p, d.pipe.ring.head)]).map Prod.snd ++ d.pipe.ring.pop.contents
    rw [good.2, Fifo.contents_pop some, List.map_append, List.append_assoc]
    rfl

end Ring

/-! ## The outline fits -/

variable {v : Watch} {p : Slot} {k : Pc}

theorem settled_of_duty {d : Shared} {o : Section} (duty : v.duty d o k)
    (paid : v = .bytes ∨ (v.duty d o k → o.changed = true → o.told = true)) :
    v.monitor.Settled d o := by
  intro holds changed
  rcases paid with rfl | paid
  · cases holds
  · exact paid duty changed

theorem stable_of_pipe {d d' : Shared} (pipe : d'.pipe = d.pipe) (stored : d'.stored = d.stored)
    (taken : d'.taken = d.taken) : (outline v).Stable v.monitor d d' := by
  obtain ⟨pipe₁, fds₁, stored₁, taken₁, returned₁, freed₁⟩ := d
  obtain ⟨pipe₂, fds₂, stored₂, taken₂, returned₂, freed₂⟩ := d'
  dsimp only at pipe stored taken
  subst pipe stored taken
  exact ⟨id, fun q k o asn => ⟨asn.1, asn.2.1, by cases v <;> exact asn.2.2⟩, by cases v <;> rfl⟩

theorem has_of_fds {d d' : Shared} {q : Slot} (mine : ∀ w, 0 < d.fds w q → 0 < d'.fds w q)
    (none : ∀ w, (∀ r, d.fds w r = 0) → ∀ r, d'.fds w r = 0) (has : k.has d q) : k.has d' q := by
  cases k with
  | write pc addr i told => exact ⟨has.1, mine _ has.2⟩
  | read pc n got => exact mine _ has
  | close w pc => exact none w has
  | drop w => exact mine w has
  | dup w => exact mine w has
  | _ => trivial

theorem write_fits (addr : List Byte) (i told : Nat) (pc : WritePc) :
    (outline v).Fits v.monitor v.allow p (.write pc addr i told) (pipewrite addr i told pc) := by
  cases pc with
  | acquire =>
    refine ⟨rfl, rfl, fun d good own => ⟨⟨good, trivial, ?_⟩, own⟩⟩
    cases v <;> simp [Watch.duty, Section.fresh]
  | loop =>
    refine Assertions.fits_test rfl fun d b o _ own asn => ?_
    by_cases more : i < addr.length
    · simp only [more, if_true]
      exact ⟨rfl, own, asn.1, trivial, by cases v <;> exact asn.2.2⟩
    · simp only [more, if_false]
      exact ⟨rfl, own, asn.1, trivial, by cases v <;> exact asn.2.2⟩
  | full =>
    refine Assertions.fits_test rfl fun d b o _ own asn => ?_
    by_cases full : d.pipe.ring.Full
    · simp only [full, if_true]
      exact ⟨rfl, own, asn.1, full, by cases v <;> exact asn.2.2⟩
    · simp only [full, if_false]
      exact ⟨rfl, own, asn.1, full, by cases v <;> exact asn.2.2⟩
  | check =>
    refine Assertions.fits_test rfl fun d b o allowed own asn => ?_
    by_cases leaves : d.pipe.readopen = false ∨ b = true
    · simp only [leaves, if_true]
      refine ⟨rfl, own, asn.1, trivial, ?_⟩
      cases v with
      | bytes => trivial
      | writers => exact asn.2.2
      | readers =>
        -- neither reason to leave is there if the section owes a wake-up
        intro changed
        rcases asn.2.2 changed with told | ⟨_, lt, opened⟩
        · exact .inl told
        · rcases leaves with closed | killed
          · simp [opened] at closed
          · simp [allowed lt] at killed
    · simp only [leaves, if_false]
      refine ⟨rfl, own, asn.1, ⟨asn.2.1, by simpa using fun h => leaves (.inl h)⟩, ?_⟩
      cases v <;> exact asn.2.2
  | tell =>
    refine ⟨rfl, fun d own => ⟨own.1, ⟨le_refl i, own.2.1.2⟩, own.2.2⟩,
      fun d o _ asn _ => ⟨asn.1, asn.2.1, ?_⟩⟩
    cases v with
    | bytes => trivial
    | writers => exact asn.2.2
    | readers => exact fun _ => .inl rfl
  | sleep =>
    refine ⟨rfl, rfl, fun eq => (by cases eq), fun d o asn own => ⟨asn.1, ?_, fun eq => ?_, own⟩,
      fun d good own => ⟨good, trivial, ?_⟩⟩
    · refine settled_of_duty asn.2.2 ?_
      cases v <;> simp [Watch.duty, WritePc.owes]
    · cases v with
      | bytes => rfl
      | readers => cases eq
      | writers => simp [Watch.monitor, asn.2.1.1, asn.2.1.2]
    · cases v <;> simp [Watch.duty, Section.fresh]
  | store =>
    intro d b o _ own asn
    obtain ⟨good, room, duty⟩ := asn rfl
    refine ⟨rfl, ⟨own.1, ⟨Nat.le_succ_of_le own.2.1.1, own.2.1.2⟩, own.2.2⟩, fun q k _ own => own,
      fun _ => ⟨good.push room, trivial, ?_⟩, fun out => by cases out⟩
    cases v with
    | bytes => trivial
    | readers =>
      intro changed
      rw [Monitor.change_told]
      rcases Monitor.of_change changed with before | ⟨_, holds⟩
      · rcases duty before with told | ⟨_, lt, opened⟩
        · exact .inl told
        · exact .inr ⟨rfl, Nat.lt_succ_of_lt lt, opened⟩
      · have opened : d.pipe.readopen = true := by
          simp only [Watch.monitor, Bool.and_eq_true] at holds
          exact holds.1
        exact .inr ⟨rfl, Nat.lt_succ_of_le own.2.1.1, opened⟩
    | writers =>
      intro changed
      rw [Monitor.change_told]
      rcases Monitor.of_change changed with before | ⟨not, _⟩
      · exact duty before
      · simp [Watch.monitor] at not
        exact absurd not.1 room
  | wake =>
    refine ⟨rfl, fun d own => ⟨own.1, ⟨le_refl i, own.2.1.2⟩, own.2.2⟩,
      fun d o _ asn _ => ⟨asn.1, trivial, ?_⟩⟩
    cases v with
    | bytes => trivial
    | writers => exact asn.2.2
    | readers => exact fun _ => .inl rfl
  | release =>
    refine ⟨rfl, rfl, fun d o asn own => ⟨asn.1, settled_of_duty asn.2.2 ?_, own.1, trivial,
      own.2.2⟩⟩
    cases v <;> simp [Watch.duty, WritePc.owes]
  | fail =>
    refine ⟨rfl, rfl, fun d o asn own => ⟨asn.1, settled_of_duty asn.2.2 ?_, own.1, trivial,
      own.2.2⟩⟩
    cases v <;> simp [Watch.duty, WritePc.owes]

theorem read_fits (n : Nat) (got : List Byte) (pc : ReadPc) :
    (outline v).Fits v.monitor v.allow p (.read pc n got) (piperead p n got pc) := by
  cases pc with
  | acquire =>
    refine ⟨rfl, rfl, fun d good own => ⟨⟨good, trivial, ?_⟩, own⟩⟩
    cases v <;> simp [Watch.duty, Section.fresh]
  | empty =>
    refine Assertions.fits_test rfl fun d b o _ own asn => ?_
    by_cases waits : d.pipe.ring.Empty ∧ d.pipe.writeopen = true
    · simp only [waits]
      exact ⟨rfl, own, asn.1, waits, by cases v <;> exact asn.2.2⟩
    · simp only [waits, if_false]
      refine ⟨rfl, ⟨own.1, own.2.1, own.2.2.1, Bool.noConfusion⟩, asn.1, trivial, ?_⟩
      cases v with
      | bytes => trivial
      | readers => exact asn.2.2
      | writers => exact fun _ => .inr rfl
  | check =>
    refine Assertions.fits_test rfl fun d b o _ own asn => ?_
    by_cases killed : b = true
    · simp only [killed, if_true]
      exact ⟨rfl, own, asn.1, trivial, by cases v <;> exact asn.2.2⟩
    · simp only [killed]
      exact ⟨rfl, own, asn.1, asn.2.1, by cases v <;> exact asn.2.2⟩
  | sleep =>
    refine ⟨rfl, rfl, fun _ => ⟨n, got, rfl⟩, fun d o asn own => ⟨asn.1, ?_, fun eq => ?_, own⟩,
      fun d good own => ⟨good, trivial, ?_⟩⟩
    · refine settled_of_duty asn.2.2 ?_
      cases v <;> simp [Watch.duty, ReadPc.owes]
    · cases v with
      | bytes => rfl
      | readers => simp [Watch.monitor, asn.2.1.1, asn.2.1.2]
      | writers => cases eq
    · cases v <;> simp [Watch.duty, Section.fresh]
  | loop =>
    refine Assertions.fits_test rfl fun d b o _ own asn => ?_
    by_cases more : got.length < n
    · simp only [more, if_true]
      exact ⟨rfl, own, asn.1, trivial, by cases v <;> exact asn.2.2⟩
    · simp only [more, if_false]
      exact ⟨rfl, own, asn.1, trivial, by cases v <;> exact asn.2.2⟩
  | test =>
    refine Assertions.fits_test rfl fun d b o _ own asn => ?_
    by_cases empty : d.pipe.ring.Empty
    · simp only [empty, if_true]
      exact ⟨rfl, own, asn.1, trivial, by cases v <;> exact asn.2.2⟩
    · simp only [empty, if_false]
      exact ⟨rfl, own, asn.1, empty, by cases v <;> exact asn.2.2⟩
  | take =>
    intro d b o _ own asn
    obtain ⟨good, some, duty⟩ := asn rfl
    refine ⟨rfl, ⟨own.1, own.2.1, ?_, Bool.noConfusion⟩, fun q k ne own =>
      ⟨own.1, has_of_fds (fun _ => id) (fun _ => id) own.2.1, ?_, own.2.2.2⟩,
      fun _ => ⟨good.pop p some, trivial, ?_⟩, fun out => by cases out⟩
    · have before : d.takenBy p = (d.returned p).flatten ++ got := own.2.2.1
      simp only [Shared.Handed, Pc.got, ← List.append_assoc, ← before]
      simp [Shared.takenBy]
    · have before := own.2.2.1
      simpa [Shared.Handed, Shared.takenBy, ne.symm] using before
    cases v with
    | bytes => trivial
    | writers => exact fun _ => .inr rfl
    | readers =>
      intro changed
      rw [Monitor.change_told]
      rcases Monitor.of_change changed with before | ⟨not, holds⟩
      · exact duty before
      · -- the pipe was not empty before
        have some : ¬ d.pipe.ring.Empty := some
        simp only [Watch.monitor, Bool.and_eq_true] at holds
        simp [Watch.monitor, holds.1, some] at not
  | wake =>
    refine ⟨rfl, fun d own => own, fun d o _ asn _ => ⟨asn.1, trivial, ?_⟩⟩
    cases v with
    | bytes => trivial
    | readers => exact asn.2.2
    | writers => exact fun _ => .inl rfl
  | release =>
    refine ⟨rfl, rfl, fun d o asn own => ⟨asn.1, settled_of_duty asn.2.2 ?_, own⟩⟩
    cases v <;> simp [Watch.duty, ReadPc.owes]
  | ret =>
    intro d b o _ own _
    refine ⟨rfl, ⟨own.1, trivial, ?_, trivial⟩, fun q k ne own =>
      ⟨own.1, has_of_fds (fun _ => id) (fun _ => id) own.2.1, ?_, own.2.2.2⟩,
      fun held => (by cases held), fun _ => stable_of_pipe rfl rfl rfl⟩
    · have before : d.takenBy p = (d.returned p).flatten ++ got := own.2.2.1
      have same : d.takenBy p = (d.returned p ++ [got]).flatten := by simpa using before
      simpa [Shared.Handed, Shared.takenBy, Pc.got] using same
    · have before := own.2.2.1
      simpa [Shared.Handed, Shared.takenBy, ne] using before
  | fail =>
    refine ⟨rfl, rfl, fun d o asn own => ⟨asn.1, settled_of_duty asn.2.2 ?_, own.1, trivial, ?_,
      trivial⟩⟩
    · cases v <;> simp [Watch.duty, ReadPc.owes]
    · have before := own.2.2.1
      rwa [own.2.2.2 rfl] at before

theorem close_fits (w : Bool) (pc : ClosePc) :
    (outline v).Fits v.monitor v.allow p (.close w pc) (pipeclose w pc) := by
  cases pc with
  | acquire =>
    refine ⟨rfl, rfl, fun d good own => ⟨⟨good, trivial, ?_⟩, own⟩⟩
    cases v <;> cases w <;> simp [Watch.duty, Section.fresh]
  | clear =>
    intro d b o _ own asn
    obtain ⟨good, _, duty⟩ := asn rfl
    have counted : Shared.Counted { d with pipe :=
        if w then { d.pipe with writeopen := false } else { d.pipe with readopen := false } } := by
      intro w' closed
      cases w <;> cases w' <;> first | exact own.2.1 | exact own.1 _ closed
    refine ⟨rfl, ⟨counted, own.2⟩, fun q k _ own => ⟨counted, own.2⟩, fun _ => ⟨?_, trivial, ?_⟩,
      fun out => by cases out⟩
    · cases w <;> exact good
    · cases v with
      | bytes => trivial
      | readers =>
        cases w with
        | true => trivial
        | false =>
          intro changed
          rw [Monitor.change_told]
          rcases Monitor.of_change changed with before | ⟨_, holds⟩
          · exact duty before
          · simp [Watch.monitor] at holds
      | writers =>
        cases w with
        | false => trivial
        | true =>
          intro changed
          rw [Monitor.change_told]
          rcases Monitor.of_change changed with before | ⟨not, holds⟩
          · exact duty before
          · simp only [Watch.monitor, if_true] at not holds
            simp [not] at holds
  | wake =>
    refine ⟨rfl, fun d own => own, fun d o _ asn _ => ⟨asn.1, trivial, ?_⟩⟩
    cases v with
    | bytes => trivial
    | readers =>
        cases w with
        | true => exact fun _ => rfl
        | false => exact asn.2.2
    | writers =>
        cases w with
        | true => exact asn.2.2
        | false => exact fun _ => rfl
  | test =>
    refine Assertions.fits_test rfl fun d b o _ own asn => ?_
    by_cases both : d.pipe.readopen = false ∧ d.pipe.writeopen = false
    · simp only [both, and_self, if_true]
      exact ⟨rfl, own, asn.1, trivial, by cases v <;> cases w <;> exact asn.2.2⟩
    · simp only [both, if_false]
      exact ⟨rfl, own, asn.1, trivial, by cases v <;> cases w <;> exact asn.2.2⟩
  | release =>
    refine ⟨rfl, rfl, fun d o asn own => ⟨asn.1, settled_of_duty asn.2.2 ?_, own.1, trivial,
      own.2.2⟩⟩
    cases v <;> cases w <;> simp [Watch.duty]
  | freeRelease =>
    refine ⟨rfl, rfl, fun d o asn own => ⟨asn.1, settled_of_duty asn.2.2 ?_, own⟩⟩
    cases v <;> cases w <;> simp [Watch.duty]
  | free =>
    intro d b o _ own _
    exact ⟨rfl, ⟨own.1, trivial, own.2.2⟩, fun q k _ own => own, fun held => (by cases held),
      fun _ => stable_of_pipe rfl rfl rfl⟩

theorem startable_has {d : Shared} (start : k.startable d p = true) :
    k.held = false ∧ k.has d p ∧ k.got = [] ∧ k.Waits := by
  unfold Pc.startable at start
  split at start
  · exact ⟨rfl, ⟨le_refl 0, of_decide_eq_true start⟩, rfl, trivial⟩
  · exact ⟨rfl, (of_decide_eq_true start :), rfl, fun _ => rfl⟩
  · exact ⟨rfl, (of_decide_eq_true start :), rfl, trivial⟩
  · exact ⟨rfl, (of_decide_eq_true start :), rfl, trivial⟩
  · exact ⟨rfl, trivial, rfl, trivial⟩
  · exact ⟨rfl, trivial, rfl, trivial⟩
  · cases start

theorem outline_fits (p : Slot) (k : Pc) :
    (outline v).Fits v.monitor v.allow p k (pipes p k) := by
  cases k with
  | idle ret =>
    refine ⟨rfl, fun d k start => ?_⟩
    obtain ⟨out, has, none, waits⟩ := startable_has start
    exact ⟨out, fun own => ⟨own.1, has, own.2.2.1.trans (by rw [none]; rfl), waits⟩⟩
  | write pc addr i told => exact write_fits addr i told pc
  | read pc n got => exact read_fits n got pc
  | close w pc => exact close_fits w pc
  | drop w =>
    intro d b o _ own _
    have less : ∀ w' r, (d.setFds w p (d.fds w p - 1)).fds w' r ≤ d.fds w' r := by
      intro w' r
      simp only [Shared.setFds]
      split
      · rename_i eq
        rw [eq.1, eq.2]
        exact Nat.sub_le _ _
      · exact le_refl _
    have none : ∀ w', (∀ r, d.fds w' r = 0) →
        ∀ r, (d.setFds w p (d.fds w p - 1)).fds w' r = 0 := fun w' zero r =>
      Nat.le_zero.mp (zero r ▸ less w' r)
    have counted : (d.setFds w p (d.fds w p - 1)).Counted := fun w' closed =>
      none w' (own.1 w' closed)
    refine ⟨?_, ⟨counted, ?_⟩,
      fun q k ne own => ⟨counted, has_of_fds (fun w' pos => ?_) none own.2.1, own.2.2⟩,
      fun held => (by cases held), fun _ => stable_of_pipe rfl rfl rfl⟩
    · dsimp only
      split <;> rfl
    · dsimp only
      split
      · exact ⟨by assumption, own.2.2⟩
      · exact ⟨trivial, own.2.2⟩
    · simpa [Shared.setFds, ne] using pos
  | dup w =>
    intro d b o _ own _
    have pos : 0 < d.fds w p := own.2.1
    have none : ∀ w', (∀ r, d.fds w' r = 0) →
        ∀ r, (d.setFds w p (d.fds w p + 1)).fds w' r = 0 := by
      intro w' zero r
      simp only [Shared.setFds]
      split
      · rename_i eq
        rw [← eq.1, zero] at pos
        exact absurd pos (Nat.lt_irrefl 0)
      · exact zero r
    have counted : (d.setFds w p (d.fds w p + 1)).Counted := fun w' closed =>
      none w' (own.1 w' closed)
    refine ⟨rfl, ⟨counted, trivial, own.2.2⟩,
      fun q k ne own => ⟨counted, has_of_fds (fun w' pos => ?_) none own.2.1, own.2.2⟩,
      fun held => (by cases held), fun _ => stable_of_pipe rfl rfl rfl⟩
    simpa [Shared.setFds, ne] using pos
  | fork q =>
    intro d b o _ own _
    dsimp only
    split
    · rename_i fresh
      have none : ∀ w, (∀ r, d.fds w r = 0) → ∀ r,
          (if r = q then d.fds w p else d.fds w r) = 0 := by
        intro w zero r
        simp [zero]
      refine ⟨rfl, ⟨fun w closed => none w (own.1 w closed), trivial, own.2.2⟩,
        fun r k ne own => ⟨fun w closed => none w (own.1 w closed),
          has_of_fds (fun w pos => ?_) none own.2.1, own.2.2⟩,
        fun held => (by cases held), fun _ => stable_of_pipe rfl rfl rfl⟩
      have other : r ≠ q := by
        rintro rfl
        cases w <;> omega
      simpa [other] using pos
    · exact ⟨rfl, ⟨own.1, trivial, own.2.2⟩, fun q k _ own => own, fun held => (by cases held),
        fun _ => stable_of_pipe rfl rfl rfl⟩
  | kill q => exact ⟨rfl, fun d own => ⟨own.1, trivial, own.2.2⟩, fun d o held => by cases held⟩

variable {fds : Bool → Slot → Nat} {s : State}

theorem outline_reachable (reach : ((system fds).guard (Assertions.Allowed v.allow)).Reachable s) :
    ∃ o, (v.monitor.observed pipes (.init fds) (.idle 0)).Reachable (s, o) ∧
      (outline v).Inv v.monitor s o := by
  refine Assertions.reachable outline_fits rfl ?_
    (fun p => ⟨fun w closed => ?_, trivial, rfl, trivial⟩) reach
  · exact ⟨by simp [Shared.init, Fifo.count], by simp [Shared.init, Fifo.contents, Fifo.count]⟩
  · cases w <;> cases closed

/-! ## Bytes -/

/-- What was stored and not yet read is in the ring, in order: `nwrite - nread` bytes, at most
`PIPESIZE` of them.  The counters wrap around.  What each process has read is, in order, what its
calls of `piperead` have returned and what the call that it is in has copied to its buffer. -/
theorem pipe_fifo {fds : Bool → Slot → Nat} {s : State} (reach : (system fds).Reachable s) :
    (s.data.stored = s.data.taken.map Prod.snd ++ s.data.pipe.ring.contents ∧
      s.data.pipe.ring.contents.length =
        (s.data.pipe.ring.nwrite - s.data.pipe.ring.nread).toNat ∧
      (s.data.pipe.ring.nwrite - s.data.pipe.ring.nread).toNat ≤ pipeSize) ∧
    ∀ p, s.data.takenBy p = (s.data.returned p).flatten ++ (s.point p).next.got := by
  obtain ⟨o, _, inv⟩ := outline_reachable (v := .bytes) (reach.to_guard fun _ _ _ _ _ _ => trivial)
  have good : s.data.Good := inv.always (fun _ good => good) fun _ _ _ _ asn => asn.1
  exact ⟨⟨good.2, Fifo.contents_length _, good.1⟩, fun p => (inv.own p).2.2.1⟩

/-- Process 0 may write, processes 1 and 2 may read. -/
def twoReaders : Bool → Slot → Nat := fun w p =>
  if p = 0 ∧ w = true ∨ (p = 1 ∨ p = 2) ∧ w = false then 1 else 0

/-- Process 1 reads one byte, and process 2 is about to read another one. -/
def echo : List (Sleep.Act Pc) :=
  .pick 0 (.write .acquire [7, 8, 9] 0 0) :: List.replicate 79 (.run 0) ++
    .pick 1 (.read .acquire 1 []) :: List.replicate 75 (.run 1) ++
    .pick 2 (.read .acquire 4 []) :: List.replicate 5 (.run 2)

theorem pipe_fifo_echo : ∃ s, (system twoReaders).Reachable s ∧ s.data.taken = [(1, 7), (2, 8)] ∧
    s.data.stored = [7, 8] ++ [9] ∧ (s.data.returned 1).flatten = [7] ∧
    s.data.returned 2 = [] ∧ (s.point 2).next.got = [8] := by
  let run := Lts.exec (Sleep.step pipes) (fun _ => true) (.start (.init twoReaders) (.idle 0)) echo
  have final : run.map (fun s => decide (s.data.taken = [(1, 7), (2, 8)] ∧
      s.data.pipe.ring.contents = [9] ∧ s.point 1 = .code (.idle 1) ∧ s.data.returned 2 = [])) =
      some true := by
    decide +kernel
  obtain ⟨s, reached, final⟩ := Option.map_eq_some_iff.mp final
  obtain ⟨taken, contents, idle, none⟩ := of_decide_eq_true final
  have reach : (system twoReaders).Reachable s :=
    Lts.Reachable.of_exec (.init rfl) (fun _ _ _ _ step _ => step) reached
  obtain ⟨⟨stored, -⟩, handed⟩ := pipe_fifo reach
  have first := handed 1
  have second := handed 2
  rw [idle] at first
  rw [none] at second
  simp only [Shared.takenBy, taken] at first second stored
  rw [contents] at stored
  exact ⟨s, reach, taken, stored, by simpa [Sleep.Point.next, Pc.got] using first.symm, none,
    second.symm⟩

/-! ## Wake-ups -/

theorem asleep_nread (reach : ((system fds).guard (Assertions.Allowed Announced)).Reachable s)
    (free : s.lock () = none) {p : Slot} (asleep : s.Asleep p .nread) :
    s.data.pipe.ring.Empty ∧ s.data.pipe.writeopen = true := by
  obtain ⟨o, seen, inv⟩ := outline_reachable (v := .readers) reach
  obtain ⟨n, got, next⟩ := inv.asleep (Monitor.local_of_observed seen p) asleep rfl
  have own := inv.own p
  rw [next] at own
  -- a reader has a descriptor, so the read end is open
  have opened : s.data.pipe.readopen = true := by
    by_contra closed
    have none := own.1 false (by simpa [Pipe.isOpen] using closed) p
    exact absurd none (Nat.pos_iff_ne_zero.mp own.2.1)
  have waits : Watch.readers.monitor.cond s.data = false := by
    by_contra holds
    exact (Monitor.asleep_of_observed seen asleep (by simpa using holds)).1 free
  simpa [Watch.monitor, opened] using waits

theorem asleep_nwrite (reach : (system fds).Reachable s) (free : s.lock () = none) {p : Slot}
    (asleep : s.Asleep p .nwrite) : s.data.pipe.ring.Full ∧ s.data.pipe.readopen = true := by
  obtain ⟨o, seen, _⟩ :=
    outline_reachable (v := .writers) (reach.to_guard fun _ _ _ _ _ _ => trivial)
  have waits : Watch.writers.monitor.cond s.data = false := by
    by_contra holds
    exact (Monitor.asleep_of_observed seen asleep (by simpa using holds)).1 free
  simpa [Watch.monitor] using waits

/-- As long as no writer is killed that owes the readers a wake-up, whoever sleeps on a pipe has
a reason to. -/
theorem pipe_no_lost_wakeup {fds : Bool → Slot → Nat} {s : State}
    (reach : ((system fds).guard (Assertions.Allowed Announced)).Reachable s)
    (free : s.lock () = none) (p : Slot) :
    (s.Asleep p .nread → s.data.pipe.ring.Empty ∧ s.data.pipe.writeopen = true) ∧
      (s.Asleep p .nwrite → s.data.pipe.ring.Full ∧ s.data.pipe.readopen = true) :=
  ⟨asleep_nread reach free, asleep_nwrite reach.of_guard free⟩

def readerFirst : List (Sleep.Act Pc) :=
  .pick 0 (.read .acquire 1 []) :: List.replicate 9 (.run 0) ++ [.unschedule]

def twoEnds : Bool → Slot → Nat := fun w p =>
  if p = 0 ∧ w = false ∨ p = 1 ∧ w = true then 1 else 0

/-- The steps that `Announced` allows. -/
def stepAnnounced (s : State) (a : Sleep.Act Pc) : Option State :=
  match a with
  | .run p =>
    match s.point p with
    | .code (.write .check _ i told) =>
      if told < i → s.killed p = false then Sleep.step pipes s a else none
    | _ => Sleep.step pipes s a
  | _ => Sleep.step pipes s a

theorem stepAnnounced_sound {t : State} {a : Sleep.Act Pc} (step : stepAnnounced s a = some t) :
    Sleep.step pipes s a = some t ∧ Assertions.Allowed Announced s a := by
  unfold stepAnnounced at step
  cases a with
  | run p =>
    dsimp only at step
    split at step
    · rename_i here
      split at step
      · rename_i allowed
        refine ⟨step, fun q k eq point => ?_⟩
        cases eq
        cases here.symm.trans point
        exact allowed
      · cases step
    · rename_i away
      refine ⟨step, fun q k eq point => ?_⟩
      cases eq
      unfold Announced
      split
      · exact absurd point (away _ _ _)
      · trivial
  | _ => exact ⟨step, fun q k eq => by cases eq⟩

/-- The writer has more bytes than the pipe has room for. -/
def fill : Sleep.Act Pc := .pick 1 (.write .acquire (List.replicate (pipeSize + 1) 0) 0 0)

/-- The reader is woken up by a writer that finds the pipe full, and sleeps then. -/
theorem pipe_no_lost_wakeup_writer : ∃ s,
    ((system twoEnds).guard (Assertions.Allowed Announced)).Reachable s ∧ s.lock () = none ∧
      s.state 0 = .runnable ∧ s.Asleep 1 .nwrite ∧ s.data.pipe.ring.Full ∧
      s.data.pipe.readopen = true := by
  let run := Lts.exec stepAnnounced (fun _ => true) (.start (.init twoEnds) (.idle 0))
    (readerFirst ++ fill :: List.replicate 1613 (.run 1) ++ [.unschedule])
  have final : run.map (fun s => decide (s.lock () = none ∧ s.state 0 = .runnable ∧
      s.state 1 = .sleeping ∧ s.chan 1 = some .nwrite)) = some true := by
    decide +kernel
  obtain ⟨s, reached, final⟩ := Option.map_eq_some_iff.mp final
  obtain ⟨free, ready, asleep⟩ := of_decide_eq_true final
  have reach : ((system twoEnds).guard (Assertions.Allowed Announced)).Reachable s :=
    Lts.Reachable.of_exec (.init rfl) (fun _ _ _ _ step _ => stepAnnounced_sound step) reached
  exact ⟨s, reach, free, ready, asleep, (pipe_no_lost_wakeup reach free 1).2 asleep⟩

/-- Process 1 fills the pipe of the sleeping process 0, is killed meanwhile by process 2 and
leaves. -/
theorem pipe_lost_wakeup : ∃ s, (system twoEnds).Reachable s ∧ s.lock () = none ∧
    s.Asleep 0 .nread ∧ ¬ s.data.pipe.ring.Empty ∧ s.data.pipe.writeopen = true := by
  let run := Lts.exec (Sleep.step pipes) (fun _ => true) (.start (.init twoEnds) (.idle 0))
    (readerFirst ++ [fill, .run 1] ++ .pick 2 (.kill 1) :: List.replicate 5 (.run 2) ++
      List.replicate 1540 (.run 1))
  have final : run.map (fun s => decide (s.lock () = none ∧ (s.state 0 = .sleeping ∧
      s.chan 0 = some .nread) ∧ ¬ s.data.pipe.ring.Empty ∧ s.data.pipe.writeopen = true)) =
      some true := by
    decide +kernel
  obtain ⟨s, reached, final⟩ := Option.map_eq_some_iff.mp final
  have reach : (system twoEnds).Reachable s :=
    Lts.Reachable.of_exec (.init rfl) (fun _ _ _ _ step _ => step) reached
  obtain ⟨free, asleep, some, opened⟩ := of_decide_eq_true final
  exact ⟨s, reach, free, asleep, some, opened⟩

end Xv6.Pipe
