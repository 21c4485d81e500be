import Xv6.Lib.Lts
import Xv6.Lib.Prog
import Mathlib.Logic.Function.Basic

/-!
# Code and threads

A `Code` is a program over a set of atomic operations: it ends with a value, or performs an
operation and goes on with the result.  What an operation does to the state is given separately, by
a function `exec` that has no outcome when the operation has to wait.  `Pool.lts` has the
interleavings of any number of threads that start calls and run them.

A `Logic` verifies code thread by thread.  Each thread has a ghost of its own, and an operation is
specified by what it asks of the ghost of its thread and what it makes of it.  `Pool.Sound` ties
the ghosts to the states; then it is enough to verify each call by itself (`Pool.verified`).
-/

inductive Code (Op : Type) (Res : Op → Type) (α : Type)
  | done (a : α)
  | call (o : Op) (k : Res o → Code Op Res α)

namespace Code

variable {Op : Type} {Res : Op → Type} {α β : Type}

def bind : Code Op Res α → (α → Code Op Res β) → Code Op Res β
  | done a, f => f a
  | call o k, f => call o fun r => (k r).bind f

instance : Monad (Code Op Res) where
  pure := done
  bind := bind

def op (o : Op) : Code Op Res (Res o) := call o done

theorem bind_assoc {γ : Type} (c : Code Op Res α) (f : α → Code Op Res β) (g : β → Code Op Res γ) :
    ((c >>= f) >>= g) = c >>= fun a => f a >>= g := by
  change (c.bind f).bind g = c.bind fun a => (f a).bind g
  induction c with
  | done a => rfl
  | call o k ih => exact congrArg (call o) (funext ih)

/-! ## One program alone -/

variable {σ : Type} (exec : (o : Op) → σ → Option (Res o × σ))

def run : Code Op Res α → σ → Option (α × σ)
  | done a, s => some (a, s)
  | call o k, s =>
    match exec o s with
    | some (r, t) => (k r).run t
    | none => none

def prog {ε : Type} (exec : (o : Op) → Prog ε σ (Res o)) : Code Op Res α → Prog ε σ α
  | done a => pure a
  | call o k => exec o >>= fun r => (k r).prog exec

section

variable {ε : Type} {exec : (o : Op) → Prog ε σ (Res o)} {E : ε → Prop} {s : σ}

theorem within_prog_call (o : Op) (k : Res o → Code Op Res α) (Q : α → σ → Prop) :
    Within E ((call o k).prog exec) s Q ↔
      Within E (exec o) s fun r t => Within E ((k r).prog exec) t Q := within_bind ..

theorem within_prog_bind (c : Code Op Res α) (f : α → Code Op Res β) (Q : β → σ → Prop) :
    Within E ((c >>= f).prog exec) s Q ↔
      Within E (c.prog exec) s fun a t => Within E ((f a).prog exec) t Q := by
  change Within E ((c.bind f).prog exec) s Q ↔ _
  induction c generalizing s with
  | done a => exact Iff.rfl
  | call o k ih =>
    rw [bind, within_prog_call, within_prog_call]
    constructor
    · exact fun first => first.mono (fun _ => id) fun r t => (ih r).mp
    · exact fun first => first.mono (fun _ => id) fun r t => (ih r).mpr

end

end Code

/-- Specifications of the operations, as predicate transformers on ghosts. -/
structure Logic (Op : Type) (Res : Op → Type) (G : Type) where
  spec : (o : Op) → G → (Res o → G → Prop) → Prop
  mono : ∀ {o g} {Q R : Res o → G → Prop}, (∀ r h, Q r h → R r h) → spec o g Q → spec o g R

namespace Code

variable {Op : Type} {Res : Op → Type} {α β G : Type} (L : Logic Op Res G)

/-- Run from a thread with the ghost `g`, the code keeps to the specifications and ends with `Q`. -/
def wp : Code Op Res α → G → (α → G → Prop) → Prop
  | done a, g, Q => Q a g
  | call o k, g, Q => L.spec o g fun r h => (k r).wp h Q

variable {L}

@[simp] theorem wp_pure (a : α) (g : G) (Q : α → G → Prop) :
    (pure a : Code Op Res α).wp L g Q ↔ Q a g := Iff.rfl

@[simp] theorem wp_bind (c : Code Op Res α) (f : α → Code Op Res β) (g : G) (Q : β → G → Prop) :
    (c >>= f).wp L g Q ↔ c.wp L g fun a h => (f a).wp L h Q := by
  change (c.bind f).wp L g Q ↔ _
  induction c generalizing g with
  | done a => exact Iff.rfl
  | call o k ih =>
    simp only [bind, wp]
    exact ⟨L.mono fun r h => (ih r h).mp, L.mono fun r h => (ih r h).mpr⟩

theorem wp.bind {c : Code Op Res α} {f : α → Code Op Res β} {g : G} {Q : β → G → Prop}
    (first : c.wp L g fun a h => (f a).wp L h Q) : (c >>= f).wp L g Q := (wp_bind ..).mpr first

theorem wp_mono {c : Code Op Res α} {g : G} {Q R : α → G → Prop} (imp : ∀ a h, Q a h → R a h)
    (safe : c.wp L g Q) : c.wp L g R := by
  induction c generalizing g with
  | done a => exact imp a g safe
  | call o k ih => exact L.mono (fun r h => ih r) safe

end Code

/-! ## Threads -/

/-- What the threads `P` may do: the calls they start, the code of a call, the operations. -/
structure Pool (P Call Op : Type) (Res : Op → Type) (ρ σ : Type) where
  allowed : σ → P → Call → Prop
  body : Call → Code Op Res ρ
  exec : P → (o : Op) → σ → Option (Res o × σ)

/-- The shared state, and of each thread what is left of the call it is in. -/
structure Threads (P Op : Type) (Res : Op → Type) (ρ σ : Type) where
  shared : σ
  code : P → Option (Code Op Res ρ)

namespace Pool

variable {P Call Op : Type} {Res : Op → Type} {ρ σ G : Type} [DecidableEq P]

/-- A thread starts a call, performs an operation of it, or leaves it with its result. -/
inductive Act (P Call ρ : Type)
  | start (p : P) (c : Call)
  | op (p : P)
  | leave (p : P) (r : ρ)

inductive Step (M : Pool P Call Op Res ρ σ) :
    Threads P Op Res ρ σ → Act P Call ρ → Threads P Op Res ρ σ → Prop
  | start {s : Threads P Op Res ρ σ} {p : P} {c : Call} :
      s.code p = none → M.allowed s.shared p c →
      Step M s (.start p c) { s with code := Function.update s.code p (some (M.body c)) }
  | op {s : Threads P Op Res ρ σ} {p : P} {o : Op} {k : Res o → Code Op Res ρ} {r : Res o} {t : σ} :
      s.code p = some (.call o k) → M.exec p o s.shared = some (r, t) →
      Step M s (.op p) ⟨t, Function.update s.code p (some (k r))⟩
  | leave {s : Threads P Op Res ρ σ} {p : P} {r : ρ} :
      s.code p = some (.done r) →
      Step M s (.leave p r) { s with code := Function.update s.code p none }

/-- The interleavings of the threads from the shared states `init`. -/
def lts (M : Pool P Call Op Res ρ σ) (init : σ → Prop) :
    Lts (Threads P Op Res ρ σ) (Act P Call ρ) where
  init s := init s.shared ∧ ∀ p, s.code p = none
  step := M.Step

def Quiet (s : Threads P Op Res ρ σ) : Prop := ∀ p, s.code p = none

/-- Only the calls `calls` are started and only the operations `ops` are performed. -/
def within (M : Pool P Call Op Res ρ σ) (calls : σ → P → Call → Prop) (ops : σ → P → Op → Prop)
    [∀ s p o, Decidable (ops s p o)] : Pool P Call Op Res ρ σ where
  allowed s p c := M.allowed s p c ∧ calls s p c
  body := M.body
  exec p o s := if ops s p o then M.exec p o s else none

section Run

variable {M : Pool P Call Op Res ρ σ} {init : σ → Prop} {p : P}

omit [DecidableEq P] in
theorem within_exec {calls : σ → P → Call → Prop} {ops : σ → P → Op → Prop}
    [∀ s p o, Decidable (ops s p o)] {o : Op} {s : σ} {x : Res o × σ} :
    (M.within calls ops).exec p o s = some x ↔ ops s p o ∧ M.exec p o s = some x := by
  unfold within
  dsimp only
  split
  · simp [*]
  · simp [*]

variable {t : σ}

theorem reachable_run {c : Code Op Res ρ} {s : Threads P Op Res ρ σ} {r : ρ}
    (reach : (M.lts init).Reachable s) (code : s.code p = some c)
    (ran : c.run (M.exec p) s.shared = some (r, t)) :
    (M.lts init).Reachable ⟨t, Function.update s.code p none⟩ := by
  induction c generalizing s with
  | done a =>
    cases ran
    exact .step reach (.leave code)
  | call o k ih =>
    simp only [Code.run] at ran
    split at ran
    · rename_i v u eq
      have first : (M.lts init).Reachable ⟨u, Function.update s.code p (some (k v))⟩ :=
        .step reach (.op code eq)
      have last := ih v first (by simp) ran
      simpa using last
    · cases ran

/-- A call run alone, from a state in which all threads are at rest. -/
theorem reachable_call {c : Call} {s : σ} {r : ρ}
    (reach : (M.lts init).Reachable ⟨s, fun _ => none⟩) (allowed : M.allowed s p c)
    (ran : (M.body c).run (M.exec p) s = some (r, t)) :
    (M.lts init).Reachable ⟨t, fun _ => none⟩ := by
  have begun : (M.lts init).Reachable ⟨s, Function.update (fun _ => none) p (some (M.body c))⟩ :=
    .step reach (.start rfl allowed)
  have last := reachable_run begun (by simp) ran
  have idle : Function.update (Function.update (fun _ => none) p (some (M.body c))) p none =
      fun _ : P => (none : Option (Code Op Res ρ)) := by
    rw [Function.update_idem]
    exact Function.update_eq_self p _
  rw [idle] at last
  exact last

/-- The operations, as a function; calls that start or end are left out. -/
def next (M : Pool P Call Op Res ρ σ) (s : Threads P Op Res ρ σ) :
    Act P Call ρ → Option (Threads P Op Res ρ σ)
  | .op p =>
    match s.code p with
    | some (.call o k) =>
      (M.exec p o s.shared).map fun x => ⟨x.2, Function.update s.code p (some (k x.1))⟩
    | _ => none
  | _ => none

theorem step_of_next {s t : Threads P Op Res ρ σ} {a : Act P Call ρ} (next : M.next s a = some t) :
    M.Step s a t := by
  cases a with
  | op p =>
    simp only [Pool.next] at next
    split at next
    · rename_i code
      obtain ⟨x, ran, rfl⟩ := Option.map_eq_some_iff.mp next
      exact .op code ran
    · cases next
  | start p c => cases next
  | leave p r => cases next

def serial (M : Pool P Call Op Res ρ σ) (init : σ → Prop) : Lts σ (P × Call) where
  init := init
  step s x t := M.allowed s x.1 x.2 ∧ ∃ r, (M.body x.2).run (M.exec x.1) s = some (r, t)

theorem reachable_of_serial {s : σ} (reach : (M.serial init).Reachable s) :
    (M.lts init).Reachable ⟨s, fun _ => none⟩ := by
  induction reach with
  | init start => exact .init ⟨start, fun _ => rfl⟩
  | step _ step ih =>
    obtain ⟨allowed, r, ran⟩ := step
    exact reachable_call ih allowed ran

def whole (M : Pool P Call Op Res ρ σ) [∀ s p c, Decidable (M.allowed s p c)] (s : σ)
    (x : P × Call) :
    Option σ :=
  if M.allowed s x.1 x.2 then ((M.body x.2).run (M.exec x.1) s).map Prod.snd else none

omit [DecidableEq P] in
theorem serial_of_whole [∀ s p c, Decidable (M.allowed s p c)] {s : σ} {x : P × Call}
    (ran : M.whole s x = some t) : (M.serial init).step s x t := by
  unfold whole at ran
  split at ran
  · rename_i allowed
    obtain ⟨⟨r, u⟩, ends, rfl⟩ := Option.map_eq_some_iff.mp ran
    exact ⟨allowed, r, ends⟩
  · cases ran

end Run

/-! ## Verified calls -/

def Sound (M : Pool P Call Op Res ρ σ) (L : Logic Op Res G) (I : σ → (P → G) → Prop) : Prop :=
  ∀ {s t : σ} {γ : P → G} {p : P} {o : Op} {r : Res o} {Q : Res o → G → Prop},
    I s γ → L.spec o (γ p) Q → M.exec p o s = some (r, t) →
    ∃ h, Q r h ∧ I t (Function.update γ p h)

/-- The invariant, with each thread at rest or inside code that keeps to the specifications. -/
structure Verified (L : Logic Op Res G) (rest : G → Prop) (I : σ → (P → G) → Prop)
    (s : Threads P Op Res ρ σ) (γ : P → G) : Prop where
  inv : I s.shared γ
  idle : ∀ p, s.code p = none → rest (γ p)
  safe : ∀ p c, s.code p = some c → c.wp L (γ p) fun _ h => rest h

variable {M : Pool P Call Op Res ρ σ} {L : Logic Op Res G} {rest : G → Prop}
  {I : σ → (P → G) → Prop}

/-- A call may start with a ghost `ready` for its thread. -/
def Starts (M : Pool P Call Op Res ρ σ) (rest : G → Prop) (ready : G) (I : σ → (P → G) → Prop) :
    Prop :=
  ∀ {s : σ} {γ : P → G} {p : P} {c : Call}, I s γ → rest (γ p) → M.allowed s p c →
    I s (Function.update γ p ready)

variable {ready : G}

theorem Verified.step (sound : M.Sound L I) (starts : M.Starts rest ready I)
    (calls : ∀ c, (M.body c).wp L ready fun _ h => rest h)
    {s t : Threads P Op Res ρ σ} {γ : P → G} {a : Act P Call ρ} (ver : Verified L rest I s γ)
    (step : M.Step s a t) : ∃ γ', Verified L rest I t γ' := by
  cases step with
  | @start p c idle allowed =>
    refine ⟨Function.update γ p ready, starts ver.inv (ver.idle p idle) allowed, fun q none => ?_,
      fun q code some => ?_⟩
    · rcases eq_or_ne q p with rfl | ne
      · simp at none
      · simpa [ne] using ver.idle q (by simpa [ne] using none)
    · rcases eq_or_ne q p with rfl | ne
      · have eq : M.body c = code := by simpa using some
        simpa [← eq] using calls c
      · simpa [ne] using ver.safe q code (by simpa [ne] using some)
  | @op p o k r u code exec =>
    obtain ⟨h, safe, inv⟩ := sound ver.inv (ver.safe p _ code) exec
    refine ⟨Function.update γ p h, inv, fun q none => ?_, fun q code' some => ?_⟩
    · rcases eq_or_ne q p with rfl | ne
      · simp at none
      · simpa [ne] using ver.idle q (by simpa [ne] using none)
    · rcases eq_or_ne q p with rfl | ne
      · have eq : k r = code' := by simpa using some
        simpa [← eq] using safe
      · simpa [ne] using ver.safe q code' (by simpa [ne] using some)
  | @leave p r code =>
    refine ⟨γ, ver.inv, fun q none => ?_, fun q code' some => ?_⟩
    · rcases eq_or_ne q p with rfl | ne
      · exact ver.safe q _ code
      · exact ver.idle q (by simpa [ne] using none)
    · rcases eq_or_ne q p with rfl | ne
      · simp at some
      · exact ver.safe q code' (by simpa [ne] using some)

/-- Every reachable state satisfies the invariant, for some ghosts. -/
theorem verified {init : σ → Prop} (sound : M.Sound L I) (starts : M.Starts rest ready I)
    (calls : ∀ c, (M.body c).wp L ready fun _ h => rest h)
    (start : ∀ s, init s → ∃ γ, I s γ ∧ ∀ p, rest (γ p)) {s : Threads P Op Res ρ σ}
    (reach : (M.lts init).Reachable s) : ∃ γ, Verified L rest I s γ := by
  refine reach.invariant (P := fun s => ∃ γ, Verified L rest I s γ) (fun s init => ?_)
    fun s a t _ ver step => ?_
  · obtain ⟨γ, inv, idle⟩ := start s.shared init.1
    exact ⟨γ, inv, fun p _ => idle p, fun p c code => by simp [init.2 p] at code⟩
  · obtain ⟨γ, ver⟩ := ver
    exact ver.step sound starts calls step

end Pool
