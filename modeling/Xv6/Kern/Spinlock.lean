import Xv6.Lib.Prog
import Mathlib.Logic.Function.Basic

/-!
# Interrupts and spinlocks on one CPU

`acquire`, `release`, `holding`, `pushcli` and `popcli` of `spinlock.c`, run on the CPU `me`.  A
state keeps, beside the machine, every machine there was since the start, one for each instruction
that changed it, so that "whenever a lock is held" is said of the inside of the calls too.

`Held` is the machine while a list of locks is held.  Each call takes it to the next one, and turns
interrupts on at its very end if at all (`Off`).
-/

namespace Xv6.Kern

open Function

/-- What the functions read and write: the interrupt flag, `ncli` and `intena` of the CPU, and
`locked` and `cpu` of each lock.  The debugging record `pcs` is never read and is left out. -/
@[ext] structure Machine (C L : Type) where
  fl_if : Bool
  ncli : Int
  intena : Bool
  locked : L → Bool
  cpu : L → Option C

structure State (C L : Type) where
  now : Machine C L
  seen : List (Machine C L)

inductive Stop
  | panic (msg : String)
  | spins

section Code

variable {C L : Type}

def act (f : Machine C L → Machine C L) : Prog Stop (State C L) Unit :=
  fun s => .ok ((), ⟨f s.now, s.seen ++ [f s.now]⟩)

def look : Prog Stop (State C L) (Machine C L) := fun s => .ok (s.now, s)

def stopIf (wrong : Prop) [Decidable wrong] (stop : Stop) : Prog Stop (State C L) Unit :=
  if wrong then .stop stop else pure ()

variable [DecidableEq C] [DecidableEq L] (me : C)

/-- The CPU is in `cpus[]`: the search for its `apicid` is left out. -/
def mycpu : Prog Stop (State C L) C := do
  stopIf (← look).fl_if (.panic "mycpu called with interrupts enabled\n")
  return me

def pushcli : Prog Stop (State C L) Unit := do
  let eflags := (← look).fl_if
  act fun m => { m with fl_if := false }
  let _ ← mycpu me
  if (← look).ncli = 0 then
    act fun m => { m with intena := eflags }
  act fun m => { m with ncli := m.ncli + 1 }

def popcli : Prog Stop (State C L) Unit := do
  stopIf (← look).fl_if (.panic "popcli - interruptible")
  let _ ← mycpu me
  act fun m => { m with ncli := m.ncli - 1 }
  stopIf ((← look).ncli < 0) (.panic "popcli")
  let m ← look
  if m.ncli = 0 ∧ m.intena then
    act fun m => { m with fl_if := true }

def holding (lk : L) : Prog Stop (State C L) Bool := do
  pushcli me
  let m ← look
  let r := m.locked lk && m.cpu lk == some (← mycpu me)
  popcli me
  return r

/-- `while(xchg(&lk->locked, 1) != 0);`, where nobody else runs: a second try finds what the first
one did. -/
def xchg (lk : L) : Prog Stop (State C L) Unit := do
  let old := (← look).locked lk
  act fun m => { m with locked := update m.locked lk true }
  stopIf old .spins

def acquire (lk : L) : Prog Stop (State C L) Unit := do
  pushcli me
  stopIf (← holding me lk) (.panic "acquire")
  xchg lk
  let c ← mycpu me
  act fun m => { m with cpu := update m.cpu lk (some c) }

def release (lk : L) : Prog Stop (State C L) Unit := do
  stopIf (!(← holding me lk)) (.panic "release")
  act fun m => { m with cpu := update m.cpu lk none }
  act fun m => { m with locked := update m.locked lk false }
  popcli me

end Code

inductive Call (L : Type)
  | acquire (lk : L)
  | release (lk : L)
  deriving DecidableEq

section Calls

variable {C L : Type} [DecidableEq C] [DecidableEq L] (me : C)

def Call.run : Call L → Prog Stop (State C L) Unit
  | .acquire lk => Kern.acquire me lk
  | .release lk => Kern.release me lk

def runCalls : List (Call L) → Prog Stop (State C L) Unit
  | [] => pure ()
  | c :: cs => do c.run me; runCalls cs

/-- The locks held after a call; a lock is acquired when it is free and released when it is held. -/
def Call.held : Call L → List L → Option (List L)
  | .acquire lk, h => if lk ∈ h then none else some (lk :: h)
  | .release lk, h => if lk ∈ h then some (h.erase lk) else none

def heldAfter : List (Call L) → List L → Option (List L)
  | [], h => some h
  | c :: cs, h => c.held h >>= heldAfter cs

/-- Every `acquire` is of a free lock and has its `release`, in any order. -/
def Matched (calls : List (Call L)) : Prop := heldAfter calls [] = some []

end Calls

/-- The machine while the locks `h` are held, started with the interrupt flag at `flag`. -/
structure Held {C L : Type} (me : C) (flag : Bool) (h : List L) (m : Machine C L) : Prop where
  nodup : h.Nodup
  locked : ∀ l, m.locked l = true ↔ l ∈ h
  cpu : ∀ l ∈ h, m.cpu l = some me
  ncli : m.ncli = h.length
  idle : h = [] → m.fl_if = flag
  off : h ≠ [] → m.fl_if = false ∧ m.intena = flag

/-- While a lock is held, interrupts are off. -/
def Quiet {C L : Type} (m : Machine C L) : Prop := (∃ l, m.locked l = true) → m.fl_if = false

/-- Interrupts were off all the time from `s` to `t`, except perhaps in `t` itself. -/
def Off {C L : Type} (s t : State C L) : Prop :=
  ∀ m ∈ t.seen, m ∈ s.seen ∨ m.fl_if = false ∨ m = t.now

section Proofs

variable {C L : Type} {s t u : State C L}

theorem Off.trans (left : Off s t) (off : t.now.fl_if = false) (right : Off t u) : Off s u := by
  intro m seen
  rcases right m seen with before | rest
  · rcases left m before with old | isOff | rfl
    · exact .inl old
    · exact .inr (.inl isOff)
    · exact .inr (.inl off)
  · exact .inr rest

theorem Off.snoc {m : Machine C L} (since : Off s t) (off : t.now.fl_if = false) :
    Off s ⟨m, t.seen ++ [m]⟩ := by
  refine since.trans off fun n member => ?_
  rw [List.mem_append, List.mem_singleton] at member
  exact member.imp_right .inr

@[simp] theorem ends_look {Q : Machine C L → State C L → Prop} : Ends look s Q ↔ Q s.now s :=
  Iff.rfl

@[simp] theorem ends_act {f : Machine C L → Machine C L} {Q : Unit → State C L → Prop} :
    Ends (act f) s Q ↔ Q () ⟨f s.now, s.seen ++ [f s.now]⟩ := Iff.rfl

theorem ends_stopIf {wrong : Prop} [Decidable wrong] {stop : Stop} {Q : Unit → State C L → Prop}
    (not : ¬ wrong) : Ends (stopIf wrong stop) s Q ↔ Q () s := by
  rw [stopIf, if_neg not, ends_pure]

variable {me : C} {lk : L}

theorem ends_mycpu {Q : C → State C L → Prop} (off : s.now.fl_if = false) :
    Ends (mycpu me) s Q ↔ Q me s := by
  simp only [mycpu, ends_bind, ends_look, ends_pure]
  exact ends_stopIf (by simp [off])

theorem ends_pushcli : Ends (pushcli me) s fun _ t => Off s t ∧ t.now =
    ⟨false, s.now.ncli + 1, if s.now.ncli = 0 then s.now.fl_if else s.now.intena, s.now.locked,
      s.now.cpu⟩ := by
  by_cases zero : s.now.ncli = 0
  · simp [pushcli, ends_bind, ends_mycpu, zero, Off]
    grind
  · simp [pushcli, ends_bind, ends_mycpu, zero, Off]
    grind

theorem ends_popcli (off : s.now.fl_if = false) (pos : 0 < s.now.ncli) :
    Ends (popcli me) s fun _ t => Off s t ∧ t.now =
      ⟨decide (s.now.ncli = 1) && s.now.intena, s.now.ncli - 1, s.now.intena, s.now.locked,
        s.now.cpu⟩ := by
  have pos' : ¬ s.now.ncli - 1 < 0 := by omega
  have last : s.now.ncli - 1 = 0 ↔ s.now.ncli = 1 := by omega
  by_cases ends : s.now.ncli = 1 ∧ s.now.intena = true
  · simp [popcli, ends_bind, ends_mycpu, ends_stopIf, off, ends, Off]
    grind
  · have stays : (decide (s.now.ncli = 1) && s.now.intena) = false := by simpa using ends
    simp [popcli, ends_bind, ends_mycpu, ends_stopIf, off, pos', last, ends, stays, Off]
    grind

variable [DecidableEq C]

theorem ends_holding (off : s.now.fl_if = false) (pos : 0 < s.now.ncli) :
    Ends (holding me lk) s fun r t => r = (s.now.locked lk && s.now.cpu lk == some me) ∧
      Off s t ∧ t.now = s.now := by
  refine .bind (ends_pushcli.mono fun _ t pushed => ?_)
  have inner : t.now.fl_if = false := by rw [pushed.2]
  have deep : t.now.ncli = s.now.ncli + 1 := by rw [pushed.2]
  refine .bind (.bind ((ends_mycpu inner).mpr ?_))
  refine .bind ((ends_popcli inner (by omega)).mono fun _ u popped => ?_)
  refine ⟨by rw [pushed.2], pushed.1.trans inner popped.1, ?_⟩
  have depth : ¬ (s.now.ncli + 1 = 1) ∧ s.now.ncli ≠ 0 := by omega
  rw [popped.2, pushed.2]
  ext <;> simp [depth, off]

variable [DecidableEq L]

theorem ends_acquire (free : s.now.locked lk = false) (nonneg : 0 ≤ s.now.ncli) :
    Ends (acquire me lk) s fun _ t => Off s t ∧ t.now =
      ⟨false, s.now.ncli + 1, if s.now.ncli = 0 then s.now.fl_if else s.now.intena,
        update s.now.locked lk true, update s.now.cpu lk (some me)⟩ := by
  refine .bind (ends_pushcli.mono fun _ t pushed => ?_)
  have off : t.now.fl_if = false := by rw [pushed.2]
  have depth : t.now.ncli = s.now.ncli + 1 := by rw [pushed.2]
  have still : t.now.locked lk = false := by rw [pushed.2, free]
  refine .bind ((ends_holding off (by omega)).mono fun r u held => ?_)
  obtain ⟨rfl, quiet, same⟩ := held
  have since := pushed.1.trans off quiet
  refine .bind ((ends_stopIf (by simp [still])).mpr ?_)
  rw [← same] at off still
  simp only [xchg, ends_bind, ends_look, ends_act]
  refine (ends_stopIf (by simp [still])).mpr ((ends_mycpu ?_).mpr ⟨?_, ?_⟩)
  · exact off
  · exact (since.snoc off).snoc off
  · rw [same, pushed.2]

theorem ends_release (held : s.now.locked lk = true) (mine : s.now.cpu lk = some me)
    (off : s.now.fl_if = false) (pos : 0 < s.now.ncli) :
    Ends (release me lk) s fun _ t => Off s t ∧ t.now =
      ⟨decide (s.now.ncli = 1) && s.now.intena, s.now.ncli - 1, s.now.intena,
        update s.now.locked lk false, update s.now.cpu lk none⟩ := by
  refine .bind ((ends_holding off pos).mono fun r t is => ?_)
  obtain ⟨rfl, quiet, same⟩ := is
  refine .bind ((ends_stopIf (by simp [held, mine])).mpr ?_)
  simp only [ends_bind, ends_act]
  rw [← same] at off pos
  refine (ends_popcli ?_ ?_).mono fun _ u popped => ⟨?_, ?_⟩
  · exact off
  · exact pos
  · refine Off.trans ?_ ?_ popped.1
    · exact (quiet.snoc off).snoc off
    · exact off
  · rw [popped.2, same]

variable {flag : Bool} {h h' : List L}

theorem Held.call (held : Held me flag h s.now) {c : Call L} (next : c.held h = some h') :
    Ends (c.run me) s fun _ t => Off s t ∧ Held me flag h' t.now := by
  have nonneg : 0 ≤ s.now.ncli := by
    rw [held.ncli]
    exact Int.natCast_nonneg _
  cases c with
  | acquire lk =>
    simp only [Call.held] at next
    split at next
    · cases next
    · rename_i free
      cases next
      have unlocked : s.now.locked lk = false := by simpa [free] using (held.locked lk).not
      refine (ends_acquire unlocked nonneg).mono fun _ t after => ⟨after.1, ?_⟩
      rw [after.2]
      refine ⟨List.nodup_cons.mpr ⟨free, held.nodup⟩, fun l => ?_, fun l member => ?_, ?_, ?_, ?_⟩
      · by_cases eq : l = lk <;> simp [eq, held.locked]
      · by_cases eq : l = lk
        · simp [eq]
        · simp [eq, held.cpu l (List.mem_of_ne_of_mem eq member)]
      · simp [held.ncli]
      · rintro ⟨⟩
      · refine fun _ => ⟨rfl, ?_⟩
        by_cases none : h = []
        · simp [held.ncli, none, held.idle none]
        · simp [held.ncli, none, (held.off none).2]
  | release lk =>
    simp only [Call.held] at next
    split at next
    · rename_i member
      cases next
      have pos : 0 < s.now.ncli := by
        rw [held.ncli]
        exact_mod_cast List.length_pos_of_mem member
      have busy : h ≠ [] := List.ne_nil_of_mem member
      obtain ⟨off, intena⟩ := held.off busy
      have length := List.length_erase_of_mem member
      refine (ends_release ((held.locked lk).mpr member) (held.cpu lk member) off pos).mono
        fun _ t after => ⟨after.1, ?_⟩
      rw [after.2]
      refine ⟨held.nodup.erase lk, fun l => ?_, fun l left => ?_, ?_, fun none => ?_,
        fun some => ?_⟩
      · by_cases eq : l = lk <;> simp [eq, held.locked, held.nodup.mem_erase_iff]
      · have both := held.nodup.mem_erase_iff.mp left
        simp [both.1, held.cpu l both.2]
      · simp only [length]
        have := held.ncli
        omega
      · have last : s.now.ncli = 1 := by
          have := held.ncli
          rw [none, List.length_nil] at length
          omega
        simp [last, intena]
      · have more : s.now.ncli ≠ 1 := by
          have := held.ncli
          have := List.length_pos_iff.mpr some
          omega
        simp [more, intena]
    · cases next

omit [DecidableEq C] [DecidableEq L] in
theorem Held.quiet {m : Machine C L} (held : Held me flag h m) : Quiet m :=
  fun ⟨l, locked⟩ => (held.off (List.ne_nil_of_mem ((held.locked l).mp locked))).1

theorem Held.calls (held : Held me flag h s.now) (quiet : ∀ m ∈ s.seen, Quiet m)
    {calls : List (Call L)} (after : heldAfter calls h = some h') :
    Ends (runCalls me calls) s fun _ t => Held me flag h' t.now ∧ ∀ m ∈ t.seen, Quiet m := by
  induction calls generalizing s h with
  | nil =>
    cases after
    exact ⟨held, quiet⟩
  | cons c cs ih =>
    obtain ⟨next, one, rest⟩ := Option.bind_eq_some_iff.mp after
    refine .bind ((held.call one).mono fun _ t ⟨off, still⟩ => ih still ?_ rest)
    intro m seen
    rcases off m seen with old | quiet | rfl
    · exact quiet m old
    · exact fun _ => quiet
    · exact still.quiet

theorem heldAfter_take {calls : List (Call L)} (after : heldAfter calls h = some h') (k : Nat) :
    ∃ now, heldAfter (calls.take k) h = some now := by
  induction calls generalizing h k with
  | nil => exact ⟨h, by simp [heldAfter]⟩
  | cons c cs ih =>
    cases k with
    | zero => exact ⟨h, rfl⟩
    | succ k =>
      obtain ⟨next, one, rest⟩ := Option.bind_eq_some_iff.mp after
      obtain ⟨now, eq⟩ := ih rest k
      exact ⟨now, Option.bind_eq_some_iff.mpr ⟨next, one, eq⟩⟩

/-- Interrupts nest exactly.  Whatever number `k` of the calls was made, there was no panic and no
endless loop, `Held` gives `ncli` and the interrupt flag, and the flag was off at every moment at
which a lock was held. -/
theorem interrupts_nest (me : C) (calls : List (Call L)) (matched : Matched calls)
    (m : Machine C L) (free : ∀ l, m.locked l = false) (idle : m.ncli = 0) (k : Nat) :
    ∃ h, heldAfter (calls.take k) [] = some h ∧ (calls.length ≤ k → h = []) ∧
      Ends (runCalls me (calls.take k)) ⟨m, []⟩ fun _ t =>
        Held me m.fl_if h t.now ∧ ∀ n ∈ t.seen, Quiet n := by
  obtain ⟨h, after⟩ := heldAfter_take matched k
  have start : Held me m.fl_if [] m :=
    ⟨List.nodup_nil, by simp [free], by simp, by simp [idle], fun _ => rfl, by simp⟩
  refine ⟨h, after, fun all => ?_, start.calls (s := ⟨m, []⟩) (by simp) after⟩
  rw [List.take_of_length_le all, matched] at after
  exact (Option.some.inj after).symm

end Proofs

/-- Two locks, released in the order in which they were acquired. -/
theorem interrupts_nest_crossed : ∃ h : List Bool,
    heldAfter [.acquire false, .acquire true, .release false] [] = some h ∧ (4 ≤ 3 → h = []) ∧
      Ends (runCalls () [.acquire false, .acquire true, .release false])
        ⟨⟨true, 0, false, fun _ => false, fun _ => none⟩, []⟩ fun _ t =>
        Held () true h t.now ∧ ∀ n ∈ t.seen, Quiet n :=
  interrupts_nest () [.acquire false, .acquire true, .release false, .release true]
    (by unfold Matched; rfl) ⟨true, 0, false, fun _ => false, fun _ => none⟩ (fun _ => rfl) rfl 3

end Xv6.Kern
