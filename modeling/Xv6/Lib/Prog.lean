import Mathlib.Tactic.Common

/-!
# Programs that may stop

A `Prog` reads and writes a state and may stop with an error, after which nothing runs any
more.  `Ends x s Q` is total correctness: started in `s`, the program comes to an end, without
an error, in a state that satisfies `Q`.  `ends_bind` cuts a program into its steps, and
`Ends.mono` replaces what a step does by what its caller needs.

`Within E x s Q` is weaker: the program may also stop, with one of the errors `E`.
-/

abbrev Prog (ε σ : Type) := StateT σ (Except ε)

variable {ε σ α β : Type}

def Prog.stop (e : ε) : Prog ε σ α := fun _ => .error e

/-- `x` runs from `s` to its end, where `Q` holds. -/
def Ends (x : Prog ε σ α) (s : σ) (Q : α → σ → Prop) : Prop :=
  match x s with
  | .ok (a, t) => Q a t
  | .error _ => False

variable {x : Prog ε σ α} {Q : α → σ → Prop} {s : σ}

theorem Ends.mono {R : α → σ → Prop} (ends : Ends x s Q) (imp : ∀ a t, Q a t → R a t) :
    Ends x s R := by
  unfold Ends at ends ⊢
  split
  · rename_i a t eq
    rw [eq] at ends
    exact imp a t ends
  · rename_i eq
    rw [eq] at ends
    exact ends

theorem Ends.exists (ends : Ends x s Q) : ∃ a t, x s = .ok (a, t) ∧ Q a t := by
  unfold Ends at ends
  split at ends
  · rename_i a t eq
    exact ⟨a, t, eq, ends⟩
  · exact ends.elim

theorem Ends.ran (ends : Ends x s Q) : Ends x s fun a t => x s = .ok (a, t) ∧ Q a t := by
  obtain ⟨a, t, eq, post⟩ := ends.exists
  unfold Ends
  rw [eq]
  exact ⟨rfl, post⟩

theorem ends_of_eq {t : σ} {a : α} (eq : x s = .ok (a, t)) : Ends x s Q ↔ Q a t := by
  unfold Ends
  rw [eq]

@[simp] theorem ends_pure (a : α) (s : σ) (Q : α → σ → Prop) :
    Ends (pure a : Prog ε σ α) s Q ↔ Q a s := Iff.rfl

theorem ends_bind (x : Prog ε σ α) (f : α → Prog ε σ β) (s : σ) (Q : β → σ → Prop) :
    Ends (x >>= f) s Q ↔ Ends x s fun a t => Ends (f a) t Q := by
  change (match (x s >>= fun r => f r.1 r.2) with | .ok (b, u) => Q b u | .error _ => False) ↔ _
  unfold Ends
  cases eq : x s with
  | error e => exact Iff.rfl
  | ok r => exact Iff.rfl

theorem Ends.bind {f : α → Prog ε σ β} {R : β → σ → Prop}
    (first : Ends x s fun a t => Ends (f a) t R) : Ends (x >>= f) s R := (ends_bind ..).mpr first

theorem Prog.of_bind {f : α → Prog ε σ β} {u : σ} {b : β} (ran : (x >>= f) s = .ok (b, u)) :
    ∃ a t, x s = .ok (a, t) ∧ f a t = .ok (b, u) := by
  change (x s >>= fun r => f r.1 r.2) = _ at ran
  cases eq : x s with
  | error e =>
    rw [eq] at ran
    cases ran
  | ok r =>
    rw [eq] at ran
    exact ⟨r.1, r.2, rfl, ran⟩

theorem Prog.of_toOption {r : α × σ} (ran : (x s).toOption = some r) : x s = .ok r := by
  cases eq : x s with
  | error e =>
    rw [eq] at ran
    cases ran
  | ok r' =>
    rw [eq] at ran
    cases ran
    rfl

theorem Prog.bind_ok {t : σ} {a : α} (ran : x s = .ok (a, t)) (f : α → Prog ε σ β) :
    (x >>= f) s = f a t := by
  change (x s >>= fun r => f r.1 r.2) = _
  rw [ran]
  rfl

theorem Prog.bind_error {e : ε} (error : x s = .error e) (f : α → Prog ε σ β) :
    (x >>= f) s = .error e := by
  change (x s >>= fun r => f r.1 r.2) = _
  rw [error]
  rfl

/-- `x` runs from `s` to its end, where `Q` holds, or stops with an error of `E`. -/
def Within (E : ε → Prop) (x : Prog ε σ α) (s : σ) (Q : α → σ → Prop) : Prop :=
  match x s with
  | .ok (a, t) => Q a t
  | .error e => E e

section Within

variable {E E' : ε → Prop} {x : Prog ε σ α} {s : σ} {Q R : α → σ → Prop}

theorem Within.mono (within : Within E x s Q) (errors : ∀ e, E e → E' e)
    (imp : ∀ a t, Q a t → R a t) : Within E' x s R := by
  unfold Within at within ⊢
  cases eq : x s with
  | error e =>
    rw [eq] at within
    exact errors e within
  | ok r =>
    rw [eq] at within
    exact imp r.1 r.2 within

theorem within_ok {t : σ} {a : α} (eq : x s = .ok (a, t)) : Within E x s Q ↔ Q a t := by
  unfold Within
  rw [eq]

theorem within_error {e : ε} (eq : x s = .error e) : Within E x s Q ↔ E e := by
  unfold Within
  rw [eq]

theorem Within.and (first : Within E x s Q) (second : Within E' x s R) :
    Within (fun e => E e ∧ E' e) x s fun a t => Q a t ∧ R a t := by
  unfold Within at *
  cases eq : x s with
  | error e =>
    rw [eq] at first second
    exact ⟨first, second⟩
  | ok r =>
    rw [eq] at first second
    exact ⟨first, second⟩

theorem Ends.within (ends : Ends x s Q) : Within E x s Q := by
  obtain ⟨a, t, eq, post⟩ := ends.exists
  unfold Within
  rw [eq]
  exact post

theorem Within.ends (within : Within E x s Q) (none : ∀ e, ¬ E e) : Ends x s Q :=
  within.mono none fun _ _ => id

@[simp] theorem within_pure (a : α) (s : σ) (Q : α → σ → Prop) :
    Within E (pure a : Prog ε σ α) s Q ↔ Q a s := Iff.rfl

theorem within_bind (x : Prog ε σ α) (f : α → Prog ε σ β) (s : σ) (Q : β → σ → Prop) :
    Within E (x >>= f) s Q ↔ Within E x s fun a t => Within E (f a) t Q := by
  change (match (x s >>= fun r => f r.1 r.2) with | .ok (b, u) => Q b u | .error e => E e) ↔ _
  unfold Within
  cases eq : x s with
  | error e => exact Iff.rfl
  | ok r => exact Iff.rfl

theorem Within.bind {f : α → Prog ε σ β} {R : β → σ → Prop}
    (first : Within E x s fun a t => Within E (f a) t R) : Within E (x >>= f) s R :=
  (within_bind ..).mpr first

theorem Ends.bind_within {f : α → Prog ε σ β} {R : β → σ → Prop}
    (ends : Ends x s fun a t => Within E (f a) t R) : Within E (x >>= f) s R :=
  .bind ends.within

end Within
