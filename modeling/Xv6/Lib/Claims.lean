import Mathlib.Logic.Equiv.Basic

/-!
# Exclusive claims

Holders, each with at most one claim on a resource.  `Exclusive claim ok` says that no resource is
claimed twice and that every claimed resource is `ok`; `Covered claim ok` is the converse: whatever
is `ok` has a holder.
-/

structure Exclusive {H R : Type} (claim : H → Option R) (ok : R → Prop) : Prop where
  ok_of_claim : ∀ h r, claim h = some r → ok r
  unique : ∀ h h' r, claim h = some r → claim h' = some r → h = h'

theorem same_of_ne {H R : Type} {claim claim' : H → Option R} {a : H} (at_a : claim' a = claim a)
    (others : ∀ h, h ≠ a → claim' h = claim h) (h : H) : claim' h = claim h := by
  by_cases eq : h = a
  · rw [eq, at_a]
  · exact others h eq

namespace Exclusive

variable {H R : Type} {claim claim' : H → Option R} {ok ok' : R → Prop}

theorem of_none (none : ∀ h, claim h = none) : Exclusive claim ok where
  ok_of_claim h r at_h := by cases (none h).symm.trans at_h
  unique h _ r at_h := by cases (none h).symm.trans at_h

variable (ex : Exclusive claim ok)
include ex

theorem keep (same : ∀ h, claim' h = claim h) (imp : ∀ r, ok r → ok' r) : Exclusive claim' ok' where
  ok_of_claim h r at_h := imp r (ex.ok_of_claim h r (same h ▸ at_h))
  unique h h' r at_h at_h' := ex.unique h h' r (same h ▸ at_h) (same h' ▸ at_h')

theorem not_claimed {r : R} (free : ¬ ok r) (h : H) :
    claim h ≠ some r := fun at_h => free (ex.ok_of_claim h r at_h)

/-- Holder `h` claims `r`, which was free. -/
theorem take {h : H} {r : R} (free : ¬ ok r) (at_h : claim' h = some r)
    (others : ∀ g, g ≠ h → claim' g = claim g) (new : ok' r) (imp : ∀ r, ok r → ok' r) :
    Exclusive claim' ok' where
  ok_of_claim g x at_g := by
    by_cases eq : g = h
    · rw [eq, at_h] at at_g
      exact Option.some.inj at_g ▸ new
    · exact imp x (ex.ok_of_claim g x (others g eq ▸ at_g))
  unique g g' x at_g at_g' := by
    by_cases eq : g = h
    · by_cases eq' : g' = h
      · exact eq.trans eq'.symm
      · rw [eq, at_h] at at_g
        rw [others g' eq', ← Option.some.inj at_g] at at_g'
        exact absurd at_g' (ex.not_claimed free g')
    · by_cases eq' : g' = h
      · rw [eq', at_h] at at_g'
        rw [others g eq, ← Option.some.inj at_g'] at at_g
        exact absurd at_g (ex.not_claimed free g)
      · exact ex.unique g g' x (others g eq ▸ at_g) (others g' eq' ▸ at_g')

/-- Holder `h` gives up `r`, which need not stay `ok`. -/
theorem drop {h : H} {r : R} (had : claim h = some r) (at_h : claim' h = none)
    (others : ∀ g, g ≠ h → claim' g = claim g) (imp : ∀ x, x ≠ r → ok x → ok' x) :
    Exclusive claim' ok' := by
  have ne : ∀ g x, claim' g = some x → g ≠ h := by
    rintro g x at_g rfl
    cases at_h.symm.trans at_g
  refine ⟨fun g x at_g => ?_, fun g g' x at_g at_g' => ?_⟩
  · have before := others g (ne g x at_g) ▸ at_g
    refine imp x ?_ (ex.ok_of_claim g x before)
    rintro rfl
    exact ne g x at_g (ex.unique g h x before had)
  · exact ex.unique g g' x (others g (ne g x at_g) ▸ at_g) (others g' (ne g' x at_g') ▸ at_g')

/-- Holders `a` and `b` exchange their claims, where `a` need not take that of `b`. -/
theorem swap {a b : H} (at_a : ∀ r, claim' a = some r → claim b = some r)
    (at_b : claim' b = claim a) (others : ∀ g, g ≠ a → g ≠ b → claim' g = claim g)
    (imp : ∀ r, ok r → ok' r) : Exclusive claim' ok' := by
  classical
  -- where a claim of the new system was before
  have origin : ∀ g r, claim' g = some r → claim (Equiv.swap a b g) = some r := by
    intro g r at_g
    rcases eq_or_ne g a with rfl | ne_a
    · rw [Equiv.swap_apply_left]
      exact at_a r at_g
    · rcases eq_or_ne g b with rfl | ne_b
      · rwa [Equiv.swap_apply_right, ← at_b]
      · rwa [Equiv.swap_apply_of_ne_of_ne ne_a ne_b, ← others g ne_a ne_b]
  refine ⟨fun g r at_g => imp r (ex.ok_of_claim _ r (origin g r at_g)), fun g g' r at_g at_g' => ?_⟩
  exact (Equiv.swap a b).injective (ex.unique _ _ r (origin g r at_g) (origin g' r at_g'))

/-- Holder `a` hands its claim to `b`. -/
theorem hand {a b : H} (at_a : claim' a = none) (at_b : claim' b = claim a)
    (others : ∀ g, g ≠ a → g ≠ b → claim' g = claim g) (imp : ∀ r, ok r → ok' r) :
    Exclusive claim' ok' :=
  ex.swap (fun _ had => by cases at_a.symm.trans had) at_b others imp

end Exclusive

def Covered {H R : Type} (claim : H → Option R) (ok : R → Prop) : Prop :=
  ∀ r, ok r → ∃ h, claim h = some r

namespace Covered

variable {H R : Type} {claim claim' : H → Option R} {ok ok' : R → Prop}

theorem keep (cov : Covered claim ok) (same : ∀ h, claim' h = claim h)
    (imp : ∀ r, ok' r → ok r) : Covered claim' ok' := by
  intro r at_r
  obtain ⟨h, had⟩ := cov r (imp r at_r)
  exact ⟨h, (same h).trans had⟩

theorem take (cov : Covered claim ok) {h : H} {r : R} (had : claim h = none)
    (at_h : claim' h = some r) (others : ∀ g, g ≠ h → claim' g = claim g)
    (imp : ∀ x, ok' x → x = r ∨ ok x) : Covered claim' ok' := by
  intro x at_x
  rcases imp x at_x with rfl | before
  · exact ⟨h, at_h⟩
  · obtain ⟨g, claimed⟩ := cov x before
    refine ⟨g, (others g ?_).trans claimed⟩
    rintro rfl
    cases had.symm.trans claimed

theorem drop (cov : Covered claim ok) {h : H} {r : R} (had : claim h = some r)
    (others : ∀ g, g ≠ h → claim' g = claim g) (imp : ∀ x, ok' x → x ≠ r ∧ ok x) :
    Covered claim' ok' := by
  intro x at_x
  obtain ⟨ne, before⟩ := imp x at_x
  obtain ⟨g, claimed⟩ := cov x before
  refine ⟨g, (others g ?_).trans claimed⟩
  rintro rfl
  exact ne (Option.some.inj (claimed.symm.trans had))

theorem hand (cov : Covered claim ok) {a b : H} (had : claim b = none) (at_b : claim' b = claim a)
    (others : ∀ g, g ≠ a → g ≠ b → claim' g = claim g) (imp : ∀ x, ok' x → ok x) :
    Covered claim' ok' := by
  intro x at_x
  obtain ⟨g, claimed⟩ := cov x (imp x at_x)
  by_cases eq : g = a
  · exact ⟨b, at_b.trans (eq ▸ claimed)⟩
  · refine ⟨g, (others g eq ?_).trans claimed⟩
    rintro rfl
    cases had.symm.trans claimed

end Covered
