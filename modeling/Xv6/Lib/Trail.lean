import Mathlib.Data.List.Nodup
import Mathlib.Logic.Function.Iterate
import Mathlib.Tactic.Common

/-!
# Trails along a pointer

`Trail next a l x`: who follows `next` from `a` visits the nodes `l` in this order and then is at
`x`. A circular list with the nodes `h :: l` is a trail from `h` through them back to `h`.
-/

variable {N : Type}

def Trail (next : N → N) : N → List N → N → Prop
  | a, [], x => a = x
  | a, n :: l, x => a = n ∧ Trail next (next n) l x

namespace Trail

variable {next next' : N → N} {a x : N} {l : List N}

theorem append_iff {l' : List N} :
    Trail next a (l ++ l') x ↔ ∃ m, Trail next a l m ∧ Trail next m l' x := by
  induction l generalizing a with
  | nil =>
    constructor
    · exact fun path => ⟨a, rfl, path⟩
    · rintro ⟨m, rfl, path⟩
      exact path
  | cons n l ih =>
    rw [List.cons_append, Trail, ih]
    constructor
    · rintro ⟨eq, m, path, path'⟩
      exact ⟨m, ⟨eq, path⟩, path'⟩
    · rintro ⟨m, ⟨eq, path⟩, path'⟩
      exact ⟨eq, m, path, path'⟩

theorem through_iff {n : N} {l' : List N} :
    Trail next a (l ++ n :: l') x ↔ Trail next a l n ∧ Trail next (next n) l' x := by
  rw [append_iff]
  constructor
  · rintro ⟨m, path, rfl, path'⟩
    exact ⟨path, path'⟩
  · rintro ⟨path, path'⟩
    exact ⟨n, path, rfl, path'⟩

theorem congr (path : Trail next a l x) (same : ∀ n ∈ l, next' n = next n) : Trail next' a l x := by
  induction l generalizing a with
  | nil => exact path
  | cons n l ih =>
    refine ⟨path.1, ?_⟩
    rw [same n List.mem_cons_self]
    exact ih path.2 fun m mem => same m (List.mem_cons_of_mem n mem)

theorem exists_iterate (path : Trail next a l x) {n : N} (mem : n ∈ l) :
    ∃ k, Nat.iterate next k a = n := by
  induction l generalizing a with
  | nil => cases mem
  | cons m l ih =>
    obtain ⟨rfl, path⟩ := path
    rcases List.mem_cons.mp mem with rfl | mem
    · exact ⟨0, rfl⟩
    · obtain ⟨k, eq⟩ := ih path mem
      exact ⟨k + 1, eq⟩

variable {h : N}

/-- Once around a circular list, from a node to itself. -/
theorem around {f : N} {us vs : List N} (ring : Trail next h (us ++ f :: vs) h) :
    Trail next (next f) (vs ++ us) f := by
  rw [through_iff] at ring
  exact append_iff.mpr ⟨h, ring.2, ring.1⟩

theorem to_node {f p : N} {as bs : List N} (ring : Trail next h (as ++ p :: bs) h)
    (mem : f ∈ as ++ p :: bs) :
    ∃ us, Trail next f us p ∧ us ⊆ as ++ bs ∧ us.length ≤ as.length + bs.length := by
  obtain ⟨first, second⟩ := through_iff.mp ring
  rcases List.mem_append.mp mem with before | at_or_after
  · obtain ⟨as1, as2, rfl⟩ := List.append_of_mem before
    refine ⟨f :: as2, ⟨rfl, (through_iff.mp first).2⟩, ?_, ?_⟩
    · exact fun x at_x => List.mem_append_left _ (List.mem_append_right as1 at_x)
    · simp only [List.length_append, List.length_cons]
      omega
  · rcases List.mem_cons.mp at_or_after with rfl | after
    · exact ⟨[], rfl, List.nil_subset _, Nat.zero_le _⟩
    · obtain ⟨bs1, bs2, rfl⟩ := List.append_of_mem after
      refine ⟨f :: (bs2 ++ as), ⟨rfl, append_iff.mpr ⟨h, (through_iff.mp second).2, first⟩⟩, ?_, ?_⟩
      · intro x at_x
        simp only [List.mem_cons, List.mem_append] at at_x ⊢
        tauto
      · simp only [List.length_append, List.length_cons]
        omega

theorem pred_unique {r r' q : N} {as bs : List N} (nodup : (as ++ r :: q :: bs).Nodup)
    (path : Trail next h (as ++ r :: q :: bs) h) (mem : r' ∈ as ++ r :: q :: bs)
    (points : next r' = q) : r' = r := by
  obtain ⟨us, vs, split⟩ := List.append_of_mem mem
  have at_r := path
  rw [split, through_iff] at at_r
  cases vs with
  | nil =>
    -- the last node points to the first one, which has a node before it in the list
    have first : q = h := points.symm.trans at_r.2
    cases as with
    | nil =>
      have : h = r := path.1
      rw [← first] at this
      simp [this] at nodup
    | cons c as =>
      have : h = c := path.1
      rw [← first] at this
      simp [this] at nodup
  | cons c vs =>
    have next_eq : c = q := at_r.2.1.symm.trans points
    subst next_eq
    have one : as ++ [r] ++ c :: bs = us ++ [r'] ++ c :: vs := by simpa using split
    have apart : (as ++ [r] ++ c :: bs).Nodup := by simpa using nodup
    rw [List.nodup_append, List.nodup_cons] at apart
    have before : c ∉ as ++ [r] := fun mem => apart.2.2 c mem c List.mem_cons_self rfl
    have same := ((List.append_cons_inj_of_notMem before apart.2.1.1).mp one).1
    exact (List.head_eq_of_cons_eq (List.append_inj' same rfl).2).symm

end Trail
