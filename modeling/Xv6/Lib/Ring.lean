import Mathlib.Data.List.Chain
import Mathlib.Data.List.Nodup
import Mathlib.Logic.Function.Basic

/-!
# Circular doubly linked lists

A list through `next` and `prev` pointers with a distinguished head, as C programs keep them.
`Links.Ring l h xs` says that following `next` from the head `h` visits the nodes `xs`, each once,
and comes back to `h`, and that `prev` goes the other way round.
-/

structure Links (N : Type) where
  next : N → N
  prev : N → N

variable {N : Type} [DecidableEq N]

namespace Links

open Function List

def unlink (l : Links N) (b : N) : Links N :=
  -- b->next->prev = b->prev; b->prev->next = b->next
  let prev := update l.prev (l.next b) (l.prev b)
  ⟨update l.next (prev b) (l.next b), prev⟩

def push (l : Links N) (h b : N) : Links N :=
  -- b->next = head.next; b->prev = &head; head.next->prev = b; head.next = b
  let next := update l.next b (l.next h)
  ⟨update next h b, update (update l.prev b h) (next h) b⟩

def Adjacent (l : Links N) (x y : N) : Prop := l.next x = y ∧ l.prev y = x

/-- The list with head `h` consists of `xs`, in this order. -/
structure Ring (l : Links N) (h : N) (xs : List N) : Prop where
  nodup : (h :: xs).Nodup
  chain : List.IsChain l.Adjacent (h :: xs ++ [h])

namespace Ring

variable {l : Links N} {h : N} {xs : List N}

omit [DecidableEq N] in
theorem empty (next : l.next h = h) (prev : l.prev h = h) : Ring l h [] where
  nodup := nodup_singleton h
  chain := isChain_pair.mpr ⟨next, prev⟩

omit [DecidableEq N] in
theorem reverse (ring : Ring l h xs) : Ring ⟨l.prev, l.next⟩ h xs.reverse where
  nodup := by
    have := ring.nodup
    simpa using this
  chain := by
    have turned : h :: xs.reverse ++ [h] = (h :: xs ++ [h]).reverse := by simp
    rw [turned, isChain_reverse]
    exact ring.chain.imp fun x y adjacent => ⟨adjacent.2, adjacent.1⟩

theorem push (ring : Ring l h xs) {b : N} (new : b ∉ h :: xs) : Ring (l.push h b) h (b :: xs) := by
  obtain ⟨not_h, not_xs⟩ : b ≠ h ∧ b ∉ xs := by simpa using new
  obtain ⟨c, cs, split⟩ : ∃ c cs, xs ++ [h] = c :: cs := by
    cases xs with
    | nil => exact ⟨h, [], rfl⟩
    | cons c cs => exact ⟨c, cs ++ [h], rfl⟩
  have chain := ring.chain
  rw [cons_append, split, isChain_cons_cons] at chain
  have distinct : (c :: cs).Nodup := by
    rw [← split, nodup_append_comm]
    exact ring.nodup
  have not_b : ∀ x ∈ c :: cs, x ≠ b := by
    rintro x mem rfl
    rw [← split] at mem
    rcases mem_append.mp mem with mem | mem
    · exact not_xs mem
    · exact not_h (mem_singleton.mp mem)
  have next' : (l.push h b).next = update (update l.next b c) h b := by
    change update (update l.next b (l.next h)) h b = _
    rw [chain.1.1]
  have prev' : (l.push h b).prev = update (update l.prev b h) c b := by
    change update (update l.prev b h) (update l.next b (l.next h) h) b =
      _
    rw [update_of_ne (Ne.symm not_h), chain.1.1]
  refine ⟨nodup_cons.mpr ⟨?_, ?_⟩, ?_⟩
  · rw [mem_cons]
    rintro (eq | mem)
    · exact not_h eq.symm
    · exact (nodup_cons.mp ring.nodup).1 mem
  · exact nodup_cons.mpr ⟨not_xs, (nodup_cons.mp ring.nodup).2⟩
  · rw [cons_append, cons_append, split, isChain_cons_cons, isChain_cons_cons]
    refine ⟨⟨?_, ?_⟩, ⟨?_, ?_⟩, chain.2.imp_of_mem_tail_imp fun x y mem_x mem_y adjacent => ?_⟩
    · rw [next', update_self]
    · rw [prev', update_of_ne (Ne.symm (not_b c mem_cons_self)),
        update_self]
    · rw [next', update_of_ne not_h, update_self]
    · rw [prev', update_self]
    · -- no other pair of neighbours is touched
      have y_ne : y ≠ c := fun eq => (nodup_cons.mp distinct).1 (eq ▸ mem_y)
      have x_ne : x ≠ h := by
        rintro rfl
        exact y_ne (adjacent.1.symm.trans chain.1.1)
      refine ⟨?_, ?_⟩
      · rw [next', update_of_ne x_ne, update_of_ne (not_b x mem_x)]
        exact adjacent.1
      · rw [prev', update_of_ne y_ne,
          update_of_ne (not_b y (mem_cons_of_mem _ mem_y))]
        exact adjacent.2

theorem unlink {ys zs : List N} {b : N} (ring : Ring l h (ys ++ b :: zs)) :
    Ring (l.unlink b) h (ys ++ zs) := by
  have distinct : (b :: (h :: ys ++ zs)).Nodup := by
    rw [← nodup_middle]
    exact ring.nodup
  have not_mem := (nodup_cons.mp distinct).1
  obtain ⟨as, a, before⟩ : ∃ as a, h :: ys = as ++ [a] :=
    ⟨_, _, (dropLast_append_getLast (cons_ne_nil h ys)).symm⟩
  obtain ⟨c, cs, after⟩ : ∃ c cs, zs ++ [h] = c :: cs := by
    cases zs with
    | nil => exact ⟨h, [], rfl⟩
    | cons c cs => exact ⟨c, cs ++ [h], rfl⟩
  have not_before : ∀ x ∈ as ++ [a], x ≠ b := by
    rintro x at_x rfl
    rw [← before] at at_x
    exact not_mem (mem_append_left zs at_x)
  have not_after : ∀ x ∈ c :: cs, x ≠ b := by
    rintro x at_x rfl
    rw [← after] at at_x
    refine not_mem ?_
    simp only [mem_append, mem_cons, not_mem_nil, or_false] at at_x ⊢
    tauto
  have chain := ring.chain
  have shape : h :: (ys ++ b :: zs) ++ [h] = as ++ a :: b :: c :: cs := by
    rw [cons_append, append_assoc, cons_append, after, ← cons_append, before,
      append_assoc]
    rfl
  have shape' : h :: (ys ++ zs) ++ [h] = as ++ a :: c :: cs := by
    rw [cons_append, append_assoc, after, ← cons_append, before, append_assoc]
    rfl
  rw [shape, isChain_append_cons_cons, isChain_cons_cons] at chain
  obtain ⟨first, at_ab, at_bc, last⟩ := chain
  have prev' : (l.unlink b).prev = update l.prev c a := by
    change update l.prev (l.next b) (l.prev b) = _
    rw [at_bc.1, at_ab.2]
  have next' : (l.unlink b).next = update l.next a c := by
    change update l.next ((l.unlink b).prev b) (l.next b) = _
    rw [prev', update_of_ne (Ne.symm (not_after c mem_cons_self)), at_ab.2, at_bc.1]
  -- a pair of neighbours that does not touch `b` stays
  have keep : ∀ x y, x ≠ b → y ≠ b → l.Adjacent x y → (l.unlink b).Adjacent x y := by
    intro x y x_ne y_ne adjacent
    have x_ne_a : x ≠ a := fun eq => y_ne (adjacent.1.symm.trans (eq ▸ at_ab.1))
    have y_ne_c : y ≠ c := fun eq => x_ne (adjacent.2.symm.trans (eq ▸ at_bc.2))
    refine ⟨?_, ?_⟩
    · rw [next', update_of_ne x_ne_a]
      exact adjacent.1
    · rw [prev', update_of_ne y_ne_c]
      exact adjacent.2
  refine ⟨(nodup_cons.mp distinct).2, ?_⟩
  rw [shape', isChain_append_cons_cons]
  refine ⟨first.imp_of_mem_imp fun x y mem_x mem_y => ?_, ⟨?_, ?_⟩,
    last.imp_of_mem_imp fun x y mem_x mem_y => ?_⟩
  · exact keep x y (not_before x mem_x) (not_before y mem_y)
  · rw [next', update_self]
  · rw [prev', update_self]
  · exact keep x y (not_after x mem_x) (not_after y mem_y)

end Ring

/-! ## Walking along the list -/

/-- Go on along `f` until the head `h` is reached or a node passes the test.  The outer `none`
is a walk of more steps than the list should have. -/
def walk (f : N → N) (h : N) (test : N → Bool) : Nat → N → Option (Option N)
  | 0, _ => none
  | n + 1, b =>
    if b = h then some none
    else if test b then some (some b)
    else walk f h test n (f b)

theorem walk_chain {f : N → N} {h : N} (test : N → Bool) {b : N} {xs : List N}
    (chain : List.IsChain (fun x y => f x = y) (b :: xs)) (last : (b :: xs).getLast? = some h)
    (absent : ∀ x ∈ (b :: xs).dropLast, x ≠ h) {n : Nat} (rounds : xs.length < n) :
    walk f h test n b = some ((b :: xs).dropLast.find? test) := by
  induction xs generalizing b n with
  | nil =>
    obtain rfl : b = h := by simpa using last
    obtain ⟨n, rfl⟩ := Nat.exists_eq_succ_of_ne_zero (by omega : n ≠ 0)
    simp [walk]
  | cons c xs ih =>
    obtain ⟨n, rfl⟩ := Nat.exists_eq_succ_of_ne_zero (by omega : n ≠ 0)
    rw [isChain_cons_cons] at chain
    have ne : b ≠ h := absent b (by simp)
    rw [walk, if_neg ne]
    rw [dropLast_cons_cons, find?_cons]
    cases passed : test b with
    | true => rfl
    | false =>
      rw [chain.1]
      refine ih chain.2 ?_ (fun x mem => absent x ?_) (by simpa using rounds)
      · simpa using last
      · rw [dropLast_cons_cons]
        exact mem_cons_of_mem b mem

namespace Ring

variable {l : Links N} {h : N} {xs : List N}

/-- Walking along `next` finds the first node of the list that passes the test. -/
theorem walk_next (ring : Ring l h xs) (test : N → Bool) {n : Nat} (rounds : xs.length < n) :
    walk l.next h test n (l.next h) = some (xs.find? test) := by
  have chain := ring.chain.imp fun x y (adjacent : l.Adjacent x y) => adjacent.1
  have absent : ∀ x ∈ xs, x ≠ h := by
    rintro x mem rfl
    exact (nodup_cons.mp ring.nodup).1 mem
  obtain ⟨c, cs, split⟩ : ∃ c cs, xs ++ [h] = c :: cs := by
    cases xs with
    | nil => exact ⟨h, [], rfl⟩
    | cons c cs => exact ⟨c, cs ++ [h], rfl⟩
  have short : (c :: cs).dropLast = xs := by
    rw [← split]
    simp
  rw [cons_append, split, isChain_cons_cons] at chain
  have walked :=
    walk_chain (h := h) test (n := n) chain.2 (by rw [← split]; simp) (by rwa [short]) (by
    have := congrArg length split
    simp only [length_append, length_cons, length_nil] at this
    omega)
  rw [chain.1, walked, short]

theorem walk_prev (ring : Ring l h xs) (test : N → Bool) {n : Nat} (rounds : xs.length < n) :
    walk l.prev h test n (l.prev h) = some (xs.reverse.find? test) :=
  ring.reverse.walk_next test (by simpa using rounds)

end Ring

end Links
