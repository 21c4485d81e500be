import Mathlib.Data.List.Nodup
import Mathlib.Logic.Function.Basic

/-!
# Queues through `next` pointers

A singly linked list with a pointer to its first node, as C programs keep it.  `Queue.append` puts a
node at the end: it clears the node's own pointer, walks along the list with a pointer to a
pointer, and stores.  `Queue.append_linked` says what that does to the nodes.
-/

/-- The pointer to the first node, and those of the nodes; `none` is the null pointer. -/
structure Queue (N : Type) where
  head : Option N
  next : N → Option N

namespace Queue

variable {N : Type}

inductive Ref (N : Type)
  | head
  | next (n : N)

def Linked (next : N → Option N) : Option N → List N → Prop
  | x, [] => x = none
  | x, n :: ns => x = some n ∧ Linked next (next n) ns

def load (q : Queue N) : Ref N → Option N
  | .head => q.head
  | .next n => q.next n

/-- `for(; *pp; pp = &(*pp)->next)`, in at most so many rounds. -/
def seek (q : Queue N) : Nat → Ref N → Option (Ref N)
  | 0, _ => none
  | k + 1, pp =>
    match q.load pp with
    | none => some pp
    | some n => q.seek k (.next n)

/-- Where `seek` stops when the list from `pp` on has the nodes `ns`. -/
def Ref.last : Ref N → List N → Ref N
  | pp, [] => pp
  | _, n :: ns => Ref.last (.next n) ns

theorem Ref.last_concat (pp : Ref N) (ns : List N) (n : N) : pp.last (ns ++ [n]) = .next n := by
  induction ns generalizing pp with
  | nil => rfl
  | cons m ns ih => exact ih (.next m)

theorem seek_linked {q : Queue N} {ns : List N} {pp : Ref N} (linked : Linked q.next (q.load pp) ns)
    {k : Nat} (rounds : ns.length < k) : q.seek k pp = some (pp.last ns) := by
  induction ns generalizing pp k with
  | nil =>
    obtain ⟨k, rfl⟩ := Nat.exists_eq_succ_of_ne_zero (by omega : k ≠ 0)
    have none : q.load pp = none := linked
    rw [seek, none]
    rfl
  | cons n ns ih =>
    obtain ⟨k, rfl⟩ := Nat.exists_eq_succ_of_ne_zero (by omega : k ≠ 0)
    rw [seek, linked.1]
    have rest : Linked q.next (q.load (.next n)) ns := linked.2
    exact ih rest (by simpa using rounds)

variable [DecidableEq N]

def store (q : Queue N) (x : Option N) : Ref N → Queue N
  | .head => { q with head := x }
  | .next n => { q with next := Function.update q.next n x }

/-- `b->next = 0`, and `b` goes to the end of the list. -/
def append (q : Queue N) (rounds : Nat) (b : N) : Option (Queue N) :=
  let q := q.store none (.next b)
  (q.seek rounds .head).map (q.store (some b))

section

variable {next : N → Option N} {x : Option N} {ns : List N} {b : N}

theorem Linked.update (linked : Linked next x ns) (absent : b ∉ ns) (y : Option N) :
    Linked (Function.update next b y) x ns := by
  induction ns generalizing x with
  | nil => exact linked
  | cons n ns ih =>
    rw [List.mem_cons, not_or] at absent
    refine ⟨linked.1, ?_⟩
    rw [Function.update_of_ne (Ne.symm absent.1)]
    exact ih linked.2 absent.2

theorem Linked.extend {n : N} (linked : Linked next x (ns ++ [n])) (nodup : (ns ++ [n]).Nodup)
    (absent : b ∉ ns ++ [n]) (last : next b = none) :
    Linked (Function.update next n (some b)) x (ns ++ [n] ++ [b]) := by
  induction ns generalizing x with
  | nil =>
    have ne : b ≠ n := fun eq => absent (by simp [eq])
    refine ⟨linked.1, Function.update_self .., ?_⟩
    rw [Function.update_of_ne ne, last]
    rfl
  | cons m ns ih =>
    rw [List.cons_append, List.nodup_cons] at nodup
    rw [List.cons_append, List.mem_cons, not_or] at absent
    have ne : m ≠ n := fun eq => nodup.1 (by simp [eq])
    refine ⟨linked.1, ?_⟩
    rw [Function.update_of_ne ne]
    exact ih linked.2 nodup.2 absent.2

end

theorem append_linked {q : Queue N} {ns : List N} (linked : Linked q.next q.head ns)
    (nodup : ns.Nodup) {b : N} (absent : b ∉ ns) {k : Nat} (rounds : ns.length < k) :
    ∃ q', q.append k b = some q' ∧ Linked q'.next q'.head (ns ++ [b]) := by
  have cleared : Linked (q.store none (.next b)).next ((q.store none (.next b)).load .head) ns :=
    linked.update absent none
  have at_b : (q.store none (.next b)).next b = none := Function.update_self ..
  refine ⟨_, by rw [append, seek_linked cleared rounds]; rfl, ?_⟩
  rcases List.eq_nil_or_concat ns with rfl | ⟨ms, n, rfl⟩
  · exact ⟨rfl, at_b⟩
  · rw [List.concat_eq_append, Ref.last_concat] at *
    exact cleared.extend nodup absent at_b

end Queue
