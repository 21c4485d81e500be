import Xv6.Umalloc.Free
import Mathlib.Data.List.Perm.Subperm
import Mathlib.Data.List.TakeWhile

/-!
# The blocks of the heap

The free list and the blocks of the program cut up the memory that `sbrk` returned (`Inv`).  `base`
counts as a free block without contents.  `free` keeps this (`Inv.free`).
-/

namespace Xv6.Umalloc

open List

open Tiling (cover Apart)

/-- The free list is the ring `ns` through `base`, and its blocks and the live ones tile exactly
what `sbrk` gave. -/
structure Inv (base : Nat) (s : State) (ns : List Nat) : Prop where
  ring : Trail s.heap.ptr base ns base
  head : ns.head? = some base
  gap : List.IsChain (Gap s.heap.size) ns
  zero : s.heap.size base = 0
  freep : s.heap.freep ∈ ns
  blocks : ∀ a ∈ ns ++ s.live, a = base ∨ 0 < s.heap.size a ∧ base + sizeofHeader ≤ a
  live : base ∉ s.live
  tile : ∀ x, cover ((ns ++ s.live).map s.heap.block) x = cover s.regions x
  once : ∀ x, cover s.regions x ≤ 1
  above : ∀ x, s.top ≤ x → cover s.regions x = 0
  base_pos : 0 < base
  base_le : base + sizeofHeader ≤ s.top
  top_lt : s.top < 2 ^ 32

namespace Inv

variable {base : Nat} {s : State} {ns : List Nat}

/-! ## Blocks -/

section Blocks

variable (inv : Inv base s ns) {a b x : Nat}

include inv

theorem pos (mem : a ∈ ns ++ s.live) (ne : a ≠ base) : 0 < (s.heap.block a).2 := by
  rcases inv.blocks a mem with eq | ⟨pos, -⟩
  · exact absurd eq ne
  · exact Nat.mul_pos (by decide) pos

theorem low (mem : a ∈ ns ++ s.live) (ne : a ≠ base) : base + sizeofHeader ≤ a :=
  ((inv.blocks a mem).resolve_left ne).2

theorem live_ne (mem : a ∈ s.live) : a ≠ base := fun eq => inv.live (eq ▸ mem)

theorem high (mem : a ∈ ns ++ s.live) (ne : a ≠ base) :
    a + sizeofHeader * s.heap.size a ≤ s.top := by
  have pos : 0 < sizeofHeader * s.heap.size a := inv.pos mem ne
  by_contra above
  have none := inv.above (a + sizeofHeader * s.heap.size a - 1) (by omega)
  rw [← inv.tile] at none
  have some :
      0 < cover ((ns ++ s.live).map s.heap.block) (a + sizeofHeader * s.heap.size a - 1) := by
    refine Tiling.cover_pos (mem_map_of_mem mem) ?_
    change a ≤ _ ∧ _ < a + sizeofHeader * s.heap.size a
    omega
  omega

/-- A free block and a live one have nothing in common. -/
theorem disjoint (mem : x ∈ ns) (ne : x ≠ base) (mem' : a ∈ s.live) :
    Apart (s.heap.block x) (s.heap.block a) := by
  have once := inv.once
  simp only [← inv.tile, map_append] at once
  exact Tiling.disjoint_of_append once (mem_map_of_mem mem) (mem_map_of_mem mem')
    (inv.pos (mem_append_left _ mem) ne)
    (inv.pos (mem_append_right _ mem') (inv.live_ne mem'))

theorem disjoint_live (mem : a ∈ s.live) (mem' : b ∈ s.live.erase a) :
    Apart (s.heap.block a) (s.heap.block b) := by
  have mem_b : b ∈ s.live := mem_of_mem_erase mem'
  have once : ∀ x, cover ([s.heap.block a] ++ (s.live.erase a).map s.heap.block) x ≤ 1 := by
    intro x
    have all := inv.once x
    rw [← inv.tile, map_append, Tiling.cover_append,
      Tiling.cover_perm ((perm_cons_erase mem).map _)] at all
    exact Nat.le_trans (Nat.le_add_left ..) all
  exact Tiling.disjoint_of_append once mem_cons_self (mem_map_of_mem mem')
    (inv.pos (mem_append_right _ mem) (inv.live_ne mem))
    (inv.pos (mem_append_right _ mem_b) (inv.live_ne mem_b))

theorem erase_ne (mem : a ∈ s.live) (mem' : b ∈ s.live.erase a) : b ≠ a := by
  rintro rfl
  have pos := inv.pos (mem_append_right ns mem) (inv.live_ne mem)
  rcases inv.disjoint_live mem mem' with le | le <;> omega

theorem node_ne_live (mem : x ∈ ns) (mem' : a ∈ s.live) : x ≠ a := by
  rintro rfl
  have ne := inv.live_ne mem'
  have pos := inv.pos (mem_append_left s.live mem) ne
  rcases inv.disjoint mem ne mem' with le | le <;> omega

/-! ## The free list -/

theorem sorted : ns.Pairwise (· < ·) := by
  have chain : List.IsChain (· < ·) ns := inv.gap.imp fun x y gap => by
    unfold Gap at gap
    omega
  exact isChain_iff_pairwise.mp chain

theorem base_mem : base ∈ ns := mem_of_mem_head? inv.head

theorem base_le_node (mem : x ∈ ns) : base ≤ x := by
  rcases inv.blocks x (mem_append_left _ mem) with rfl | ⟨-, le⟩
  · exact Nat.le_refl _
  · omega

theorem node_lt (mem : x ∈ ns) : x < 2 ^ 32 := by
  have top_lt := inv.top_lt
  have base_le := inv.base_le
  by_cases eq : x = base
  · omega
  · have := inv.high (mem_append_left s.live mem) eq
    omega

/-- The list is shorter than the fuel of the loops over it. -/
theorem length_lt : ns.length < rounds := by
  have nodup : ns.Nodup := inv.sorted.imp fun lt => Nat.ne_of_lt lt
  have sub : ns ⊆ (range (2 ^ 32)).erase 0 := fun x mem => by
    have := inv.base_le_node mem
    have := inv.base_pos
    exact (mem_erase_of_ne (by omega)).mpr (mem_range.mpr (inv.node_lt mem))
  have le := (subperm_of_subset nodup sub).length_le
  have len : ((range (2 ^ 32)).erase 0).length = 2 ^ 32 - 1 := by
    rw [length_erase_of_mem (mem_range.mpr (by decide)), length_range]
  unfold rounds
  omega

/-! ## `free` -/

theorem place (mem : a ∈ s.live) : ∃ as p bs, ns = as ++ p :: bs ∧ Place s.heap base as p bs a := by
  have ne := inv.live_ne mem
  have low := inv.low (mem_append_right ns mem) ne
  have high := inv.high (mem_append_right ns mem) ne
  have top_lt := inv.top_lt
  -- the nodes below the block, of which `base` is one
  have some : ns.takeWhile (· < a) ≠ [] := by
    obtain ⟨fs, rfl⟩ : ∃ fs, ns = base :: fs := by
      cases ns with
      | nil => cases inv.head
      | cons b fs => exact ⟨fs, by rw [Option.some.inj inv.head]⟩
    rw [takeWhile_cons_of_pos (by simp; unfold sizeofHeader at low; omega)]
    exact cons_ne_nil _ _
  obtain ⟨as, p, split⟩ : ∃ as p, ns.takeWhile (· < a) = as ++ [p] :=
    ⟨_, _, (dropLast_append_getLast some).symm⟩
  have ns_eq : ns = as ++ p :: ns.dropWhile (· < a) := by
    conv_lhs => rw [← takeWhile_append_dropWhile (p := (· < a)) (l := ns), split]
    rw [append_assoc]
    rfl
  generalize rest : ns.dropWhile (· < a) = bs at ns_eq
  have p_lt : p < a := by
    have : p ∈ ns.takeWhile (· < a) := by rw [split]; simp
    simpa using mem_takeWhile_imp this
  have sorted := inv.sorted
  have nodes : ∀ x ∈ as ++ p :: bs, x ∈ ns := fun x at_x => ns_eq ▸ at_x
  have bs_above : ∀ x ∈ bs, a < x := by
    intro x at_x
    cases bs with
    | nil => cases at_x
    | cons q bs =>
      have q_ge : a ≤ q := by
        have head := head?_dropWhile_not (· < a) ns
        rw [rest] at head
        simpa using head
      have q_ne : q ≠ a := inv.node_ne_live (nodes q (by simp)) mem
      rcases mem_cons.mp at_x with rfl | later
      · omega
      · rw [ns_eq, pairwise_append] at sorted
        have := rel_of_pairwise_cons (pairwise_cons.mp sorted.2.1).2 later
        omega
  refine ⟨as, p, bs, ns_eq, ns_eq ▸ inv.ring, ns_eq ▸ inv.gap, ?_,
    inv.base_le_node (nodes p (by simp)), ?_, p_lt, bs_above, ?_, by omega, ?_⟩
  · rw [ns_eq, pairwise_append] at sorted
    exact fun x at_x => sorted.2.2 x at_x p mem_cons_self
  · by_cases eq : p = base
    · rw [eq, inv.zero]
      unfold sizeofHeader at *
      omega
    · have pos := inv.pos (mem_append_right ns mem) ne
      have apart : p + sizeofHeader * s.heap.size p ≤ a ∨ a + sizeofHeader * s.heap.size a ≤ p :=
        inv.disjoint (nodes p (by simp)) eq mem
      omega
  · intro q at_q
    have at_q := mem_of_mem_head? at_q
    have lt := bs_above q at_q
    have q_mem := nodes q (by simp [at_q])
    have q_ne : q ≠ base := by
      unfold sizeofHeader at low
      omega
    have apart : q + sizeofHeader * s.heap.size q ≤ a ∨ a + sizeofHeader * s.heap.size a ≤ q :=
      inv.disjoint q_mem q_ne mem
    omega
  · intro q at_q
    have lt := bs_above q at_q
    have q_ne : q ≠ base := by
      unfold sizeofHeader at low
      omega
    have := inv.high (mem_append_left s.live (nodes q (by simp [at_q]))) q_ne
    omega

/-- `free` of a live block ends.  The other live blocks keep their sizes, and some free block is at
least as large as the one that was given back. -/
theorem free (mem : a ∈ s.live) : ∃ heap ns', s.heap.free (plus a 1) = some heap ∧
    Inv base { s with heap := heap, live := s.live.erase a } ns' ∧
    (∀ b ∈ s.live.erase a, heap.size b = s.heap.size b) ∧
    ∃ c ∈ ns', s.heap.size a ≤ heap.size c := by
  obtain ⟨as, p, bs, ns_eq, place⟩ := inv.place mem
  have ne := inv.live_ne mem
  have header : headerOf (plus a 1) = a := by
    have pos := inv.pos (mem_append_right ns mem) ne
    have high := inv.high (mem_append_right ns mem) ne
    have top_lt := inv.top_lt
    refine headerOf_plus ?_
    change 0 < sizeofHeader * _ at pos
    unfold sizeofHeader at *
    omega
  have loop : s.heap.freeLoop a rounds s.heap.freep = some p :=
    place.freeLoop_eq (ns_eq ▸ inv.freep) (ns_eq ▸ inv.length_lt)
  obtain ⟨ns', done⟩ := place.insert_inserted
  have p_mem : p ∈ ns := by rw [ns_eq]; simp
  have same : ∀ b ∈ s.live.erase a, (s.heap.insert a p).size b = s.heap.size b := fun b at_b =>
    done.size b (Ne.symm (inv.node_ne_live p_mem (mem_of_mem_erase at_b))) (inv.erase_ne mem at_b)
  refine ⟨s.heap.insert a p, ns', ?_, ?_, same, done.room⟩
  · rw [Heap.free, header, loop]
    rfl
  refine ⟨done.ring, ?_, done.gap, ?_, done.freep, fun x at_x => ?_,
    fun at_base => inv.live (mem_of_mem_erase at_base), fun x => ?_, inv.once, inv.above,
    inv.base_pos, inv.base_le, inv.top_lt⟩
  · rw [done.head, ← inv.head, ns_eq]
    cases as <;> rfl
  · change (s.heap.insert a p).size base = 0
    by_cases eq : base = p
    · rw [eq]
      exact done.size_empty (eq ▸ inv.zero)
    · rw [done.size base eq (Ne.symm ne), inv.zero]
  · change x = base ∨ 0 < (s.heap.insert a p).size x ∧ _
    rcases mem_append.mp at_x with at_x | at_x
    · have old : x ∈ ns ++ s.live := by
        have node := done.nodes x at_x
        simp only [ns_eq, mem_append, mem_cons] at node ⊢
        rcases node with below | eq | rfl | above
        · exact .inl (.inl below)
        · exact .inl (.inr (.inl eq))
        · exact .inr mem
        · exact .inl (.inr (.inr above))
      rcases inv.blocks x old with eq | ⟨pos, le⟩
      · exact .inl eq
      · exact .inr ⟨Nat.lt_of_lt_of_le pos (done.grows x at_x), le⟩
    · rw [same x at_x]
      exact inv.blocks x (mem_append_right ns (mem_of_mem_erase at_x))
  · have live_same : (s.live.erase a).map (s.heap.insert a p).block =
        (s.live.erase a).map s.heap.block := by
      refine map_congr_left fun b at_b => ?_
      unfold Heap.block
      rw [same b at_b]
    have perm : (as ++ p :: a :: bs ++ s.live.erase a).Perm (ns ++ s.live) := by
      refine .trans ?_ ((perm_cons_erase mem).symm.append_left ns)
      rw [ns_eq]
      simp only [append_assoc, cons_append]
      refine .append_left as (.cons p ?_)
      exact perm_middle.symm
    rw [map_append, Tiling.cover_append, done.cover, live_same, ← Tiling.cover_append,
      ← map_append, Tiling.cover_perm (perm.map _)]
    exact inv.tile x

end Blocks

end Inv

end Xv6.Umalloc
