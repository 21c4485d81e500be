import Xv6.Umalloc.Heap
import Xv6.Lib.Trail
import Xv6.Lib.Tiling
import Mathlib.Data.List.Chain

/-!
# Giving a block back

The free list is a circular list in the order of addresses that starts at `base`, and a block of it
ends before the next one begins.  `free` finds the last node below the block, wherever it starts
(`Place.freeLoop_eq`), and puts the block behind it, joined with the node above and then with that
below where they touch (`Place.insert`).
-/

namespace Xv6.Umalloc

open Function List

open Tiling (cover)

/-- The block at `x` ends before `y`, and does not touch it. -/
def Gap (size : Nat → Nat) (x y : Nat) : Prop := x + sizeofHeader * size x < y

instance (size : Nat → Nat) : Trans (Gap size) (Gap size) (Gap size) where
  trans {x y z} first second := by
    unfold Gap at *
    omega

theorem word_of_lt {n : Nat} (lt : n < 2 ^ 32) : word n = n := Nat.mod_eq_of_lt lt

theorem headerOf_plus {a : Nat} (lt : a + sizeofHeader < 2 ^ 32) : headerOf (plus a 1) = a := by
  unfold headerOf plus word sizeofHeader at *
  omega

structure Place (h : Heap) (base : Nat) (as : List Nat) (p : Nat) (bs : List Nat) (bp : Nat) :
    Prop where
  ring : Trail h.ptr base (as ++ p :: bs) base
  gap : List.IsChain (Gap h.size) (as ++ p :: bs)
  below : ∀ x ∈ as, x < p
  base_le : base ≤ p
  before : p + sizeofHeader * h.size p ≤ bp
  lt : p < bp
  above : ∀ x ∈ bs, bp < x
  after : ∀ q ∈ bs.head?, bp + sizeofHeader * h.size bp ≤ q
  ends : bp + sizeofHeader * h.size bp < 2 ^ 32
  high : ∀ q ∈ bs, q + sizeofHeader * h.size q < 2 ^ 32

namespace Place

variable {h : Heap} {base p bp : Nat} {as bs : List Nat}

/-! ## The loop -/

section Place

variable (place : Place h base as p bs bp)
include place

theorem ptr_p : h.ptr p = bs.headD base := by
  have path := (Trail.through_iff.mp place.ring).2
  cases bs with
  | nil => exact path
  | cons q bs => exact path.1

theorem stops : h.stops bp p := by
  unfold Heap.stops
  rw [place.ptr_p]
  cases bs with
  | nil => exact .inr ⟨place.base_le, .inl place.lt⟩
  | cons q bs => exact .inl ⟨place.lt, place.above q mem_cons_self⟩

theorem not_stops_below {x : Nat} (mem : x ∈ as) : ¬ h.stops bp x := by
  obtain ⟨as1, as2, rfl⟩ := append_of_mem mem
  have lt := place.lt
  have split : as1 ++ x :: as2 ++ p :: bs = as1 ++ x :: (as2 ++ p :: bs) := by simp
  have path := place.ring
  have chain := place.gap
  rw [split, Trail.through_iff] at path
  rw [split, isChain_split] at chain
  -- the next node is still below the block
  have next : x < h.ptr x ∧ h.ptr x < bp := by
    cases as2 with
    | nil =>
      have eq : h.ptr x = p := path.2.1
      have gap : Gap h.size x p := (isChain_cons_cons.mp chain.2).1
      unfold Gap at gap
      omega
    | cons c as2 =>
      have eq : h.ptr x = c := path.2.1
      have gap : Gap h.size x c := (isChain_cons_cons.mp chain.2).1
      have := place.below c (by simp)
      unfold Gap at gap
      omega
  unfold Heap.stops
  omega

theorem not_stops_above {x : Nat} (mem : x ∈ bs) : ¬ h.stops bp x := by
  have above := place.above x mem
  have base_le := place.base_le
  have lt := place.lt
  obtain ⟨bs1, bs2, rfl⟩ := append_of_mem mem
  have path := (Trail.through_iff.mp (Trail.through_iff.mp place.ring).2).2
  have chain := (isChain_split.mp place.gap).2
  have tail : List.IsChain (Gap h.size) (x :: bs2) := by
    rw [← cons_append, isChain_split] at chain
    exact chain.2
  have next : h.ptr x = base ∨ x < h.ptr x := by
    cases bs2 with
    | nil => exact .inl path
    | cons c bs2 =>
      have eq : h.ptr x = c := path.1
      have gap : Gap h.size x c := (isChain_cons_cons.mp tail).1
      unfold Gap at gap
      exact .inr (by omega)
  unfold Heap.stops
  omega

end Place

theorem freeLoop_path {x : Nat} {us : List Nat} (path : Trail h.ptr x us p)
    (skip : ∀ y ∈ us, ¬ h.stops bp y) (stop : h.stops bp p) {n : Nat} (enough : us.length < n) :
    h.freeLoop bp n x = some p := by
  induction us generalizing x n with
  | nil =>
    obtain ⟨n, rfl⟩ := Nat.exists_eq_succ_of_ne_zero (by omega : n ≠ 0)
    obtain rfl : x = p := path
    rw [Heap.freeLoop, if_pos stop]
  | cons y us ih =>
    obtain ⟨n, rfl⟩ := Nat.exists_eq_succ_of_ne_zero (by omega : n ≠ 0)
    obtain ⟨rfl, path⟩ := path
    rw [Heap.freeLoop, if_neg (skip x mem_cons_self)]
    exact ih path (fun y mem => skip y (mem_cons_of_mem x mem)) (by simpa using enough)

/-- Wherever it starts, the loop finds the place. -/
theorem freeLoop_eq (place : Place h base as p bs bp) {f : Nat} (mem : f ∈ as ++ p :: bs)
    {n : Nat} (enough : (as ++ p :: bs).length < n) : h.freeLoop bp n f = some p := by
  obtain ⟨us, path, sub, short⟩ := place.ring.to_node mem
  refine freeLoop_path path (fun y at_y => ?_) place.stops ?_
  · rcases mem_append.mp (sub at_y) with below | above
    · exact place.not_stops_below below
    · exact place.not_stops_above above
  · simp only [length_append, length_cons] at enough
    omega

/-! ## The insertion -/

/-- What the first half leaves: the nodes `rest` above the block. -/
structure Upper (h h' : Heap) (base bp : Nat) (bs rest : List Nat) : Prop where
  path : Trail h'.ptr (h'.ptr bp) rest base
  gap : List.IsChain (Gap h'.size) (bp :: rest)
  suffix : rest <:+ bs
  ptr : ∀ x, x ≠ bp → h'.ptr x = h.ptr x
  size : ∀ x, x ≠ bp → h'.size x = h.size x
  size_bp : h.size bp ≤ h'.size bp
  ends : bp + sizeofHeader * h'.size bp < 2 ^ 32
  cover : ∀ x, cover ((bp :: rest).map h'.block) x = cover ((bp :: bs).map h.block) x

theorem joinUpper_apart (apart : plus bp (h.size bp) ≠ h.ptr p) :
    h.joinUpper bp p = ⟨update h.ptr bp (h.ptr p), h.size, h.freep⟩ := if_neg apart

theorem joinUpper_touch (touch : plus bp (h.size bp) = h.ptr p) :
    h.joinUpper bp p = ⟨update h.ptr bp (h.ptr (h.ptr p)),
      update h.size bp (word (h.size bp + h.size (h.ptr p))), h.freep⟩ := if_pos touch

theorem joinUpper_upper (place : Place h base as p bs bp) :
    ∃ rest, Upper h (h.joinUpper bp p) base bp bs rest := by
  have path := (Trail.through_iff.mp place.ring).2
  have chain : List.IsChain (Gap h.size) bs := (isChain_split.mp place.gap).2.tail
  have lt := place.lt
  have base_le := place.base_le
  have absent : bp ∉ bs := fun mem => Nat.lt_irrefl _ (place.above bp mem)
  have end_eq : plus bp (h.size bp) = bp + sizeofHeader * h.size bp := word_of_lt place.ends
  by_cases touch : plus bp (h.size bp) = h.ptr p
  · cases bs with
    | nil =>
      -- there is nothing above the block, and `base` is below it
      have ptr_p : h.ptr p = base := path
      rw [end_eq, ptr_p] at touch
      omega
    | cons q bs =>
      rw [joinUpper_touch touch, path.1]
      rw [end_eq, path.1] at touch
      have high := place.high q mem_cons_self
      have sum : word (h.size bp + h.size q) = h.size bp + h.size q := by
        refine word_of_lt ?_
        unfold sizeofHeader at *
        omega
      rw [sum]
      have others : ∀ x ∈ bs, x ≠ bp := fun x mem eq => absent (eq ▸ mem_cons_of_mem q mem)
      have size_bp : update h.size bp (h.size bp + h.size q) bp = _ :=
        update_self ..
      have size_ne : ∀ x ∈ bs, update h.size bp (h.size bp + h.size q) x = h.size x :=
        fun x mem => update_of_ne (others x mem) ..
      refine ⟨bs, ?_, ?_, suffix_cons q bs, fun x ne => update_of_ne ne ..,
        fun x ne => update_of_ne ne .., ?_, ?_, fun x => ?_⟩
      · dsimp only
        rw [update_self]
        exact path.2.congr fun n mem => update_of_ne (others n mem) ..
      · rw [isChain_cons] at chain ⊢
        refine ⟨fun y at_y => ?_, ?_⟩
        · have gap : Gap h.size q y := chain.1 y at_y
          unfold Gap at gap ⊢
          dsimp only
          rw [size_bp]
          unfold sizeofHeader at *
          omega
        · refine chain.2.imp_of_mem_imp fun x y mem _ gap => ?_
          unfold Gap at gap ⊢
          dsimp only
          rwa [size_ne x mem]
      · dsimp only
        rw [size_bp]
        exact Nat.le_add_right ..
      · dsimp only
        rw [size_bp]
        unfold sizeofHeader at *
        omega
      · have same : bs.map (Heap.block ⟨update h.ptr bp (h.ptr q),
            update h.size bp (h.size bp + h.size q), h.freep⟩) = bs.map h.block := by
          refine map_congr_left fun y mem => ?_
          unfold Heap.block
          dsimp only
          rw [size_ne y mem]
        rw [map_cons, same, map_cons, map_cons]
        unfold Heap.block
        dsimp only
        rw [size_bp, Nat.mul_add, Tiling.cover_split, touch]
  · rw [joinUpper_apart touch]
    refine ⟨bs, ?_, ?_, suffix_rfl, fun x ne => update_of_ne ne .., fun _ _ => rfl,
      Nat.le_refl _, place.ends, fun _ => rfl⟩
    · dsimp only
      rw [update_self]
      exact path.congr fun n mem => update_of_ne
        (fun eq : n = bp => absent (eq ▸ mem)) ..
    · refine isChain_cons.mpr ⟨fun q at_q => ?_, chain⟩
      have after := place.after q at_q
      have ptr_p : h.ptr p = q := by
        rw [place.ptr_p, headD_eq_head?_getD, Option.mem_def.mp at_q]
        rfl
      rw [end_eq, ptr_p] at touch
      exact Nat.lt_of_le_of_ne after touch

variable {h' : Heap}

theorem joinLower_apart (apart : plus p (h'.size p) ≠ bp) :
    h'.joinLower bp p = ⟨update h'.ptr p bp, h'.size, h'.freep⟩ := if_neg apart

theorem joinLower_touch (touch : plus p (h'.size p) = bp) :
    h'.joinLower bp p = ⟨update h'.ptr p (h'.ptr bp),
      update h'.size p (word (h'.size p + h'.size bp)), h'.freep⟩ := if_pos touch

structure Inserted (h h' : Heap) (base : Nat) (as : List Nat) (p : Nat) (bs : List Nat) (bp : Nat)
    (ns : List Nat) : Prop where
  ring : Trail h'.ptr base ns base
  gap : List.IsChain (Gap h'.size) ns
  head : ns.head? = (as ++ [p]).head?
  freep : h'.freep ∈ ns
  nodes : ∀ x ∈ ns, x ∈ as ++ p :: bp :: bs
  grows : ∀ x ∈ ns, h.size x ≤ h'.size x
  size : ∀ x, x ≠ p → x ≠ bp → h'.size x = h.size x
  size_empty : h.size p = 0 → h'.size p = 0
  room : ∃ c ∈ ns, h.size bp ≤ h'.size c
  cover : ∀ x, cover (ns.map h'.block) x = cover ((as ++ p :: bp :: bs).map h.block) x

structure Tail (h h' : Heap) (base : Nat) (p : Nat) (bs : List Nat) (bp : Nat) (tail : List Nat) :
    Prop where
  path : Trail h'.ptr (h'.ptr p) tail base
  gap : List.IsChain (Gap h'.size) (p :: tail)
  freep : h'.freep = p
  nodes : ∀ x ∈ tail, x ∈ bp :: bs
  grows : ∀ x ∈ p :: tail, h.size x ≤ h'.size x
  ptr : ∀ x, x ≠ p → x ≠ bp → h'.ptr x = h.ptr x
  size : ∀ x, x ≠ p → x ≠ bp → h'.size x = h.size x
  size_empty : h.size p = 0 → h'.size p = 0
  room : ∃ c ∈ p :: tail, h.size bp ≤ h'.size c
  cover : ∀ x, cover ((p :: tail).map h'.block) x = cover ((p :: bp :: bs).map h.block) x

variable (place : Place h base as p bs bp)
include place

theorem Tail.inserted {tail : List Nat} (part : Tail h h' base p bs bp tail) :
    Inserted h h' base as p bs bp (as ++ p :: tail) := by
  have lt := place.lt
  have ne : ∀ x ∈ as, x ≠ p ∧ x ≠ bp := fun x mem => by
    have := place.below x mem
    omega
  have first := (Trail.through_iff.mp place.ring).1
  have chain := (isChain_split.mp place.gap).1
  refine ⟨?_, ?_, by cases as <;> rfl, by rw [part.freep]; simp, ?_, ?_, part.size, part.size_empty,
    ?_, fun x => ?_⟩
  · exact Trail.through_iff.mpr
      ⟨first.congr fun n mem => part.ptr n (ne n mem).1 (ne n mem).2, part.path⟩
  · refine isChain_split.mpr ⟨chain.imp_of_mem_imp fun x y mem_x mem_y gap => ?_, part.gap⟩
    -- `x` is not the last node of this part, since `y` follows it
    have x_mem : x ∈ as := by
      rcases mem_append.mp mem_x with mem | mem
      · exact mem
      · obtain rfl := mem_singleton.mp mem
        have y_le : y ≤ x := by
          rcases mem_append.mp mem_y with mem | mem
          · exact Nat.le_of_lt (place.below y mem)
          · exact Nat.le_of_eq (mem_singleton.mp mem)
        unfold Gap at gap
        omega
    unfold Gap at gap ⊢
    rwa [part.size x (ne x x_mem).1 (ne x x_mem).2]
  · intro x mem
    rcases mem_append.mp mem with mem | mem
    · exact mem_append_left _ mem
    · rcases mem_cons.mp mem with rfl | mem
      · exact mem_append_right as mem_cons_self
      · exact mem_append_right as (mem_cons_of_mem p (part.nodes x mem))
  · intro x mem
    rcases mem_append.mp mem with mem | mem
    · exact Nat.le_of_eq (part.size x (ne x mem).1 (ne x mem).2).symm
    · exact part.grows x mem
  · obtain ⟨c, mem, le⟩ := part.room
    exact ⟨c, mem_append_right as mem, le⟩
  · have same : as.map h'.block = as.map h.block := by
      refine map_congr_left fun y mem => ?_
      unfold Heap.block
      rw [part.size y (ne y mem).1 (ne y mem).2]
    rw [map_append, Tiling.cover_append, same, part.cover, ← Tiling.cover_append,
      ← map_append]

theorem tail_touch {rest : List Nat} (upper : Upper h (h.joinUpper bp p) base bp bs rest)
    (touch : p + sizeofHeader * h.size p = bp) : Tail h (h.insert bp p) base p bs bp rest := by
  have lt := place.lt
  have grown := upper.ends
  have size_p := upper.size p (Nat.ne_of_lt lt)
  have ne : ∀ x ∈ rest, x ≠ p := fun x mem => by
    have := place.above x (upper.suffix.subset mem)
    omega
  have end_eq : plus p ((h.joinUpper bp p).size p) = bp := by
    rw [size_p, ← touch]
    refine word_of_lt ?_
    unfold sizeofHeader at *
    omega
  have sum : word ((h.joinUpper bp p).size p + (h.joinUpper bp p).size bp) =
      h.size p + (h.joinUpper bp p).size bp := by
    rw [size_p]
    refine word_of_lt ?_
    unfold sizeofHeader at *
    omega
  have result : h.insert bp p =
      ⟨update (h.joinUpper bp p).ptr p ((h.joinUpper bp p).ptr bp),
        update (h.joinUpper bp p).size p (h.size p + (h.joinUpper bp p).size bp), p⟩ := by
    rw [Heap.insert, joinLower_touch end_eq, sum]
  have size_self : (h.insert bp p).size p = h.size p + (h.joinUpper bp p).size bp := by
    rw [result]
    exact update_self ..
  have size_other : ∀ x, x ≠ p → (h.insert bp p).size x = (h.joinUpper bp p).size x := by
    intro x ne
    rw [result]
    exact update_of_ne ne ..
  refine ⟨?_, isChain_cons.mpr ⟨fun y at_y => ?_, ?_⟩, by rw [result], ?_, ?_, ?_, ?_, ?_, ?_,
    fun x => ?_⟩
  · rw [result]
    dsimp only
    rw [update_self]
    exact upper.path.congr fun n mem => update_of_ne (ne n mem) ..
  · have gap : Gap (h.joinUpper bp p).size bp y := (isChain_cons.mp upper.gap).1 y at_y
    unfold Gap at gap ⊢
    rw [size_self]
    unfold sizeofHeader at *
    omega
  · refine upper.gap.tail.imp_of_mem_imp fun x y mem _ gap => ?_
    unfold Gap at gap ⊢
    rwa [size_other x (ne x mem)]
  · exact fun x mem => mem_cons_of_mem bp (upper.suffix.subset mem)
  · intro x mem
    rcases mem_cons.mp mem with rfl | mem
    · rw [size_self]
      exact Nat.le_add_right ..
    · have above := place.above x (upper.suffix.subset mem)
      rw [size_other x (ne x mem), upper.size x (by omega)]
  · intro x x_ne x_ne'
    rw [result]
    exact (update_of_ne x_ne ..).trans (upper.ptr x x_ne')
  · exact fun x x_ne x_ne' => (size_other x x_ne).trans (upper.size x x_ne')
  · intro empty
    rw [empty] at touch
    omega
  · refine ⟨p, mem_cons_self, ?_⟩
    rw [size_self]
    have := upper.size_bp
    omega
  · have same : rest.map (h.insert bp p).block = rest.map (h.joinUpper bp p).block := by
      refine map_congr_left fun y mem => ?_
      unfold Heap.block
      rw [size_other y (ne y mem)]
    rw [map_cons, same, map_cons (l := bp :: bs), Tiling.cover_cons (b := h.block p),
      ← upper.cover x, ← Tiling.cover_cons]
    unfold Heap.block
    rw [size_self, Nat.mul_add, Tiling.cover_split, touch]
    rfl

theorem tail_apart {rest : List Nat} (upper : Upper h (h.joinUpper bp p) base bp bs rest)
    (apart : p + sizeofHeader * h.size p ≠ bp) :
    Tail h (h.insert bp p) base p bs bp (bp :: rest) := by
  have lt := place.lt
  have before := place.before
  have size_p := upper.size p (Nat.ne_of_lt lt)
  have ne : ∀ x ∈ rest, x ≠ p := fun x mem => by
    have := place.above x (upper.suffix.subset mem)
    omega
  have end_ne : plus p ((h.joinUpper bp p).size p) ≠ bp := by
    have ends := place.ends
    rw [size_p, plus, word_of_lt (by omega)]
    exact apart
  have result : h.insert bp p =
      ⟨update (h.joinUpper bp p).ptr p bp, (h.joinUpper bp p).size, p⟩ := by
    rw [Heap.insert, joinLower_apart end_ne]
  have size_eq : (h.insert bp p).size = (h.joinUpper bp p).size := by rw [result]
  have blocks : (h.insert bp p).block = (h.joinUpper bp p).block := by
    funext x
    unfold Heap.block
    rw [size_eq]
  refine ⟨?_, isChain_cons_cons.mpr ⟨?_, ?_⟩, by rw [result], ?_, ?_, ?_, ?_, ?_, ?_,
    fun x => ?_⟩
  · rw [result]
    dsimp only
    rw [update_self, Trail, update_of_ne (Nat.ne_of_gt lt)]
    exact ⟨rfl, upper.path.congr fun n mem => update_of_ne (ne n mem) ..⟩
  · rw [size_eq]
    unfold Gap
    rw [size_p]
    omega
  · rw [size_eq]
    exact upper.gap
  · exact fun x mem => (mem_cons.mp mem).elim (fun eq => eq ▸ mem_cons_self)
      fun mem => mem_cons_of_mem bp (upper.suffix.subset mem)
  · intro x mem
    rw [size_eq]
    by_cases eq : x = bp
    · rw [eq]
      exact upper.size_bp
    · exact Nat.le_of_eq (upper.size x eq).symm
  · intro x x_ne x_ne'
    rw [result]
    exact (update_of_ne x_ne ..).trans (upper.ptr x x_ne')
  · intro x _ x_ne'
    rw [size_eq]
    exact upper.size x x_ne'
  · intro empty
    rw [size_eq, size_p, empty]
  · refine ⟨bp, mem_cons_of_mem p mem_cons_self, ?_⟩
    rw [size_eq]
    exact upper.size_bp
  · rw [blocks, map_cons, Tiling.cover_cons, upper.cover x, map_cons (l := bp :: bs),
      Tiling.cover_cons (b := h.block p)]
    unfold Heap.block
    rw [size_p]

theorem insert_inserted :
    ∃ ns, Inserted h (h.insert bp p) base as p bs bp ns := by
  obtain ⟨rest, upper⟩ := place.joinUpper_upper
  by_cases touch : p + sizeofHeader * h.size p = bp
  · exact ⟨_, (place.tail_touch upper touch).inserted place⟩
  · exact ⟨_, (place.tail_apart upper touch).inserted place⟩

end Place

end Xv6.Umalloc
