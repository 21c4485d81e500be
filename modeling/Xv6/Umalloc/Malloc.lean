import Xv6.Umalloc.Blocks

/-!
# Taking a block

`malloc` goes once around the free list.  If a block fits, the first one after `freep` is taken, or
its tail (`Inv.take`).  If none does, `morecore` frees a new block, and the search that goes on
finds one before it is back at `freep` (`Inv.search_fit`).
-/

namespace Xv6.Umalloc

open Function List

open Tiling (cover Apart)

namespace Inv

variable {base : Nat} {s : State} {ns : List Nat}

/-! ## Memory from `sbrk` -/

theorem grow (inv : Inv base s ns) {hp nu : Nat} (above : s.top ≤ hp) (pos : 0 < nu)
    (lt : hp + sizeofHeader * nu < 2 ^ 32) :
    Inv base ⟨s.heap.setSize hp nu, hp :: s.live, (hp, sizeofHeader * nu) :: s.regions,
      hp + sizeofHeader * nu⟩ ns := by
  have base_le := inv.base_le
  have hp_ne : hp ≠ base := by
    unfold sizeofHeader at *
    omega
  have new : ∀ a ∈ ns ++ s.live, a ≠ hp := by
    intro a mem eq
    by_cases at_base : a = base
    · exact hp_ne (eq.symm.trans at_base)
    · have high := inv.high mem at_base
      have pos : 0 < sizeofHeader * s.heap.size a := inv.pos mem at_base
      omega
  have same : ∀ a ∈ ns ++ s.live, (s.heap.setSize hp nu).size a = s.heap.size a := fun a mem =>
    update_of_ne (new a mem) ..
  have self : (s.heap.setSize hp nu).size hp = nu := update_self ..
  have blocks :
      (ns ++ s.live).map (s.heap.setSize hp nu).block = (ns ++ s.live).map s.heap.block := by
    refine map_congr_left fun a mem => ?_
    unfold Heap.block
    rw [same a mem]
  refine ⟨inv.ring, inv.head, ?_, ?_, inv.freep, fun a mem => ?_, ?_, fun x => ?_, fun x => ?_,
    fun x le => ?_, inv.base_pos, ?_, lt⟩
  · refine inv.gap.imp_of_mem_imp fun x y mem _ gap => ?_
    unfold Gap at gap ⊢
    rwa [same x (mem_append_left _ mem)]
  · exact (same base (mem_append_left _ inv.base_mem)).trans inv.zero
  · change a = base ∨ 0 < (s.heap.setSize hp nu).size a ∧ _
    by_cases eq : a = hp
    · rw [eq, self]
      exact .inr ⟨pos, Nat.le_trans base_le above⟩
    · have old : a ∈ ns ++ s.live := by
        simp only [mem_append, mem_cons] at mem ⊢
        exact mem.imp_right fun mem => mem.resolve_left eq
      rw [same a old]
      exact inv.blocks a old
  · exact fun mem => (mem_cons.mp mem).elim (fun eq => hp_ne eq.symm) inv.live
  · have perm : (ns ++ hp :: s.live).Perm (hp :: (ns ++ s.live)) := perm_middle
    change cover ((ns ++ hp :: s.live).map _) x = _
    rw [Tiling.cover_perm (perm.map _), map_cons, blocks, Tiling.cover_cons, inv.tile,
      Tiling.cover_cons]
    unfold Heap.block
    rw [self]
  · rw [Tiling.cover_cons]
    split
    next inside =>
      rw [inv.above x (Nat.le_trans above inside.1)]
    next =>
      have := inv.once x
      omega
  · change hp + sizeofHeader * nu ≤ x at le
    rw [Tiling.cover_cons, if_neg fun inside => ?_, inv.above x (by omega)]
    have : x < hp + sizeofHeader * nu := inside.2
    omega
  · change base + sizeofHeader ≤ hp + sizeofHeader * nu
    omega

/-! ## `take` -/

section Take

variable (inv : Inv base s ns) {nunits prevp q : Nat}

include inv

theorem gap_of_lt {x : Nat} (mem : q ∈ ns) (mem' : x ∈ ns) (lt : q < x) : Gap s.heap.size q x := by
  have all : ns.Pairwise (Gap s.heap.size) := isChain_iff_pairwise.mp inv.gap
  have sorted := inv.sorted
  obtain ⟨as, bs, rfl⟩ := append_of_mem mem
  rw [pairwise_append, pairwise_cons] at all sorted
  rcases mem_append.mp mem' with before | at_or_after
  · have := sorted.2.2 x before q mem_cons_self
    omega
  · rcases mem_cons.mp at_or_after with rfl | after
    · omega
    · exact all.2.1.1 x after

theorem split_node (mem : q ∈ ns) (ne : q ≠ base) (prev : prevp ∈ ns)
    (points : s.heap.ptr prevp = q) :
    ∃ as bs, ns = as ++ prevp :: q :: bs := by
  obtain ⟨as, bs, rfl⟩ := append_of_mem mem
  have nodup : (as ++ q :: bs).Nodup := inv.sorted.imp fun lt => Nat.ne_of_lt lt
  rcases eq_nil_or_concat as with rfl | ⟨as, r, rfl⟩
  · exact absurd (Option.some.inj inv.head) ne
  · have shape : as.concat r ++ q :: bs = as ++ r :: q :: bs := by simp
    have ring := inv.ring
    rw [shape] at nodup prev ring ⊢
    rw [ring.pred_unique nodup prev points]
    exact ⟨as, bs, rfl⟩

theorem take_whole {as bs : List Nat} (ns_eq : ns = as ++ prevp :: q :: bs) (ne : q ≠ base) :
    Inv base { s with
      heap := { s.heap.setPtr prevp (s.heap.ptr q) with freep := prevp }
      live := q :: s.live } (as ++ prevp :: bs) := by
  have nodup : (as ++ prevp :: q :: bs).Nodup :=
    ns_eq ▸ inv.sorted.imp fun lt => Nat.ne_of_lt lt
  have ring := inv.ring
  have gap := inv.gap
  rw [ns_eq, Trail.through_iff] at ring
  rw [ns_eq, isChain_split, isChain_cons_cons] at gap
  have prev_ne : prevp ∉ as ∧ prevp ∉ bs := by
    rw [nodup_append, nodup_cons] at nodup
    exact ⟨fun mem => nodup.2.2 prevp mem prevp mem_cons_self rfl,
      fun mem => nodup.2.1.1 (mem_cons_of_mem q mem)⟩
  have moved : (as ++ prevp :: q :: bs).Perm (q :: (as ++ prevp :: bs)) := by
    have middle := @perm_middle _ q (as ++ [prevp]) bs
    simpa using middle
  have perm : (as ++ prevp :: bs ++ q :: s.live).Perm (ns ++ s.live) := by
    rw [ns_eq]
    exact perm_middle.trans (moved.symm.append_right s.live)
  have nodes : ∀ x ∈ as ++ prevp :: bs ++ q :: s.live, x ∈ ns ++ s.live := fun x mem =>
    perm.mem_iff.mp mem
  refine ⟨?_, ?_, ?_, inv.zero, ?_, fun x mem => inv.blocks x (nodes x mem), ?_, fun x => ?_,
    inv.once,
    inv.above, inv.base_pos, inv.base_le, inv.top_lt⟩
  · rw [Trail.through_iff]
    change Trail (update s.heap.ptr prevp (s.heap.ptr q)) base as prevp ∧
      Trail (update s.heap.ptr prevp (s.heap.ptr q))
        (update s.heap.ptr prevp (s.heap.ptr q) prevp) bs base
    rw [update_self]
    exact ⟨ring.1.congr fun n mem => update_of_ne
        (fun eq : n = prevp => prev_ne.1 (eq ▸ mem)) ..,
      ring.2.2.congr fun n mem => update_of_ne
        (fun eq : n = prevp => prev_ne.2 (eq ▸ mem)) ..⟩
  · rw [← inv.head, ns_eq]
    cases as <;> rfl
  · refine isChain_split.mpr ⟨gap.1, isChain_cons.mpr ⟨fun y at_y => ?_, gap.2.2.tail⟩⟩
    have lower : Gap s.heap.size prevp q := gap.2.1
    have upper : Gap s.heap.size q y := (isChain_cons.mp gap.2.2).1 y at_y
    change Gap s.heap.size prevp y
    unfold Gap at *
    omega
  · exact mem_append_right as mem_cons_self
  · exact fun mem => (mem_cons.mp mem).elim (fun eq => ne eq.symm) inv.live
  · exact (Tiling.cover_perm (perm.map _)).trans (inv.tile x)

theorem take_tail (mem : q ∈ ns) (ne : q ≠ base) (prev : prevp ∈ ns) (pos : 0 < nunits)
    (fits : nunits < s.heap.size q) :
    Inv base { s with
      heap := ⟨s.heap.ptr, update (update s.heap.size q (s.heap.size q - nunits))
        (q + sizeofHeader * (s.heap.size q - nunits)) nunits, prevp⟩
      live := (q + sizeofHeader * (s.heap.size q - nunits)) :: s.live } ns := by
  have low := inv.low (mem_append_left s.live mem) ne
  have cut : sizeofHeader * (s.heap.size q - nunits) + sizeofHeader * nunits =
      sizeofHeader * s.heap.size q := by
    rw [← Nat.mul_add, Nat.sub_add_cancel (Nat.le_of_lt fits)]
  have step : 0 < sizeofHeader * (s.heap.size q - nunits) := by
    unfold sizeofHeader
    omega
  have part : 0 < sizeofHeader * nunits := by
    unfold sizeofHeader
    omega
  generalize tail_eq : q + sizeofHeader * (s.heap.size q - nunits) = tail
  -- the new header is inside the block, where no other header is
  have fresh : ∀ x ∈ ns ++ s.live, x ≠ tail := by
    intro x at_x eq
    rcases mem_append.mp at_x with node | live
    · rcases Nat.lt_trichotomy x q with lt | same | gt
      · omega
      · omega
      · have apart := inv.gap_of_lt mem node gt
        unfold Gap at apart
        omega
    · have x_pos : 0 < sizeofHeader * s.heap.size x := inv.pos at_x (inv.live_ne live)
      have apart : q + sizeofHeader * s.heap.size q ≤ x ∨ x + sizeofHeader * s.heap.size x ≤ q :=
        inv.disjoint mem ne live
      omega
  have size_tail : update (update s.heap.size q (s.heap.size q - nunits)) tail
      nunits tail = nunits := update_self ..
  have size_q : update (update s.heap.size q (s.heap.size q - nunits)) tail
      nunits q = s.heap.size q - nunits := by
    rw [update_of_ne (fresh q (mem_append_left _ mem)), update_self]
  have size_other : ∀ x ∈ ns ++ s.live, x ≠ q → update (update s.heap.size q
      (s.heap.size q - nunits)) tail nunits x = s.heap.size x := by
    intro x at_x x_ne
    rw [update_of_ne (fresh x at_x), update_of_ne x_ne]
  refine ⟨inv.ring, inv.head, ?_, ?_, prev, fun x at_x => ?_, ?_, fun x => ?_, inv.once, inv.above,
    inv.base_pos, inv.base_le, inv.top_lt⟩
  · refine inv.gap.imp_of_mem_imp fun x y at_x _ gap => ?_
    unfold Gap at gap ⊢
    dsimp only
    by_cases eq : x = q
    · rw [eq, size_q]
      rw [eq] at gap
      omega
    · rwa [size_other x (mem_append_left _ at_x) eq]
  · exact (size_other base (mem_append_left _ inv.base_mem) (Ne.symm ne)).trans inv.zero
  · dsimp only at at_x ⊢
    by_cases at_tail : x = tail
    · rw [at_tail, size_tail]
      exact .inr ⟨pos, by omega⟩
    · have old : x ∈ ns ++ s.live := by
        simp only [mem_append, mem_cons] at at_x ⊢
        exact at_x.imp_right fun at_x => at_x.resolve_left at_tail
      by_cases eq : x = q
      · rw [eq, size_q]
        exact .inr ⟨by omega, low⟩
      · rw [size_other x old eq]
        exact inv.blocks x old
  · refine fun at_base => (mem_cons.mp at_base).elim (fun eq => ?_) inv.live
    exact fresh base (mem_append_left _ inv.base_mem) eq
  · have nodup : ns.Nodup := inv.sorted.imp fun lt => Nat.ne_of_lt lt
    obtain ⟨as, bs, rfl⟩ := append_of_mem mem
    have others : ∀ y ∈ as ++ bs ++ s.live, y ≠ q := by
      rintro y at_y rfl
      have absent := (nodup_middle.mp nodup).notMem
      rcases mem_append.mp at_y with node | live
      · exact absent node
      · exact inv.node_ne_live mem live rfl
    have old : (as ++ q :: bs ++ s.live).Perm (q :: (as ++ bs ++ s.live)) :=
      perm_middle.append_right s.live
    have now : (as ++ q :: bs ++ tail :: s.live).Perm (q :: tail :: (as ++ bs ++ s.live)) :=
      perm_middle.trans ((old.cons tail).trans (.swap ..))
    rw [← inv.tile, Tiling.cover_perm (now.map _), Tiling.cover_perm (old.map _), map_cons,
      map_cons, map_cons]
    have same : (as ++ bs ++ s.live).map (Heap.block ⟨s.heap.ptr, update (update
        s.heap.size q (s.heap.size q - nunits)) tail nunits, prevp⟩) =
        (as ++ bs ++ s.live).map s.heap.block := by
      refine map_congr_left fun y at_y => ?_
      unfold Heap.block
      dsimp only
      rw [size_other y (old.mem_iff.mpr (mem_cons_of_mem q at_y)) (others y at_y)]
    rw [same]
    unfold Heap.block
    dsimp only
    rw [size_q, size_tail, ← tail_eq, ← Tiling.cover_split, cut]

theorem take (mem : q ∈ ns) (prev : prevp ∈ ns) (points : s.heap.ptr prevp = q) (pos : 0 < nunits)
    (fits : nunits ≤ s.heap.size q) :
    ∃ a ns', (s.heap.take nunits prevp q).1 = plus a 1 ∧
      Inv base { s with heap := (s.heap.take nunits prevp q).2, live := a :: s.live } ns' ∧
      (s.heap.take nunits prevp q).2.size a = nunits ∧
      ∀ b ∈ s.live, (s.heap.take nunits prevp q).2.size b = s.heap.size b := by
  have ne : q ≠ base := by
    rintro rfl
    rw [inv.zero] at fits
    omega
  have high := inv.high (mem_append_left s.live mem) ne
  have top_lt := inv.top_lt
  by_cases whole : s.heap.size q = nunits
  · obtain ⟨as, bs, ns_eq⟩ := inv.split_node mem ne prev points
    rw [Heap.take, if_pos whole]
    exact ⟨q, _, rfl, inv.take_whole ns_eq ne, whole, fun _ _ => rfl⟩
  · have less : nunits < s.heap.size q := by omega
    have result : s.heap.take nunits prevp q =
        (plus (q + sizeofHeader * (s.heap.size q - nunits)) 1,
          ⟨s.heap.ptr, update (update s.heap.size q (s.heap.size q - nunits))
            (q + sizeofHeader * (s.heap.size q - nunits)) nunits, prevp⟩) := by
      have tail : plus q ((s.heap.setSize q (s.heap.size q - nunits)).size q) =
          q + sizeofHeader * (s.heap.size q - nunits) := by
        have self : (s.heap.setSize q (s.heap.size q - nunits)).size q = s.heap.size q - nunits :=
          update_self ..
        rw [self, plus]
        refine word_of_lt ?_
        unfold sizeofHeader at *
        omega
      rw [Heap.take, if_neg whole]
      dsimp only
      rw [tail]
      rfl
    have taken := inv.take_tail mem ne prev pos less
    rw [result]
    refine ⟨_, ns, rfl, taken, update_self .., fun b at_b => ?_⟩
    have b_ne : b ≠ q := Ne.symm (inv.node_ne_live mem at_b)
    have b_ne' : b ≠ q + sizeofHeader * (s.heap.size q - nunits) :=
      taken.erase_ne mem_cons_self (by simpa using at_b)
    exact (update_of_ne b_ne' ..).trans (update_of_ne b_ne ..)

end Take

/-! ## The search -/

section Search

/-- Over blocks that do not fit, the search goes on. -/
theorem search_skip {h : Heap} {l : List Nat} {prevp p q : Nat} (nunits : Nat)
    (replies : List (Option Nat)) (path : Trail h.ptr p l q) (points : h.ptr prevp = p)
    (skip : ∀ y ∈ l, h.size y < nunits ∧ y ≠ h.freep) (k : Nat) :
    ∃ r ∈ prevp :: l, h.ptr r = q ∧ Heap.search nunits (l.length + k) replies prevp p h =
      Heap.search nunits k replies r q h := by
  induction l generalizing prevp p with
  | nil =>
    obtain rfl : p = q := path
    exact ⟨prevp, mem_cons_self, points, by rw [length_nil, Nat.zero_add]⟩
  | cons y l ih =>
    obtain ⟨rfl, path⟩ := path
    obtain ⟨small, ne⟩ := skip p mem_cons_self
    obtain ⟨r, mem, points', eq⟩ := ih path rfl fun y mem => skip y (mem_cons_of_mem p mem)
    refine ⟨r, mem_cons_of_mem prevp mem, points', ?_⟩
    have count : (p :: l).length + k = l.length + k + 1 := by
      rw [length_cons]
      omega
    rw [count, Heap.search_succ, if_neg (Nat.not_le.mpr small), if_neg ne, eq]

theorem around (inv : Inv base s ns) :
    ∃ l, Trail s.heap.ptr (s.heap.ptr s.heap.freep) l s.heap.freep ∧
    (∀ y, y ∈ l ++ [s.heap.freep] ↔ y ∈ ns) ∧ s.heap.freep ∉ l ∧ l.length < ns.length := by
  obtain ⟨us, vs, eq⟩ := append_of_mem inv.freep
  have nodup : ns.Nodup := inv.sorted.imp fun lt => Nat.ne_of_lt lt
  have ring := inv.ring
  rw [eq] at ring nodup
  refine ⟨vs ++ us, ring.around, fun y => ?_, fun mem => ?_, ?_⟩
  · rw [eq]
    simp only [mem_append, mem_cons, not_mem_nil, or_false]
    tauto
  · have absent := (nodup_middle.mp nodup).notMem
    simp only [mem_append] at mem absent
    exact absent mem.symm
  · have len := congrArg length eq
    simp only [length_append, length_cons] at len ⊢
    omega

theorem exists_first {P : Nat → Prop} [DecidablePred P] {l : List Nat} (some : ∃ y ∈ l, P y) :
    ∃ l1 q l2, l = l1 ++ q :: l2 ∧ P q ∧ ∀ y ∈ l1, ¬ P y := by
  induction l with
  | nil =>
    obtain ⟨y, mem, -⟩ := some
    cases mem
  | cons x l ih =>
    by_cases first : P x
    · exact ⟨[], x, l, rfl, first, fun y mem => by cases mem⟩
    · have later : ∃ y ∈ l, P y := by
        obtain ⟨y, mem, ok⟩ := some
        rcases mem_cons.mp mem with rfl | mem
        · exact absurd ok first
        · exact ⟨y, mem, ok⟩
      obtain ⟨l1, q, l2, rfl, ok, none⟩ := ih later
      refine ⟨x :: l1, q, l2, rfl, ok, fun y mem => ?_⟩
      rcases mem_cons.mp mem with rfl | mem
      · exact first
      · exact none y mem

variable {nunits : Nat}

/-- If a block fits, one is taken. -/
theorem search_fit (inv : Inv base s ns) (pos : 0 < nunits)
    (fits : ∃ y ∈ ns, nunits ≤ s.heap.size y)
    (replies : List (Option Nat)) {k : Nat} (enough : ns.length ≤ k) :
    ∃ a ns' heap, Heap.search nunits k replies s.heap.freep (s.heap.ptr s.heap.freep) s.heap =
        some (plus a 1, heap, replies) ∧
      Inv base { s with heap := heap, live := a :: s.live } ns' ∧ heap.size a = nunits ∧
      ∀ b ∈ s.live, heap.size b = s.heap.size b := by
  obtain ⟨l, path, nodes, absent, short⟩ := inv.around
  obtain ⟨y, mem, ok⟩ := fits
  obtain ⟨l1, q, l2, split, fit, small⟩ :=
    exists_first (P := fun y => nunits ≤ s.heap.size y) ⟨y, (nodes y).mpr mem, ok⟩
  have q_mem : q ∈ ns := (nodes q).mp (by rw [split]; simp)
  have l1_mem : ∀ y ∈ l1, y ∈ ns := fun y at_y => (nodes y).mp (by rw [split]; simp [at_y])
  -- the search stops before it passes `freep`
  have front : Trail s.heap.ptr (s.heap.ptr s.heap.freep) l1 q ∧ s.heap.freep ∉ l1 ∧
      l1.length ≤ l.length := by
    rcases eq_nil_or_concat l2 with rfl | ⟨l2, z, rfl⟩
    · obtain ⟨rfl, eq⟩ := append_inj' split rfl
      rw [← head_eq_of_cons_eq eq]
      exact ⟨path, absent, Nat.le_refl _⟩
    · have shape : l ++ [s.heap.freep] = (l1 ++ q :: l2) ++ [z] := by
        rw [split]
        simp
      obtain ⟨rfl, -⟩ := append_inj' shape rfl
      refine ⟨(Trail.through_iff.mp path).1, fun mem => absent (mem_append_left _ mem), ?_⟩
      rw [length_append]
      omega
  obtain ⟨k, rfl⟩ : ∃ j, k = l1.length + (j + 1) := ⟨k - l1.length - 1, by omega⟩
  obtain ⟨r, r_mem, points, eq⟩ := search_skip nunits replies front.1 rfl
    (fun y at_y => ⟨Nat.lt_of_not_le (small y at_y), fun eq => front.2.1 (eq ▸ at_y)⟩) (k + 1)
  have r_mem : r ∈ ns := by
    rcases mem_cons.mp r_mem with rfl | at_r
    · exact inv.freep
    · exact l1_mem r at_r
  obtain ⟨a, ns', ap, taken, size, others⟩ := inv.take q_mem r_mem points pos fit
  refine ⟨a, ns', (s.heap.take nunits r q).2, ?_, taken, size, others⟩
  rw [eq, Heap.search_succ, if_pos fit, ← ap]

/-- If none fits, the search comes to `freep`. -/
theorem search_none (inv : Inv base s ns) (none : ∀ y ∈ ns, s.heap.size y < nunits)
    (replies : List (Option Nat)) {k : Nat} (enough : ns.length ≤ k) :
    ∃ r j, k ≤ j + ns.length ∧
      Heap.search nunits k replies s.heap.freep (s.heap.ptr s.heap.freep) s.heap =
      Heap.search nunits (j + 1) replies r s.heap.freep s.heap := by
  obtain ⟨l, path, nodes, absent, short⟩ := inv.around
  obtain ⟨j, rfl⟩ : ∃ j, k = l.length + (j + 1) := ⟨k - l.length - 1, by omega⟩
  obtain ⟨r, -, -, eq⟩ := search_skip nunits replies path rfl
    (fun y at_y => ⟨none y ((nodes y).mp (mem_append_left _ at_y)),
      fun eq => absent (eq ▸ at_y)⟩) (j + 1)
  exact ⟨r, j, by omega, eq⟩

end Search

/-! ## `malloc` -/

theorem units_pos (nbytes : Nat) : 0 < Heap.units nbytes := Nat.succ_pos _

theorem le_coreUnits (nu : Nat) : nu ≤ Heap.coreUnits nu := by
  unfold Heap.coreUnits
  split <;> omega

structure Allocated (base : Nat) (s : State) (nunits : Nat) (reply : Option Nat)
    (result : Nat × Heap × List (Option Nat)) (s' : State) : Prop where
  inv : ∃ ns', Inv base s' ns'
  /-- It is `sbrk` that has failed when `malloc` returns 0. -/
  fails : result.1 = 0 → reply = none ∧ result.2.2 = []
  block : result.1 ≠ 0 → ∃ a, result.1 = plus a 1 ∧ s'.live = a :: s.live ∧
    s'.heap.size a = nunits ∧ ∀ b ∈ s.live, s'.heap.size b = s.heap.size b

theorem plus_ne_zero (inv : Inv base s ns) {a : Nat} (mem : a ∈ s.live) :
    plus a 1 ≠ 0 ∧ headerOf (plus a 1) = a := by
  have ne := inv.live_ne mem
  have pos : 0 < sizeofHeader * s.heap.size a := inv.pos (mem_append_right ns mem) ne
  have high := inv.high (mem_append_right ns mem) ne
  have top_lt := inv.top_lt
  have lt : a + sizeofHeader < 2 ^ 32 := by
    unfold sizeofHeader at *
    omega
  refine ⟨?_, headerOf_plus lt⟩
  rw [plus, Nat.mul_one, word_of_lt lt]
  unfold sizeofHeader
  omega

theorem malloc (inv : Inv base s ns) {nbytes : Nat} {reply : Option Nat}
    (fresh : s.Fresh (Heap.units nbytes) reply) :
    ∃ result, Heap.search (Heap.units nbytes) (2 * rounds) [reply] s.heap.freep
        (s.heap.ptr s.heap.freep) s.heap = some result ∧
      Allocated base s (Heap.units nbytes) reply result (s.allocated reply nbytes result) := by
  have short := inv.length_lt
  have pos := units_pos nbytes
  by_cases fits : ∃ y ∈ ns, Heap.units nbytes ≤ s.heap.size y
  · obtain ⟨a, ns', heap, eq, taken, size, others⟩ :=
      inv.search_fit pos fits [reply] (k := 2 * rounds) (by omega)
    have given := taken.plus_ne_zero mem_cons_self
    refine ⟨_, eq, ?_⟩
    have after : s.allocated reply nbytes (plus a 1, heap, [reply]) =
        { s with heap := heap, live := a :: s.live } := by
      unfold State.allocated
      dsimp only
      rw [if_neg given.1, given.2]
    rw [after]
    exact ⟨⟨ns', taken⟩, fun zero => absurd zero given.1, fun _ => ⟨a, rfl, rfl, size, others⟩⟩
  · have unfit : ∀ y ∈ ns, s.heap.size y < Heap.units nbytes := fun y mem =>
      Nat.lt_of_not_le fun le => fits ⟨y, mem, le⟩
    obtain ⟨r, j, left, eq⟩ := inv.search_none unfit [reply] (k := 2 * rounds) (by omega)
    have small := unfit _ inv.freep
    rw [eq]
    cases reply with
    | none =>
      rw [Heap.search_succ, if_neg (Nat.not_le.mpr small), if_pos rfl]
      exact ⟨_, rfl, ⟨ns, inv⟩, fun _ => ⟨rfl, rfl⟩, fun some => absurd rfl some⟩
    | some hp =>
      obtain ⟨above, lt⟩ := fresh hp rfl
      have grown := inv.grow above (Nat.lt_of_lt_of_le pos (le_coreUnits _)) lt
      obtain ⟨heap, ns', freed, inv', same, c, c_mem, c_size⟩ := grown.free mem_cons_self
      rw [erase_cons_head] at inv' same
      have core : s.heap.morecore (some hp) (Heap.units nbytes) = some (heap.freep, heap) := by
        rw [Heap.morecore, freed, Option.map_some]
      have self : (s.heap.setSize hp (Heap.coreUnits (Heap.units nbytes))).size hp =
          Heap.coreUnits (Heap.units nbytes) := update_self ..
      rw [self] at c_size
      have short' := inv'.length_lt
      -- the block from `morecore` is large enough, so the search stops on its next round
      obtain ⟨a, ns2, heap2, found, taken, size, others⟩ :=
        inv'.search_fit pos ⟨c, c_mem, Nat.le_trans (le_coreUnits _) c_size⟩ [] (k := j) (by omega)
      have given := taken.plus_ne_zero mem_cons_self
      have freep_ne : heap.freep ≠ 0 := by
        have node : base ≤ heap.freep := inv'.base_le_node inv'.freep
        have := inv.base_pos
        omega
      rw [Heap.search_more small core freep_ne]
      refine ⟨_, found, ?_⟩
      have after : s.allocated (some hp) nbytes (plus a 1, heap2, []) =
          ⟨heap2, a :: s.live, (hp, sizeofHeader * Heap.coreUnits (Heap.units nbytes)) :: s.regions,
            hp + sizeofHeader * Heap.coreUnits (Heap.units nbytes)⟩ := by
        unfold State.allocated State.grow
        dsimp only
        rw [if_neg given.1, given.2]
      rw [after]
      refine ⟨⟨ns2, taken⟩, fun zero => absurd zero given.1,
        fun _ => ⟨a, rfl, rfl, size, fun b mem => ?_⟩⟩
      rw [others b mem, same b mem]
      exact update_of_ne (fun eq => grown.erase_ne mem_cons_self (by simpa using mem) eq) ..

/-! ## Every run -/

theorem write (inv : Inv base s ns) {ptr size : Nat → Nat}
    (keeps : ∀ a, s.Header a → ptr a = s.heap.ptr a ∧ size a = s.heap.size a) :
    Inv base { s with heap := ⟨ptr, size, s.heap.freep⟩ } ns := by
  have node : ∀ x ∈ ns, ptr x = s.heap.ptr x ∧ size x = s.heap.size x := by
    intro x mem
    refine keeps x (.inr ?_)
    obtain ⟨l, path, nodes, -⟩ := inv.around
    rcases mem_append.mp ((nodes x).mpr mem) with at_l | at_f
    · obtain ⟨k, eq⟩ := path.exists_iterate at_l
      exact ⟨k + 1, eq⟩
    · exact ⟨0, (mem_singleton.mp at_f).symm⟩
  have sizes : ∀ x ∈ ns ++ s.live, size x = s.heap.size x := fun x mem =>
    (mem_append.mp mem).elim (fun at_x => (node x at_x).2) fun at_x => (keeps x (.inl at_x)).2
  refine ⟨inv.ring.congr fun x mem => (node x mem).1, inv.head, ?_, ?_, inv.freep, fun x mem => ?_,
    inv.live, fun x => ?_, inv.once, inv.above, inv.base_pos, inv.base_le, inv.top_lt⟩
  · refine inv.gap.imp_of_mem_imp fun x y mem _ gap => ?_
    unfold Gap at gap ⊢
    dsimp only
    rwa [(node x mem).2]
  · exact (node base inv.base_mem).2.trans inv.zero
  · dsimp only
    rw [sizes x mem]
    exact inv.blocks x mem
  · rw [← inv.tile]
    congr 1
    refine map_congr_left fun y mem => ?_
    unfold Heap.block
    dsimp only
    rw [sizes y mem]

end Inv

section System

variable {base : Nat} {s : State} {ns : List Nat}

theorem Inv.start_eq (inv : Inv base s ns) : s.heap.start base = s.heap := by
  refine if_neg fun null => ?_
  have := inv.base_le_node inv.freep
  have := inv.base_pos
  omega

theorem allocated_heap (s : State) (heap : Heap) (reply : Option Nat) (nbytes : Nat)
    (result : Nat × Heap × List (Option Nat)) :
    { s with heap := heap }.allocated reply nbytes result = s.allocated reply nbytes result := by
  obtain ⟨ap, heap', replies⟩ := result
  cases replies with
  | nil => cases reply <;> rfl
  | cons => rfl

/-- The heap has not been used, or is in order. -/
def Good (base : Nat) (s : State) : Prop := Initial base s ∨ ∃ ns, Inv base s ns

theorem Good.start (good : Good base s) :
    ∃ ns, Inv base { s with heap := s.heap.start base } ns := by
  rcases good with fresh | ⟨ns, inv⟩
  · refine ⟨[base], ?_⟩
    have heap : s.heap.start base = ⟨update s.heap.ptr base base,
        update s.heap.size base 0, base⟩ := if_pos fresh.freep
    have zero : update s.heap.size base 0 base = 0 := update_self ..
    rw [heap]
    refine ⟨⟨rfl, update_self ..⟩, rfl, .singleton base, zero, mem_cons_self,
      fun a mem => .inl ?_, ?_, fun x => ?_, fun x => ?_, fun x _ => ?_, fresh.base_pos,
      fresh.base_le,
      fresh.top_lt⟩
    · simpa [fresh.live] using mem
    · change base ∉ s.live
      rw [fresh.live]
      exact not_mem_nil
    · change Tiling.cover (([base] ++ s.live).map _) x = Tiling.cover s.regions x
      rw [fresh.live, fresh.regions, append_nil, map_singleton, Tiling.cover_cons, if_neg]
      · rfl
      · unfold Heap.block Tiling.Contains
        dsimp only
        rw [zero]
        omega
    · change Tiling.cover s.regions x ≤ 1
      rw [fresh.regions]
      exact Nat.zero_le 1
    · change Tiling.cover s.regions x = 0
      rw [fresh.regions]
      rfl
  · refine ⟨ns, ?_⟩
    rw [inv.start_eq]
    exact inv

theorem Good.start_size (good : Good base s) {b : Nat} (mem : b ∈ s.live) :
    (s.heap.start base).size b = s.heap.size b := by
  rcases good with fresh | ⟨ns, inv⟩
  · rw [fresh.live] at mem
    cases mem
  · rw [inv.start_eq]

theorem Good.malloc (good : Good base s) {nbytes : Nat} {reply : Option Nat}
    (fresh : s.Fresh (Heap.units nbytes) reply) :
    ∃ result, s.heap.malloc base [reply] nbytes = some result ∧
      Inv.Allocated base { s with heap := s.heap.start base } (Heap.units nbytes) reply result
        (s.allocated reply nbytes result) := by
  obtain ⟨ns, inv⟩ := good.start
  obtain ⟨result, eq, done⟩ := inv.malloc fresh
  rw [allocated_heap] at done
  exact ⟨result, eq, done⟩

theorem reachable_good (reach : (system base).Reachable s) : Good base s := by
  refine reach.invariant (P := Good base) (fun s start => .inl start) fun s l t _ good step => ?_
  cases step with
  | malloc _ _ fresh eq =>
    obtain ⟨result, eq', done⟩ := good.malloc fresh
    rw [eq'] at eq
    cases eq
    exact .inr done.inv
  | free mem eq =>
    rcases good with start | ⟨ns, inv⟩
    · rw [start.live] at mem
      cases mem
    · obtain ⟨heap, ns', eq', inv', -⟩ := inv.free mem
      rw [eq'] at eq
      cases eq
      exact .inr ⟨ns', inv'⟩
  | write keeps =>
    rcases good with start | ⟨ns, inv⟩
    · exact .inl ⟨start.freep, start.live, start.regions, start.base_pos, start.base_le,
        start.top_lt⟩
    · exact .inr ⟨ns, inv.write keeps⟩

/-- A heap in order: the free list, with the nodes `ns`, is circular and ordered by address; no free
block touches the next one; free blocks and blocks of the program are disjoint, and cut up what
`sbrk` returned. -/
structure InOrder (base : Nat) (s : State) (ns : List Nat) : Prop where
  circular : Trail s.heap.ptr base ns base
  first : ns.head? = some base
  ordered : ns.Pairwise (· < ·)
  freep : s.heap.freep ∈ ns
  apart : ∀ x ∈ ns, ∀ y ∈ ns, x < y → x + sizeofHeader * s.heap.size x < y
  disjoint : ((ns.tail ++ s.live).map s.heap.block).Pairwise Apart
  tiles : ∀ x, (∃ r ∈ s.regions, Tiling.Contains r x) ↔
    ∃ a ∈ ns.tail ++ s.live, Tiling.Contains (s.heap.block a) x

theorem Inv.inOrder (inv : Inv base s ns) : InOrder base s ns := by
  obtain ⟨fs, rfl⟩ : ∃ fs, ns = base :: fs := by
    cases ns with
    | nil => cases inv.head
    | cons b fs => exact ⟨fs, by rw [Option.some.inj inv.head]⟩
  have tile : ∀ x, cover ((fs ++ s.live).map s.heap.block) x = cover s.regions x := by
    intro x
    rw [← inv.tile, cons_append, map_cons, Tiling.cover_cons, if_neg, Nat.zero_add]
    unfold Heap.block Tiling.Contains
    dsimp only
    rw [inv.zero]
    omega
  have ne : ∀ a ∈ fs ++ s.live, a ≠ base := by
    intro a mem eq
    rcases mem_append.mp mem with node | live
    · have lt := rel_of_pairwise_cons inv.sorted node
      omega
    · exact inv.live_ne live eq
  refine ⟨inv.ring, inv.head, inv.sorted, inv.freep,
    fun x mem y mem' lt => inv.gap_of_lt mem mem' lt,
    ?_, fun x => ⟨fun ⟨r, mem, has⟩ => ?_, fun ⟨a, mem, has⟩ => ?_⟩⟩
  · refine Tiling.pairwise_disjoint (fun x => (tile x).trans_le (inv.once x)) fun b at_b => ?_
    obtain ⟨a, mem, rfl⟩ := mem_map.mp at_b
    exact inv.pos (mem_cons_of_mem base mem) (ne a mem)
  · have pos := Tiling.cover_pos mem has
    rw [← tile] at pos
    obtain ⟨b, at_b, has⟩ := Tiling.exists_of_cover_pos pos
    obtain ⟨a, mem, rfl⟩ := mem_map.mp at_b
    exact ⟨a, mem, has⟩
  · have pos : 0 < cover ((fs ++ s.live).map s.heap.block) x :=
      Tiling.cover_pos (mem_map_of_mem mem) has
    rw [tile] at pos
    exact Tiling.exists_of_cover_pos pos

/-- The bytes of a block of `nunits` units are as many as were asked for unless the sum in the
computation of `nunits` wraps around. -/
theorem units_enough {nbytes : Nat} (lt : nbytes < 2 ^ 32) :
    nbytes ≤ sizeofHeader * Heap.units nbytes - sizeofHeader ↔
      nbytes + sizeofHeader - 1 < 2 ^ 32 := by
  unfold Heap.units word sizeofHeader
  omega

/-- The allocator keeps its heap in order, both loops come to an end, and `malloc` returns 0 only if
it has asked `sbrk` for memory, which failed.  The block that it returns otherwise is disjoint from
all blocks of the program, and has room for what was asked for unless the size is within a header of
`2 ^ 32`. -/
theorem umalloc_in_order {s : State} (reach : (system base).Reachable s) :
    (s.heap.freep = 0 ∧ s.live = [] ∧ s.regions = [] ∨ ∃ ns, InOrder base s ns) ∧
    (∀ a ∈ s.live, ∃ heap, s.heap.free (plus a 1) = some heap) ∧
    ∀ nbytes reply, nbytes < 2 ^ 32 → s.Fresh (Heap.units nbytes) reply →
      ∃ result, s.heap.malloc base [reply] nbytes = some result ∧
        (result.1 = 0 → reply = none ∧ result.2.2 = []) ∧ (result.1 ≠ 0 →
        ∃ a, result.1 = plus a 1 ∧ result.2.1.size a = Heap.units nbytes ∧
          (∀ b ∈ s.live, result.2.1.size b = s.heap.size b ∧
            Apart (result.2.1.block a) (result.2.1.block b)) ∧
          (nbytes ≤ sizeofHeader * result.2.1.size a - sizeofHeader ↔
            nbytes + sizeofHeader - 1 < 2 ^ 32)) := by
  have good := reachable_good reach
  refine ⟨?_, fun a mem => ?_, fun nbytes reply lt fresh => ?_⟩
  · rcases good with start | ⟨ns, inv⟩
    · exact .inl ⟨start.freep, start.live, start.regions⟩
    · exact .inr ⟨ns, inv.inOrder⟩
  · rcases good with start | ⟨ns, inv⟩
    · rw [start.live] at mem
      cases mem
    · obtain ⟨heap, -, eq, -⟩ := inv.free mem
      exact ⟨heap, eq⟩
  · obtain ⟨result, eq, done⟩ := good.malloc fresh
    refine ⟨result, eq, done.fails, fun some => ?_⟩
    obtain ⟨a, ap, live, size, others⟩ := done.block some
    obtain ⟨ns, inv⟩ := done.inv
    have mem : a ∈ (s.allocated reply nbytes result).live := by
      rw [live]
      exact mem_cons_self
    refine ⟨a, ap, size, fun b at_b => ⟨?_, ?_⟩, ?_⟩
    · exact (others b at_b).trans (good.start_size at_b)
    · refine inv.disjoint_live mem ?_
      rw [live, erase_cons_head]
      exact at_b
    · have eq : result.2.1.size a = Heap.units nbytes := size
      rw [eq]
      exact units_enough lt

def unused : State := ⟨⟨fun _ => 0, fun _ => 0, 0⟩, [], [], 0x2000⟩

theorem unused_initial : Initial 0x1000 unused := ⟨rfl, rfl, rfl, by decide, by decide, by decide⟩

/-- A request for all 32-bit addresses but one gets a header without contents. -/
theorem malloc_huge : (system 0x1000).Reachable unused ∧
    sizeofHeader * Heap.units (2 ^ 32 - 1) < 2 ^ 31 ∧
    unused.Fresh (Heap.units (2 ^ 32 - 1)) (some 0x2000) ∧
    ∃ heap, unused.heap.malloc 0x1000 [some 0x2000] (2 ^ 32 - 1) = some (0xa000, heap, []) ∧
      sizeofHeader * heap.size (headerOf 0xa000) - sizeofHeader = 0 := by
  refine ⟨.init unused_initial, by decide, by decide, ?_⟩
  have run : ((unused.heap.malloc 0x1000 [some 0x2000] (2 ^ 32 - 1)).map fun r =>
      (r.1, r.2.2, r.2.1.size (headerOf 0xa000))) = some (0xa000, [], 1) := by
    decide +kernel
  obtain ⟨⟨ap, heap, replies⟩, eq, shape⟩ := Option.map_eq_some_iff.mp run
  simp only [Prod.mk.injEq] at shape
  obtain ⟨rfl, rfl, size⟩ := shape
  exact ⟨heap, eq, by simp [size]⟩

/-- Two blocks of 100 and 200 bytes, of which the first has been freed. -/
def used : Option State := do
  let result ← unused.heap.malloc 0x1000 [some 0x2000] 100
  let s := unused.allocated (some 0x2000) 100 result
  let result ← s.heap.malloc 0x1000 [none] 200
  let s := s.allocated none 200 result
  if 0x9f90 ∈ s.live then
    (s.heap.free (plus 0x9f90 1)).map fun heap =>
      { s with heap := heap, live := s.live.erase 0x9f90 }
  else none

theorem used_reachable {s : State} (is : used = some s) : (system 0x1000).Reachable s := by
  unfold used at is
  obtain ⟨first, eq, is⟩ := Option.bind_eq_some_iff.mp is
  obtain ⟨second, eq', is⟩ := Option.bind_eq_some_iff.mp is
  have start : (system 0x1000).Reachable unused := .init unused_initial
  have one := start.step (.malloc (by decide) (by decide) (by decide) eq)
  have two := one.step (.malloc (by decide) (by decide) (by intro hp none; cases none) eq')
  dsimp only at is
  split at is
  · rename_i mem
    obtain ⟨heap, freed, rfl⟩ := Option.map_eq_some_iff.mp is
    exact two.step (.free mem freed)
  · cases is

/-- 50 bytes from a heap with a block of the program between two that are free, without `sbrk`. -/
theorem umalloc_in_order_fifty : ∃ s a heap, (system 0x1000).Reachable s ∧ s.live = [0x9ec0] ∧
    s.heap.malloc 0x1000 [none] 50 = some (plus a 1, heap, [none]) ∧
      50 ≤ sizeofHeader * heap.size a - sizeofHeader ∧
      Apart (heap.block a) (heap.block 0x9ec0) := by
  have run : (used.map fun s => (s.live, (s.heap.malloc 0x1000 [none] 50).map fun r =>
      (r.1, r.2.2))) = some ([0x9ec0], some (0x9fc8, [none])) := by
    decide +kernel
  obtain ⟨s, is, shape⟩ := Option.map_eq_some_iff.mp run
  obtain ⟨live, gave⟩ := Prod.mk.inj shape
  obtain ⟨⟨ap, heap, replies⟩, eq, given⟩ := Option.map_eq_some_iff.mp gave
  cases given
  have reach := used_reachable is
  obtain ⟨result, eq', -, block⟩ :=
    (umalloc_in_order reach).2.2 50 none (by decide) (by intro hp none; cases none)
  cases eq.symm.trans eq'
  obtain ⟨a, ap, -, others, room⟩ := block (Nat.succ_ne_zero _)
  exact ⟨s, a, heap, reach, live, eq.trans (congrArg (fun p => some (p, heap, [none])) ap),
    room.mpr (by decide), (others _ (by rw [live]; simp)).2⟩

end System

end Xv6.Umalloc
