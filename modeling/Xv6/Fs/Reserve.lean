import Xv6.Fs.Layout
import Xv6.Fs.SharedFile
import Mathlib.Data.Finset.Card

/-!
# A round of `filewrite` fits in its reservation

`begin_op` reserves `MAXOPBLOCKS` blocks of the log for an operation, and `filewrite` cuts what it
writes into pieces of which it is sure that they fit: the data blocks, the blocks of the free map
that mark the new ones, the indirect block with its mark, and the block of the inode.

A piece of three blocks that does not start at a block boundary goes to four blocks, but the first
of them is there already.  That makes seven blocks with the marks of the other three, two for the
indirect block and one for the inode, and that is all there is room for.

The count depends on `balloc` never returning block 0, which `bmap` takes for a missing indirect
block and allocates again.
-/

namespace Xv6.Fs

open Function List

variable {src : List Byte}

namespace Disk

variable {sb : Superblock} {d d' : Disk sb} {ip ip' : Dinode Addrs} {b : Nat}

def IsMap (sb : Superblock) (b : Nat) : Prop := ∃ c, c < sb.size ∧ bblock sb c = b

/-- Block 0 and the blocks of the free map are marked. -/
def Marked (d : Disk sb) : Prop := ∀ b, b < sb.size → b = 0 ∨ IsMap sb b → d.bit b = true

structure Calm (d : Disk sb) (ip : Dinode Addrs) : Prop where
  marked : Marked d
  addrs : ∀ i, ip.addrs i ≠ 0 → ¬ IsMap sb (ip.addrs i).toNat

/-- Block `b` is the indirect block, or marks it. -/
def OfPointer (sb : Superblock) (ip : Dinode Addrs) (b : Nat) : Prop :=
  ip.addrs (Fin.last ndirect) ≠ 0 ∧ (b = pointer ip ∨ b = bblock sb (pointer ip))

/-! ## `balloc` -/

variable {data : Block}

theorem bit_put_of_not_map (out : ¬ IsMap sb b) {c : Nat} (lt : c < sb.size) :
    (d.put b data).bit c = d.bit c := by
  unfold bit
  rw [block_put_ne fun eq => out ⟨c, lt, eq⟩]

theorem Marked.put (marked : Marked d) (out : ¬ IsMap sb b) : Marked (d.put b data) := by
  intro c lt reserved
  rw [bit_put_of_not_map out lt]
  exact marked c lt reserved

theorem Marked.fresh (marked : Marked d) (lt : b < sb.size) (clear : d.bit b = false) :
    b ≠ 0 ∧ ¬ IsMap sb b := by
  rw [← not_or]
  intro reserved
  rw [marked b lt reserved] at clear
  cases clear

theorem Marked.take (marked : Marked d) (lt : b < sb.size) (clear : d.bit b = false) :
    Marked (d.take b) := by
  refine Marked.put (fun c lt_c reserved => ?_) (marked.fresh lt clear).2
  rw [bit_putBit]
  split
  · rfl
  · exact marked c lt_c reserved

theorem take_logged : (d.take b).logged = b :: bblock sb b :: d.logged := rfl

theorem put_logged : (d.put b data).logged = b :: d.logged := rfl

/-! ## `bmap` -/

structure Found (d : Disk sb) (ip : Dinode Addrs) (a : Nat) (ip' : Dinode Addrs) (d' : Disk sb) :
    Prop where
  pointer :
    ip.addrs (Fin.last ndirect) ≠ 0 → ip'.addrs (Fin.last ndirect) = ip.addrs (Fin.last ndirect)
  calm : ip'.addrs (Fin.last ndirect) = 0 → Calm d' ip' ∧ ¬ IsMap sb a
  logs : ∃ bs, d'.logged = bs ++ d.logged ∧
    ∀ b ∈ bs, b = a ∨ b = bblock sb a ∨ OfPointer sb ip' b

theorem Calm.setAddr (size : sb.size ≤ 2 ^ 32) (calm : Calm d ip) (i : Fin (ndirect + 1))
    (lt : b < sb.size)
    (clear : d.bit b = false) : Calm (d.take b) (setAddr ip i b) := by
  refine ⟨calm.marked.take lt clear, fun j full => ?_⟩
  rcases eq_or_ne j i with rfl | ne
  · simp only [Disk.setAddr, update_self]
    rw [ofNat_block size lt]
    exact (calm.marked.fresh lt clear).2
  · simp only [Disk.setAddr, update_of_ne ne] at full ⊢
    exact calm.addrs j full

theorem setAddr_self (ip : Dinode Addrs) (i : Fin (ndirect + 1)) (b : Nat) :
    (setAddr ip i b).addrs i = BitVec.ofNat 32 b := update_self i _ ip.addrs

theorem setAddr_pointer {i : Fin (ndirect + 1)} (ne : i ≠ Fin.last ndirect) (b : Nat) :
    (setAddr ip i b).addrs (Fin.last ndirect) = ip.addrs (Fin.last ndirect) :=
  update_of_ne ne.symm _ _

theorem entry_found (bn : Nat) (ptr : ip.addrs (Fin.last ndirect) ≠ 0) :
    Within (fun _ => True) (do
        let bp ← bread (pointer ip)
        if bp.word bn = 0 then
          let b ← balloc true
          logWrite true (pointer ip) (bp.setWord bn (BitVec.ofNat 32 b))
          pure (b, ip)
        else pure ((bp.word bn).toNat, ip) : Prog Panic (Disk sb) (Nat × Dinode Addrs)) d
      fun r d' => r.2 = ip ∧ Found d ip r.1 ip d' := by
  refine .bind ?_
  change Within _ (if (d.block (pointer ip)).word bn = 0 then _ else _) d _
  split
  · refine .bind (within_balloc.mono (fun _ _ => trivial) ?_)
    rintro b _ ⟨lt, clear, rfl⟩
    refine .bind (within_logWrite (fun _ => trivial) fun _ => ⟨rfl, fun _ => rfl,
      fun zero => absurd zero ptr, [pointer ip, b, bblock sb b], rfl, fun c mem => ?_⟩)
    simp only [mem_cons, not_mem_nil, or_false] at mem
    rcases mem with rfl | rfl | rfl
    · exact .inr (.inr ⟨ptr, .inl rfl⟩)
    · exact .inl rfl
    · exact .inr (.inl rfl)
  · exact ⟨rfl, fun _ => rfl, fun zero => absurd zero ptr, [], rfl, (by simp)⟩

theorem bmap_found (size : sb.size ≤ 2 ^ 32) (calm : ip.addrs (Fin.last ndirect) = 0 → Calm d ip)
    (bn : Nat) :
    Within (fun _ => True) (bmap true ip bn) d fun r d' => Found d ip r.1 r.2 d' := by
  unfold bmap
  split
  · rename_i few
    have ne : (⟨bn, by omega⟩ : Fin (ndirect + 1)) ≠ Fin.last ndirect := by
      intro eq
      have : bn = ndirect := congrArg Fin.val eq
      omega
    refine (direct_cases true ip _ d).mono (fun _ => id) ?_
    rintro _ d' (⟨full, rfl, rfl⟩ | ⟨zero, a, lt, clear, rfl, rfl⟩)
    · exact ⟨fun _ => rfl, fun zero => ⟨calm zero, (calm zero).addrs _ full⟩, [], rfl, (by simp)⟩
    · refine ⟨fun _ => setAddr_pointer ne a, fun none => ?_, [a, bblock sb a], rfl, fun b mem => ?_⟩
      · rw [setAddr_pointer ne] at none
        exact ⟨(calm none).setAddr size _ lt clear, ((calm none).marked.fresh lt clear).2⟩
      · simp only [mem_cons, not_mem_nil, or_false] at mem
        exact mem.imp id .inl
  · split
    · refine .bind ((direct_cases true ip _ d).mono (fun _ => id) ?_)
      rintro _ d' (⟨full, rfl, rfl⟩ | ⟨zero, a, lt, clear, rfl, rfl⟩)
      · refine (entry_found _ full).mono (fun _ => id) ?_
        rintro ⟨a, ip'⟩ d' ⟨rfl, found⟩
        exact found
      · -- The indirect block is new, and it is not block 0.
        dsimp only
        have fresh := (calm zero).marked.fresh lt clear
        have here := setAddr_self ip (Fin.last ndirect) a
        have ptr : (setAddr ip (Fin.last ndirect) a).addrs (Fin.last ndirect) ≠ 0 := by
          rw [here]
          exact ofNat_block_ne_zero size lt fresh.1
        have number : pointer (setAddr ip (Fin.last ndirect) a) = a := by
          rw [pointer, here, ofNat_block size lt]
        have entry := entry_found (d := d.take a) (bn - ndirect) ptr
        rw [number] at entry
        refine entry.mono (fun _ => id) ?_
        rintro ⟨b, ip'⟩ d' ⟨rfl, found⟩
        obtain ⟨bs, logged, blocks⟩ := found.logs
        refine ⟨fun full => absurd zero full, fun none => absurd none ptr, bs ++ [a, bblock sb a],
          ?_, fun c mem => ?_⟩
        · rw [logged, take_logged]
          simp
        · rcases mem_append.mp mem with later | pointer
          · exact blocks c later
          · refine .inr (.inr ⟨ptr, ?_⟩)
            rw [number]
            simpa using pointer
    · exact trivial

/-! ## `writei` -/

/-- The number of blocks that the `n` bytes from `off` on are in. -/
def span (off n : Nat) : Nat := if n = 0 then 0 else (off + n - 1) / bsize - off / bsize + 1

variable {off : Nat}

theorem span_step {n : Nat} (pos : 0 < n) :
    span off n = 1 + span (off + min n (bsize - off % bsize))
    (n - min n (bsize - off % bsize)) := by
  unfold span
  rw [if_neg (by omega)]
  simp only [bsize]
  split
  · omega
  · omega

/-- What the loop of `writei` has logged: two blocks for each block of the range, one if it was
there, and those of the indirect block. -/
structure Spent (d : Disk sb) (ip : Dinode Addrs) (off : Nat) (src : List Byte) (ip' : Dinode Addrs)
    (d' : Disk sb) : Prop where
  pointer :
    ip.addrs (Fin.last ndirect) ≠ 0 → ip'.addrs (Fin.last ndirect) = ip.addrs (Fin.last ndirect)
  logs : ∃ (bs : List Nat) (T : Finset Nat), d'.logged = bs ++ d.logged ∧
    (∀ b ∈ bs, b ∈ T ∨ OfPointer sb ip' b) ∧ T.card ≤ 2 * span off src.length ∧
    (src ≠ [] → d.mapped ip (off / bsize) ≠ 0 → T.card + 1 ≤ 2 * span off src.length)

theorem Spent.nothing (off : Nat) (src : List Byte) : Spent d ip off src ip d := by
  refine ⟨fun _ => rfl, [], ∅, rfl, (by simp), Nat.zero_le _, fun some _ => ?_⟩
  have pos : 0 < src.length := length_pos_iff.mpr some
  rw [span_step pos, Finset.card_empty]
  omega

theorem Found.spent {a m : Nat} {ip1 ip2 : Dinode Addrs} {d1 d2 : Disk sb}
    (found : Found d ip a ip1 d1) (same : d.mapped ip (off / bsize) ≠ 0 → d1 = d)
    (step : span off src.length = 1 + span (off + m) (src.drop m).length)
    (later : Spent (d1.put a data) ip1 (off + m) (src.drop m) ip2 d2) :
    Spent d ip off src ip2 d2 := by
  obtain ⟨bs1, logged1, blocks1⟩ := found.logs
  obtain ⟨bs2, T, logged2, blocks2, card, -⟩ := later.logs
  have carried : ∀ b, OfPointer sb ip1 b → OfPointer sb ip2 b := by
    rintro b ⟨ptr, here⟩
    have eq := later.pointer ptr
    refine ⟨eq ▸ ptr, ?_⟩
    rw [Disk.pointer, eq]
    exact here
  refine ⟨fun ptr => ?_, ?_⟩
  · have eq := found.pointer ptr
    rw [later.pointer (eq ▸ ptr), eq]
  rw [put_logged, logged1] at logged2
  by_cases full : d.mapped ip (off / bsize) = 0
  · refine ⟨bs2 ++ a :: bs1, {a, bblock sb a} ∪ T, by rw [logged2]; simp, fun b mem => ?_, ?_,
      fun _ there => absurd full there⟩
    · rcases mem_append.mp mem with rest | first
      · exact (blocks2 b rest).imp_left fun mem => Finset.mem_union_right _ mem
      · rcases mem_cons.mp first with rfl | first
        · exact .inl (by simp)
        · rcases blocks1 b first with rfl | rfl | ptr
          · exact .inl (by simp)
          · exact .inl (by simp)
          · exact .inr (carried b ptr)
    · have union := Finset.card_union_le {a, bblock sb a} T
      have two : ({a, bblock sb a} : Finset Nat).card ≤ 2 := Finset.card_le_two
      omega
  · -- The block was there, and only the data has been logged.
    obtain rfl : bs1 = [] := by
      rw [same full] at logged1
      exact self_eq_append_left.mp logged1
    have bound : ({a} ∪ T).card + 1 ≤ 2 * span off src.length := by
      have union := Finset.card_union_le {a} T
      rw [Finset.card_singleton] at union
      omega
    refine ⟨bs2 ++ [a], {a} ∪ T, by rw [logged2]; simp, fun b mem => ?_, by omega, fun _ _ => bound⟩
    rcases mem_append.mp mem with rest | first
    · exact (blocks2 b rest).imp_left fun mem => Finset.mem_union_right _ mem
    · exact .inl (Finset.mem_union_left _ (Finset.mem_singleton.mpr (mem_singleton.mp first)))

theorem writeiLoop_spent (size : sb.size ≤ 2 ^ 32) {k off : Nat}
    (calm : ip.addrs (Fin.last ndirect) = 0 → Calm d ip) :
    Within (fun _ => True) (writeiLoop true k ip off src) d fun ip' d' =>
      Spent d ip off src ip' d' := by
  induction k generalizing d ip off src with
  | zero => exact .nothing off src
  | succ k ih =>
    unfold writeiLoop
    split
    · exact .nothing off src
    · rename_i some
      have pos : 0 < src.length := length_pos_iff.mpr some
      have step : span off src.length = _ := span_step pos
      have there : Within (fun _ => True) (bmap true ip (off / bsize)) d fun r d' =>
          d.mapped ip (off / bsize) ≠ 0 → d' = d := by
        by_cases full : d.mapped ip (off / bsize) = 0
        · exact (bmap_found size calm _).mono (fun _ => id) fun _ _ _ h => absurd full h
        · rw [within_ok (bmap_mapped full)]
          exact fun _ => rfl
      refine .bind
        (((bmap_found size calm _).and there).mono (fun _ => And.left) ?_)
      rintro ⟨a, ip1⟩ d1 ⟨found, same⟩
      dsimp only at found same
      refine .bind ?_
      change Within _ (logWrite true a _ >>= _) d1 _
      refine .bind (within_logWrite (fun _ => trivial) fun _ => ?_)
      refine (ih fun none => ?_).mono (fun _ => id) fun ip2 d2 later => ?_
      · obtain ⟨calm1, out⟩ := found.calm none
        exact ⟨calm1.marked.put out, calm1.addrs⟩
      · exact found.spent same (by rwa [length_drop]) later

/-- At most `n` different blocks were logged between `d` and `d'`. -/
def Logs (n : Nat) (d d' : Disk sb) : Prop :=
  ∃ bs, d'.logged = bs ++ d.logged ∧ bs.toFinset.card ≤ n

theorem Logs.refl (n : Nat) (d : Disk sb) : Logs n d d := ⟨[], rfl, Nat.zero_le n⟩

theorem Spent.logs_le {x : Nat} (spent : Spent d ip off src ip' d') (short : src.length ≤ maxWrite)
    (there : off % bsize ≠ 0 → d.mapped ip (off / bsize) ≠ 0) :
    Logs maxOpBlocks d d' ∧ ∀ data, Logs maxOpBlocks d (d'.put x data) := by
  obtain ⟨bs, T, logged, blocks, card, first⟩ := spent.logs
  have seven : T.card ≤ 7 := by
    rcases eq_or_ne src [] with rfl | some
    · rw [length_nil, span, if_pos rfl] at card
      omega
    have short : src.length ≤ 1536 := short
    by_cases start : off % bsize = 0
    · have three : span off src.length ≤ 3 := by
        unfold span
        simp only [bsize] at start ⊢
        split <;> omega
      omega
    · have four : span off src.length ≤ 4 := by
        unfold span
        simp only [bsize]
        split <;> omega
      have := first some (there start)
      omega
  have sub : (x :: bs).toFinset ⊆
      {x} ∪ (T ∪ {Disk.pointer ip', bblock sb (Disk.pointer ip')}) := by
    intro b mem
    simp only [Finset.mem_union, Finset.mem_insert, Finset.mem_singleton]
    rcases mem_cons.mp (mem_toFinset.mp mem) with rfl | mem
    · exact .inl rfl
    · exact .inr ((blocks b mem).imp_right And.right)
  have two : ({Disk.pointer ip', bblock sb (Disk.pointer ip')} : Finset Nat).card ≤ 2 :=
    Finset.card_le_two
  have ten : (x :: bs).toFinset.card ≤ maxOpBlocks := by
    have outer := Finset.card_union_le {x} (T ∪ {Disk.pointer ip', bblock sb (Disk.pointer ip')})
    have inner := Finset.card_union_le T {Disk.pointer ip', bblock sb (Disk.pointer ip')}
    rw [Finset.card_singleton] at outer
    have all := Finset.card_le_card sub
    change _ ≤ 10
    omega
  refine ⟨⟨bs, logged, (Finset.card_le_card ?_).trans ten⟩, fun data => ⟨x :: bs, ?_, ten⟩⟩
  · exact fun b mem => mem_toFinset.mpr (mem_cons_of_mem x (mem_toFinset.mp mem))
  · rw [put_logged, logged]
    rfl

theorem writeiLoop_outside (k : Nat) (off : Nat) (src : List Byte) :
    Within (fun _ => True) (writeiLoop false k ip off src) d fun _ d' => d' = d := by
  cases k with
  | zero => exact rfl
  | succ k =>
    unfold writeiLoop
    split
    · exact rfl
    · have any : Within (fun _ => True) (bmap false ip (off / bsize)) d fun _ _ => True := by
        unfold Within
        split <;> trivial
      refine .bind (any.mono (fun _ => id) fun r d' _ => ?_)
      exact trivial

theorem writei_logs (size : sb.size ≤ 2 ^ 32) {x off : Nat} {trans : Bool} (calm : Calm d ip)
    (blocks : ∀ bn, bn * bsize < ip.size → d.mapped ip bn ≠ 0) (inside : off ≤ ip.size)
    (short : src.length ≤ maxWrite) :
    Within (fun _ => True) (writei trans x ip off src) d fun _ d' => Logs maxOpBlocks d d' := by
  unfold writei
  split
  · exact .refl _ d
  · split
    · exact .refl _ d
    · cases trans with
      | false =>
        refine .bind ((writeiLoop_outside ..).mono (fun _ => id) ?_)
        rintro ip' _ rfl
        split
        · exact trivial
        · exact .refl ..
      | true =>
        refine .bind ((writeiLoop_spent size fun _ => calm).mono (fun _ => id) ?_)
        intro ip' d' spent
        have logs := spent.logs_le (x := iblock sb x) short fun start => by
          refine blocks _ ?_
          simp only [bsize] at start ⊢
          omega
        split
        · exact logs.2 _
        · exact logs.1

end Disk

/-! ## `filewrite` -/

section

variable {P : Type} [DecidableEq P] {sb : Superblock} {p : P} {s : State P (Disk sb) Addrs}
  {ip : Ip} {f : FilePtr}

def State.loaded {P D A : Type} [Store D A] (s : State P D A) (ip : Ip) : Dinode A :=
  if (s.icache ip).valid then (s.icache ip).ino else Store.dinode s.disk (s.icache ip).inum

omit [DecidableEq P] in
theorem ilocked_ino : ((s.ilocked p ip).icache ip).ino = s.loaded ip := by
  rw [State.ilocked, State.setEntry_icache_self]
  rfl

theorem ilock_returns :
    Within (fun _ => True) (alone p (ilock ip)) s fun _ t => t = s.ilocked p ip := by
  by_cases held : 1 ≤ (s.icache ip).ref
  · exact alone_ilock held (fun _ => trivial) (fun _ _ => trivial) fun _ => rfl
  · refine alone_step_bind.mpr ?_
    change Within _ (alone p (if (s.icache ip).ref < 1 then _ else _)) s _
    rw [if_pos (by omega)]
    exact alone_stop.mpr trivial

theorem iunlock_returns :
    Within (fun _ => True) (State.exec p (.iunlock ip)) s fun _ t => t = s.iunlocked ip := by
  change Within _ (State.iunlock p ip) s _
  by_cases bad : (s.icache ip).lock ≠ some p ∨ (s.icache ip).ref < 1
  · have stops : State.iunlock p ip s = .error (.panic .iunlock) := if_pos bad
    exact (within_error stops).mpr trivial
  · exact (within_ok (t := s.iunlocked ip) (if_neg bad)).mpr rfl

theorem alone_writei_logs (size : sb.size ≤ 2 ^ 32) {off : Nat}
    (calm : Disk.Calm s.disk (s.icache ip).ino)
    (blocks : ∀ bn, bn * bsize < (s.icache ip).ino.size → s.disk.mapped (s.icache ip).ino bn ≠ 0)
    (inside : off ≤ (s.icache ip).ino.size) (short : src.length ≤ maxWrite) :
    Within (fun _ => True) (alone p (writei ip off src)) s fun _ t =>
      Disk.Logs maxOpBlocks s.disk t.disk := by
  refine alone_step_bind.mpr ((within_ok rfl).mpr ?_)
  split
  · split
    · exact Disk.Logs.refl _ s.disk
    · refine alone_step_bind.mpr (iunlock_returns.mono (fun _ => id) ?_)
      rintro _ _ rfl
      refine alone_bind.mpr (ilock_returns.mono (fun _ => id) ?_)
      rintro _ _ rfl
      exact Disk.Logs.refl _ s.disk
  · refine alone_step_bind.mpr (within_onInode (s := s)
      (g := fun trans inum ino => Store.writei trans inum ino off src)
      (Disk.writei_logs size calm blocks inside short) (fun _ _ => trivial) ?_)
    intro r ino disk logs
    cases r with
    | none => exact logs
    | some n => exact logs

/-- Each round of `filewrite` logs at most as many blocks as `begin_op` has reserved for it. -/
theorem filewriteRound_reserved (size : sb.size ≤ 2 ^ 32) (calm : Disk.Calm s.disk (s.loaded ip))
    (blocks : ∀ bn, bn * bsize < (s.loaded ip).size → s.disk.mapped (s.loaded ip) bn ≠ 0)
    (inside : (s.ftable f).off ≤ (s.loaded ip).size) (short : src.length ≤ maxWrite) :
    Within (fun _ => True) (alone p (filewriteRound f ip src)) s fun _ t =>
      Disk.Logs maxOpBlocks s.disk t.disk := by
  refine alone_step_bind.mpr ((within_ok rfl).mpr ?_)
  refine alone_bind.mpr (ilock_returns.mono (fun _ => id) ?_)
  rintro _ _ rfl
  refine alone_step_bind.mpr ((within_ok rfl).mpr (alone_bind.mpr ?_))
  refine (alone_writei_logs size ?_ ?_ ?_ short).mono (fun _ => id) fun r t logs => ?_
  · rw [ilocked_ino]
    exact calm
  · rw [ilocked_ino]
    exact blocks
  · rw [ilocked_ino]
    exact inside
  · have rest : ∀ u : State P (Disk sb) Addrs, u.disk = t.disk → Within (fun _ => True) (alone p (do
        step (.iunlock ip)
        step .endOp
        pure r)) u fun _ v => Disk.Logs maxOpBlocks s.disk v.disk := by
      intro u disk
      refine alone_step_bind.mpr (iunlock_returns.mono (fun _ => id) ?_)
      rintro _ _ rfl
      refine alone_step_bind.mpr ((within_ok rfl).mpr ?_)
      change Disk.Logs _ _ u.disk
      rw [disk]
      exact logs
    split
    · refine alone_step_bind.mpr ((within_ok rfl).mpr ?_)
      exact rest _ rfl
    · exact rest t rfl

end

/-- The only process has a file open at `off`, and its inode is in memory. -/
def fileState {sb : Superblock} (d : Disk sb) (ino : Dinode Addrs) (off : Nat) :
    State Unit (Disk sb) Addrs where
  disk := d
  icache ip := if ip = 0 then ⟨1, 1, 2, none, true, ino⟩ else ⟨0, 0, 0, none, false, ino⟩
  ftable f := if f = 0 then ⟨.inode, 1, true, true, 0, off⟩ else ⟨.none, 0, false, false, 0, 0⟩
  proc _ := ⟨.running, fun fd => if fd = 0 then some 0 else none, some 0, 0⟩
  outstanding := 0

/-- 1200 bytes are written behind the 1000 bytes of a file: the rest of its second block and three
new blocks. -/
theorem filewriteRound_reserved_small : ∃ t,
    alone () (filewriteRound 0 0 (replicate 1200 7))
      (fileState (Disk.smallDisk 1) (Disk.smallFile 1) 1000) = .ok (1200, t) ∧
    Disk.Logs maxOpBlocks (Disk.smallDisk 1) t.disk := by
  have calm : Disk.Calm (Disk.smallDisk 1) (Disk.smallFile 1) := by
    have map : ∀ c, c < 32 → bblock Disk.smallSb c = 4 := by decide
    refine ⟨fun b _ reserved => ?_, fun i full ⟨c, lt, eq⟩ => ?_⟩
    · rcases reserved with rfl | ⟨c, lt, rfl⟩
      · decide
      · rw [map c lt]
        decide
    · have off : ∀ i, ((Disk.smallFile 1).addrs i).toNat ≠ 4 := by decide
      exact off i (eq.symm.trans (map c lt))
  have blocks : ∀ bn, bn * bsize < 1000 → (Disk.smallDisk 1).mapped (Disk.smallFile 1) bn ≠ 0 := by
    intro bn below
    have two : ∀ bn < 2, (Disk.smallDisk 1).mapped (Disk.smallFile 1) bn ≠ 0 := by decide
    exact two bn (by simp only [bsize] at below; omega)
  have ran : (alone () (filewriteRound 0 0 (replicate 1200 7))
      (fileState (Disk.smallDisk 1) (Disk.smallFile 1) 1000)).toOption.map Prod.fst =
        some 1200 := by
    decide +kernel
  have short : (replicate 1200 (7 : Byte)).length ≤ maxWrite := by
    rw [length_replicate]
    decide
  generalize replicate 1200 (7 : Byte) = src at ran short ⊢
  obtain ⟨⟨r, t⟩, ran, rfl⟩ := Option.map_eq_some_iff.mp ran
  have ran := Prog.of_toOption ran
  exact ⟨t, ran, (within_ok ran).mp (filewriteRound_reserved
    (s := fileState (Disk.smallDisk 1) (Disk.smallFile 1) 1000) (by decide) calm blocks
    (Nat.le_refl 1000) short)⟩

/-! ## A disk on which block 0 is free -/

namespace Disk

def wideSb : Superblock where
  size := 20480
  nblocks := 20465
  ninodes := 8
  nlog := 3
  logstart := 2
  inodestart := 5
  bmapstart := 10

/-- The first block in each block of the free map is free, and no other. -/
def wideDisk : Disk wideSb where
  block b := if 10 ≤ b ∧ b < 15 then fun a => if a = 0 then 254 else 255 else fun _ => 0
  logged := []

def wideFile : Dinode Addrs :=
  ⟨⟨tFile, 0, 0, 1, 6144⟩, fun i => if i = Fin.last ndirect then 0 else BitVec.ofNat 32 (100 + i)⟩

def Left (k : Nat) (d : Disk wideSb) : Prop :=
  ∀ c, c < 20480 → (d.bit c = false ↔ c % 4096 = 0 ∧ 4096 * k ≤ c)

section Wide

variable {k : Nat} {d : Disk wideSb} {ip : Dinode Addrs} {b : Nat}

theorem bblock_wide {c : Nat} (lt : c < 20480) : 10 ≤ bblock wideSb c ∧ bblock wideSb c < 15 := by
  change 10 ≤ c / 4096 + 10 ∧ c / 4096 + 10 < 15
  omega

theorem left_wideDisk : Left 0 wideDisk := by
  intro c lt
  have block : wideDisk.block (bblock wideSb c) = fun a => if a = 0 then 254 else 255 :=
    if_pos (bblock_wide lt)
  rw [bit, block, bpb, bsize, Words.Page.bit_eq _ (by simp only [nindirect, bsize]; omega)]
  have first : ∀ i, i < 8 → ((254#8).getLsbD i = false ↔ i = 0) := by decide
  have later : ∀ i, i < 8 → (255#8).getLsbD i = true := by decide
  by_cases byte : (⟨c % 4096 / 8, by omega⟩ : Fin (4 * 128)) = 0
  · have zero : c % 4096 / 8 = 0 := congrArg Fin.val byte
    rw [if_pos byte]
    refine (first _ (by omega)).trans ?_
    omega
  · have some : c % 4096 / 8 ≠ 0 := fun zero => byte (Fin.ext zero)
    rw [if_neg byte]
    refine iff_of_false ?_ (by omega)
    have := later (c % 4096 % 8) (by omega)
    simpa using this

section Left

variable (left : Left k d)
include left

theorem Left.put {data : Block} (out : b < 10 ∨ 15 ≤ b) : Left k (d.put b data) := by
  intro c lt
  have := bblock_wide lt
  rw [bit, block_put_ne (by omega)]
  exact left c lt

theorem Left.take (few : k < 5) : Left (k + 1) (d.take (4096 * k)) := by
  refine Left.put (fun c lt => ?_) (by omega)
  rw [bit_putBit]
  split
  · exact iff_of_false (by simp) (by omega)
  · rw [left c lt]
    omega

theorem Left.balloc (few : k < 5) : balloc true d = .ok (4096 * k, d.take (4096 * k)) := by
  have found : ((range wideSb.size).find? fun b => ¬ d.bit b) = some (4096 * k) := by
    rw [find?_range_eq_some]
    have size : wideSb.size = 20480 := rfl
    refine ⟨?_, mem_range.mpr (by omega), fun c lt => ?_⟩
    · have := (left (4096 * k) (by omega)).mpr (by omega)
      simp [this]
    · have := (left c (by omega)).not.mpr (by omega)
      simpa using this
  rw [Disk.balloc, found]
  rfl

theorem Left.bmap_entry (few : k < 5) {bn : Nat} (past : ndirect ≤ bn) (lt : bn < maxFile)
    (ptr : ip.addrs (Fin.last ndirect) ≠ 0)
    (vacant : (d.block (pointer ip)).word (bn - ndirect) = 0) :
    bmap true ip bn d = .ok ((4096 * k, ip), (d.take (4096 * k)).put (pointer ip)
      ((d.block (pointer ip)).setWord (bn - ndirect) (BitVec.ofNat 32 (4096 * k)))) := by
  unfold bmap
  rw [dif_neg (by omega), if_pos (entry_lt lt), direct, if_neg ptr]
  change (if (d.block (pointer ip)).word (bn - ndirect) = 0 then _ else _ :
    Prog Panic (Disk wideSb) (Nat × Dinode Addrs)) d = _
  rw [if_pos vacant]
  exact (Prog.bind_ok (left.balloc few) _).trans rfl

theorem Left.bmap_pointer (few : k + 1 < 5) {bn : Nat} (past : ndirect ≤ bn) (lt : bn < maxFile)
    (zero : ip.addrs (Fin.last ndirect) = 0) :
    bmap true ip bn d = .ok ((4096 * (k + 1), setAddr ip (Fin.last ndirect) (4096 * k)),
      ((d.take (4096 * k)).take (4096 * (k + 1))).put (4096 * k)
        (Words.Page.setWord (fun _ => 0) (bn - ndirect) (BitVec.ofNat 32 (4096 * (k + 1))))) := by
  have clean : (d.take (4096 * k)).block (4096 * k) = fun _ => 0 := block_put_self
  unfold bmap
  rw [dif_neg (by omega), if_pos (entry_lt lt), direct, if_pos zero]
  refine (Prog.bind_ok (Prog.bind_ok (left.balloc (by omega)) _) _).trans ?_
  change (if ((d.take (4096 * k)).block (4096 * k)).word (bn - ndirect) = 0 then _ else _ :
    Prog Panic (Disk wideSb) (Nat × Dinode Addrs)) (d.take (4096 * k)) = _
  rw [if_pos (by rw [clean, Words.Page.word_zero])]
  refine (Prog.bind_ok ((left.take (by omega)).balloc few) _).trans ?_
  rw [clean]
  rfl

end Left

theorem writeiLoop_block {bn j n a : Nat} {ip' : Dinode Addrs} {d' : Disk wideSb}
    (maps : bmap true ip bn d = .ok ((a, ip'), d')) :
    ∃ data, writeiLoop true (j + 1) ip (bn * 512) (replicate (512 + n) 0) d =
      writeiLoop true j ip' ((bn + 1) * 512) (replicate n 0) (d'.put a data) := by
  refine ⟨(d'.block a).write 0 ((replicate (512 + n) 0).take 512), ?_⟩
  rw [writeiLoop, if_neg (by simp), length_replicate, Nat.mul_mod_left,
    Nat.mul_div_cancel bn (by decide), Nat.sub_zero, Nat.min_eq_right (Nat.le_add_right 512 n)]
  refine (Prog.bind_ok maps _).trans ?_
  dsimp only
  rw [drop_replicate, Nat.add_sub_cancel_left, Nat.succ_mul]
  rfl

theorem Left.round_pointer (left : Left k d) (few : k + 1 < 5) (bn j n : Nat) (past : ndirect ≤ bn)
    (lt : bn < maxFile) (zero : ip.addrs (Fin.last ndirect) = 0) :
    ∃ d', writeiLoop true (j + 1) ip (bn * 512) (replicate (512 + n) 0) d =
        writeiLoop true j (setAddr ip (Fin.last ndirect) (4096 * k)) ((bn + 1) * 512)
          (replicate n 0) d' ∧ Left (k + 2) d' ∧
      d'.block (4096 * k) =
        Words.Page.setWord (fun _ => 0) (bn - ndirect) (BitVec.ofNat 32 (4096 * (k + 1))) ∧
      d'.logged = [4096 * (k + 1), 4096 * k, 4096 * (k + 1), bblock wideSb (4096 * (k + 1)),
        4096 * k, bblock wideSb (4096 * k)] ++ d.logged := by
  obtain ⟨data, ran⟩ := writeiLoop_block (j := j) (n := n) (left.bmap_pointer few past lt zero)
  refine ⟨_, ran, ?_, ?_, rfl⟩
  · exact (((left.take (by omega)).take few).put (by omega)).put (by omega)
  · rw [block_put_ne (by omega), block_put_self]

theorem Left.round_entry (left : Left k d) (few : k < 5) (bn j n : Nat) (past : ndirect ≤ bn)
    (lt : bn < maxFile) (ptr : ip.addrs (Fin.last ndirect) ≠ 0)
    (vacant : (d.block (pointer ip)).word (bn - ndirect) = 0) :
    ∃ d', writeiLoop true (j + 1) ip (bn * 512) (replicate (512 + n) 0) d =
        writeiLoop true j ip ((bn + 1) * 512) (replicate n 0) d' ∧
      d'.logged = [4096 * k, pointer ip, 4096 * k, bblock wideSb (4096 * k)] ++ d.logged := by
  obtain ⟨data, ran⟩ := writeiLoop_block (j := j) (n := n) (left.bmap_entry few past lt ptr vacant)
  exact ⟨_, ran, rfl⟩

theorem writei_of_loop {x off : Nat} {ip' : Dinode Addrs} {d' : Disk wideSb}
    (fits : Fits ip off src) (loop : writeiLoop true src.length ip off src d = .ok (ip', d'))
    (grows : 0 < src.length ∧ ip'.size < off + src.length) :
    writei true x ip off src d = .ok ((some src.length, { ip' with size := off + src.length }),
      d'.putInode x { ip' with size := off + src.length }) := by
  have inside : off ≤ ip.size := fits.1
  have small : off + src.length ≤ 140 * 512 := fits.2
  unfold writei
  rw [if_neg (by omega), if_neg (Nat.not_lt.mpr fits.2)]
  refine (Prog.bind_ok loop _).trans ?_
  rw [if_pos grows]
  rfl

/-- The indirect block is allocated twice. -/
theorem writeiLoop_wide : ∃ ip' d',
    writeiLoop true 1536 wideFile 6144 (replicate 1536 0) wideDisk = .ok (ip', d') ∧
      ip'.size = 6144 ∧ d'.logged =
        [16384, 8192, 16384, 14, 12288, 8192, 12288, 13, 8192, 12, 4096, 0, 4096, 11, 0, 10] := by
  obtain ⟨d1, ran1, left1, -, logged1⟩ := left_wideDisk.round_pointer (by decide) 12 1535
    1024 (by decide) (by decide) (show wideFile.addrs (Fin.last ndirect) = 0 from rfl)
  have again := setAddr_self wideFile (Fin.last ndirect) (4096 * 0)
  obtain ⟨d2, ran2, left2, entry, logged2⟩ := left1.round_pointer (by decide) 13 1534 512
    (by decide) (by decide) again
  have ptr :=
    setAddr_self (setAddr wideFile (Fin.last ndirect) (4096 * 0)) (Fin.last ndirect)
    (4096 * (0 + 2))
  have number : pointer (setAddr (setAddr wideFile (Fin.last ndirect) (4096 * 0)) (Fin.last ndirect)
      (4096 * (0 + 2))) = 8192 := by
    rw [pointer, ptr]
    rfl
  have vacant : (d2.block 8192).word (14 - 12) = 0 := by
    have : d2.block 8192 = _ := entry
    rw [this, Words.Page.word_setWord _ (by decide), if_neg (by decide), Words.Page.word_zero]
  obtain ⟨d3, ran3, logged3⟩ := left2.round_entry (by decide) 14 1533 0 (by decide)
    (by decide) (by rw [ptr]; decide) (by rw [number]; exact vacant)
  rw [number, logged2, logged1] at logged3
  exact ⟨_, d3, ran1.trans (ran2.trans ran3), rfl, logged3⟩

theorem writei_wide : ∃ ip' d', writei true 1 wideFile 6144 (replicate 1536 0) wideDisk =
      .ok ((some 1536, ip'), d') ∧ d'.logged =
    [5, 16384, 8192, 16384, 14, 12288, 8192, 12288, 13, 8192, 12, 4096, 0, 4096, 11, 0, 10] := by
  obtain ⟨ip', d', loop, size, logged⟩ := writeiLoop_wide
  generalize zeros : replicate 1536 (0 : Byte) = src at loop ⊢
  have count : src.length = 1536 := by rw [← zeros, length_replicate]
  have fits : Fits wideFile 6144 src := by
    rw [Fits, count]
    decide
  rw [← count] at loop
  have ran := writei_of_loop (x := 1) fits loop (by rw [count, size]; decide)
  rw [count] at ran
  refine ⟨_, _, ran, ?_⟩
  change _ :: d'.logged = _
  rw [logged]
  rfl

end Wide

end Disk

theorem filewriteRound_runs {sb : Superblock} {d d' : Disk sb} {ino ino' : Dinode Addrs}
    {off n : Nat} (regular : ino.type = tFile)
    (ran : Disk.writei true 1 ino off src d = .ok ((some n, ino'), d')) :
    Ends (alone () (filewriteRound 0 0 src)) (fileState d ino off) fun _ t => t.disk = d' := by
  refine Within.ends (E := fun _ => False) ?_ fun _ => id
  refine alone_step_bind.mpr ((within_ok rfl).mpr ?_)
  have one : (1 : Int) ≤ 2 := by decide
  refine alone_bind.mpr
    (alone_ilock one (fun busy => busy rfl) (by intros; contradiction) fun _ => ?_)
  refine alone_step_bind.mpr ((within_ok rfl).mpr (alone_bind.mpr ?_))
  refine alone_step_bind.mpr ((within_ok rfl).mpr ?_)
  have file : ¬ ino.type = tDev := by
    rw [regular]
    decide
  refine (if_neg file).symm ▸ ?_
  refine alone_step_bind.mpr (within_onInode (R := fun r t => r = (some n, ino') ∧ t = d')
    (g := fun trans inum ino => Store.writei trans inum ino off src) (F := fun _ => False)
    ((within_ok ran).mpr ⟨rfl, rfl⟩) (fun _ => id) ?_)
  rintro _ _ _ ⟨eq, rfl⟩
  cases eq
  change Within _ (alone () (if (0 : Int) < (n : Int) then _ else _)) _ _
  split
  · refine alone_step_bind.mpr ((within_ok rfl).mpr ?_)
    refine alone_step_bind.mpr (alone_iunlock rfl one ?_)
    refine alone_step_bind.mpr ((within_ok rfl).mpr ?_)
    exact alone_pure.mpr rfl
  · refine alone_step_bind.mpr (alone_iunlock rfl one ?_)
    refine alone_step_bind.mpr ((within_ok rfl).mpr ?_)
    exact alone_pure.mpr rfl

/-- Eleven blocks are logged for a piece. -/
theorem filewriteRound_wide :
    (∀ bn, bn * bsize < Disk.wideFile.size → Disk.wideDisk.mapped Disk.wideFile bn ≠ 0) ∧
      (replicate 1536 (0 : Byte)).length ≤ maxWrite ∧
      Ends (alone () (filewriteRound 0 0 (replicate 1536 0)))
        (fileState Disk.wideDisk Disk.wideFile 6144) fun _ t =>
          ¬ Disk.Logs maxOpBlocks Disk.wideDisk t.disk := by
  refine ⟨fun bn below => ?_, by rw [length_replicate]; decide, ?_⟩
  · have all : ∀ bn < 12, Disk.wideDisk.mapped Disk.wideFile bn ≠ 0 := by decide
    have below : bn * 512 < 6144 := below
    exact all bn (by omega)
  · have wide := Disk.writei_wide
    generalize replicate 1536 (0 : Byte) = src at wide ⊢
    obtain ⟨ino, d', ran, logged⟩ := wide
    refine (filewriteRound_runs rfl ran).mono ?_
    rintro _ t rfl ⟨bs, eq, few⟩
    rw [logged] at eq
    obtain rfl : _ = bs := eq.trans (append_nil bs)
    exact absurd few (by decide)

end Xv6.Fs
