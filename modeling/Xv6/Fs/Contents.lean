import Xv6.Fs.Layout
import Mathlib.Data.Fin.SuccPred
import Mathlib.Data.List.GetD

/-!
# Contents of a file

A file owns its blocks (`Owns`): the addresses in its slots are those of different data blocks, and
the free map marks them and all metadata.  `Grows` is what `bmap` does to such a file, and `Wrote`
what the loop of `writei` does: the bytes are where reading finds them, and the others are as
before.

`FileOk` is what `writei` needs and keeps: the inode on the disk owns its blocks and has all blocks
up to its size.
-/

namespace Xv6.Fs

open List

/-- Number of blocks before the first data block: boot, super block, log, inodes and free map. -/
def Superblock.nmeta (sb : Superblock) : Nat := sb.size - sb.nblocks

/-- Inodes, free map and data follow each other, and block numbers fit in a `uint`. -/
structure Superblock.Good (sb : Superblock) : Prop where
  inodes : sb.inodestart + (sb.ninodes + ipb - 1) / ipb ≤ sb.bmapstart
  map : sb.bmapstart + (sb.size + bpb - 1) / bpb ≤ sb.nmeta
  size : sb.size ≤ 2 ^ 32

/-! ## Inodes in a block -/

section Dinode

variable {i : Nat} {addrs : Addrs} {w : Nat}

theorem shorts_lo (lo hi : Short) : (shorts lo hi).extractLsb' 0 16 = lo := by
  apply BitVec.eq_of_getLsbD_eq
  intro i lt
  simp only [shorts, BitVec.getLsbD_extractLsb', BitVec.getLsbD_append]
  grind

theorem shorts_hi (lo hi : Short) : (shorts lo hi).extractLsb' 16 16 = hi := by
  apply BitVec.eq_of_getLsbD_eq
  intro i lt
  simp only [shorts, BitVec.getLsbD_extractLsb', BitVec.getLsbD_append]
  grind

/-- Storing addresses leaves the words that are none of them. -/
theorem word_fold_ne (lt : i < ipb) (js : List (Fin (ndirect + 1))) (b : Block)
    (ne : ∀ j ∈ js, w ≠ 16 * i + 3 + j) :
    (js.foldl (fun b (j : Fin (ndirect + 1)) => b.setWord (16 * i + 3 + j) (addrs j)) b).word w =
      b.word w := by
  induction js generalizing b with
  | nil => rfl
  | cons j js ih =>
    have room : 16 * i + 3 + j.val < nindirect := by
      have := j.isLt
      simp only [ipb, ndirect, nindirect, bsize] at lt this ⊢
      omega
    rw [foldl_cons, ih _ fun l mem => ne l (mem_cons_of_mem j mem),
      Words.Page.word_setWord _ room, if_neg (ne j mem_cons_self)]

theorem word_fold_mem (lt : i < ipb) (js : List (Fin (ndirect + 1))) (b : Block)
    {j : Fin (ndirect + 1)} (mem : j ∈ js) :
    (js.foldl (fun b (j : Fin (ndirect + 1)) => b.setWord (16 * i + 3 + j) (addrs j)) b).word
      (16 * i + 3 + j) = addrs j := by
  induction js generalizing b with
  | nil => cases mem
  | cons l js ih =>
    by_cases later : j ∈ js
    · exact ih _ later
    · obtain rfl : j = l := (mem_cons.mp mem).resolve_right later
      have room : 16 * i + 3 + j.val < nindirect := by
        have := j.isLt
        simp only [ipb, ndirect, nindirect, bsize] at lt this ⊢
        omega
      rw [foldl_cons, word_fold_ne lt, Words.Page.word_setWord _ room, if_pos rfl]
      intro k mem eq
      obtain rfl : j = k := Fin.ext (by omega)
      exact later mem

/-- What `iupdate` stores is what `ilock` loads. -/
theorem readDinode_writeDinode (b : Block) (lt : i < ipb) (ip : Dinode Addrs)
    (fits : ip.size < 2 ^ 32) : readDinode (writeDinode b i ip) i = ip := by
  have room : 16 * i + 2 < nindirect := by
    simp only [ipb, nindirect, bsize] at lt ⊢
    omega
  have head : ∀ w, w < 3 → (writeDinode b i ip).word (16 * i + w) =
      if w = 2 then BitVec.ofNat 32 ip.size
      else if w = 1 then shorts ip.minor ip.nlink else shorts ip.type ip.major := by
    intro w few
    rw [writeDinode, writeAddrs, word_fold_ne lt _ _ fun j _ => by omega,
      Words.Page.word_setWord _ room, Words.Page.word_setWord _ (by omega),
      Words.Page.word_setWord _ (by omega)]
    have two : 16 * i + w = 16 * i + 2 ↔ w = 2 := by omega
    have one : 16 * i + w = 16 * i + 1 ↔ w = 1 := by omega
    have zero : w ≠ 2 → w ≠ 1 → 16 * i + w = 16 * i := by omega
    simp only [two, one]
    split
    · rfl
    · split
      · rfl
      · rw [if_pos (zero ‹_› ‹_›)]
  have addrs : ∀ j : Fin (ndirect + 1), (writeDinode b i ip).word (16 * i + 3 + j) = ip.addrs j :=
    fun j => word_fold_mem lt _ _ (mem_finRange j)
  have w0 : (writeDinode b i ip).word (16 * i) = shorts ip.type ip.major := head 0 (by omega)
  have w1 : (writeDinode b i ip).word (16 * i + 1) = shorts ip.minor ip.nlink := head 1 (by omega)
  have w2 : (writeDinode b i ip).word (16 * i + 2) = BitVec.ofNat 32 ip.size := head 2 (by omega)
  unfold readDinode
  simp only [w0, w1, w2, addrs, shorts_lo, shorts_hi, BitVec.toNat_ofNat, Nat.mod_eq_of_lt fits]

end Dinode

/-- The slot of the indirect block. -/
def Slot.pointer : Slot := .inl (Fin.last ndirect)

theorem Slot.data_ne_pointer (bn : Fin maxFile) : Slot.data bn ≠ .pointer := by
  unfold Slot.data Slot.pointer
  split
  · intro eq
    have : bn.val = ndirect := congrArg Fin.val (Sum.inl.inj eq)
    omega
  · simp

theorem Slot.data_injective {bn bm : Fin maxFile} (eq : Slot.data bn = Slot.data bm) : bn = bm := by
  unfold Slot.data at eq
  apply Fin.ext
  split at eq
  · split at eq
    · simpa using eq
    · cases eq
  · split at eq
    · cases eq
    · have := congrArg Fin.val (Sum.inr.inj eq)
      dsimp only at this
      omega

namespace Disk

variable {sb : Superblock} {d d' d'' : Disk sb} {ip ip' ip'' : Dinode Addrs} {x b c : Nat}
  {data : Block} {v : Bool}

/-- `ilock` loads what `iupdate` wrote. -/
theorem dinode_putInode (fits : ip.size < 2 ^ 32) : (d.putInode x ip).dinode x = ip := by
  rw [dinode, putInode, block_put_self]
  exact readDinode_writeDinode _ (Nat.mod_lt x (by decide)) ip fits

/-! ## The areas of the disk -/

section Areas

variable (good : sb.Good)

include good

theorem iblock_lt (lt : x < sb.ninodes) :
    iblock sb x < sb.bmapstart ∧ sb.bmapstart ≤ sb.nmeta := by
  have inodes := good.inodes
  have map := good.map
  simp only [iblock, ipb] at inodes ⊢
  exact ⟨by omega, Nat.le_of_add_right_le map⟩

theorem bblock_range (lt : b < sb.size) : sb.bmapstart ≤ bblock sb b ∧ bblock sb b < sb.nmeta := by
  have := good.map
  simp only [bblock, bpb, bsize] at this ⊢
  omega

theorem dinode_put (above : sb.nmeta ≤ b) (lt : x < sb.ninodes) :
    (d.put b data).dinode x = d.dinode x := by
  have := iblock_lt good lt
  unfold dinode
  rw [block_put_ne (by omega)]

theorem bit_put (above : sb.nmeta ≤ b) (lt : c < sb.size) : (d.put b data).bit c = d.bit c := by
  have := bblock_range good lt
  unfold bit
  rw [block_put_ne (by omega)]

theorem dinode_putBit (lt : b < sb.size) (lt' : x < sb.ninodes) :
    (d.putBit b v).dinode x = d.dinode x := by
  have := iblock_lt good lt'
  have := bblock_range good lt
  unfold dinode putBit
  rw [block_put_ne (by omega)]

theorem block_putBit (lt : b < sb.size) (above : sb.nmeta ≤ c) :
    (d.putBit b v).block c = d.block c := by
  have := bblock_range good lt
  unfold putBit
  rw [block_put_ne (by omega)]

theorem bit_putInode (lt : x < sb.ninodes) (lt' : c < sb.size) :
    (d.putInode x ip).bit c = d.bit c := by
  have := iblock_lt good lt
  have := bblock_range good lt'
  unfold bit putInode
  rw [block_put_ne (by omega)]

theorem block_putInode (lt : x < sb.ninodes) (above : sb.nmeta ≤ c) :
    (d.putInode x ip).block c = d.block c := by
  have := iblock_lt good lt
  unfold putInode
  rw [block_put_ne (by omega)]

theorem bit_take (above : sb.nmeta ≤ b) (lt : c < sb.size) :
    (d.take b).bit c = if c = b then true else d.bit c := by
  unfold take
  rw [bit_put good above lt, bit_putBit]

theorem block_take (lt : b < sb.size) (above : sb.nmeta ≤ c) (ne : c ≠ b) :
    (d.take b).block c = d.block c := by
  unfold take
  rw [block_put_ne ne, block_putBit good lt above]

end Areas

/-! ## Slots -/

theorem slot_entry (ptr : ip.addrs (Fin.last ndirect) ≠ 0) (j : Fin nindirect) :
    d.slot ip (.inr j) = ((d.block (pointer ip)).word j).toNat := if_neg ptr

/-- Slots depend on the inode and its indirect block only. -/
theorem slot_congr (same : ip.addrs (Fin.last ndirect) ≠ 0 →
    d'.block (pointer ip) = d.block (pointer ip)) (k : Slot) : d'.slot ip k = d.slot ip k := by
  cases k with
  | inl i => rfl
  | inr j =>
    by_cases ptr : ip.addrs (Fin.last ndirect) = 0
    · exact (if_pos ptr).trans (if_pos ptr).symm
    · rw [slot_entry ptr, slot_entry ptr, same ptr]

theorem toNat_ne_zero {w : BitVec 32} (ne : w ≠ 0) : w.toNat ≠ 0 := by
  intro zero
  exact ne (BitVec.eq_of_toNat_eq (by simpa using zero))

variable {bn : Nat}

theorem mapped_lt (lt : bn < maxFile) : d.mapped ip bn = d.slot ip (.data ⟨bn, lt⟩) :=
  dif_pos lt

theorem lt_of_mapped (full : d.mapped ip bn ≠ 0) : bn < maxFile := by
  by_contra ge
  exact full (dif_neg ge)

theorem mapped_congr (slots : ∀ k, d'.slot ip k = d.slot ip k) (bn : Nat) :
    d'.mapped ip bn = d.mapped ip bn := by
  simp only [mapped, slots]

/-- The addresses of the inode `ip` are those of different data blocks.  The free map marks them,
and all metadata. -/
structure Owns (d : Disk sb) (ip : Dinode Addrs) : Prop where
  data : ∀ k, d.slot ip k ≠ 0 →
    sb.nmeta ≤ d.slot ip k ∧ d.slot ip k < sb.size ∧ d.bit (d.slot ip k) = true
  once : ∀ k l, d.slot ip k ≠ 0 → d.slot ip k = d.slot ip l → k = l
  reserved : ∀ b, b < sb.nmeta → d.bit b = true

theorem Owns.congr (owns : Owns d ip) (slots : ∀ k, d'.slot ip k = d.slot ip k)
    (bits : ∀ c, c < sb.size → d'.bit c = d.bit c) : Owns d' ip := by
  refine ⟨fun k full => ?_, fun k l => ?_, fun c low => ?_⟩
  · rw [slots] at full ⊢
    rw [bits _ (owns.data k full).2.1]
    exact owns.data k full
  · rw [slots, slots]
    exact owns.once k l
  · rw [bits c (by unfold Superblock.nmeta at low; omega), owns.reserved c low]

/-- A free block is a data block, and not one of the file. -/
theorem Owns.fresh (owns : Owns d ip) (free : d.bit b = false) :
    sb.nmeta ≤ b ∧ ∀ k, d.slot ip k ≠ 0 → d.slot ip k ≠ b := by
  refine ⟨Nat.not_lt.mp fun low => ?_, fun k full eq => ?_⟩
  · rw [owns.reserved b low] at free
    cases free
  · have set := (owns.data k full).2.2
    rw [eq, free] at set
    cases set

/-- Blocks are added to a file, whose inode in memory is `ip`. -/
structure Grows (d : Disk sb) (ip : Dinode Addrs) (d' : Disk sb) (ip' : Dinode Addrs) : Prop where
  owns : Owns d' ip'
  inodes : ∀ y, y < sb.ninodes → d'.dinode y = d.dinode y
  attr : ip'.toAttr = ip.toAttr
  slots : ∀ k, d.slot ip k ≠ 0 → d'.slot ip' k = d.slot ip k
  blocks : ∀ k, k ≠ .pointer → d.slot ip k ≠ 0 → d'.block (d.slot ip k) = d.block (d.slot ip k)

theorem Grows.refl (owns : Owns d ip) : Grows d ip d ip :=
  ⟨owns, fun _ _ => rfl, rfl, fun _ _ => rfl, fun _ _ _ => rfl⟩

theorem Grows.trans (first : Grows d ip d' ip') (second : Grows d' ip' d'' ip'') :
    Grows d ip d'' ip'' := by
  refine ⟨second.owns, fun y lt => (second.inodes y lt).trans (first.inodes y lt),
    second.attr.trans first.attr, fun k full => ?_, fun k ne full => ?_⟩
  · have same := first.slots k full
    rw [← same] at full
    exact (second.slots k full).trans same
  · have same := first.slots k full
    have kept := second.blocks k ne (by rwa [same])
    rw [same] at kept
    exact kept.trans (first.blocks k ne full)

theorem Grows.mapped_eq (grows : Grows d ip d' ip') (full : d.mapped ip bn ≠ 0) :
    d'.mapped ip' bn = d.mapped ip bn ∧ d'.block (d.mapped ip bn) = d.block (d.mapped ip bn) := by
  have lt := lt_of_mapped full
  rw [mapped_lt lt] at full
  rw [mapped_lt lt, mapped_lt lt]
  exact ⟨grows.slots _ full, grows.blocks _ (Slot.data_ne_pointer _) full⟩

/-- A free block is put in an empty slot. -/
theorem Grows.take {l : Slot} (owns : Owns d ip) (lt : b < sb.size) (free : d.bit b = false)
    (empty : d.slot ip l = 0) (slots : ∀ k, d'.slot ip' k = if k = l then b else d.slot ip k)
    (bits : ∀ c, c < sb.size → d'.bit c = if c = b then true else d.bit c)
    (inodes : ∀ y, y < sb.ninodes → d'.dinode y = d.dinode y) (attr : ip'.toAttr = ip.toAttr)
    (blocks : ∀ c, sb.nmeta ≤ c → c ≠ b → c ≠ d.slot ip .pointer → d'.block c = d.block c) :
    Grows d ip d' ip' := by
  obtain ⟨above, other⟩ := owns.fresh free
  refine ⟨⟨fun k full => ?_, fun k m full eq => ?_, fun c low => ?_⟩, inodes, attr,
    fun k full => ?_,
    fun k ne full => ?_⟩
  · rw [slots] at full ⊢
    split
    · exact ⟨above, lt, by rw [bits b lt, if_pos rfl]⟩
    · rename_i ne
      rw [if_neg ne] at full
      obtain ⟨above_k, lt_k, set⟩ := owns.data k full
      exact ⟨above_k, lt_k, by rw [bits _ lt_k, set, ite_self]⟩
  · rw [slots] at full eq
    rw [slots] at eq
    by_cases k_new : k = l <;> by_cases m_new : m = l
    · rw [k_new, m_new]
    · rw [if_pos k_new, if_neg m_new] at eq
      rw [if_pos k_new] at full
      exact absurd eq.symm (other m (eq ▸ full))
    · rw [if_neg k_new, if_pos m_new] at eq
      rw [if_neg k_new] at full
      exact absurd eq (other k full)
    · rw [if_neg k_new, if_neg m_new] at eq
      rw [if_neg k_new] at full
      exact owns.once k m full eq
  · rw [bits c (by unfold Superblock.nmeta at low; omega), owns.reserved c low, ite_self]
  · have ne : k ≠ l := by
      rintro rfl
      exact full empty
    rw [slots, if_neg ne]
  · exact blocks _ (owns.data k full).1 (other k full) fun eq => ne (owns.once k _ full eq)

/-! ## `bmap` -/

section Bmap

variable (good : sb.Good)

include good

/-- The slots after a new block was stored in `addrs`. -/
theorem slot_setAddr (owns : Owns d ip) {i : Fin (ndirect + 1)} (zero : ip.addrs i = 0)
    (lt : b < sb.size) (free : d.bit b = false) (k : Slot) :
    (d.take b).slot (setAddr ip i b) k = if k = .inl i then b else d.slot ip k := by
  obtain ⟨above, other⟩ := owns.fresh free
  have number := ofNat_block good.size lt
  cases k with
  | inl j =>
    rcases eq_or_ne j i with rfl | ne
    · simpa [slot, setAddr] using number
    · simp [slot, setAddr, ne]
  | inr j =>
    rw [if_neg (by simp)]
    rcases eq_or_ne i (Fin.last ndirect) with rfl | ne
    · -- the new block is the indirect block, and it is full of zeros
      have clean : (d.take b).block b = fun _ => 0 := block_put_self
      have ne_zero := ofNat_block_ne_zero good.size lt (by have := bblock_range good lt; omega)
      simp only [slot, setAddr, Function.update_self]
      rw [if_neg ne_zero, if_pos zero, number, clean]
      exact congrArg BitVec.toNat (Words.Page.word_zero j)
    · have same : (setAddr ip i b).addrs (Fin.last ndirect) = ip.addrs (Fin.last ndirect) :=
        Function.update_of_ne ne.symm _ _
      have slots := @slot_congr _ d (d.take b) ip (fun ptr => ?_) (.inr j)
      · simp only [slot, same] at slots ⊢
        exact slots
      · have full : d.slot ip .pointer ≠ 0 := toNat_ne_zero ptr
        exact block_take good lt (owns.data .pointer full).1 (other .pointer full)

/-- A slot of `addrs` has its block afterwards. -/
theorem within_direct (owns : Owns d ip) (trans : Bool) (i : Fin (ndirect + 1)) :
    Within (fun _ => True) (direct trans ip i) d fun r d' =>
      Grows d ip d' r.2 ∧ r.1 = d'.slot r.2 (.inl i) ∧ r.1 ≠ 0 := by
  refine (direct_cases trans ip i d).mono (fun _ => id) ?_
  rintro _ d' (⟨full, rfl, rfl⟩ | ⟨zero, b, lt, free, rfl, rfl⟩)
  · exact ⟨.refl owns, rfl, toNat_ne_zero full⟩
  · obtain ⟨above, -⟩ := owns.fresh free
    have slots := slot_setAddr good owns zero lt free
    refine ⟨Grows.take owns lt free (l := .inl i) ?_ slots (fun c lt_c => bit_take good above lt_c)
      (fun y lt_y => ?_) rfl fun c above_c ne _ => block_take good lt above_c ne, ?_, ?_⟩
    · simp [slot, zero]
    · rw [Disk.take, dinode_put good above lt_y, dinode_putBit good lt lt_y]
    · exact ((slots (.inl i)).trans (if_pos rfl)).symm
    · have := bblock_range good lt
      change b ≠ 0
      omega

/-- The slots after a new block was stored in the indirect block. -/
theorem slot_setEntry {j : Fin nindirect} (ptr : ip.addrs (Fin.last ndirect) ≠ 0)
    (lt : b < sb.size) (k : Slot) :
    ((d.take b).put (pointer ip)
      ((d.block (pointer ip)).setWord j (BitVec.ofNat 32 b))).slot ip k =
      if k = .inr j then b else d.slot ip k := by
  cases k with
  | inl i =>
    rw [if_neg (by simp)]
    rfl
  | inr i =>
    rw [slot_entry ptr, slot_entry ptr, block_put_self, Words.Page.word_setWord _ j.isLt]
    by_cases eq : i = j
    · subst eq
      rw [if_pos rfl, if_pos rfl, ofNat_block good.size lt]
    · have ne : i.val ≠ j.val := fun h => eq (Fin.ext h)
      rw [if_neg ne, if_neg (by simpa using eq)]

theorem within_bmap (owns : Owns d ip) (trans : Bool) (in_file : bn < maxFile) :
    Within (fun _ => True) (bmap trans ip bn) d fun r d' =>
      Grows d ip d' r.2 ∧ r.1 = d'.mapped r.2 bn ∧ r.1 ≠ 0 := by
  unfold bmap
  split
  · rename_i few
    refine (within_direct good owns trans ⟨bn, by omega⟩).mono (fun _ => id) fun r d' post => ?_
    rw [mapped_lt in_file, Slot.data, dif_pos few]
    exact post
  · rename_i many
    have slot_bn : Slot.data ⟨bn, in_file⟩ = .inr ⟨bn - ndirect, entry_lt in_file⟩ := dif_neg many
    rw [if_pos (entry_lt in_file)]
    refine .bind ((within_direct good owns trans (Fin.last ndirect)).mono
      (fun _ => id) ?_)
    rintro ⟨ind, ip1⟩ d1 ⟨grows, eq, full⟩
    dsimp only at grows eq full
    subst eq
    have ptr : ip1.addrs (Fin.last ndirect) ≠ 0 := by
      intro zero
      change (ip1.addrs (Fin.last ndirect)).toNat ≠ 0 at full
      rw [zero] at full
      exact full rfl
    refine .bind ?_
    change Within _ (if (d1.block (pointer ip1)).word (bn - ndirect) = 0 then _ else _) d1 _
    split
    · rename_i zero
      refine .bind (within_balloc.mono (fun _ => id) ?_)
      rintro b _ ⟨lt, free, rfl⟩
      refine .bind (within_logWrite (fun _ => trivial) fun _ => ?_)
      obtain ⟨above, -⟩ := grows.owns.fresh free
      have above_ptr : sb.nmeta ≤ pointer ip1 := (grows.owns.data .pointer full).1
      have slots := slot_setEntry good (d := d1) (j := ⟨bn - ndirect, entry_lt in_file⟩) ptr lt
      have more : Grows d1 ip1 ((d1.take b).put (pointer ip1)
          ((d1.block (pointer ip1)).setWord (bn - ndirect) (BitVec.ofNat 32 b))) ip1 := by
        refine Grows.take grows.owns lt free ?_ slots (fun c lt_c => ?_)
          (fun y lt_y => ?_) rfl fun c above_c ne ne_ptr => ?_
        · rw [slot_entry ptr]
          exact congrArg BitVec.toNat zero
        · rw [bit_put good above_ptr lt_c, bit_take good above lt_c]
        · rw [dinode_put good above_ptr lt_y, Disk.take, dinode_put good above lt_y,
            dinode_putBit good lt lt_y]
        · have ne_ptr : c ≠ pointer ip1 := ne_ptr
          rw [block_put_ne ne_ptr, block_take good lt above_c ne]
      refine ⟨grows.trans more, ?_, ?_⟩
      · rw [mapped_lt in_file, slot_bn]
        exact ((slots _).trans (if_pos rfl)).symm
      · have := bblock_range good lt
        change b ≠ 0
        omega
    · rename_i entry
      refine ⟨grows, ?_, toNat_ne_zero entry⟩
      rw [mapped_lt in_file, slot_bn, slot_entry ptr]
      rfl

end Bmap

/-! ## Writing -/

/-- Byte `i` of a file. -/
def byteAt (d : Disk sb) (ip : Dinode Addrs) (i : Nat) : Byte :=
  (d.block (d.mapped ip (i / bsize))).at (i % bsize)

/-- The bytes of a file. -/
def contents (d : Disk sb) (ip : Dinode Addrs) : List Byte := (range ip.size).map (d.byteAt ip)

theorem contents_length : (d.contents ip).length = ip.size := by simp [contents]

/-- The bytes `src` are written to a file from `off` on.  The inode in memory changes only when it
gets new blocks. -/
structure Wrote (d : Disk sb) (ip : Dinode Addrs) (off : Nat) (src : List Byte) (d' : Disk sb)
    (ip' : Dinode Addrs) : Prop where
  owns : Owns d' ip'
  inodes : ∀ y, y < sb.ninodes → d'.dinode y = d.dinode y
  attr : ip'.toAttr = ip.toAttr
  mapped : ∀ bn, d.mapped ip bn ≠ 0 → d'.mapped ip' bn = d.mapped ip bn
  filled : ∀ i, off ≤ i → i < off + src.length → d'.mapped ip' (i / bsize) ≠ 0
  written : ∀ i, off ≤ i → i < off + src.length → d'.byteAt ip' i = src.getD (i - off) 0
  kept : ∀ i, d.mapped ip (i / bsize) ≠ 0 → ¬ (off ≤ i ∧ i < off + src.length) →
    d'.byteAt ip' i = d.byteAt ip i
  same : (∀ i, off ≤ i → i < off + src.length → d.mapped ip (i / bsize) ≠ 0) → ip' = ip

theorem Wrote.nil (owns : Owns d ip) (off : Nat) : Wrote d ip off [] d ip := by
  have none : ∀ i, off ≤ i → ¬ i < off + ([] : List Byte).length := by simp
  exact ⟨owns, fun _ _ => rfl, rfl, fun _ _ => rfl, fun i lo hi => absurd hi (none i lo),
    fun i lo hi => absurd hi (none i lo), fun _ _ _ => rfl, fun _ => rfl⟩

variable {src : List Byte} {off : Nat}

/-- One piece behind the other. -/
theorem Wrote.append {rest : List Byte} (first : Wrote d ip off src d' ip')
    (second : Wrote d' ip' (off + src.length) rest d'' ip'') :
    Wrote d ip off (src ++ rest) d'' ip'' := by
  have length : (src ++ rest).length = src.length + rest.length := length_append
  refine ⟨second.owns, fun y lt => (second.inodes y lt).trans (first.inodes y lt),
    second.attr.trans first.attr, fun bn full => ?_, fun i lo hi => ?_, fun i lo hi => ?_,
    fun i full out => ?_, fun all => ?_⟩
  · have same := first.mapped bn full
    exact (second.mapped bn (by rwa [same])).trans same
  · by_cases here : i < off + src.length
    · have full := first.filled i lo here
      rwa [second.mapped _ full]
    · exact second.filled i (by omega) (by omega)
  · by_cases here : i < off + src.length
    · rw [second.kept i (first.filled i lo here) (by omega), first.written i lo here,
        getD_append _ _ _ _ (by omega)]
    · rw [second.written i (by omega) (by omega), getD_append_right _ _ _ _ (by omega),
        Nat.sub_sub]
  · have full' : d'.mapped ip' (i / bsize) ≠ 0 := by rwa [first.mapped _ full]
    rw [second.kept i full' (by omega), first.kept i full (by omega)]
  · have eq := first.same fun i lo hi => all i lo (by omega)
    refine (second.same fun i lo hi => ?_).trans eq
    have full := all i (by omega) (by omega)
    rwa [first.mapped _ full]

/-- Different blocks of a file are different blocks of the disk. -/
theorem Owns.mapped_injective (owns : Owns d ip) {bm : Nat} (full : d.mapped ip bn ≠ 0)
    (eq : d.mapped ip bn = d.mapped ip bm) : bn = bm := by
  have lt_n := lt_of_mapped full
  have lt_m := lt_of_mapped (eq ▸ full)
  rw [mapped_lt lt_n] at full eq
  rw [mapped_lt lt_m] at eq
  exact congrArg Fin.val (Slot.data_injective (owns.once _ _ full eq))

/-- A data block of a file is written. -/
theorem Owns.write (good : sb.Good) (owns : Owns d ip) (full : d.mapped ip bn ≠ 0) (data : Block) :
    Owns (d.put (d.mapped ip bn) data) ip ∧
    (∀ y, y < sb.ninodes → (d.put (d.mapped ip bn) data).dinode y = d.dinode y) ∧
    (∀ bm, (d.put (d.mapped ip bn) data).mapped ip bm = d.mapped ip bm) ∧
    ∀ i, (d.put (d.mapped ip bn) data).byteAt ip i =
      if i / bsize = bn then data.at (i % bsize) else d.byteAt ip i := by
  have lt := lt_of_mapped full
  obtain ⟨above, -, -⟩ := owns.data _ (@mapped_lt _ _ ip _ lt ▸ full)
  rw [← mapped_lt lt] at above
  have slots : ∀ k, (d.put (d.mapped ip bn) data).slot ip k = d.slot ip k := by
    refine slot_congr fun ptr => block_put_ne fun eq => ?_
    rw [mapped_lt lt] at eq
    exact Slot.data_ne_pointer _ (owns.once .pointer _ (toNat_ne_zero ptr) eq).symm
  refine ⟨owns.congr slots fun c lt_c => bit_put good above lt_c,
    fun y lt_y => dinode_put good above lt_y, mapped_congr slots, fun i => ?_⟩
  unfold byteAt
  rw [mapped_congr slots]
  by_cases here : i / bsize = bn
  · rw [if_pos here, here, block_put_self]
  · rw [if_neg here, block_put_ne fun eq => here (owns.mapped_injective full eq.symm).symm]

/-- The part of `src` that goes to one block. -/
theorem Wrote.block (good : sb.Good) (one : off % bsize + src.length ≤ bsize)
    (grows : Grows d ip d' ip') (full : d'.mapped ip' (off / bsize) ≠ 0)
    (same : d.mapped ip (off / bsize) ≠ 0 → ip' = ip) (pos : 0 < src.length) :
    Wrote d ip off src (d'.put (d'.mapped ip' (off / bsize))
      ((d'.block (d'.mapped ip' (off / bsize))).write (off % bsize) src)) ip' := by
  obtain ⟨owns, inodes, mapped, bytes⟩ := grows.owns.write good full
    ((d'.block (d'.mapped ip' (off / bsize))).write (off % bsize) src)
  have inside : ∀ i, off ≤ i → i < off + src.length → i / bsize = off / bsize := by
    simp only [bsize] at one ⊢
    omega
  refine ⟨owns, fun y lt => (inodes y lt).trans (grows.inodes y lt), grows.attr, fun bn full => ?_,
    fun i lo hi => ?_, fun i lo hi => ?_, fun i full out => ?_, fun all => ?_⟩
  · rw [mapped, (grows.mapped_eq full).1]
  · rw [mapped, inside i lo hi]
    exact full
  · have here := inside i lo hi
    rw [bytes, if_pos here, Words.Page.at_write _ one]
    simp only [bsize] at here ⊢
    rw [if_pos (by omega)]
    congr 1
    omega
  · obtain ⟨map, block⟩ := grows.mapped_eq full
    have old : d'.byteAt ip' i = d.byteAt ip i := by
      unfold byteAt
      rw [map, block]
    rw [bytes, ← old]
    split
    · rename_i here
      rw [Words.Page.at_write _ one, byteAt, here]
      simp only [bsize] at here ⊢
      rw [if_neg (by omega)]
    · rfl
  · exact same (all off le_rfl (by omega))

theorem within_writeiLoop (good : sb.Good) {trans : Bool} {k : Nat} (owns : Owns d ip)
    (rounds : src.length ≤ k) (fits : off + src.length ≤ maxFile * bsize) :
    Within (fun _ => True) (writeiLoop trans k ip off src) d fun ip' d' =>
      Wrote d ip off src d' ip' := by
  induction k generalizing d ip off src with
  | zero =>
    obtain rfl : src = [] := length_eq_zero_iff.mp (by omega)
    exact .nil owns off
  | succ k ih =>
    unfold writeiLoop
    split
    · rename_i none
      subst none
      exact .nil owns off
    · rename_i some
      have pos : 0 < src.length := length_pos_iff.mpr some
      let m := min src.length (bsize - off % bsize)
      have rest : off % bsize < bsize := Nat.mod_lt off (by decide)
      have take_length : (src.take m).length = m := by simp; omega
      have in_file : off / bsize < maxFile := by
        rw [Nat.div_lt_iff_lt_mul (by decide)]
        omega
      -- the block is there already, or it is new
      have found : Within (fun _ => True) (bmap trans ip (off / bsize)) d fun r d' =>
          (Grows d ip d' r.2 ∧ r.1 = d'.mapped r.2 (off / bsize) ∧ r.1 ≠ 0) ∧
            (d.mapped ip (off / bsize) ≠ 0 → r.2 = ip) := by
        by_cases full : d.mapped ip (off / bsize) = 0
        · exact (within_bmap good owns trans in_file).mono (fun _ => id)
            fun r d' post => ⟨post, fun h => absurd full h⟩
        · rw [within_ok (bmap_mapped full)]
          exact ⟨⟨.refl owns, rfl, full⟩, fun _ => rfl⟩
      refine .bind (found.mono (fun _ => id) ?_)
      rintro ⟨addr, ip1⟩ d1 ⟨⟨grows, eq, full⟩, same⟩
      dsimp only at grows eq full same
      subst eq
      refine .bind ?_
      change Within _ (logWrite trans (d1.mapped ip1 (off / bsize))
        ((d1.block (d1.mapped ip1 (off / bsize))).write (off % bsize) (src.take m)) >>= _) d1 _
      refine .bind (within_logWrite (fun _ => trivial) fun _ => ?_)
      have wrote : Wrote d ip off (src.take m) _ _ :=
        .block good (by omega) grows full same (by omega)
      refine (ih wrote.owns (by simp; omega) (by simp; omega)).mono (fun _ => id) ?_
      intro ip2 d2 later
      have all : Wrote d ip off (src.take m ++ src.drop m) d2 ip2 :=
        wrote.append (by rwa [take_length])
      rwa [take_append_drop] at all

/-! ## `writei` -/

/-- A file has its blocks up to its size. -/
structure Whole (d : Disk sb) (ip : Dinode Addrs) : Prop where
  size : ip.size ≤ maxFile * bsize
  blocks : ∀ bn, bn * bsize < ip.size → d.mapped ip bn ≠ 0

theorem Whole.byte (whole : Whole d ip) {i : Nat} (lt : i < ip.size) :
    d.mapped ip (i / bsize) ≠ 0 :=
  whole.blocks _ (Nat.lt_of_le_of_lt (Nat.div_mul_le_self i bsize) lt)

theorem Wrote.contents (wrote : Wrote d ip off src d' ip') (whole : Whole d ip)
    (inside : off ≤ ip.size) :
    d'.contents { ip' with size := max ip.size (off + src.length) } =
      overwrite (d.contents ip) off src := by
  have length : (overwrite (d.contents ip) off src).length = max ip.size (off + src.length) := by
    simp only [overwrite, length_append, length_take, length_drop, contents_length]
    omega
  refine ext_getElem (by rw [contents_length, length]) fun i lt lt' => ?_
  rw [length] at lt'
  have byte : (d'.contents { ip' with size := max ip.size (off + src.length) })[i] =
      d'.byteAt ip' i := by
    simp only [Disk.contents, getElem_map, getElem_range]
    rfl
  have before : ((d.contents ip).take off).length = off := by
    rw [length_take, contents_length]
    omega
  simp only [byte, overwrite, getElem_append, length_append, before]
  by_cases here : off ≤ i ∧ i < off + src.length
  · rw [wrote.written i here.1 here.2, dif_pos here.2, dif_neg (Nat.not_lt.mpr here.1)]
    exact getD_eq_getElem _ _ (by omega)
  · rw [wrote.kept i (whole.byte (by omega)) here]
    split
    · rw [dif_pos (by omega)]
      simp only [getElem_take, Disk.contents, getElem_map, getElem_range]
    · have past : off + src.length + (i - (off + src.length)) = i := by omega
      simp only [getElem_drop, Disk.contents, getElem_map, getElem_range, past]

theorem Wrote.whole (wrote : Wrote d ip off src d' ip') (whole : Whole d ip)
    (inside : off ≤ ip.size) (fits : off + src.length ≤ maxFile * bsize) :
    Whole d' { ip' with size := max ip.size (off + src.length) } := by
  refine ⟨Nat.max_le.mpr ⟨whole.size, fits⟩, fun bn below => ?_⟩
  change bn * bsize < max ip.size (off + src.length) at below
  change d'.mapped ip' bn ≠ 0
  by_cases old : bn * bsize < ip.size
  · rw [wrote.mapped bn (whole.blocks bn old)]
    exact whole.blocks bn old
  · have new := wrote.filled (bn * bsize) (by omega) (by omega)
    rwa [Nat.mul_div_cancel bn (by decide)] at new

/-- Writing an inode leaves the blocks of a file. -/
theorem Owns.putInode (good : sb.Good) (owns : Owns d ip) (lt : x < sb.ninodes)
    (jp : Dinode Addrs) :
    Owns (d.putInode x jp) ip ∧ (∀ bn, (d.putInode x jp).mapped ip bn = d.mapped ip bn) ∧
    ∀ i, d.mapped ip (i / bsize) ≠ 0 → (d.putInode x jp).byteAt ip i = d.byteAt ip i := by
  have slots : ∀ k, (d.putInode x jp).slot ip k = d.slot ip k :=
    slot_congr fun ptr => block_putInode good lt (owns.data .pointer (toNat_ne_zero ptr)).1
  refine ⟨owns.congr slots fun c lt_c => bit_putInode good lt lt_c, mapped_congr slots,
    fun i full => ?_⟩
  have in_file := lt_of_mapped full
  rw [mapped_lt in_file] at full
  unfold byteAt
  rw [mapped_congr slots, mapped_lt in_file, block_putInode good lt (owns.data _ full).1]

/-- The inode `x` on the disk owns its blocks, and has all blocks up to its size. -/
structure FileOk (d : Disk sb) (x : Nat) : Prop where
  good : sb.Good
  bound : x < sb.ninodes
  owns : Owns d (d.dinode x)
  whole : Whole d (d.dinode x)

/-- The bytes of the file `x`. -/
def file (d : Disk sb) (x : Nat) : List Byte := d.contents (d.dinode x)

theorem within_iupdate {trans : Bool} {Q : Unit → Disk sb → Prop} (post : Q () (d.putInode x ip)) :
    Within (fun _ => True) (iupdate trans x ip) d Q :=
  .bind (within_logWrite (fun _ => trivial) fun _ => post)

/-- The inode of a file is written back. -/
theorem FileOk.putInode (ok : FileOk d x) (whole : Whole d' ip) (owns : Owns d' ip) :
    (d'.putInode x ip).dinode x = ip ∧ FileOk (d'.putInode x ip) x ∧
      (d'.putInode x ip).file x = d'.contents ip := by
  have stored : (d'.putInode x ip).dinode x = ip :=
    dinode_putInode (Nat.lt_of_le_of_lt whole.size (by decide))
  obtain ⟨owns', mapped, kept⟩ := owns.putInode ok.good ok.bound ip
  refine ⟨stored, ⟨ok.good, ok.bound, ?_, ?_⟩, ?_⟩
  · rw [stored]
    exact owns'
  · rw [stored]
    exact ⟨whole.size, fun bn below => (mapped bn).symm ▸ whole.blocks bn below⟩
  · rw [file, stored]
    exact map_congr_left fun i mem => kept i (whole.byte (mem_range.mp mem))

/-- `writei` refuses to write, or the file is in order afterwards and the bytes are written. -/
theorem FileOk.writei (ok : FileOk d x) (trans : Bool) (off : Nat) (src : List Byte) :
    Within (fun _ => True) (writei trans x (d.dinode x) off src) d fun r d' =>
      (r = (none, d.dinode x) ∧ d' = d) ∨
      (Fits (d.dinode x) off src ∧ r = (some src.length, d'.dinode x) ∧ FileOk d' x ∧
        (d'.dinode x).type = (d.dinode x).type ∧ d'.file x = overwrite (d.file x) off src) := by
  unfold Disk.writei
  split
  · exact .inl ⟨rfl, rfl⟩
  · rename_i inside
    have inside : off ≤ (d.dinode x).size := Nat.not_lt.mp fun past => inside (.inl past)
    split
    · exact .inl ⟨rfl, rfl⟩
    · rename_i fits
      have fits := Nat.le_of_not_lt fits
      refine .bind
        ((within_writeiLoop ok.good ok.owns le_rfl fits).mono (fun _ => id) fun ip' d' wrote => ?_)
      have bytes := wrote.contents ok.whole inside
      have whole := wrote.whole ok.whole inside fits
      have size : ip'.size = (d.dinode x).size := by rw [wrote.attr]
      dsimp only
      split
      · rename_i grows
        rw [size] at grows
        rw [Nat.max_eq_right grows.2.le] at bytes whole
        obtain ⟨stored, after, contents⟩ := ok.putInode whole
          ⟨wrote.owns.data, wrote.owns.once, wrote.owns.reserved⟩
        refine .bind (within_iupdate (.inr ⟨⟨inside, fits⟩, ?_, after, ?_, ?_⟩))
        · rw [stored]
        · rw [stored]
          have type : ip'.type = (d.dinode x).type := congrArg Attr.type wrote.attr
          exact type
        · rw [contents, bytes, file]
      · rename_i stays
        rw [size] at stays
        -- nothing is appended, so that no block is new and the inode is as it was
        have eq : ip' = d.dinode x := by
          refine wrote.same fun i lo hi => ok.whole.byte ?_
          omega
        subst eq
        rw [Nat.max_eq_left (by omega)] at bytes whole
        have same := wrote.inodes x ok.bound
        refine .inr ⟨⟨inside, fits⟩, by rw [same], ⟨ok.good, ok.bound, ?_, ?_⟩, by rw [same], ?_⟩
        · rw [same]
          exact wrote.owns
        · rw [same]
          exact whole
        · rw [file, same]
          exact bytes

/-! ## `itrunc` -/

/-- Blocks are given back: no mark is set, and data blocks keep their contents. -/
structure Freed (d d' : Disk sb) : Prop where
  bits : ∀ c, d'.bit c = true → d.bit c = true
  blocks : ∀ c, sb.nmeta ≤ c → d'.block c = d.block c

theorem Freed.trans (first : Freed d d') (second : Freed d' d'') : Freed d d'' :=
  ⟨fun c set => first.bits c (second.bits c set),
    fun c above => (second.blocks c above).trans (first.blocks c above)⟩

theorem Freed.clear (freed : Freed d d') (clear : d.bit b = false) : d'.bit b = false := by
  by_contra set
  rw [freed.bits b (by simpa using set)] at clear
  cases clear

theorem within_bfree (good : sb.Good) (trans : Bool) (lt : b < sb.size) :
    Within (fun _ => True) (bfree trans b) d fun _ d' => Freed d d' ∧ d'.bit b = false := by
  refine .bind ?_
  change Within _ (if (d.block (bblock sb b)).bit (b % bpb) = false then _ else _) d _
  split
  · exact trivial
  · refine within_logWrite (fun _ => trivial) fun _ => ?_
    change Freed d (d.putBit b false) ∧ (d.putBit b false).bit b = false
    refine ⟨⟨fun c set => ?_, fun c above => block_putBit good lt above⟩, ?_⟩
    · rw [bit_putBit] at set
      split at set
      · cases set
      · exact set
    · rw [bit_putBit, if_pos rfl]

theorem within_bfreeAll (good : sb.Good) (trans : Bool) {as : List (BitVec 32)}
    (inside : ∀ a ∈ as, a ≠ 0 → a.toNat < sb.size) :
    Within (fun _ => True) (bfreeAll trans as) d fun _ d' =>
      Freed d d' ∧ ∀ a ∈ as, a ≠ 0 → d'.bit a.toNat = false := by
  induction as generalizing d with
  | nil => exact ⟨⟨fun _ => id, fun _ _ => rfl⟩, by simp⟩
  | cons a as ih =>
    have later := fun c mem => inside c (mem_cons_of_mem a mem)
    unfold bfreeAll
    split
    · rename_i zero
      refine (ih later).mono (fun _ => id) fun _ d' ⟨freed, clear⟩ => ⟨freed, fun c mem ne => ?_⟩
      rcases mem_cons.mp mem with rfl | mem
      · exact absurd zero ne
      · exact clear c mem ne
    · rename_i some
      refine .bind ((within_bfree good trans (inside a mem_cons_self some)).mono
        (fun _ => id) fun _ d1 ⟨first, clear⟩ => ?_)
      refine (ih later).mono (fun _ => id) fun _ d' ⟨second, clears⟩ =>
        ⟨first.trans second, fun c mem ne => ?_⟩
      rcases mem_cons.mp mem with rfl | mem
      · exact second.clear clear
      · exact clears c mem ne

/-- The inode in memory has no blocks any more, and those that it had are free. -/
theorem FileOk.itrunc (ok : FileOk d x) (trans : Bool) :
    Within (fun _ => True) (itrunc trans x (d.dinode x)) d fun r d' =>
      r = { d.dinode x with addrs := fun _ => 0, size := 0 } ∧
        ∀ k, d.slot (d.dinode x) k ≠ 0 → d'.bit (d.slot (d.dinode x) k) = false := by
  have inside : ∀ k, d.slot (d.dinode x) k ≠ 0 → d.slot (d.dinode x) k < sb.size :=
    fun k full => (ok.owns.data k full).2.1
  -- when all blocks are given back, the inode is written
  have finish : ∀ e : Disk sb, (∀ k, d.slot (d.dinode x) k ≠ 0 →
      e.bit (d.slot (d.dinode x) k) = false) → Within (fun _ => True) (do
        iupdate trans x { d.dinode x with addrs := fun _ => 0, size := 0 }
        pure { d.dinode x with addrs := fun _ => 0, size := 0 } :
          Prog Panic (Disk sb) (Dinode Addrs)) e fun r d' =>
      r = { d.dinode x with addrs := fun _ => 0, size := 0 } ∧
        ∀ k, d.slot (d.dinode x) k ≠ 0 → d'.bit (d.slot (d.dinode x) k) = false := by
    refine fun e clear => .bind (within_iupdate ⟨rfl, fun k full => ?_⟩)
    rw [bit_putInode ok.good ok.bound (inside k full)]
    exact clear k full
  unfold Disk.itrunc
  refine .bind ((within_bfreeAll ok.good trans fun a mem ne => ?_).mono (fun _ => id)
    fun _ d1 ⟨freed, clear⟩ => ?_)
  · obtain ⟨i, -, rfl⟩ := mem_map.mp mem
    exact inside (.inl i.castSucc) (toNat_ne_zero ne)
  -- the direct blocks
  have direct : ∀ i : Fin (ndirect + 1), i ≠ Fin.last ndirect → (d.dinode x).addrs i ≠ 0 →
      d1.bit ((d.dinode x).addrs i).toNat = false := by
    intro i ne full
    refine clear _ (mem_map.mpr ⟨i.castPred ne, mem_finRange _, ?_⟩) full
    rw [Fin.castSucc_castPred]
  have word : ∀ w : BitVec 32, w.toNat ≠ 0 → w ≠ 0 := by
    rintro w full rfl
    exact full rfl
  dsimp only
  split
  · rename_i ptr
    have full : d.slot (d.dinode x) .pointer ≠ 0 := toNat_ne_zero ptr
    have entry : d1.block (pointer (d.dinode x)) = d.block (pointer (d.dinode x)) :=
      freed.blocks _ (ok.owns.data .pointer full).1
    refine .bind ?_
    change Within _ (bfreeAll trans
      ((range nindirect).map (d1.block (pointer (d.dinode x))).word) >>= _) d1 _
    rw [entry]
    refine .bind ((within_bfreeAll ok.good trans fun a mem ne => ?_).mono
      (fun _ => id) fun _ d2 ⟨freed2, clear2⟩ => ?_)
    · obtain ⟨j, lt, rfl⟩ := mem_map.mp mem
      have slot := slot_entry (d := d) ptr ⟨j, mem_range.mp lt⟩
      exact slot ▸ inside _ (slot ▸ toNat_ne_zero ne)
    refine .bind ((within_bfree ok.good trans (inside .pointer full)).mono
      (fun _ => id) fun _ d3 ⟨freed3, clear3⟩ => finish d3 fun k full => ?_)
    cases k with
    | inl i =>
      rcases eq_or_ne i (Fin.last ndirect) with rfl | ne
      · exact clear3
      · exact (freed2.trans freed3).clear (direct i ne (word _ full))
    | inr j =>
      rw [slot_entry ptr] at full ⊢
      exact freed3.clear (clear2 _ (mem_map_of_mem (mem_range.mpr j.isLt)) (word _ full))
  · rename_i none
    refine finish d1 fun k full => ?_
    cases k with
    | inl i =>
      refine direct i ?_ (word _ full)
      rintro rfl
      exact none (word _ full)
    | inr j => exact absurd (if_pos (not_not.mp none)) full

/-! ## The file of the small disk -/

theorem smallDisk_dinode (nlink : Short) : (smallDisk nlink).dinode 1 = smallFile nlink := by
  refine readDinode_writeDinode (fun _ => 0) (by decide) (smallFile nlink) ?_
  change 1000 < 2 ^ 32
  decide

theorem smallDisk_slot (nlink : Short) (k : Slot) : (smallDisk nlink).slot (smallFile nlink) k =
    if k = .inl 0 then 5 else if k = .inl 1 then 6 else 0 := by
  cases k with
  | inl i =>
    change (if i = 0 then 5 else if i = 1 then 6 else 0 : BitVec 32).toNat = _
    simp only [Sum.inl.injEq]
    split
    · rfl
    · split <;> rfl
  | inr j =>
    rw [if_neg (by simp), if_neg (by simp)]
    rfl

theorem smallDisk_bit (nlink : Short) {b : Nat} (lt : b < 7) : (smallDisk nlink).bit b = true := by
  have map : ∀ b < 7, bblock smallSb b = 4 := by decide
  have bits : ∀ b < 7, Words.Page.bit (fun a => if a = 0 then 127 else 0 : Block) (b % bpb) =
      true := by
    decide
  rw [bit, map b lt]
  exact bits b lt

/-- The file of the small disk is in order, whatever its number of links. -/
theorem smallDisk_ok (nlink : Short) : FileOk (smallDisk nlink) 1 := by
  have slots := smallDisk_slot nlink
  refine ⟨⟨by decide, by decide, by decide⟩, by decide, ?_, ?_⟩
  · rw [smallDisk_dinode]
    refine ⟨fun k full => ?_, fun k l full eq => ?_, fun b low => ?_⟩
    · have above : smallSb.nmeta = 5 := rfl
      have below : smallSb.size = 32 := rfl
      rw [slots] at full ⊢
      split
      · exact ⟨by omega, by omega, smallDisk_bit nlink (by omega)⟩
      · split
        · exact ⟨by omega, by omega, smallDisk_bit nlink (by omega)⟩
        · rename_i second first
          rw [if_neg second, if_neg first] at full
          exact absurd rfl full
    · rw [slots] at full eq
      rw [slots] at eq
      grind
    · have low : b < 5 := low
      exact smallDisk_bit nlink (by omega)
  · rw [smallDisk_dinode]
    have size : (smallFile nlink).size = 1000 := rfl
    refine ⟨by rw [size]; decide, fun bn below => ?_⟩
    have two : bn = 0 ∨ bn = 1 := by
      rw [size] at below
      simp only [bsize] at below
      omega
    rcases two with rfl | rfl
    · rw [mapped_lt (by decide), slots]
      decide
    · rw [mapped_lt (by decide), slots]
      decide

end Disk

end Xv6.Fs
