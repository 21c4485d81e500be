import Xv6.Fs.Blocks

/-!
# Blocks of a file

What a write to one block leaves of the others, and where `bmap` finds the blocks that a file has:
an inode has addresses of blocks in its slots, the last of which is that of a block with more slots.
-/

namespace Xv6.Fs

/-- Where an inode has addresses: `addrs`, the last of which is that of the indirect block, and the
entries of the indirect block. -/
abbrev Slot := Fin (ndirect + 1) ⊕ Fin nindirect

theorem entry_lt {bn : Nat} (lt : bn < maxFile) : bn - ndirect < nindirect := by
  simp only [maxFile, ndirect, nindirect, bsize] at lt ⊢
  omega

/-- The slot of the `bn`-th block of a file. -/
def Slot.data (bn : Fin maxFile) : Slot :=
  if h : bn.val < ndirect then .inl ⟨bn, by omega⟩ else .inr ⟨bn - ndirect, entry_lt bn.isLt⟩

namespace Disk

variable {sb : Superblock}

def put (d : Disk sb) (b : Nat) (data : Block) : Disk sb :=
  ⟨Function.update d.block b data, b :: d.logged⟩

def putBit (d : Disk sb) (b : Nat) (v : Bool) : Disk sb :=
  d.put (bblock sb b) ((d.block (bblock sb b)).setBit (b % bpb) v)

def putInode (d : Disk sb) (inum : Nat) (ip : Dinode Addrs) : Disk sb :=
  d.put (iblock sb inum) (writeDinode (d.block (iblock sb inum)) (inum % ipb) ip)

/-- The address in a slot; zero if there is none. -/
def slot (d : Disk sb) (ip : Dinode Addrs) : Slot → Nat
  | .inl i => (ip.addrs i).toNat
  | .inr j => if ip.addrs (Fin.last ndirect) = 0 then 0
      else ((d.block (ip.addrs (Fin.last ndirect)).toNat).word j).toNat

/-- The address of the indirect block. -/
def pointer (ip : Dinode Addrs) : Nat := (ip.addrs (Fin.last ndirect)).toNat

/-- The address of the `bn`-th block of a file. -/
def mapped (d : Disk sb) (ip : Dinode Addrs) (bn : Nat) : Nat :=
  if h : bn < maxFile then d.slot ip (.data ⟨bn, h⟩) else 0

/-- The disk after `balloc` took block `b`. -/
def take (d : Disk sb) (b : Nat) : Disk sb := (d.putBit b true).put b fun _ => 0

def Fits (ip : Dinode Addrs) (off : Nat) (src : List Byte) : Prop :=
  off ≤ ip.size ∧ off + src.length ≤ maxFile * bsize

variable {d : Disk sb} {ip : Dinode Addrs} {b c : Nat} {data : Block} {v : Bool}

/-! ## Writes -/

@[simp] theorem block_put_self : (d.put b data).block b = data := by simp [put]

theorem block_put_ne (ne : c ≠ b) : (d.put b data).block c = d.block c := by simp [put, ne]

theorem bit_putBit (b c : Nat) : (d.putBit b v).bit c = if c = b then v else d.bit c := by
  unfold bit putBit
  by_cases same : bblock sb c = bblock sb b
  · have lt : b % bpb < 8 * (4 * nindirect) := Nat.mod_lt b (by decide)
    rw [same, block_put_self, Words.Page.bit_setBit _ lt]
    have : c % bpb = b % bpb ↔ c = b := by
      unfold bblock at same
      constructor
      · intro rest
        rw [← Nat.div_add_mod c bpb, ← Nat.div_add_mod b bpb, rest, Nat.add_right_cancel same]
      · exact congrArg (· % bpb)
    simp only [this]
  · have ne : c ≠ b := by
      rintro rfl
      exact same rfl
    rw [block_put_ne same, if_neg ne]

variable {trans : Bool}

theorem within_logWrite {data : Block} {E : Panic → Prop} {Q : Unit → Disk sb → Prop}
    (stops : trans = false → E .logWriteOutsideOfTrans)
    (post : trans = true → Q () (d.put b data)) : Within E (logWrite trans b data) d Q := by
  cases trans with
  | false => exact stops rfl
  | true => exact post rfl

/-- `balloc` marks a free block and fills it with zeros, if there is one. -/
theorem within_balloc : Within (fun _ => True) (balloc trans) d fun b d' =>
    b < sb.size ∧ d.bit b = false ∧ d' = d.take b := by
  cases found : (List.range sb.size).find? fun b => ¬ d.bit b with
  | none =>
    have stops : balloc trans d = .error .ballocOutOfBlocks := by rw [balloc, found]
    exact (within_error stops).mpr trivial
  | some b =>
    have lt : b < sb.size := List.mem_range.mp (List.mem_of_find?_eq_some found)
    have clear : d.bit b = false := by simpa using List.find?_some found
    cases trans with
    | false =>
      have stops : balloc false d = .error .logWriteOutsideOfTrans := by rw [balloc, found]; rfl
      exact (within_error stops).mpr trivial
    | true =>
      have ran : balloc true d = .ok (b, d.take b) := by rw [balloc, found]; rfl
      exact (within_ok ran).mpr ⟨lt, clear, rfl⟩

theorem ofNat_block (size : sb.size ≤ 2 ^ 32) (lt : b < sb.size) :
    (BitVec.ofNat 32 b).toNat = b := by
  rw [BitVec.toNat_ofNat, Nat.mod_eq_of_lt (by omega)]

theorem ofNat_block_ne_zero (size : sb.size ≤ 2 ^ 32) (lt : b < sb.size) (ne : b ≠ 0) :
    BitVec.ofNat 32 b ≠ 0 := by
  intro zero
  have := congrArg BitVec.toNat zero
  rw [ofNat_block size lt] at this
  exact ne this

/-- A slot of `addrs` has its block, or gets a new one. -/
theorem direct_cases (trans : Bool) (ip : Dinode Addrs) (i : Fin (ndirect + 1)) (d : Disk sb) :
    Within (fun _ => True) (direct trans ip i) d fun r d' =>
      ip.addrs i ≠ 0 ∧ r = ((ip.addrs i).toNat, ip) ∧ d' = d ∨
        ip.addrs i = 0 ∧ ∃ b, b < sb.size ∧ d.bit b = false ∧ r = (b, setAddr ip i b) ∧
          d' = d.take b := by
  unfold direct
  split
  · rename_i zero
    refine .bind (within_balloc.mono (fun _ _ => trivial) ?_)
    rintro b _ ⟨lt, clear, rfl⟩
    exact .inr ⟨zero, b, lt, clear, rfl, rfl⟩
  · rename_i full
    exact .inl ⟨full, rfl, rfl⟩

/-! ## Blocks that a file has -/

theorem bread_ok (b : Nat) (d : Disk sb) : bread b d = .ok (d.block b, d) := rfl

theorem direct_full {i : Fin (ndirect + 1)} (full : ip.addrs i ≠ 0) :
    direct trans ip i d = .ok (((ip.addrs i).toNat, ip), d) := by
  unfold direct
  rw [if_neg full]
  rfl

theorem bmap_mapped {bn : Nat} (full : d.mapped ip bn ≠ 0) :
    bmap trans ip bn d = .ok ((d.mapped ip bn, ip), d) := by
  unfold mapped at full ⊢
  split at full
  · rename_i lt
    rw [dif_pos lt]
    unfold bmap
    by_cases few : bn < ndirect
    · have slot_bn : Slot.data ⟨bn, lt⟩ = .inl ⟨bn, by omega⟩ := dif_pos few
      rw [slot_bn] at full ⊢
      rw [dif_pos few]
      refine direct_full fun zero => full ?_
      simp [slot, zero]
    · have slot_bn : Slot.data ⟨bn, lt⟩ = .inr ⟨bn - ndirect, entry_lt lt⟩ := dif_neg few
      rw [slot_bn] at full ⊢
      simp only [slot] at full ⊢
      have ptr : ip.addrs (Fin.last ndirect) ≠ 0 := by
        intro zero
        rw [if_pos zero] at full
        exact full rfl
      rw [if_neg ptr] at full ⊢
      have entry : (d.block (ip.addrs (Fin.last ndirect)).toNat).word (bn - ndirect) ≠ 0 := by
        intro zero
        rw [zero] at full
        exact full rfl
      rw [dif_neg few, if_pos (entry_lt lt), Prog.bind_ok (direct_full ptr)]
      dsimp only
      rw [Prog.bind_ok (bread_ok ..), if_neg entry]
      rfl
  · exact absurd rfl full

/-! ## A small disk -/

def smallSb : Superblock where
  size := 32
  nblocks := 27
  ninodes := 8
  nlog := 1
  logstart := 2
  inodestart := 3
  bmapstart := 4

/-- A file of two blocks, the second of which is not full. -/
def smallFile (nlink : Short) : Dinode Addrs :=
  ⟨⟨tFile, 0, 0, nlink, 1000⟩, fun i => if i = 0 then 5 else if i = 1 then 6 else 0⟩

/-- The file is the inode 1, and blocks from 7 on are free. -/
def smallDisk (nlink : Short) : Disk smallSb where
  block b :=
    if b = 3 then writeDinode (fun _ => 0) 1 (smallFile nlink)
    else if b = 4 then fun a => if a = 0 then 127 else 0
    else fun _ => BitVec.ofNat 8 b
  logged := []

/-- The root directory, with the entries `.` and `..`, and no other file. -/
def rootDisk : Disk smallSb where
  block b :=
    if b = 3 then writeDinode (fun _ => 0) rootIno
      ⟨⟨tDir, 0, 0, 1, 2 * direntSize⟩, fun i => if i = 0 then 5 else 0⟩
    else if b = 4 then fun a => if a = 0 then 63 else 0
    else if b = 5 then fun a =>
      (Dirent.encode rootIno dot ++ Dirent.encode rootIno dotdot).getD a 0
    else fun _ => 0
  logged := []

end Disk

end Xv6.Fs
