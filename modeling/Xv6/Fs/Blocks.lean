import Xv6.Fs.Store
import Xv6.Lib.Words

/-!
# The blocks of the disk

The functions of `fs.c` below inodes: the block allocator, inodes in their blocks, and the contents
of a file found through `addrs`.  The disk maps block numbers to blocks, as `bread` and `log_write`
present it inside a transaction (`Xv6.Buf.Refine`).  `log_write` panics when no operation is
outstanding; `trans` says whether one is.

`sb` is the super block in memory, which `iinit` reads once.  A `struct dinode` has 16 words.
-/

namespace Xv6.Fs

/-- A block, of `BSIZE / 4` words. -/
abbrev Block := Words.Page nindirect

instance Block.neZero : NeZero (4 * nindirect) := ⟨by decide⟩

structure Superblock where
  size : Nat
  nblocks : Nat
  ninodes : Nat
  nlog : Nat
  logstart : Nat
  inodestart : Nat
  bmapstart : Nat
  deriving DecidableEq, Repr

/-- `addrs` of an inode: `NDIRECT` direct blocks and the indirect one. -/
abbrev Addrs := Fin (ndirect + 1) → BitVec 32

/-- The disk of the super block `sb`, and the blocks that were passed to `log_write` so far, the
last one first. -/
structure Disk (sb : Superblock) where
  block : Nat → Block
  logged : List Nat

def iblock (sb : Superblock) (i : Nat) : Nat := i / ipb + sb.inodestart

def bblock (sb : Superblock) (b : Nat) : Nat := b / bpb + sb.bmapstart

/-! ## Inodes in their blocks -/

/-- Two `short`s in a word, the first one at the lower address. -/
def shorts (lo hi : Short) : BitVec 32 := hi ++ lo

def readDinode (b : Block) (i : Nat) : Dinode Addrs where
  type := (b.word (16 * i)).extractLsb' 0 16
  major := (b.word (16 * i)).extractLsb' 16 16
  minor := (b.word (16 * i + 1)).extractLsb' 0 16
  nlink := (b.word (16 * i + 1)).extractLsb' 16 16
  size := (b.word (16 * i + 2)).toNat
  addrs j := b.word (16 * i + 3 + j)

def writeAddrs (b : Block) (i : Nat) (addrs : Addrs) : Block :=
  (List.finRange (ndirect + 1)).foldl
    (fun b (j : Fin (ndirect + 1)) => b.setWord (16 * i + 3 + j) (addrs j)) b

def writeDinode (b : Block) (i : Nat) (ip : Dinode Addrs) : Block :=
  writeAddrs
    (((b.setWord (16 * i) (shorts ip.type ip.major)).setWord
      (16 * i + 1) (shorts ip.minor ip.nlink)).setWord
      (16 * i + 2) (BitVec.ofNat 32 ip.size)) i ip.addrs

namespace Disk

variable {sb : Superblock}

def dinode (d : Disk sb) (inum : Nat) : Dinode Addrs :=
  readDinode (d.block (iblock sb inum)) (inum % ipb)

def bit (d : Disk sb) (b : Nat) : Bool := (d.block (bblock sb b)).bit (b % bpb)

def bread (b : Nat) : Prog Panic (Disk sb) Block := fun d => .ok (d.block b, d)

/-- `log_write` of block `b` with the contents `data`. -/
def logWrite (trans : Bool) (b : Nat) (data : Block) : Prog Panic (Disk sb) Unit := fun d =>
  if trans then .ok ((), ⟨Function.update d.block b data, b :: d.logged⟩)
  else .error .logWriteOutsideOfTrans

/-! ## Blocks -/

def bzero (trans : Bool) (b : Nat) : Prog Panic (Disk sb) Unit := logWrite trans b fun _ => 0

/-- `balloc`: the first block whose bit is clear. -/
def balloc (trans : Bool) : Prog Panic (Disk sb) Nat := fun d =>
  match (List.range sb.size).find? fun b => ¬ d.bit b with
  | none => .error .ballocOutOfBlocks
  | some b => (do
      let bp ← bread (bblock sb b)
      logWrite trans (bblock sb b) (bp.setBit (b % bpb) true)
      bzero trans b
      pure b) d

def bfree (trans : Bool) (b : Nat) : Prog Panic (Disk sb) Unit := do
  let bp ← bread (bblock sb b)
  if bp.bit (b % bpb) = false then Prog.stop .freeingFreeBlock
  else logWrite trans (bblock sb b) (bp.setBit (b % bpb) false)

/-! ## Inodes -/

def iupdate (trans : Bool) (inum : Nat) (ip : Dinode Addrs) : Prog Panic (Disk sb) Unit := do
  let bp ← bread (iblock sb inum)
  logWrite trans (iblock sb inum) (writeDinode bp (inum % ipb) ip)

def fresh (type : Short) : Dinode Addrs := ⟨⟨type, 0, 0, 0, 0⟩, fun _ => 0⟩

/-- One round of the loop of `ialloc`. -/
def claim (trans : Bool) (inum : Nat) (type : Short) : Prog Panic (Disk sb) Bool := do
  let bp ← bread (iblock sb inum)
  if (readDinode bp (inum % ipb)).type = 0 then
    logWrite trans (iblock sb inum) (writeDinode bp (inum % ipb) (fresh type))
    pure true
  else pure false

def setAddr (ip : Dinode Addrs) (i : Fin (ndirect + 1)) (b : Nat) : Dinode Addrs :=
  { ip with addrs := Function.update ip.addrs i (BitVec.ofNat 32 b) }

/-- `ip->addrs[i]`, allocated if it is zero. -/
def direct (trans : Bool) (ip : Dinode Addrs) (i : Fin (ndirect + 1)) :
    Prog Panic (Disk sb) (Nat × Dinode Addrs) := do
  if ip.addrs i = 0 then
    let b ← balloc trans
    pure (b, setAddr ip i b)
  else pure ((ip.addrs i).toNat, ip)

def bmap (trans : Bool) (ip : Dinode Addrs) (bn : Nat) :
    Prog Panic (Disk sb) (Nat × Dinode Addrs) := do
  if h : bn < ndirect then direct trans ip ⟨bn, by omega⟩
  else if bn - ndirect < nindirect then
    -- Load indirect block, allocating if necessary.
    let (ind, ip) ← direct trans ip (Fin.last ndirect)
    let bp ← bread ind
    if bp.word (bn - ndirect) = 0 then
      let b ← balloc trans
      -- the buffer was read before `balloc` and is written back with the new entry
      logWrite trans ind (bp.setWord (bn - ndirect) (BitVec.ofNat 32 b))
      pure (b, ip)
    else pure ((bp.word (bn - ndirect)).toNat, ip)
  else Prog.stop .bmapOutOfRange

def bfreeAll (trans : Bool) : List (BitVec 32) → Prog Panic (Disk sb) Unit
  | [] => pure ()
  | a :: rest => do
      if a = 0 then bfreeAll trans rest
      else
        bfree trans a.toNat
        bfreeAll trans rest

def itrunc (trans : Bool) (inum : Nat) (ip : Dinode Addrs) :
    Prog Panic (Disk sb) (Dinode Addrs) := do
  bfreeAll trans ((List.finRange ndirect).map fun i => ip.addrs i.castSucc)
  if ip.addrs (Fin.last ndirect) ≠ 0 then
    let bp ← bread (ip.addrs (Fin.last ndirect)).toNat
    bfreeAll trans ((List.range nindirect).map bp.word)
    bfree trans (ip.addrs (Fin.last ndirect)).toNat
  let ip := { ip with addrs := fun _ => 0, size := 0 }
  iupdate trans inum ip
  pure ip

/-! ## Contents -/

/-- The loop of `readi` for the `n` bytes from `off` on; the first argument bounds its rounds. -/
def readiLoop (trans : Bool) : Nat → Dinode Addrs → Nat → Nat →
    Prog Panic (Disk sb) (List Byte × Dinode Addrs)
  | 0, ip, _, _ => pure ([], ip)
  | k + 1, ip, off, n =>
    if n = 0 then pure ([], ip)
    else do
      let (addr, ip) ← bmap trans ip (off / bsize)
      let bp ← bread addr
      let m := min n (bsize - off % bsize)
      let (rest, ip) ← readiLoop trans k ip (off + m) (n - m)
      pure (bp.slice (off % bsize) m ++ rest, ip)

def readi (trans : Bool) (ip : Dinode Addrs) (off n : Nat) :
    Prog Panic (Disk sb) (Option (List Byte) × Dinode Addrs) := do
  if ip.size < off ∨ 2 ^ 32 ≤ off + n then pure (none, ip)
  else
    let n := min n (ip.size - off)
    let (bytes, ip) ← readiLoop trans n ip off n
    pure (some bytes, ip)

/-- The loop of `writei` for the bytes `src` from `off` on. -/
def writeiLoop (trans : Bool) : Nat → Dinode Addrs → Nat → List Byte →
    Prog Panic (Disk sb) (Dinode Addrs)
  | 0, ip, _, _ => pure ip
  | k + 1, ip, off, src =>
    if src = [] then pure ip
    else do
      let (addr, ip) ← bmap trans ip (off / bsize)
      let bp ← bread addr
      let m := min src.length (bsize - off % bsize)
      logWrite trans addr (bp.write (off % bsize) (src.take m))
      writeiLoop trans k ip (off + m) (src.drop m)

def writei (trans : Bool) (inum : Nat) (ip : Dinode Addrs) (off : Nat) (src : List Byte) :
    Prog Panic (Disk sb) (Option Nat × Dinode Addrs) := do
  if ip.size < off ∨ 2 ^ 32 ≤ off + src.length then pure (none, ip)
  else if maxFile * bsize < off + src.length then pure (none, ip)
  else
    let ip ← writeiLoop trans src.length ip off src
    if 0 < src.length ∧ ip.size < off + src.length then
      let ip := { ip with size := off + src.length }
      iupdate trans inum ip
      pure (some src.length, ip)
    else pure (some src.length, ip)

instance : Store (Disk sb) Addrs where
  ninodes := sb.ninodes
  dinode := dinode
  iupdate := iupdate
  claim := claim
  itrunc := itrunc
  readi := readi
  writei := writei

end Disk

end Xv6.Fs
