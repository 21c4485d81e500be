import Xv6.Fs.Format
import Xv6.Lib.Prog
import Mathlib.Logic.Function.Basic

/-!
# Where inodes are kept

A `Store` has the functions of `fs.c` that reach the disk: loading and writing back inodes, and
reading, writing and discarding the contents of a file.  They work on a copy of the inode in
memory, as in the source, and give it back with the changes they made.

The directory functions only use `readi`; they are written once, over any store.  The store of
blocks is in `Xv6.Fs.Blocks`.
-/

namespace Xv6.Fs

open Function

inductive Panic
  | ilock
  | ilockNoType
  | iunlock
  | igetNoInodes
  | iallocNoInodes
  | ballocOutOfBlocks
  | freeingFreeBlock
  | bmapOutOfRange
  | logWriteOutsideOfTrans
  | dirlookupNotDir
  | dirlookupRead
  | dirlinkRead
  | dirlink
  | isdiremptyReadi
  | unlinkNlink
  | unlinkWritei
  | createDots
  | createDirlink
  | filedup
  | fileclose
  | fileread
  | filewrite
  | shortFilewrite
  deriving DecidableEq, Repr

/-- The functions of `fs.c` that reach the disk `D`.  The first argument says whether an operation
is outstanding, without which `log_write` panics. -/
class Store (D : Type) (A : outParam Type) where
  /-- `sb.ninodes`. -/
  ninodes : Nat
  /-- The inode `inum` on the disk. -/
  dinode : D → Nat → Dinode A
  /-- `iupdate`, of the inode `inum`. -/
  iupdate : Bool → Nat → Dinode A → Prog Panic D Unit
  /-- One round of the loop of `ialloc`: take the inode `inum` if it is free. -/
  claim : Bool → Nat → Short → Prog Panic D Bool
  /-- `itrunc`, of the inode `inum`. -/
  itrunc : Bool → Nat → Dinode A → Prog Panic D (Dinode A)
  /-- `readi` of a file or directory; `none` is `-1`. -/
  readi : Bool → Dinode A → Nat → Nat → Prog Panic D (Option (List Byte) × Dinode A)
  /-- `writei` to a file or directory, the inode `inum`; `none` is `-1`. -/
  writei : Bool → Nat → Dinode A → Nat → List Byte → Prog Panic D (Option Nat × Dinode A)

/-! ## Directories -/

section

variable {D A : Type} [Store D A]

def readDirent (trans : Bool) (why : Panic) (dp : Dinode A) (off : Nat) :
    Prog Panic D (Dirent × Dinode A) := do
  let (r, dp) ← Store.readi trans dp off direntSize
  match r with
  | some bytes =>
    if bytes.length = direntSize then pure (Dirent.decode bytes, dp) else Prog.stop why
  | none => Prog.stop why

/-- The loops over the entries of a directory, from offset `off` on: where the loop stops, and
the entry there if it passed the test. -/
def scan (trans : Bool) (why : Panic) (test : Dirent → Bool) :
    Nat → Dinode A → Nat → Prog Panic D (Nat × Option Dirent × Dinode A)
  | 0, dp, off => pure (off, none, dp)
  | n + 1, dp, off =>
    if off < dp.size then do
      let (de, dp) ← readDirent trans why dp off
      if test de then pure (off, some de, dp)
      else scan trans why test n dp (off + direntSize)
    else pure (off, none, dp)

def rounds (dp : Dinode A) : Nat := dp.size / direntSize + 1

/-- `dirlookup` up to its call of `iget`: the inode number and the offset of the entry. -/
def dirlookupScan (trans : Bool) (name : List Byte) (dp : Dinode A) :
    Prog Panic D (Option (Nat × Nat) × Dinode A) := do
  if dp.type ≠ tDir then Prog.stop .dirlookupNotDir
  else
    let (off, de, dp) ←
      scan trans .dirlookupRead (fun de => de.inum ≠ 0 ∧ namecmp name de.name) (rounds dp) dp 0
    pure (de.map fun de => (de.inum, off), dp)

/-- The loop of `dirlink`: the offset of an empty entry. -/
def emptyDirent (trans : Bool) (dp : Dinode A) : Prog Panic D (Nat × Dinode A) := do
  let (off, _, dp) ← scan trans .dirlinkRead (fun de => de.inum = 0) (rounds dp) dp 0
  pure (off, dp)

def isdirempty (trans : Bool) (dp : Dinode A) : Prog Panic D (Bool × Dinode A) := do
  let (_, de, dp) ←
    scan trans .isdiremptyReadi (fun de => de.inum ≠ 0) (rounds dp) dp (2 * direntSize)
  pure (de.isNone, dp)

end

/-! ## Contents as lists of bytes -/

def slice (s : List Byte) (off n : Nat) : List Byte := (s.drop off).take n

/-- `s` with the bytes from `off` on replaced by `src`, for `off` at most the length of `s`. -/
def overwrite (s : List Byte) (off : Nat) (src : List Byte) : List Byte :=
  s.take off ++ src ++ s.drop (off + src.length)

end Xv6.Fs
