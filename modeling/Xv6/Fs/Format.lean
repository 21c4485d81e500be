import Xv6.Param
import Mathlib.Data.List.TakeWhile
import Mathlib.Tactic.Common

/-!
# Inodes, directory entries and path names

The data that `fs.c`, `sysfile.c` and `mkfs.c` share.  `Attr` is what `struct inode` copies from
`struct dinode`, without the block addresses; how the contents of a file are found is left to the
store (`Store`), so that the same code runs over blocks and over plain contents.
-/

namespace Xv6.Fs

open List

abbrev Byte := BitVec 8

abbrev Short := BitVec 16

/-! ## Inodes -/

def tDir : Short := 1

def tFile : Short := 2

def tDev : Short := 3

/-- The fields of an inode that are not addresses of blocks. -/
structure Attr where
  type : Short
  major : Short
  minor : Short
  nlink : Short
  size : Nat
  deriving DecidableEq, Repr

/-- An inode, on disk or in memory, whose contents are found through `addrs`. -/
structure Dinode (A : Type) extends Attr where
  addrs : A
  deriving DecidableEq, Repr

/-! ## Directory entries -/

/-- The string in a `char[DIRSIZ]`: it ends at the first NUL. -/
def cstr (s : List Byte) : List Byte := (s.take dirSiz).takeWhile (· ≠ 0)

def namecmp (s t : List Byte) : Bool := cstr s = cstr t

def strncpy (s : List Byte) : List Byte :=
  cstr s ++ replicate (dirSiz - (cstr s).length) 0

structure Dirent where
  inum : Nat
  name : List Byte
  deriving DecidableEq, Repr

abbrev direntSize : Nat := 16

def Dirent.decode (b : List Byte) : Dirent where
  inum := (b.getD 0 0).toNat + 256 * (b.getD 1 0).toNat
  name := cstr (b.drop 2)

/-- The bytes of a `struct dirent`; `inum` is an `unsigned short`. -/
def Dirent.encode (inum : Nat) (name : List Byte) : List Byte :=
  BitVec.ofNat 8 inum :: BitVec.ofNat 8 (inum / 256) :: strncpy name

def Dirent.zero : List Byte := replicate direntSize 0

/-! ## Path names -/

def slash : Byte := 47

def dot : List Byte := [46]

def dotdot : List Byte := [46, 46]

/-- `skipelem`: the next element and the rest of the path. -/
def skipelem (path : List Byte) : Option (List Byte × List Byte) :=
  match path.dropWhile (· = slash) with
  | [] => none
  | c :: cs =>
    some (((c :: cs).takeWhile (· ≠ slash)).take dirSiz,
      ((c :: cs).dropWhile (· ≠ slash)).dropWhile (· = slash))

def elementsLoop : Nat → List Byte → List (List Byte)
  | 0, _ => []
  | n + 1, path =>
    match skipelem path with
    | none => []
    | some (name, rest) => name :: elementsLoop n rest

def elements (path : List Byte) : List (List Byte) := elementsLoop path.length path

theorem skipelem_shorter {path name rest : List Byte} (eq : skipelem path = some (name, rest)) :
    rest.length < path.length := by
  unfold skipelem at eq
  split at eq
  · cases eq
  · rename_i c cs found
    simp only [Option.some.injEq, Prod.mk.injEq] at eq
    have head : c ≠ slash := by
      have := head?_dropWhile_not (fun b => decide (b = slash)) path
      rw [found] at this
      simpa using this
    have skipped := (dropWhile_sublist (p := fun b => decide (b = slash)) (l := path)).length_le
    rw [found] at skipped
    have tail : ((c :: cs).dropWhile (· ≠ slash)).length ≤ cs.length := by
      rw [dropWhile_cons_of_pos (by simpa using head)]
      exact (dropWhile_sublist _).length_le
    have last := (dropWhile_sublist (p := fun b => decide (b = slash))
      (l := (c :: cs).dropWhile (· ≠ slash))).length_le
    rw [← eq.2]
    simp only [length_cons] at skipped
    omega

theorem elementsLoop_enough {n m : Nat} {path : List Byte} (n_le : path.length ≤ n)
    (m_le : path.length ≤ m) : elementsLoop n path = elementsLoop m path := by
  induction n generalizing m path with
  | zero =>
    rw [eq_nil_of_length_eq_zero (Nat.le_zero.mp n_le)]
    cases m <;> rfl
  | succ n ih =>
    cases m with
    | zero =>
      rw [eq_nil_of_length_eq_zero (Nat.le_zero.mp m_le)]
      rfl
    | succ m =>
      simp only [elementsLoop]
      split
      · rfl
      · rename_i name rest eq
        have shorter := skipelem_shorter eq
        rw [ih (by omega) (by omega : rest.length ≤ m)]

/-- The loop ends because there is no element left, not because the count runs out. -/
theorem elements_eq (path : List Byte) : elements path =
    match skipelem path with
    | none => []
    | some (name, rest) => name :: elements rest := by
  rw [elements, elementsLoop_enough le_rfl (Nat.le_succ path.length), elementsLoop]
  split
  · rfl
  · rename_i name rest eq
    have shorter := skipelem_shorter eq
    rw [elements, elementsLoop_enough le_rfl (by omega : rest.length ≤ path.length)]

end Xv6.Fs
