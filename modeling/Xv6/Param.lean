import Mathlib.Algebra.GroupWithZero.Nat

/-!
# Compile-time parameters

The constants of `param.h`, `fs.h`, `mmu.h` and `memlayout.h` that the modelled
code reads, under the source's names.
-/

namespace Xv6

/-! ## `param.h` -/

abbrev nproc : Nat := 64

abbrev nofile : Nat := 16

abbrev maxOpBlocks : Nat := 10

abbrev logSize : Nat := maxOpBlocks * 3

abbrev nbuf : Nat := maxOpBlocks * 3

abbrev rootDev : Nat := 1

abbrev fsSize : Nat := 20000

abbrev nfile : Nat := 100

abbrev ninode : Nat := 50

abbrev ndev : Nat := 10

abbrev maxArg : Nat := 32

/-! ## `fs.h` and `mkfs.c` -/

abbrev bsize : Nat := 512

abbrev ndirect : Nat := 12

/-- Addresses in the indirect block. -/
abbrev nindirect : Nat := bsize / 4

/-- Maximum size of a file in blocks (`MAXFILE`): the direct and the indirect ones. -/
abbrev maxFile : Nat := ndirect + nindirect

/-- Inodes per block. -/
abbrev ipb : Nat := 8

/-- Bitmap bits per block. -/
abbrev bpb : Nat := bsize * 8

abbrev rootIno : Nat := 1

abbrev dirSiz : Nat := 14

instance : NeZero nproc := ⟨by decide⟩

instance : NeZero nofile := ⟨by decide⟩

instance : NeZero nfile := ⟨by decide⟩

instance : NeZero ninode := ⟨by decide⟩

instance : NeZero nbuf := ⟨by decide⟩

end Xv6
