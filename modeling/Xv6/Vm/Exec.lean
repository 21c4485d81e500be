import Xv6.Param
import Xv6.Vm.Paging

/-!
# `exec`

`exec.c`, with `loaduvm` and `copyout` of `vm.c` and `readi` of `fs.c` on the bytes of one
file.  The file and the arguments are arbitrary; where they come from is left to the system
calls.

Everything between the creation of the new page directory and the commit is `loadImage`: each
`goto bad` of it returns `none`, and `exec` frees the directory then.  The process's name and the
inode's lock and reference are not modelled.
-/

namespace Xv6.Vm

abbrev Byte := BitVec 8

/-! ## Files -/

structure File where
  bytes : List Byte
  small : bytes.length ≤ maxFile * bsize

def File.size (ip : File) : Addr := BitVec.ofNat 32 ip.bytes.length

/-- `readi`: the bytes that it stores at `dst`; `none` is `-1`. -/
def readi (ip : File) (off n : Addr) : Option (List Byte) :=
  if off > ip.size ∨ off + n < off then none
  else
    let n := if off + n > ip.size then ip.size - off else n
    some ((ip.bytes.drop off.toNat).take n.toNat)

def le32 (b : List Byte) (k : Nat) : Addr :=
  b.getD (k + 3) 0 ++ b.getD (k + 2) 0 ++ b.getD (k + 1) 0 ++ b.getD k 0

def le16 (b : List Byte) (k : Nat) : BitVec 16 := b.getD (k + 1) 0 ++ b.getD k 0

structure ElfHdr where
  magic : Addr
  entry : Addr
  phoff : Addr
  phnum : BitVec 16

def ElfHdr.ofBytes (b : List Byte) : ElfHdr := ⟨le32 b 0, le32 b 24, le32 b 28, le16 b 44⟩

def elfMagic : Addr := 0x464C457F

structure ProgHdr where
  type : Addr
  off : Addr
  vaddr : Addr
  filesz : Addr
  memsz : Addr

def ProgHdr.ofBytes (b : List Byte) : ProgHdr :=
  ⟨le32 b 0, le32 b 4, le32 b 8, le32 b 16, le32 b 20⟩

def elfProgLoad : Addr := 1

/-! ## `loaduvm` and `copyout` -/

/-- Store the bytes of a file at the beginning of the frame of a page table entry. -/
def storeFile (pte : Addr) (bytes : List Byte) : K Unit := fun m =>
  .ok ((), { m.setPage (pteFrame pte) (writeBytes (m.page (pteFrame pte)) 0 bytes) with
    loaded := if bytes = [] then m.loaded else pte :: m.loaded })

def chunk (sz i : Addr) : Addr := if sz - i < pgSize then sz - i else pgSize

/-- The loop of `loaduvm` from byte `i` on; `false` is `-1`. -/
def loadLoop (pgdir : Frame) (addr : Addr) (ip : File) (offset sz : Addr) : Nat → Addr → K Bool
  | 0, _ => Prog.stop .hang
  | n + 1, i =>
    if i < sz then do
      match ← walkpgdir pgdir (addr + i) false with
      | none => Prog.stop (.panic .loaduvmExist)
      | some (pgtab, j) =>
        let pte ← getWord pgtab j
        match readi ip (offset + i) (chunk sz i) with
        | none => pure false
        | some bytes =>
          storeFile pte bytes
          if bytes.length ≠ (chunk sz i).toNat then pure false
          else loadLoop pgdir addr ip offset sz n (i + pgSize)
    else pure true

def loaduvm (pgdir : Frame) (addr : Addr) (ip : File) (offset sz : Addr) : K Bool :=
  if addr % pgSize ≠ 0 then Prog.stop (.panic .loaduvmAligned)
  else loadLoop pgdir addr ip offset sz (rounds + 1) 0

def copyoutLoop (pgdir : Frame) : Nat → Addr → List Byte → K Bool
  | 0, _, _ => Prog.stop .hang
  | n + 1, va, buf =>
    if buf = [] then pure true
    else do
      let va0 := pgRoundDown va
      match ← uva2ka pgdir va0 with
      | none => pure false
      | some pa0 =>
        let n' := (pgSize - (va - va0)).toNat
        fun m => .ok ((), m.setPage pa0 (writeBytes (m.page pa0) (va - va0).toNat (buf.take n')))
        copyoutLoop pgdir n (va0 + pgSize) (buf.drop n')

def copyout (pgdir : Frame) (va : Addr) (buf : List Byte) : K Bool :=
  copyoutLoop pgdir (rounds + 2) va buf

/-! ## `exec` -/

def loadSegments (L : Layout) (ip : File) (pgdir : Frame) : Nat → Addr → Addr → K (Option Addr)
  | 0, _, sz => pure (some sz)
  | k + 1, off, sz =>
    match readi ip off 32 with
    | none => pure none
    | some b =>
      let ph := ProgHdr.ofBytes b
      if b.length ≠ 32 then pure none
      else if ph.type ≠ elfProgLoad then loadSegments L ip pgdir k (off + 32) sz
      else if ph.memsz < ph.filesz then pure none
      else if ph.vaddr + ph.memsz < ph.vaddr then pure none
      else do
        let sz ← allocuvm L pgdir sz (ph.vaddr + ph.memsz)
        if sz = 0 then pure none
        else if ph.vaddr % pgSize ≠ 0 then pure none
        else if ← loaduvm pgdir ph.vaddr ip ph.off ph.filesz then
          loadSegments L ip pgdir k (off + 32) sz
        else pure none

structure CStr where
  bytes : List Byte
  noNul : 0 ∉ bytes
  short : bytes.length < 2 ^ 31

def argSp (sp : Addr) (s : CStr) : Addr :=
  (sp - BitVec.ofNat 32 (s.bytes.length + 1)) &&& ~~~(3 : Addr)

/-- Push argument strings; `ptrs` are the addresses of those already pushed. -/
def pushArgs (pgdir : Frame) : List CStr → Addr → List Addr → K (Option (Addr × List Addr))
  | [], sp, ptrs => pure (some (sp, ptrs))
  | s :: rest, sp, ptrs => do
      if ptrs.length ≥ maxArg then pure none
      else if ← copyout pgdir (argSp sp s) (s.bytes ++ [0]) then
        pushArgs pgdir rest (argSp sp s) (ptrs ++ [argSp sp s])
      else pure none

def wordBytes (w : Addr) : List Byte :=
  [w.extractLsb' 0 8, w.extractLsb' 8 8, w.extractLsb' 16 8, w.extractLsb' 24 8]

/-- The rest of the stack: fake return PC, `argc`, `argv` and the argument pointers. -/
def ustack (sp : Addr) (ptrs : List Addr) : List Addr :=
  let argc := BitVec.ofNat 32 ptrs.length
  0xFFFFFFFF :: argc :: (sp - (argc + 1) * 4) :: (ptrs ++ [0])

/-- Push the arguments and the rest of the stack below `sz`; the result is the stack pointer. -/
def pushStack (pgdir : Frame) (argv : List CStr) (sz : Addr) : K (Option Addr) := do
  match ← pushArgs pgdir argv sz [] with
  | none => pure none
  | some (sp, ptrs) =>
    let sp' := sp - BitVec.ofNat 32 (3 + ptrs.length + 1) * 4
    if ← copyout pgdir sp' ((ustack sp ptrs).flatMap wordBytes) then pure (some sp')
    else pure none

/-- The end of the two pages that follow an image of size `sz`. -/
@[irreducible] def stackTop (sz : Addr) : Addr := pgRoundUp sz + 2 * pgSize

/-- Allocate two pages at the next page boundary.  The first is made inaccessible, the second is
the user stack.  The result is the size of the image and the stack pointer. -/
def addStack (L : Layout) (argv : List CStr) (pgdir : Frame) (sz : Addr) :
    K (Option (Addr × Addr)) := do
  let sz ← allocuvm L pgdir (pgRoundUp sz) (stackTop sz)
  if sz = 0 then pure none
  else
    clearpteu pgdir (sz - 2 * pgSize)
    match ← pushStack pgdir argv sz with
    | none => pure none
    | some sp => pure (some (sz, sp))

def loadImage (L : Layout) (ip : File) (elf : ElfHdr) (argv : List CStr) (pgdir : Frame) :
    K (Option (Addr × Addr)) := do
  match ← loadSegments L ip pgdir elf.phnum.toNat elf.phoff pgSize with
  | none => pure none
  | some sz => addStack L argv pgdir sz

/-- The ELF header, if the file is long enough and has the right magic number. -/
def File.elfHeader (ip : File) : Option ElfHdr :=
  match readi ip 0 52 with
  | none => none
  | some b =>
    if b.length ≠ 52 then none
    else if (ElfHdr.ofBytes b).magic ≠ elfMagic then none
    else some (ElfHdr.ofBytes b)

structure Image where
  pgdir : Frame
  sz : Addr
  eip : Addr
  esp : Addr

/-- `exec` by a process with the page directory `oldpgdir`; `none` is `-1`. -/
def exec (L : Layout) (file : Option File) (argv : List CStr) (oldpgdir : Frame) :
    K (Option Image) :=
  match file with
  | none => pure none
  | some ip =>
    match ip.elfHeader with
    | none => pure none
    | some elf => do
        match ← setupkvm L with
        | none => pure none
        | some pgdir =>
          match ← loadImage L ip elf argv pgdir with
          | none =>
            freevm L pgdir
            pure none
          | some (sz, sp) =>
            -- Commit to the user image.
            freevm L oldpgdir
            pure (some ⟨pgdir, sz, elf.entry, sp⟩)

end Xv6.Vm
