import Xv6.Vm.Memory

/-!
# Page tables

The functions of `vm.c` that build, walk, copy and free page tables, over the words of the
page directory and of the page-table pages.

A loop of the source is a recursion on a number of rounds that no address space exceeds:
`2 ^ 20` pages.  A loop that needed more would stop in `hang`.
-/

namespace Xv6.Vm

/-- Pages of an address space: no loop over them takes more rounds. -/
def rounds : Nat := 2 ^ 20

/-- A pointer to a page table entry: a page-table page and an index. -/
abbrev PtePtr := Frame × Nat

def walkpgdir (pgdir : Frame) (va : Addr) (alloc : Bool) : K (Option PtePtr) := do
  let pde ← getWord pgdir (pdx va).toNat
  if Has pteP pde then pure (some (pteFrame pde, (ptx va).toNat))
  else if alloc then
    match ← kalloc with
    | none => pure none
    | some pgtab =>
      -- Make sure all those PTE_P bits are zero.
      zeroPage pgtab
      setWord pgdir (pdx va).toNat (frameAddr pgtab ||| pteP ||| pteW ||| pteU)
      pure (some (pgtab, (ptx va).toNat))
  else pure none

/-- The loop of `mappages` from page `a` on; `false` is `-1`. -/
def mapLoop (pgdir : Frame) (perm last : Addr) : Nat → Addr → Addr → K Bool
  | 0, _, _ => Prog.stop .hang
  | n + 1, a, pa => do
      match ← walkpgdir pgdir a true with
      | none => pure false
      | some (pgtab, i) =>
        let pte ← getWord pgtab i
        if Has pteP pte then Prog.stop (.panic .remap)
        else
          setWord pgtab i (pa ||| perm ||| pteP)
          if a = last then pure true
          else mapLoop pgdir perm last n (a + pgSize) (pa + pgSize)

def mappages (pgdir : Frame) (va size pa perm : Addr) : K Bool :=
  mapLoop pgdir perm (pgRoundDown (va + size - 1)) rounds (pgRoundDown va) pa

def deallocLoop (L : Layout) (pgdir : Frame) (oldsz : Addr) : Nat → Addr → K Unit
  | 0, _ => Prog.stop .hang
  | n + 1, a =>
    if a < oldsz then do
      match ← walkpgdir pgdir a false with
      | none => deallocLoop L pgdir oldsz n (pgAddr (pdx a + 1) 0 0 - pgSize + pgSize)
      | some (pgtab, i) =>
        let pte ← getWord pgtab i
        if Has pteP pte then
          if pteFrame pte = 0 then Prog.stop (.panic .kfree)
          else
            kfree L (pteFrame pte)
            setWord pgtab i 0
            deallocLoop L pgdir oldsz n (a + pgSize)
        else deallocLoop L pgdir oldsz n (a + pgSize)
    else pure ()

def deallocuvm (L : Layout) (pgdir : Frame) (oldsz newsz : Addr) : K Addr := do
  if newsz ≥ oldsz then pure oldsz
  else
    deallocLoop L pgdir oldsz (rounds + 1) (pgRoundUp newsz)
    pure newsz

/-- The loop of `freevm` over the directory, from entry `i` on. -/
def freeTables (L : Layout) (pgdir : Frame) : Nat → Nat → K Unit
  | 0, _ => pure ()
  | n + 1, i => do
      let pde ← getWord pgdir i
      if Has pteP pde then
        kfree L (pteFrame pde)
        freeTables L pgdir n (i + 1)
      else freeTables L pgdir n (i + 1)

def freevm (L : Layout) (pgdir : Frame) : K Unit := do
  let _ ← deallocuvm L pgdir kernBase 0
  freeTables L pgdir 1024 0
  kfree L pgdir

structure Kmap where
  virt : Addr
  physStart : Addr
  physEnd : Addr
  perm : Addr

/-- The kernel's mappings, which are present in every process's page table. -/
def kmap (L : Layout) : List Kmap :=
  [⟨kernBase, 0, extMem, pteW⟩,
   ⟨kernLink, kernLink - kernBase, L.data - kernBase, 0⟩,
   ⟨L.data, L.data - kernBase, physTop, pteW⟩,
   ⟨devSpace, devSpace, 0, pteW⟩]

def mapKernel (L : Layout) (pgdir : Frame) : List Kmap → K (Option Frame)
  | [] => pure (some pgdir)
  | k :: ks => do
      if ← mappages pgdir k.virt (k.physEnd - k.physStart) k.physStart k.perm then
        mapKernel L pgdir ks
      else
        freevm L pgdir
        pure none

def setupkvm (L : Layout) : K (Option Frame) := do
  match ← kalloc with
  | none => pure none
  | some pgdir =>
    zeroPage pgdir
    if physTop + kernBase > devSpace then Prog.stop (.panic .physTopTooHigh)
    else mapKernel L pgdir (kmap L)

/-- The loop of `allocuvm` from page `a` on; `false` is a failure. -/
def allocLoop (L : Layout) (pgdir : Frame) (oldsz newsz : Addr) : Nat → Addr → K Bool
  | 0, _ => Prog.stop .hang
  | n + 1, a =>
    if a < newsz then do
      match ← kalloc with
      | none =>
        let _ ← deallocuvm L pgdir newsz oldsz
        pure false
      | some mem =>
        zeroPage mem
        if ← mappages pgdir a pgSize (frameAddr mem) (pteW ||| pteU) then
          allocLoop L pgdir oldsz newsz n (a + pgSize)
        else
          let _ ← deallocuvm L pgdir newsz oldsz
          kfree L mem
          pure false
    else pure true

def allocuvm (L : Layout) (pgdir : Frame) (oldsz newsz : Addr) : K Addr := do
  if newsz ≥ kernBase then pure 0
  else if newsz < oldsz then pure oldsz
  else if ← allocLoop L pgdir oldsz newsz (rounds + 1) (pgRoundUp oldsz) then pure newsz
  else pure 0

def clearpteu (pgdir : Frame) (uva : Addr) : K Unit := do
  match ← walkpgdir pgdir uva false with
  | none => Prog.stop (.panic .clearpteu)
  | some (pgtab, i) =>
    let pte ← getWord pgtab i
    setWord pgtab i (pte &&& ~~~pteU)

def copyPage (dst src : Frame) : K Unit := fun m => .ok ((), m.setPage dst (m.page src))

/-- The loop of `copyuvm` from page `i` on; `false` is `bad`. -/
def copyLoop (L : Layout) (pgdir d : Frame) (sz : Addr) : Nat → Addr → K Bool
  | 0, _ => Prog.stop .hang
  | n + 1, i =>
    if i < sz then do
      match ← walkpgdir pgdir i false with
      | none => Prog.stop (.panic .copyuvmExist)
      | some (pgtab, j) =>
        let pte ← getWord pgtab j
        if ¬ Has pteP pte then Prog.stop (.panic .copyuvmPresent)
        else
          match ← kalloc with
          | none => pure false
          | some mem =>
            copyPage mem (pteFrame pte)
            if ← mappages d i pgSize (frameAddr mem) (pteFlags pte) then
              copyLoop L pgdir d sz n (i + pgSize)
            else
              kfree L mem
              pure false
    else pure true

def copyuvm (L : Layout) (pgdir : Frame) (sz : Addr) : K (Option Frame) := do
  match ← setupkvm L with
  | none => pure none
  | some d =>
    if ← copyLoop L pgdir d sz (rounds + 1) pgSize then pure (some d)
    else
      freevm L d
      pure none

/-- `uva2ka`: the frame of a user page.  A null pointer from `walkpgdir` is not tested. -/
def uva2ka (pgdir : Frame) (uva : Addr) : K (Option Frame) := do
  match ← walkpgdir pgdir uva false with
  | none => Prog.stop .nullPointer
  | some (pgtab, i) =>
    let pte ← getWord pgtab i
    if ¬ Has pteP pte then pure none
    else if ¬ Has pteU pte then pure none
    else pure (some (pteFrame pte))

end Xv6.Vm
