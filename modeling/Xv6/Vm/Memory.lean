import Xv6.Lib.Prog
import Xv6.Lib.Words
import Mathlib.Logic.Function.Basic
import Mathlib.Tactic.IntervalCases

/-!
# Physical memory and the page allocator

`memlayout.h`, `mmu.h` and `kalloc.c`.  A page of physical memory is named by its frame, the
upper 20 bits of its physical address; the kernel pointer to it is `P2V` of that address.

* `Mem` is the contents of all frames and `kmem.freelist`.  Two history variables go with it:
  `loaded` has the page table entries through which `loaduvm` has stored bytes of a file, and
  `refreed` the pages that were passed to `kfree` while they were free.
* `K` is the type of kernel code over it.  It can stop in a panic, at a null pointer or at an
  address that the page table in use does not map (`trap()` panics then, too).
-/

namespace Xv6.Vm

abbrev Addr := BitVec 32

abbrev Frame := BitVec 20

instance : LawfulBEq Frame := inferInstance

abbrev Page := Words.Page 1024

/-! ## `memlayout.h` and `mmu.h` -/

def pgSize : Addr := 4096

def extMem : Addr := 0x100000

def physTop : Addr := 0xE000000

def devSpace : Addr := 0xFE000000

def kernBase : Addr := 0x80000000

def kernLink : Addr := kernBase + extMem

def pdx (va : Addr) : Addr := (va >>> 22) &&& 0x3FF

def ptx (va : Addr) : Addr := (va >>> 12) &&& 0x3FF

def pgAddr (d t o : Addr) : Addr := d <<< 22 ||| t <<< 12 ||| o

def pgRoundUp (sz : Addr) : Addr := (sz + pgSize - 1) &&& ~~~(pgSize - 1)

def pgRoundDown (a : Addr) : Addr := a &&& ~~~(pgSize - 1)

def pteP : Addr := 1

def pteW : Addr := 2

def pteU : Addr := 4

def frameAddr (f : Frame) : Addr := f.setWidth 32 <<< 12

/-- The frame a page table entry refers to: `PTE_ADDR` without its zero bits. -/
def pteFrame (pte : Addr) : Frame := pte.extractLsb' 12 20

def pteFlags (pte : Addr) : Addr := pte &&& 0xFFF

def Has (flag pte : Addr) : Prop := pte &&& flag ≠ 0

instance (flag pte : Addr) : Decidable (Has flag pte) := inferInstanceAs (Decidable (_ ≠ _))

/-! ### Addresses as numbers -/

theorem and_mask_toNat {mask : Addr} {k : Nat}
    (bits : ∀ i, i < 32 → mask.getLsbD i = decide (k ≤ i)) (a : Addr) :
    (a &&& mask).toNat = a.toNat / 2 ^ k * 2 ^ k := by
  have shift : a &&& mask = a >>> k <<< k := by
    apply BitVec.eq_of_getLsbD_eq
    intro i lt
    simp only [BitVec.getLsbD_and, bits i lt, BitVec.getLsbD_shiftLeft, BitVec.getLsbD_ushiftRight]
    rcases Nat.lt_or_ge i k with low | high
    · simp [low, Nat.not_le.mpr low]
    · simp [high, lt, Nat.not_lt.mpr high]
  have le : a.toNat / 2 ^ k * 2 ^ k ≤ a.toNat := Nat.div_mul_le_self ..
  rw [shift, BitVec.toNat_shiftLeft, BitVec.toNat_ushiftRight, Nat.shiftRight_eq_div_pow,
    Nat.shiftLeft_eq, Nat.mod_eq_of_lt (by omega)]

theorem pgRoundDown_toNat (a : Addr) : (pgRoundDown a).toNat = a.toNat / 4096 * 4096 := by
  refine and_mask_toNat (k := 12) (fun i lt => ?_) a
  interval_cases i <;> rfl

theorem pgRoundUp_toNat {sz : Addr} (lt : sz.toNat + 4095 < 2 ^ 32) :
    (pgRoundUp sz).toNat = (sz.toNat + 4095) / 4096 * 4096 := by
  have sum : (sz + pgSize - 1).toNat = sz.toNat + 4095 := by
    simp only [pgSize]
    bv_omega
  have round : pgRoundUp sz = pgRoundDown (sz + pgSize - 1) := rfl
  rw [round, pgRoundDown_toNat, sum]

theorem and_3ff_toNat (x : Addr) : (x &&& 0x3FF).toNat = x.toNat % 1024 := by
  have mask : (0x3FF : Addr).toNat = 2 ^ 10 - 1 := rfl
  rw [BitVec.toNat_and, mask, Nat.and_two_pow_sub_one_eq_mod]

theorem pdx_toNat (va : Addr) : (pdx va).toNat = va.toNat / 4096 / 1024 := by
  rw [pdx, and_3ff_toNat, BitVec.toNat_ushiftRight, Nat.shiftRight_eq_div_pow]
  omega

theorem ptx_toNat (va : Addr) : (ptx va).toNat = va.toNat / 4096 % 1024 := by
  rw [ptx, and_3ff_toNat, BitVec.toNat_ushiftRight, Nat.shiftRight_eq_div_pow]

theorem frameAddr_toNat (f : Frame) : (frameAddr f).toNat = f.toNat * 4096 := by
  rw [frameAddr, BitVec.toNat_shiftLeft, BitVec.toNat_setWidth, Nat.shiftLeft_eq]
  omega

/-! ### Bits of an entry -/

theorem has_or (flag x y : Addr) : Has flag (x ||| y) ↔ Has flag x ∨ Has flag y := by
  have dist : (x ||| y) &&& flag = (x &&& flag) ||| (y &&& flag) := by
    ext i
    simp only [BitVec.getElem_and, BitVec.getElem_or]
    grind
  simp only [Has, dist, ne_eq, BitVec.ofNat_eq_ofNat, BitVec.or_eq_zero_iff]
  tauto

theorem has_and_not (flag other : Addr) (keep : ~~~other &&& flag = flag) (x : Addr) :
    Has flag (x &&& ~~~other) ↔ Has flag x := by
  rw [Has, Has, BitVec.and_assoc, keep]

theorem not_has_and_not (flag x : Addr) : ¬ Has flag (x &&& ~~~flag) := by
  have zero : ~~~flag &&& flag = 0 := by
    ext i
    simp
  rw [Has, BitVec.and_assoc, zero]
  simp

theorem not_has_zero (flag : Addr) : ¬ Has flag 0 := by
  simp [Has]

theorem pteFrame_or (x y : Addr) : pteFrame (x ||| y) = pteFrame x ||| pteFrame y :=
  BitVec.extractLsb'_or

theorem pteFrame_and (x y : Addr) : pteFrame (x &&& y) = pteFrame x &&& pteFrame y :=
  BitVec.extractLsb'_and

theorem pteFrame_clear (flag : Addr) (low : pteFrame (~~~flag) = BitVec.allOnes 20) (pte : Addr) :
    pteFrame (pte &&& ~~~flag) = pteFrame pte := by
  rw [pteFrame_and, low, BitVec.and_allOnes]

variable {flag : Addr}

theorem pteFrame_set (low : pteFrame flag = 0) (pte : Addr) :
    pteFrame (pte ||| flag) = pteFrame pte := by
  rw [pteFrame_or, low]
  simp

@[simp] theorem pteFrame_frameAddr (f : Frame) : pteFrame (frameAddr f) = f := by
  apply BitVec.eq_of_getLsbD_eq
  intro i lt
  have lt' : 12 + i < 32 := by omega
  simp [pteFrame, frameAddr, lt, lt']

theorem pteFrame_entry (f : Frame) {flags : Addr} (small : pteFrame flags = 0) :
    pteFrame (frameAddr f ||| flags ||| pteP) = f := by
  have one : pteFrame pteP = 0 := by decide
  rw [pteFrame_or, pteFrame_or, pteFrame_frameAddr, small, one]
  simp

theorem has_present (x : Addr) : Has pteP (x ||| pteP) := by
  rw [has_or]
  exact .inr (by decide)

theorem pteFrame_pteFlags (pte : Addr) : pteFrame (pteFlags pte) = 0 := by
  have zero : pteFrame 0xFFF = 0 := by decide
  rw [pteFlags, pteFrame_and, zero]
  simp

theorem has_pteFlags (low : 0xFFF &&& flag = flag) (pte : Addr) :
    Has flag (pteFlags pte) ↔ Has flag pte := by
  rw [Has, Has, pteFlags, BitVec.and_assoc, low]

theorem pteFlags_frameAddr (f : Frame) : pteFlags (frameAddr f) = 0 := by
  apply BitVec.eq_of_getLsbD_eq
  intro i lt
  have mask : (0xFFF : Addr).getLsbD i = decide (i < 12) := by
    interval_cases i <;> rfl
  rw [pteFlags, BitVec.getLsbD_and, mask]
  rcases Nat.lt_or_ge i 12 with small | large
  · simp [frameAddr, small]
  · simp [Nat.not_lt.mpr large]

theorem not_has_frameAddr (low : 0xFFF &&& flag = flag) (f : Frame) : ¬ Has flag (frameAddr f) := by
  have zero := pteFlags_frameAddr f
  rw [pteFlags] at zero
  rw [Has, ← low, ← BitVec.and_assoc, zero]
  simp

theorem pteFlags_or (x y : Addr) : pteFlags (x ||| y) = pteFlags x ||| pteFlags y := by
  ext i
  simp only [pteFlags, BitVec.getElem_and, BitVec.getElem_or]
  grind

theorem pteP_getLsbD {i : Nat} (lt : i < 32) : pteP.getLsbD i = decide (i = 0) := by
  interval_cases i <;> rfl

theorem getLsbD_of_present {pte : Addr} (present : Has pteP pte) : pte.getLsbD 0 = true := by
  by_contra off
  refine present (BitVec.eq_of_getLsbD_eq fun i lt => ?_)
  rw [BitVec.getLsbD_and, pteP_getLsbD lt]
  rcases Nat.eq_zero_or_pos i with rfl | pos
  · rw [Bool.eq_false_iff.mpr off]
    rfl
  · simp [Nat.ne_of_gt pos]

theorem pteFlags_entry (f : Frame) {pte : Addr} (present : Has pteP pte) :
    pteFlags (frameAddr f ||| pteFlags pte ||| pteP) = pteFlags pte := by
  have twice : pteFlags (pteFlags pte) = pteFlags pte := by
    rw [pteFlags, pteFlags, BitVec.and_assoc]
    rfl
  have one : pteFlags pteP = pteP := by decide
  rw [pteFlags_or, pteFlags_or, pteFlags_frameAddr, twice, one]
  refine BitVec.eq_of_getLsbD_eq fun i lt => ?_
  rw [BitVec.getLsbD_or, BitVec.getLsbD_or, pteP_getLsbD lt]
  rcases Nat.eq_zero_or_pos i with rfl | pos
  · have bit := getLsbD_of_present present
    simp [pteFlags, bit]
  · simp [Nat.ne_of_gt pos]

/-- Where the linker put the kernel: `data` is the first page of writable data, page-aligned
in `kernel.ld`, and `kend` is `end`, the first address after the kernel. -/
structure Layout where
  data : Addr
  kend : Addr
  aligned : pgRoundDown data = data
  text : kernLink < data
  data_lt : data < kernBase + physTop
  kend_ge : data ≤ kend

/-! ## Kernel code -/

inductive Panic
  | kfree
  | remap
  | loaduvmAligned
  | loaduvmExist
  | clearpteu
  | copyuvmExist
  | copyuvmPresent
  | physTopTooHigh
  | inituvmTooLarge
  | userinitMemory
  deriving DecidableEq, Repr

/-- Why the kernel stops.  `hang` is a loop that never ends. -/
inductive Stop
  | panic (msg : Panic)
  | nullPointer
  | fault (va : Addr)
  | hang
  deriving DecidableEq, Repr

structure Mem where
  page : Frame → Page
  free : List Frame
  loaded : List Addr
  refreed : List Frame

abbrev K := Prog Stop Mem

def getWord (f : Frame) (i : Nat) : K Addr := fun m => .ok ((m.page f).word i, m)

def Mem.setPage (m : Mem) (f : Frame) (p : Page) : Mem :=
  { m with page := Function.update m.page f p }

@[simp] theorem Mem.setPage_self (m : Mem) (f : Frame) (p : Page) : (m.setPage f p).page f = p :=
  Function.update_self _ _ _

theorem Mem.setPage_ne (m : Mem) {f x : Frame} (ne : x ≠ f) (p : Page) :
    (m.setPage f p).page x = m.page x :=
  Function.update_of_ne ne _ _

def setWord (f : Frame) (i : Nat) (w : Addr) : K Unit :=
  fun m => .ok ((), m.setPage f ((m.page f).setWord i w))

def zeroPage (f : Frame) : K Unit := fun m => .ok ((), m.setPage f fun _ => 0)

def writeBytes (p : Page) (off : Nat) (bytes : List (BitVec 8)) : Page := fun a =>
  if off ≤ a.val then bytes.getD (a.val - off) (p a) else p a

/-! ## `kalloc.c` -/

/-- `kalloc`: the first page of the free list. -/
def kalloc : K (Option Frame) := fun m =>
  match m.free with
  | [] => .ok (none, m)
  | f :: rest => .ok (some f, { m with free := rest })

/-- Frame `f` at the head of the free list: filled with junk, its first word links the list. -/
def Mem.freed (m : Mem) (f : Frame) : Mem :=
  let next := match m.free with
    | [] => 0
    | g :: _ => frameAddr g + kernBase
  { m.setPage f (Words.Page.setWord (fun _ => 1) 0 next) with
    free := f :: m.free
    refreed := if f ∈ m.free then f :: m.refreed else m.refreed }

@[simp] theorem Mem.freed_free (m : Mem) (f : Frame) : (m.freed f).free = f :: m.free := rfl

theorem Mem.freed_refreed {m : Mem} {f : Frame} (taken : f ∉ m.free) :
    (m.freed f).refreed = m.refreed := if_neg taken

theorem Mem.freed_page (m : Mem) {f x : Frame} (ne : x ≠ f) : (m.freed f).page x = m.page x :=
  m.setPage_ne ne _

def kfree (L : Layout) (f : Frame) : K Unit := fun m =>
  if frameAddr f + kernBase < L.kend ∨ frameAddr f ≥ physTop then .error (.panic .kfree)
  else .ok ((), m.freed f)

end Xv6.Vm
