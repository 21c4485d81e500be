import Mathlib.Algebra.Group.Nat.Defs
import Xv6.Lib.Lts
import Mathlib.Logic.Function.Iterate

/-!
# The user allocator

`free`, `morecore` and `malloc` of `umalloc.c`.  The memory is seen as headers: `ptr a` and `size a`
are the fields of the header at the address `a`.  Addresses and sizes are 32-bit words.

The replies of `sbrk` are given as a list; a search that asks for more replies than there are has
no result, and neither has a loop of more than `rounds` rounds.

The program that uses the allocator may store anything, except where a block that is free or its
own has its header (`write`).  `live` and `regions` are history: the headers of the blocks it has,
and what `sbrk` returned, as start and length; `top` is where the last of that ends.
-/

namespace Xv6.Umalloc

structure Heap where
  ptr : Nat → Nat
  size : Nat → Nat
  freep : Nat

def word (n : Nat) : Nat := n % 2 ^ 32

abbrev sizeofHeader : Nat := 8

/-- `p + n` for a pointer to a header. -/
def plus (p n : Nat) : Nat := word (p + sizeofHeader * n)

/-- `(Header*)ap - 1`. -/
def headerOf (ap : Nat) : Nat := word (ap + (2 ^ 32 - sizeofHeader))

def rounds : Nat := 2 ^ 32

namespace Heap

def setPtr (h : Heap) (a v : Nat) : Heap := { h with ptr := Function.update h.ptr a v }

def setSize (h : Heap) (a v : Nat) : Heap := { h with size := Function.update h.size a v }

/-- The loop of `free` ends at `p`: its condition fails, or it breaks. -/
def stops (h : Heap) (bp p : Nat) : Prop :=
  bp > p ∧ bp < h.ptr p ∨ p ≥ h.ptr p ∧ (bp > p ∨ bp < h.ptr p)

instance (h : Heap) (bp p : Nat) : Decidable (h.stops bp p) := inferInstanceAs (Decidable (_ ∨ _))

def freeLoop (h : Heap) (bp : Nat) : Nat → Nat → Option Nat
  | 0, _ => none
  | n + 1, p => if h.stops bp p then some p else h.freeLoop bp n (h.ptr p)

/-- The first half of `free` after its loop: join to upper nbr. -/
def joinUpper (h : Heap) (bp p : Nat) : Heap :=
  if plus bp (h.size bp) = h.ptr p then
    let h := h.setSize bp (word (h.size bp + h.size (h.ptr p)))
    h.setPtr bp (h.ptr (h.ptr p))
  else h.setPtr bp (h.ptr p)

/-- The second half: join to lower nbr. -/
def joinLower (h : Heap) (bp p : Nat) : Heap :=
  if plus p (h.size p) = bp then
    let h := h.setSize p (word (h.size p + h.size bp))
    h.setPtr p (h.ptr bp)
  else h.setPtr p bp

def insert (h : Heap) (bp p : Nat) : Heap := { (h.joinUpper bp p).joinLower bp p with freep := p }

def free (h : Heap) (ap : Nat) : Option Heap :=
  (h.freeLoop (headerOf ap) rounds h.freep).map (h.insert (headerOf ap))

/-- The number of units that `morecore` asks `sbrk` for. -/
def coreUnits (nu : Nat) : Nat := if nu < 4096 then 4096 else nu

def morecore (h : Heap) (reply : Option Nat) (nu : Nat) : Option (Nat × Heap) :=
  match reply with
  | none => some (0, h)
  | some hp => ((h.setSize hp (coreUnits nu)).free (plus hp 1)).map fun h => (h.freep, h)

def take (h : Heap) (nunits prevp p : Nat) : Nat × Heap :=
  if h.size p = nunits then (plus p 1, { h.setPtr prevp (h.ptr p) with freep := prevp })
  else
    let h := h.setSize p (h.size p - nunits)
    let p := plus p (h.size p)
    (plus p 1, { h.setSize p nunits with freep := prevp })

/-- The loop of `malloc`.  It returns the replies of `sbrk` that were not used. -/
def search (nunits : Nat) : Nat → List (Option Nat) → Nat → Nat → Heap →
    Option (Nat × Heap × List (Option Nat))
  | 0, _, _, _, _ => none
  | n + 1, replies, prevp, p, h =>
    if h.size p ≥ nunits then
      let (ap, h) := h.take nunits prevp p
      some (ap, h, replies)
    else if p = h.freep then
      match replies with
      | [] => none
      | reply :: replies =>
        match h.morecore reply nunits with
        | none => none
        | some (0, h) => some (0, h, replies)
        | some (p, h) => search nunits n replies p (h.ptr p) h
    else search nunits n replies p (h.ptr p) h

theorem search_succ (nunits n : Nat) (replies : List (Option Nat)) (prevp p : Nat) (h : Heap) :
    search nunits (n + 1) replies prevp p h =
      if h.size p ≥ nunits then
        some ((h.take nunits prevp p).1, (h.take nunits prevp p).2, replies)
      else if p = h.freep then
        match replies with
        | [] => none
        | reply :: replies =>
          match h.morecore reply nunits with
          | none => none
          | some (0, h) => some (0, h, replies)
          | some (p, h) => search nunits n replies p (h.ptr p) h
      else search nunits n replies p (h.ptr p) h := rfl

theorem search_more {nunits n prevp f : Nat} {reply : Option Nat} {replies : List (Option Nat)}
    {h h' : Heap} (small : h.size h.freep < nunits) (more : h.morecore reply nunits = some (f, h'))
    (ne : f ≠ 0) : search nunits (n + 1) (reply :: replies) prevp h.freep h =
      search nunits n replies f (h'.ptr f) h' := by
  obtain ⟨f, rfl⟩ : ∃ k, f = k + 1 := Nat.exists_eq_succ_of_ne_zero ne
  rw [search_succ, if_neg (Nat.not_le.mpr small), if_pos rfl]
  simp only [more]

def units (nbytes : Nat) : Nat := word (nbytes + sizeofHeader - 1) / sizeofHeader + 1

/-- The first part of `malloc`; `base` is the address of the variable of that name. -/
def start (base : Nat) (h : Heap) : Heap :=
  if h.freep = 0 then { (h.setPtr base base).setSize base 0 with freep := base } else h

def malloc (base : Nat) (replies : List (Option Nat)) (nbytes : Nat) (h : Heap) :
    Option (Nat × Heap × List (Option Nat)) :=
  let h := h.start base
  search (units nbytes) (2 * rounds) replies h.freep (h.ptr h.freep) h

end Heap

structure State where
  heap : Heap
  live : List Nat
  regions : List (Nat × Nat)
  top : Nat

/-- The block with the header at `a`: its start and its length. -/
def Heap.block (h : Heap) (a : Nat) : Nat × Nat := (a, sizeofHeader * h.size a)

def State.grow (s : State) (hp n : Nat) : State :=
  { s with regions := (hp, n) :: s.regions, top := hp + n }

def State.allocated (s : State) (reply : Option Nat) (nbytes : Nat)
    (result : Nat × Heap × List (Option Nat)) : State :=
  let s' := match result.2.2, reply with
    | [], some hp => s.grow hp (sizeofHeader * Heap.coreUnits (Heap.units nbytes))
    | _, _ => s
  { s' with
    heap := result.2.1
    live := if result.1 = 0 then s.live else headerOf result.1 :: s.live }

/-- The header at `a` is that of a block of the program, or in the free list. -/
def State.Header (s : State) (a : Nat) : Prop :=
  a ∈ s.live ∨ ∃ k, Nat.iterate s.heap.ptr k s.heap.freep = a

/-- The replies of `sbrk` for so many units: it fails, or returns memory above all it returned
before. -/
def State.Fresh (s : State) (nu : Nat) (reply : Option Nat) : Prop :=
  ∀ hp ∈ reply, s.top ≤ hp ∧ hp + sizeofHeader * Heap.coreUnits nu < 2 ^ 32

instance (s : State) (nu : Nat) (reply : Option Nat) : Decidable (s.Fresh nu reply) :=
  inferInstanceAs (Decidable (∀ _ ∈ reply, _))

inductive Label
  | malloc (nbytes : Nat) (reply : Option Nat)
  | free (ap : Nat)
  | write (ptr size : Nat → Nat)

/-- A call of `malloc` or `free`, or the program's own stores. -/
inductive Step (base : Nat) (s : State) : Label → State → Prop
  | malloc {nbytes : Nat} {reply : Option Nat} {result : Nat × Heap × List (Option Nat)} :
      nbytes < 2 ^ 32 → sizeofHeader * Heap.units nbytes < 2 ^ 31 →
        s.Fresh (Heap.units nbytes) reply →
      s.heap.malloc base [reply] nbytes = some result →
      Step base s (.malloc nbytes reply) (s.allocated reply nbytes result)
  | free {a : Nat} {heap : Heap} :
      a ∈ s.live → s.heap.free (plus a 1) = some heap →
      Step base s (.free (plus a 1)) { s with heap := heap, live := s.live.erase a }
  | write {ptr size : Nat → Nat} :
      (∀ a, s.Header a → ptr a = s.heap.ptr a ∧ size a = s.heap.size a) →
      Step base s (.write ptr size) { s with heap := ⟨ptr, size, s.heap.freep⟩ }

/-- Before the first call; the program's variables, with `base` among them, are below the memory
that `sbrk` returns. -/
structure Initial (base : Nat) (s : State) : Prop where
  freep : s.heap.freep = 0
  live : s.live = []
  regions : s.regions = []
  base_pos : 0 < base
  base_le : base + sizeofHeader ≤ s.top
  top_lt : s.top < 2 ^ 32

def system (base : Nat) : Lts State Label := ⟨Initial base, Step base⟩

end Xv6.Umalloc
