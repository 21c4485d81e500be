import Mathlib.Data.Bool.Basic
import Mathlib.Tactic.Common

/-!
# Little-endian words in a byte array

A `Page k` is the bytes of `k` 32-bit words, as an x86 stores them.  `get` and `set`
are the loads and stores of one aligned word; `word` and `setWord` take any number as the
index and miss the page when it is out of range.  Everything above this module uses them
through `word_setWord` and `word_zero`.

`bit` and `setBit` address the page as a bit map, `slice` and `write` copy bytes out of it and into
it.
-/

namespace Words

abbrev Page (k : Nat) := Fin (4 * k) → BitVec 8

variable {k : Nat}

def Page.byte (p : Page k) (i : Fin k) (j : Fin 4) : BitVec 8 := p ⟨4 * i + j, by omega⟩

def Page.get (p : Page k) (i : Fin k) : BitVec 32 :=
  p.byte i 3 ++ p.byte i 2 ++ p.byte i 1 ++ p.byte i 0

def Page.set (p : Page k) (i : Fin k) (w : BitVec 32) : Page k := fun a =>
  if a.val / 4 = i then w.extractLsb' (8 * (a.val % 4)) 8 else p a

theorem Page.byte_set_self (p : Page k) (i : Fin k) (w : BitVec 32) (j : Fin 4) :
    (p.set i w).byte i j = w.extractLsb' (8 * j) 8 := by
  have quot : (4 * i.val + j.val) / 4 = i := by omega
  have rem : (4 * i.val + j.val) % 4 = j := by omega
  simp only [Page.byte, Page.set, quot, rem, if_true]

theorem Page.byte_set_ne (p : Page k) {i i' : Fin k} (ne : i' ≠ i) (w : BitVec 32) (j : Fin 4) :
    (p.set i w).byte i' j = p.byte i' j := by
  have quot : (4 * i'.val + j.val) / 4 ≠ i := by
    have := Fin.val_ne_of_ne ne
    omega
  simp only [Page.byte, Page.set, quot, if_false]

theorem append_extract (w : BitVec 32) :
    (w.extractLsb' 24 8 ++ w.extractLsb' 16 8 ++ w.extractLsb' 8 8 ++ w.extractLsb' 0 8 :
      BitVec 32) = w := by
  apply BitVec.eq_of_getLsbD_eq
  intro i lt
  simp only [BitVec.getLsbD_append, BitVec.getLsbD_extractLsb']
  grind

@[simp] theorem Page.get_set_self (p : Page k) (i : Fin k) (w : BitVec 32) :
    (p.set i w).get i = w := by
  simp only [Page.get, Page.byte_set_self]
  exact append_extract w

theorem Page.get_set_ne (p : Page k) {i i' : Fin k} (ne : i' ≠ i) (w : BitVec 32) :
    (p.set i w).get i' = p.get i' := by
  simp only [Page.get, Page.byte_set_ne p ne]

@[simp] theorem Page.get_zero (i : Fin k) : Page.get (fun _ => 0 : Page k) i = 0 := by
  simp only [Page.get, Page.byte]
  rfl

/-- Load word `i`; there is none past the end of the page. -/
def Page.word (p : Page k) (i : Nat) : BitVec 32 := if h : i < k then p.get ⟨i, h⟩ else 0

def Page.setWord (p : Page k) (i : Nat) (w : BitVec 32) : Page k :=
  if h : i < k then p.set ⟨i, h⟩ w else p

theorem Page.word_setWord (p : Page k) {i : Nat} (lt : i < k) (w : BitVec 32) (j : Nat) :
    (p.setWord i w).word j = if j = i then w else p.word j := by
  simp only [Page.word, Page.setWord, dif_pos lt]
  by_cases eq : j = i
  · subst eq
    simp [lt]
  · by_cases lt' : j < k
    · have ne : (⟨j, lt'⟩ : Fin k) ≠ ⟨i, lt⟩ := fun h => eq (Fin.mk.inj h)
      simp [lt', eq, Page.get_set_ne p ne]
    · simp [lt', eq]

@[simp] theorem Page.word_zero (i : Nat) : Page.word (fun _ => 0 : Page k) i = 0 := by
  unfold Page.word
  split
  · exact Page.get_zero _
  · rfl

/-! ## Bits -/

/-- Bit `i` of the page: bit `i % 8` of byte `i / 8`. -/
def Page.bit (p : Page k) (i : Nat) : Bool :=
  if h : i / 8 < 4 * k then (p ⟨i / 8, h⟩ &&& 1#8 <<< (i % 8)) ≠ 0 else false

def Page.setBit (p : Page k) (i : Nat) (v : Bool) : Page k := fun a =>
  if a.val = i / 8 then
    if v then p a ||| 1#8 <<< (i % 8) else p a &&& ~~~(1#8 <<< (i % 8))
  else p a

theorem and_bit_ne_zero (b : BitVec 8) {i : Nat} (lt : i < 8) :
    (b &&& 1#8 <<< i) ≠ 0 ↔ b.getLsbD i = true := by
  constructor
  · intro ne
    by_contra clear
    refine ne (BitVec.eq_of_getLsbD_eq fun j lt' => ?_)
    by_cases eq : j = i
    · subst eq
      simp [clear]
    · have : (1#8 <<< i).getLsbD j = false := by
        simp only [BitVec.getLsbD_shiftLeft, BitVec.getLsbD_one]
        grind
      simp [this]
  · intro set zero
    have := congrArg (fun v => BitVec.getLsbD v i) zero
    rw [BitVec.getLsbD_eq_getElem lt] at set
    simp [set, lt] at this

theorem getLsbD_mask (b : BitVec 8) (v : Bool) {i j : Nat} (lt : j < 8) :
    (if v then b ||| 1#8 <<< i else b &&& ~~~(1#8 <<< i)).getLsbD j =
      if j = i then v else b.getLsbD j := by
  cases v with
  | false =>
    simp only [Bool.false_eq_true, if_false, BitVec.getLsbD_and, BitVec.getLsbD_not,
      BitVec.getLsbD_shiftLeft, BitVec.getLsbD_one]
    grind
  | true =>
    simp only [if_true, BitVec.getLsbD_or, BitVec.getLsbD_shiftLeft, BitVec.getLsbD_one]
    grind

theorem Page.bit_eq (p : Page k) {i : Nat} (lt : i / 8 < 4 * k) :
    p.bit i = (p ⟨i / 8, lt⟩).getLsbD (i % 8) := by
  have := and_bit_ne_zero (p ⟨i / 8, lt⟩) (Nat.mod_lt i (by decide : 0 < 8))
  rw [Page.bit, dif_pos lt, Bool.eq_iff_iff, decide_eq_true_iff]
  exact this

theorem Page.bit_setBit (p : Page k) {i : Nat} (lt : i < 8 * (4 * k)) (v : Bool) (j : Nat) :
    (p.setBit i v).bit j = if j = i then v else p.bit j := by
  by_cases lt' : j / 8 < 4 * k
  · rw [Page.bit_eq _ lt', Page.bit_eq _ lt']
    unfold Page.setBit
    dsimp only
    by_cases byte : j / 8 = i / 8
    · rw [if_pos byte, getLsbD_mask _ _ (Nat.mod_lt j (by decide))]
      have : j % 8 = i % 8 ↔ j = i := by omega
      simp only [this]
    · rw [if_neg byte, if_neg (by omega)]
  · have ne : j ≠ i := by omega
    rw [if_neg ne, Page.bit, Page.bit, dif_neg lt', dif_neg lt']

/-! ## Bytes -/

/-- Byte `i`; there is none past the end of the page. -/
def Page.at (p : Page k) (i : Nat) : BitVec 8 := if h : i < 4 * k then p ⟨i, h⟩ else 0

def Page.slice (p : Page k) (off n : Nat) : List (BitVec 8) :=
  (List.range n).map fun i => p.at (off + i)

def Page.write (p : Page k) (off : Nat) (src : List (BitVec 8)) : Page k := fun a =>
  if off ≤ a.val then src.getD (a.val - off) (p a) else p a

theorem Page.at_write (p : Page k) {off : Nat} {src : List (BitVec 8)}
    (fits : off + src.length ≤ 4 * k) (i : Nat) :
    (p.write off src).at i =
      if off ≤ i ∧ i < off + src.length then src.getD (i - off) 0 else p.at i := by
  unfold Page.at Page.write
  by_cases lt : i < 4 * k
  · rw [dif_pos lt, dif_pos lt]
    dsimp only
    by_cases from_off : off ≤ i
    · by_cases inside : i < off + src.length
      · have : i - off < src.length := by omega
        simp [from_off, inside, this]
      · have : src.length ≤ i - off := by omega
        simp [from_off, inside, this]
    · simp [from_off]
  · rw [dif_neg lt, dif_neg lt, if_neg (by omega)]

end Words
