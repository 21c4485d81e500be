import Xv6.Sh.Parser

/-!
# The matcher of `grep`

`match`, `matchhere` and `matchstar` of `grep.c`.  A C string is the list of its characters: the
end of the list is the NUL.  The three functions recurse on the pattern, and on the text while the
pattern stays, so they come to an end on all arguments.

`Denotes` is what a pattern means: a sequence of items, each of which reads a part of the text and
may look at what follows it.  `matchText_iff` says that the code searches for just that.
-/

namespace Xv6.Grep

open Sh (Byte chr)

mutual

def matchhere : List Byte → List Byte → Bool
  | [], _ => true
  | c :: re, text =>
    if re.head? = some (chr '*') then matchstar c re.tail text
    else if c = chr '$' ∧ re = [] then text.isEmpty
    else (text.head?.any fun t => c == chr '.' || c == t) && matchhere re text.tail
termination_by re text => (re.length, 0, text.length)

def matchstar (c : Byte) (re : List Byte) : List Byte → Bool
  | [] => matchhere re []
  | t :: text => matchhere re (t :: text) || ((t == c || c == chr '.') && matchstar c re text)
termination_by text => (re.length, 1, text.length)

end

/-- The loop of `match`, which looks at the empty string too. -/
def search (re : List Byte) : List Byte → Bool
  | [] => matchhere re []
  | t :: text => matchhere re (t :: text) || search re text

def matchText (re text : List Byte) : Bool :=
  if re.head? = some (chr '^') then matchhere re.tail text else search re text

inductive Item
  | star (c : Byte)
  | eot
  | any
  | lit (c : Byte)

def Item.one (c : Byte) : Item := if c = chr '.' then .any else .lit c

def items : List Byte → List Item
  | [] => []
  | [c] => [if c = chr '$' then .eot else .one c]
  | c :: d :: re => if d = chr '*' then .star c :: items re else .one c :: items (d :: re)

/-- The item reads `w` when `rest` follows. -/
def Item.Reads (w rest : List Byte) : Item → Prop
  | .star c => ∀ x ∈ w, c = chr '.' ∨ x = c
  | .eot => w = [] ∧ rest = []
  | .any => ∃ x, w = [x]
  | .lit c => w = [c]

/-- The items read `w`, one after the other, when `rest` follows. -/
def Denotes (rest : List Byte) : List Item → List Byte → Prop
  | [], w => w = []
  | i :: is, w => ∃ u v, w = u ++ v ∧ i.Reads u (v ++ rest) ∧ Denotes rest is v

/-- Some part of the text is in the language of the pattern, a part at its beginning if the pattern
begins with `^`. -/
def Matches (re text : List Byte) : Prop :=
  if re.head? = some (chr '^') then ∃ w rest, text = w ++ rest ∧ Denotes rest (items re.tail) w
  else ∃ before w rest, text = before ++ (w ++ rest) ∧ Denotes rest (items re) w

/-- The shortest-first loop finds every way to begin the text with characters of the star. -/
theorem matchstar_iff {c : Byte} {re text : List Byte} : matchstar c re text = true ↔
    ∃ u v, text = u ++ v ∧ (∀ x ∈ u, c = chr '.' ∨ x = c) ∧ matchhere re v = true := by
  induction text with
  | nil =>
    rw [matchstar]
    constructor
    · exact fun here => ⟨[], [], rfl, by simp, here⟩
    · rintro ⟨u, v, eq, -, here⟩
      obtain ⟨rfl, rfl⟩ := List.append_eq_nil_iff.mp eq.symm
      exact here
  | cons t text ih =>
    rw [matchstar, Bool.or_eq_true, Bool.and_eq_true, ih]
    constructor
    · rintro (here | ⟨reads, u, v, rfl, all, here⟩)
      · exact ⟨[], t :: text, rfl, by simp, here⟩
      · refine ⟨t :: u, v, rfl, ?_, here⟩
        simp only [List.mem_cons, forall_eq_or_imp]
        exact ⟨by simpa [or_comm] using reads, all⟩
    · rintro ⟨u, v, eq, all, here⟩
      cases u with
      | nil => exact .inl (by rwa [eq])
      | cons x u =>
        obtain ⟨rfl, rfl⟩ := List.cons.inj eq
        simp only [List.mem_cons, forall_eq_or_imp] at all
        exact .inr ⟨by simpa [or_comm] using all.1, u, v, rfl, all.2, here⟩

theorem denotes_one {c : Byte} {is : List Item} {text : List Byte} :
    (∃ w rest, text = w ++ rest ∧ Denotes rest (.one c :: is) w) ↔
      ∃ t tail, text = t :: tail ∧ (c = chr '.' ∨ c = t) ∧
        ∃ w rest, tail = w ++ rest ∧ Denotes rest is w := by
  have reads : ∀ {u rest}, (Item.one c).Reads u rest ↔ ∃ t, u = [t] ∧ (c = chr '.' ∨ c = t) := by
    intro u rest
    rw [Item.one]
    split
    · rename_i any
      simp [Item.Reads, any]
    · rename_i lit
      simp [Item.Reads, lit]
  simp only [Denotes, reads]
  constructor
  · rintro ⟨w, rest, rfl, u, v, rfl, ⟨t, rfl, fits⟩, more⟩
    exact ⟨t, v ++ rest, rfl, fits, v, rest, rfl, more⟩
  · rintro ⟨t, tail, rfl, fits, v, rest, rfl, more⟩
    exact ⟨t :: v, rest, rfl, [t], v, rfl, ⟨t, rfl, fits⟩, more⟩

theorem matchhere_one {c : Byte} {re text : List Byte} (plain : re.head? ≠ some (chr '*'))
    (not : ¬ (c = chr '$' ∧ re = [])) : matchhere (c :: re) text = true ↔
      ∃ t tail, text = t :: tail ∧ (c = chr '.' ∨ c = t) ∧ matchhere re tail = true := by
  rw [matchhere, if_neg plain, if_neg not]
  cases text with
  | nil => simp
  | cons t text => simp

theorem matchhere_iff {re text : List Byte} : matchhere re text = true ↔
    ∃ w rest, text = w ++ rest ∧ Denotes rest (items re) w := by
  induction re using items.induct generalizing text with
  | case1 => simp [matchhere, items, Denotes]
  | case2 c =>
    by_cases eot : c = chr '$'
    · simp [matchhere, items, Denotes, Item.Reads, eot]
    · rw [matchhere_one (by simp) (by simp [eot]), items, if_neg eot, denotes_one]
      simp [matchhere, Denotes]
  | case3 c re ih =>
    rw [matchhere, if_pos List.head?_cons, List.tail_cons, matchstar_iff, items, if_pos rfl]
    simp only [ih, Denotes, Item.Reads]
    constructor
    · rintro ⟨u, _, rfl, all, v, rest, rfl, more⟩
      exact ⟨u ++ v, rest, by simp, u, v, rfl, all, more⟩
    · rintro ⟨_, rest, rfl, u, v, rfl, all, more⟩
      exact ⟨u, v ++ rest, by simp, all, v, rest, rfl, more⟩
  | case4 c d re plain ih =>
    rw [matchhere_one (by simpa using plain) (by simp), items, if_neg plain, denotes_one]
    simp only [ih]

theorem search_iff {re text : List Byte} : search re text = true ↔
    ∃ before after, text = before ++ after ∧ matchhere re after = true := by
  induction text with
  | nil => simp [search]
  | cons t text ih =>
    rw [search, Bool.or_eq_true, ih]
    constructor
    · rintro (here | ⟨before, after, rfl, here⟩)
      · exact ⟨[], _, rfl, here⟩
      · exact ⟨t :: before, after, rfl, here⟩
    · rintro ⟨before, after, eq, here⟩
      cases before with
      | nil => exact .inl (by rwa [eq])
      | cons x before =>
        obtain ⟨rfl, rfl⟩ := List.cons.inj eq
        exact .inr ⟨before, after, rfl, here⟩

/-- The matcher accepts a text exactly if the pattern means some part of it. -/
theorem matchText_iff (re text : List Byte) : matchText re text = true ↔ Matches re text := by
  unfold matchText Matches
  split
  · exact matchhere_iff
  · simp only [search_iff, matchhere_iff]
    constructor
    · rintro ⟨before, _, rfl, w, rest, rfl, denotes⟩
      exact ⟨before, w, rest, rfl, denotes⟩
    · rintro ⟨before, w, rest, rfl, denotes⟩
      exact ⟨before, _, rfl, w, rest, rfl, denotes⟩

end Xv6.Grep
