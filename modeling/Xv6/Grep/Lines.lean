import Xv6.Grep.Match
import Mathlib.Algebra.GroupWithZero.Nat

/-!
# The lines that `grep` writes

The loop of `grep` over the reads of its input.  `buf` carries the part of a line that a read left
unfinished over to the next one, but when a read brings no newline at all the code empties the
buffer (`if(p == buf) m = 0;`), and the line loses its beginning.  `survivors` is what is left of
the lines.
-/

namespace Xv6.Grep

open List

open Sh (Byte chr)

abbrev bufSize : Nat := 1024

def cstring (buf : List Byte) (p : Nat) : List Byte := (buf.drop p).takeWhile (· != 0#8)

def strchr (buf : List Byte) (p : Nat) (c : Byte) : Option Nat :=
  ((cstring buf p).findIdx? (· == c)).map (p + ·)

/-- `while(n-- > 0) *dst++ = *src++;`, the loop of `memmove` in `ulib.c`. -/
def memmove (buf : List Byte) (dst src : Nat) : Nat → List Byte
  | 0 => buf
  | n + 1 => memmove (buf.set dst (buf.getD src 0#8)) (dst + 1) (src + 1) n

variable {buf : List Byte}

theorem strchr_lt {p q : Nat} {c : Byte} (at_q : strchr buf p c = some q) :
    p ≤ q ∧ q < buf.length := by
  obtain ⟨i, found, rfl⟩ := Option.map_eq_some_iff.mp at_q
  have lt := (findIdx?_eq_some_iff_getElem.mp found).1
  have := (takeWhile_sublist (l := buf.drop p) (· != 0#8)).length_le
  rw [length_drop] at this
  unfold cstring at lt
  omega

def lines (pattern buf : List Byte) (p : Nat) (out : List Byte) : List Byte × Nat × List Byte :=
  match at_q : strchr buf p (chr '\n') with
  | none => (buf, p, out)
  | some q =>
    let cut := buf.set q 0#8
    if matchText pattern (cstring cut p) then
      let whole := cut.set q (chr '\n')
      lines pattern whole (q + 1) (out ++ (whole.drop p).take (q + 1 - p))
    else lines pattern cut (q + 1) out
termination_by buf.length - p
decreasing_by
  all_goals
    have := strchr_lt at_q
    simp only [length_set]
    omega

structure State where
  buf : List Byte
  m : Nat
  out : List Byte

def finish (m : Nat) (buf : List Byte) (p : Nat) (out : List Byte) : State :=
  let m := if p = 0 then 0 else m
  if 0 < m then ⟨memmove buf 0 p (m - p), m - p, out⟩ else ⟨buf, m, out⟩

def round (pattern : List Byte) (s : State) (piece : List Byte) : State :=
  let m := s.m + piece.length
  let r := lines pattern ((s.buf.take s.m ++ piece ++ s.buf.drop m).set m 0#8) 0 s.out
  finish m r.1 r.2.1 r.2.2

def rounds (pattern : List Byte) : State → List (List Byte) → State
  | s, [] => s
  | s, piece :: rest => rounds pattern (round pattern s piece) rest

def start : State := ⟨replicate bufSize 0#8, 0, []⟩

/-- What `grep` writes when its reads bring `pieces`, one after the other. -/
def grep (pattern : List Byte) (pieces : List (List Byte)) : List Byte :=
  (rounds pattern start pieces).out

/-- Every read brings something, and not more than it was asked for: `sizeof(buf)-m-1`. -/
def Reads (pattern : List Byte) : State → List (List Byte) → Prop
  | _, [] => True
  | s, piece :: rest => piece ≠ [] ∧ piece.length ≤ bufSize - s.m - 1 ∧
      Reads pattern (round pattern s piece) rest

/-! ## The meaning -/

/-- The lines of a text that a newline ends, and what follows the last of them. -/
def split : List Byte → List (List Byte) × List Byte
  | [] => ([], [])
  | c :: cs =>
    let (ls, tail) := split cs
    if c = chr '\n' then ([] :: ls, tail)
    else if ls = [] then ([], c :: tail) else (ls.modifyHead (c :: ·), tail)

def unlines (ls : List (List Byte)) : List Byte := ls.flatMap (· ++ [chr '\n'])

/-- What is left of the lines when `carry` is in the buffer and the reads bring `pieces`. -/
def survivors : List Byte → List (List Byte) → List (List Byte)
  | _, [] => []
  | carry, piece :: rest =>
    let (ls, tail) := split (carry ++ piece)
    ls ++ survivors (if ls = [] then [] else tail) rest

variable {text : List Byte}

section Split

variable {l t : List Byte}

theorem split_plain (plain : chr '\n' ∉ l) : split l = ([], l) := by
  induction l with
  | nil => rfl
  | cons c cs ih =>
    rw [mem_cons, not_or] at plain
    simp [split, ih plain.2, Ne.symm plain.1]

theorem split_line (plain : chr '\n' ∉ l) :
    split (l ++ chr '\n' :: t) = (l :: (split t).1, (split t).2) := by
  induction l with
  | nil => simp [split]
  | cons c cs ih =>
    rw [mem_cons, not_or] at plain
    simp [split, ih plain.2, Ne.symm plain.1]

theorem by_lines {P : List Byte → Prop} (plain : ∀ l, chr '\n' ∉ l → P l)
    (line : ∀ l t, chr '\n' ∉ l → P t → P (l ++ chr '\n' :: t)) (text : List Byte) : P text := by
  by_cases newline : chr '\n' ∈ text
  · obtain ⟨l, t, eq, free⟩ := eq_append_cons_of_mem newline
    have shorter : t.length < text.length := by
      rw [eq, length_append, length_cons]
      omega
    exact eq ▸ line l t free (by_lines plain line t)
  · exact plain text newline
termination_by text.length

theorem split_tail (text : List Byte) : chr '\n' ∉ (split text).2 := by
  induction text using by_lines with
  | plain l plain => rwa [split_plain plain]
  | line l t plain ih => rwa [split_line plain]

theorem split_lines (text : List Byte) : ∀ l ∈ (split text).1, chr '\n' ∉ l := by
  induction text using by_lines with
  | plain l plain => simp [split_plain plain]
  | line l t plain ih => simpa [split_line plain, plain] using ih

theorem survivors_lines (carry : List Byte) (pieces : List (List Byte)) :
    ∀ l ∈ survivors carry pieces, chr '\n' ∉ l := by
  induction pieces generalizing carry with
  | nil => simp [survivors]
  | cons piece rest ih =>
    intro l member
    rcases mem_append.mp member with here | later
    · exact split_lines _ l here
    · exact ih _ l later

theorem split_eq_nil : (split text).1 = [] ↔ chr '\n' ∉ text := by
  induction text using by_lines with
  | plain l plain => simp [split_plain plain, plain]
  | line l t plain ih => simp [split_line plain]

theorem length_split : (split text).2.length ≤ text.length ∧
    (chr '\n' ∈ text → (split text).2.length < text.length) := by
  induction text using by_lines with
  | plain l plain => simp [split_plain plain, plain]
  | line l t plain ih =>
    simp only [split_line plain, length_append, length_cons]
    omega

theorem split_append (text more : List Byte) :
    split (text ++ more) = ((split text).1 ++ (split ((split text).2 ++ more)).1,
      (split ((split text).2 ++ more)).2) := by
  induction text using by_lines with
  | plain l plain => simp [split_plain plain]
  | line l t plain ih => simp [split_line plain, ih]

theorem split_unlines {ls : List (List Byte)} (plain : ∀ l ∈ ls, chr '\n' ∉ l) :
    split (unlines ls) = (ls, []) := by
  induction ls with
  | nil => rfl
  | cons l ls ih =>
    have first := split_line (t := unlines ls) (plain l mem_cons_self)
    rw [ih fun x member => plain x (mem_cons_of_mem _ member)] at first
    simpa [unlines] using first

end Split

variable {pieces : List (List Byte)} {carry : List Byte} {s : State}

section Code

variable {pattern : List Byte}

theorem cstring_append {pre body post : List Byte} (body_ok : 0#8 ∉ body) :
    cstring (pre ++ (body ++ 0#8 :: post)) pre.length = body := by
  rw [cstring, drop_left, takeWhile_append_of_pos fun c member => ?_]
  · simp
  · exact bne_iff_ne.mpr fun zero => body_ok (zero ▸ member)

variable {out : List Byte}

theorem lines_none {p : Nat} (none : strchr buf p (chr '\n') = none) :
    lines pattern buf p out = (buf, p, out) := by
  rw [lines]
  split <;> simp_all

theorem lines_some {p q : Nat} (some : strchr buf p (chr '\n') = some q) : lines pattern buf p out =
      if matchText pattern (cstring (buf.set q 0#8) p) then
        lines pattern ((buf.set q 0#8).set q (chr '\n')) (q + 1)
          (out ++ (((buf.set q 0#8).set q (chr '\n')).drop p).take (q + 1 - p))
      else lines pattern (buf.set q 0#8) (q + 1) out := by
  conv_lhs => rw [lines]
  split <;> simp_all

/-- The inner loop from `p` on, when `body` is the rest of the string. -/
theorem lines_eq (pattern pre post out : List Byte) {body : List Byte} (body_ok : 0#8 ∉ body) :
    ∃ pre', lines pattern (pre ++ (body ++ 0#8 :: post)) pre.length out =
        (pre' ++ ((split body).2 ++ 0#8 :: post), pre'.length,
          out ++ unlines ((split body).1.filter (matchText pattern))) ∧
      pre'.length + (split body).2.length = pre.length + body.length := by
  induction body using by_lines generalizing pre out with
  | plain l plain =>
    have none : strchr (pre ++ (l ++ 0#8 :: post)) pre.length (chr '\n') = none := by
      simp only [strchr, cstring_append body_ok, Option.map_eq_none_iff, findIdx?_eq_none_iff]
      exact fun c member => beq_eq_false_iff_ne.mpr fun eq => plain (eq ▸ member)
    refine ⟨pre, ?_, by rw [split_plain plain]⟩
    rw [lines_none none, split_plain plain]
    simp [unlines]
  | line l t plain ih =>
    have parts : 0#8 ∉ l ∧ 0#8 ∉ t := by
      simp only [mem_append, mem_cons] at body_ok
      tauto
    have here : strchr (pre ++ (l ++ chr '\n' :: t ++ 0#8 :: post)) pre.length (chr '\n') =
        some (pre.length + l.length) := by
      have first : l.findIdx? (· == chr '\n') = none := findIdx?_eq_none_iff.mpr
        fun c member => beq_eq_false_iff_ne.mpr fun eq => plain (eq ▸ member)
      rw [strchr, cstring_append body_ok, findIdx?_append, first]
      simp [findIdx?_cons]
    have shape : ∀ x c : Byte,
      (pre ++ (l ++ x :: (t ++ 0#8 :: post))).set (pre.length + l.length) c =
        pre ++ (l ++ c :: (t ++ 0#8 :: post)) := by simp
    have written : ((pre ++ (l ++ chr '\n' :: (t ++ 0#8 :: post))).drop pre.length).take
        (pre.length + l.length + 1 - pre.length) = l ++ [chr '\n'] := by
      rw [drop_left, show pre.length + l.length + 1 - pre.length = l.length + 1 by omega,
        take_length_add_append]
      rfl
    -- the rest of the string, whatever was left in the place of the newline
    have next : ∀ c out', ∃ pre', lines pattern (pre ++ (l ++ c :: (t ++ 0#8 :: post)))
        (pre.length + l.length + 1) out' = (pre' ++ ((split t).2 ++ 0#8 :: post), pre'.length,
          out' ++ unlines ((split t).1.filter (matchText pattern))) ∧
        pre'.length + (split t).2.length = pre.length + (l ++ chr '\n' :: t).length := by
      intro c out'
      obtain ⟨pre', eq, length⟩ := ih (pre ++ (l ++ [c])) out' parts.2
      refine ⟨pre', ?_, ?_⟩
      · simpa [Nat.add_assoc] using eq
      · simp only [length_append, length_cons, length_nil] at length ⊢
        omega
    rw [lines_some here, append_assoc, cons_append, shape, cstring_append parts.1, shape,
      written, split_line plain]
    split
    · rename_i yes
      rw [filter_cons_of_pos yes]
      simpa [unlines] using next (chr '\n') (out ++ (l ++ [chr '\n']))
    · rename_i no
      rw [filter_cons_of_neg no]
      exact next 0#8 out

/-- The loop copies down, so it reads each byte before it writes it. -/
theorem memmove_eq (buf : List Byte) (dst src n : Nat) (le : dst ≤ src)
    (fits : src + n ≤ buf.length) :
    memmove buf dst src n = buf.take dst ++ ((buf.drop src).take n ++ buf.drop (dst + n)) := by
  induction n generalizing buf dst src with
  | zero => simp [memmove]
  | succ n ih =>
    have src_lt : src < buf.length := by omega
    have dst_lt : dst < buf.length := by omega
    rw [memmove, ih _ _ _ (by omega) (by rw [length_set]; omega),
      drop_set_of_lt (by omega),
      drop_set_of_lt (by omega), take_succ_eq_append_getElem (by simpa using dst_lt),
      take_set_of_le (Nat.le_refl dst), getElem_set_self,
        drop_eq_getElem_cons src_lt,
      take_succ_cons, getD_eq_getElem?_getD, getElem?_eq_getElem src_lt]
    simp [Nat.add_right_comm, Nat.add_assoc]

/-- The buffer holds `carry`, the beginning of a line. -/
structure Carries (s : State) (carry : List Byte) : Prop where
  size : s.buf.length = bufSize
  m : s.m = carry.length
  holds : s.buf.take s.m = carry
  plain : chr '\n' ∉ carry
  text : 0#8 ∉ carry

theorem finish_out {m p : Nat} : (finish m buf p out).out = out := by
  unfold finish
  dsimp only
  split_ifs <;> rfl

theorem split_text (ok : 0#8 ∉ text) : 0#8 ∉ (split text).2 := by
  induction text using by_lines with
  | plain l plain => rwa [split_plain plain]
  | line l t plain ih =>
    rw [split_line plain]
    exact ih fun member => ok (mem_append_right _ (mem_cons_of_mem _ member))

theorem carries_finish {body pre post : List Byte} {m : Nat} (text : 0#8 ∉ body)
    (size : (pre ++ ((split body).2 ++ post)).length = bufSize) (whole : m = body.length)
    (length : pre.length + (split body).2.length = body.length) :
    Carries (finish m (pre ++ ((split body).2 ++ post)) pre.length out)
      (if (split body).1 = [] then [] else (split body).2) := by
  unfold finish
  by_cases newline : chr '\n' ∈ body
  · have moved := length_split.2 newline
    have copied := memmove_eq (pre ++ ((split body).2 ++ post)) 0 pre.length
      (split body).2.length (Nat.zero_le _) (by simp)
    rw [drop_left, take_left, take_zero, nil_append] at copied
    have some : (split body).1 ≠ [] := fun none => split_eq_nil.mp none newline
    have tail : m - pre.length = (split body).2.length := by omega
    rw [if_neg (show ¬ pre.length = 0 by omega), if_neg some]
    dsimp only
    rw [if_pos (by omega), tail, copied]
    refine ⟨?_, rfl, by simp, split_tail body, split_text text⟩
    simp only [length_append, length_drop] at size ⊢
    omega
  · have none : pre.length = 0 := by
      rw [split_plain newline] at length
      exact Nat.right_eq_add.mp length.symm
    rw [if_pos none, if_pos (split_eq_nil.mpr newline)]
    exact ⟨size, rfl, rfl, by simp, by simp⟩

theorem carries_start : Carries start [] := ⟨length_replicate, rfl, rfl, by simp, by simp⟩

theorem Carries.round (pattern : List Byte) {piece : List Byte} (carries : Carries s carry)
    (some : piece ≠ []) (fits : piece.length ≤ bufSize - s.m - 1) (text : 0#8 ∉ piece) :
    (round pattern s piece).out =
      s.out ++ unlines ((split (carry ++ piece)).1.filter (matchText pattern)) ∧
    Carries (round pattern s piece)
      (if (split (carry ++ piece)).1 = [] then [] else (split (carry ++ piece)).2) := by
  obtain ⟨size, m, holds, plain, carry_text⟩ := carries
  have nonempty := length_pos_iff.mpr some
  have body_ok : 0#8 ∉ carry ++ piece := by simp [carry_text, text]
  have lt : s.m + piece.length < s.buf.length := by omega
  have whole : s.m + piece.length = (carry ++ piece).length := by simp [m]
  have full : (s.buf.take s.m ++ piece ++ s.buf.drop (s.m + piece.length)).set
      (s.m + piece.length) 0#8 =
        [] ++ (carry ++ piece ++ 0#8 :: s.buf.drop (s.m + piece.length + 1)) := by
    rw [holds, drop_eq_getElem_cons lt, set_append_right _ _ (Nat.le_of_eq whole.symm)]
    simp only [whole, Nat.sub_self]
    rfl
  obtain ⟨pre, eq, length⟩ :=
    lines_eq pattern [] (s.buf.drop (s.m + piece.length + 1)) s.out body_ok
  simp only [Grep.round, full, length_nil] at eq ⊢
  rw [eq]
  rw [length_nil, Nat.zero_add] at length
  refine ⟨finish_out, carries_finish body_ok ?_ whole length⟩
  simp only [length_append, length_cons, length_drop] at length whole ⊢
  omega

theorem Carries.rounds (carries : Carries s carry) (reads : Reads pattern s pieces)
    (text : ∀ l ∈ pieces, 0#8 ∉ l) :
    (rounds pattern s pieces).out =
      s.out ++ unlines ((survivors carry pieces).filter (matchText pattern)) := by
  induction pieces generalizing s carry with
  | nil => simp [Grep.rounds, survivors, unlines]
  | cons piece rest ih =>
    obtain ⟨some, fits, more⟩ := reads
    obtain ⟨out, next⟩ := carries.round pattern some fits (text piece mem_cons_self)
    rw [Grep.rounds, ih next more fun l member => text l (mem_cons_of_mem _ member), out]
    simp [survivors, unlines]

theorem split_length (text : List Byte) : (split text).2.length ≤ text.length := by
  induction text using by_lines with
  | plain l plain => exact Nat.le_of_eq (by rw [split_plain plain])
  | line l t plain ih =>
    rw [split_line plain, length_append, length_cons]
    exact Nat.le_trans ih (by omega)

/-- Pieces that the buffer has room for altogether can be read one after the other. -/
theorem Carries.reads (carries : Carries s carry) (some : [] ∉ pieces)
    (text : ∀ l ∈ pieces, 0#8 ∉ l) (room : carry.length + pieces.flatten.length < bufSize) :
    Reads pattern s pieces := by
  induction pieces generalizing s carry with
  | nil => trivial
  | cons piece rest ih =>
    rw [mem_cons, not_or] at some
    rw [flatten_cons, length_append] at room
    have fits : piece.length ≤ bufSize - s.m - 1 := by
      rw [carries.m]
      omega
    have next := (carries.round pattern (Ne.symm some.1) fits (text piece mem_cons_self)).2
    refine ⟨Ne.symm some.1, fits,
      ih next some.2 (fun l mem => text l (mem_cons_of_mem _ mem)) ?_⟩
    have kept := split_length (carry ++ piece)
    rw [length_append] at kept
    split
    · rw [length_nil]
      omega
    · omega

end Code

/-! ## When nothing is lost -/

def size (ls : List (List Byte)) : Nat := (ls.map length).sum

theorem size_split {x t : List Byte} (plain : chr '\n' ∉ x) :
    size (split t).1 ≤ size (split (x ++ t)).1 ∧
      (chr '\n' ∈ t → size (split (x ++ t)).1 = x.length + size (split t).1) := by
  induction t using by_lines with
  | plain l free => simp [split_plain, plain, free, size]
  | line l t free _ =>
    have both : chr '\n' ∉ x ++ l := by simp [plain, free]
    rw [← append_assoc, split_line both, split_line free]
    simp [size, Nat.add_assoc]

theorem size_survivors (carry : List Byte) (pieces : List (List Byte)) :
    size (survivors carry pieces) ≤ size (split (carry ++ pieces.flatten)).1 := by
  induction pieces generalizing carry with
  | nil => exact Nat.zero_le _
  | cons piece rest ih =>
    have add : ∀ a b, size (a ++ b) = size a + size b := by simp [size]
    rw [flatten_cons, ← append_assoc, split_append, survivors, add, add]
    apply Nat.add_le_add_left
    split
    · exact Nat.le_trans (ih []) (size_split (split_tail _)).1
    · exact ih _

theorem survivors_eq_iff (plain : chr '\n' ∉ carry) (some : ∀ l ∈ pieces, l ≠ []) :
    survivors carry pieces = (split (carry ++ pieces.flatten)).1 ↔
      pieces.Pairwise fun a b => chr '\n' ∈ b → chr '\n' ∈ a := by
  induction pieces generalizing carry with
  | nil => simp [survivors, split_plain plain]
  | cons piece rest ih =>
    have later : ∀ l ∈ rest, l ≠ [] := fun l member => some l (mem_cons_of_mem _ member)
    rw [flatten_cons, ← append_assoc, split_append, survivors, append_cancel_left_eq,
      pairwise_cons]
    by_cases newline : chr '\n' ∈ piece
    · have ended : (split (carry ++ piece)).1 ≠ [] := by simp [split_eq_nil, newline]
      rw [if_neg ended, ih (split_tail _) later]
      simp [newline]
    · have free : chr '\n' ∉ carry ++ piece := by simp [plain, newline]
      rw [if_pos (split_eq_nil.mpr free), split_plain free]
      by_cases more : chr '\n' ∈ rest.flatten
      · obtain ⟨b, member, has⟩ := mem_flatten.mp more
        have longer := (size_split (t := rest.flatten) free).2 more
        have bound := size_survivors [] rest
        have pos := length_pos_iff.mpr (some piece mem_cons_self)
        constructor
        · intro eq
          rw [eq, nil_append, longer, length_append] at bound
          omega
        · exact fun pairs => absurd (pairs.1 b member has) newline
      · have none : ∀ b ∈ rest, chr '\n' ∉ b :=
          fun b member has => more (mem_flatten.mpr ⟨b, member, has⟩)
        have pairs : rest.Pairwise fun a b => chr '\n' ∈ b → chr '\n' ∈ a :=
          List.Pairwise.imp_of_mem (fun _ mb _ has => absurd has (none _ mb))
            (pairwise_of_forall (R := fun _ _ => True) fun _ _ => trivial)
        have all := (ih not_mem_nil later).mpr pairs
        rw [all, nil_append, split_plain more,
          split_plain fun has => (mem_append.mp has).elim free more]
        exact ⟨fun _ => ⟨fun b member has => absurd has (none b member), pairs⟩, fun _ => rfl⟩

theorem Reads.ne_nil {pattern : List Byte} (reads : Reads pattern s pieces) :
    ∀ l ∈ pieces, l ≠ [] := by
  induction pieces generalizing s with
  | nil => simp
  | cons piece rest ih => simpa [reads.1] using ih reads.2.2

theorem filter_empty (ls : List (List Byte)) : ls.filter (matchText []) = ls := by
  refine filter_eq_self.mpr fun l _ => ?_
  rw [matchText, if_neg (by simp)]
  exact search_iff.mpr ⟨[], l, rfl, by rw [matchhere]⟩

/-- `grep` writes the matching ones among the surviving lines.  These are the matching lines of the
input, whatever the pattern, exactly if no read without a newline comes before one with a
newline. -/
theorem grep_lossless_iff (pieces : List (List Byte))
    (reads : ∀ pattern, Reads pattern start pieces)
    (text : ∀ l ∈ pieces, 0#8 ∉ l) :
    (∀ pattern, grep pattern pieces =
      unlines ((survivors [] pieces).filter (matchText pattern))) ∧
    ((∀ pattern, grep pattern pieces =
      unlines ((split pieces.flatten).1.filter (matchText pattern))) ↔
        pieces.Pairwise fun a b => chr '\n' ∈ b → chr '\n' ∈ a) := by
  have writes : ∀ pattern, grep pattern pieces =
      unlines ((survivors [] pieces).filter (matchText pattern)) :=
    fun pattern => carries_start.rounds (reads pattern) text
  refine ⟨writes, ?_⟩
  have lossless := survivors_eq_iff (not_mem_nil (a := chr '\n')) (reads []).ne_nil
  rw [nil_append] at lossless
  rw [← lossless]
  constructor
  · intro all
    have eq := (writes []).symm.trans (all [])
    rw [filter_empty, filter_empty] at eq
    have cut := split_unlines (survivors_lines [] pieces)
    rw [eq, split_unlines (split_lines _)] at cut
    exact (Prod.mk.inj cut).1.symm
  · intro eq pattern
    rw [writes, eq]

/-- Three lines in as many reads, two of which end inside a line. -/
def cutLines : List (List Byte) :=
  [[chr 'a', chr '\n', chr 'b'], [chr 'c', chr '\n', chr 'd'], [chr 'e', chr '\n']]

/-- Every read of `cutLines` brings a newline, so the lines that are cut are put together again. -/
theorem grep_lossless_iff_cut :
    (cutLines.Pairwise fun a b => chr '\n' ∈ b → chr '\n' ∈ a) ∧ ∀ pattern, grep pattern cutLines =
      unlines ([[chr 'a'], [chr 'b', chr 'c'], [chr 'd', chr 'e']].filter (matchText pattern)) := by
  have newlines : cutLines.Pairwise fun a b => chr '\n' ∈ b → chr '\n' ∈ a := by decide
  have reads : ∀ pattern, Reads pattern start cutLines := fun _ =>
    carries_start.reads (by decide) (by decide) (by decide)
  exact ⟨newlines, (grep_lossless_iff cutLines reads (by decide)).2.mpr newlines⟩

/-- A line that comes in two reads loses its beginning. -/
theorem grep_loses : grep [] [[chr 'a'], [chr 'b', chr '\n']] ≠
    unlines ((split [chr 'a', chr 'b', chr '\n']).1.filter (matchText [])) := by
  have reads : Reads [] start [[chr 'a'], [chr 'b', chr '\n']] :=
    carries_start.reads (by decide) (by decide) (by decide)
  rw [grep, carries_start.rounds reads (by decide), filter_empty, filter_empty]
  decide

end Xv6.Grep
