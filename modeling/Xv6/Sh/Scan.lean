import Xv6.Sh.Grammar

/-!
# Tokens under the cursor

What `peek` and `gettoken` do, in terms of the tokens of the rest of the line.  The parsers are
verified against these two statements (`within_peek`, `within_gettoken`) and look at no character
themselves.
-/

namespace Xv6.Sh

open List

def Token.ret : Token → Byte
  | .sym c => c
  | .append => chr '+'
  | .word _ => chr 'a'

def Token.lead : Token → Byte
  | .sym c => c
  | .append => chr '>'
  | .word w => w.headD 0

/-- Symbols are symbols, and a word does not begin with one. -/
def Token.Proper : Token → Prop
  | .sym c => strchr symbols c = true
  | .append => True
  | .word w => strchr symbols (w.headD 0) = false

/-- The first of the tokens begins with one of the characters. -/
def leads (toks : List Byte) : List Token → Bool
  | [] => false
  | t :: _ => strchr toks t.lead

def slice (buf : List Byte) (w : Span) : List Byte := (buf.drop w.q).take (w.eq - w.q)

/-- A counted string is a word: it is not empty, and goes as far as the characters of a word do. -/
structure Word (buf : List Byte) (w : Span) : Prop where
  lt : w.q < w.eq
  le : w.eq ≤ buf.length
  chars : ∀ c ∈ slice buf w, isWord c = true
  last : ∀ c, (buf.drop w.eq).head? = some c → isWord c = false

section

variable {buf : List Byte} {s : Nat}

theorem drop_skip (test : Byte → Bool) :
    buf.drop (skip buf test s) = (buf.drop s).dropWhile test := by
  rw [skip, ← drop_drop]
  conv_lhs => rw [← takeWhile_append_dropWhile (p := test) (l := buf.drop s)]
  rw [drop_left' (by rw [takeWhile_append_dropWhile])]

theorem le_skip (test : Byte → Bool) : s ≤ skip buf test s := Nat.le_add_right ..

theorem skip_le (test : Byte → Bool) (le : s ≤ buf.length) : skip buf test s ≤ buf.length := by
  have start := takeWhile_prefix (l := buf.drop s) test
  have := start.length_le
  rw [length_drop] at this
  unfold skip
  omega

theorem char_eq : char buf s = (buf.drop s).headD 0 := by
  rw [char, headD_eq_head?_getD, head?_drop, getD_eq_getElem?_getD]

@[simp] theorem tokens_nil : tokens [] = [] := by rw [tokens]

theorem tokens_space (line : List Byte) : tokens (line.dropWhile isSpace) = tokens line := by
  induction line with
  | nil => rfl
  | cons c cs ih =>
    by_cases space : isSpace c = true
    · rw [dropWhile_cons_of_pos space, ih]
      conv_rhs => rw [tokens, if_pos space]
    · rw [dropWhile_cons_of_neg space]

theorem head_not_space (line : List Byte) {c : Byte} {cs : List Byte}
    (at_c : line.dropWhile isSpace = c :: cs) : isSpace c = false := by
  have := head?_dropWhile_not isSpace line
  rw [at_c] at this
  simpa using this

variable {c : Byte}

theorem tokens_cons (cs : List Byte) (solid : isSpace c = false) :
    tokens (c :: cs) =
      if c = chr '>' ∧ cs.head? = some (chr '>') then .append :: tokens cs.tail
      else if strchr symbols c then .sym c :: tokens cs
      else .word (c :: cs.takeWhile isWord) :: tokens (cs.dropWhile isWord) := by
  rw [tokens, if_neg (by simp [solid])]

theorem proper_of_mem {line : List Byte} {t : Token} (mem : t ∈ tokens line) : t.Proper := by
  induction line using tokens.induct with
  | case1 => simp at mem
  | case2 c cs space ih =>
    rw [tokens, if_pos space] at mem
    exact ih mem
  | case3 c cs solid arrow ih =>
    rw [tokens_cons cs (by simpa using solid), if_pos arrow] at mem
    rcases mem_cons.mp mem with rfl | mem
    · trivial
    · exact ih mem
  | case4 c cs solid short symbol ih =>
    rw [tokens_cons cs (by simpa using solid), if_neg short, if_pos symbol] at mem
    rcases mem_cons.mp mem with rfl | mem
    · exact symbol
    · exact ih mem
  | case5 c cs solid short plain ih =>
    rw [tokens_cons cs (by simpa using solid), if_neg short, if_neg plain] at mem
    rcases mem_cons.mp mem with rfl | mem
    · exact Bool.eq_false_iff.mpr plain
    · exact ih mem

/-- A token was read from `s` on, up to `e`, and `gettoken` returns `ret` for it. -/
structure Read (buf : List Byte) (s : Nat) (t : Token) (ret : Byte) (e : Nat) : Prop where
  tokens : tokens (buf.drop s) = t :: tokens (buf.drop e)
  ret : ret = t.ret
  proper : t.Proper
  lt : s < e
  le : e ≤ buf.length
  word : ∀ w, t = .word w → Word buf ⟨s, e⟩ ∧ slice buf ⟨s, e⟩ = w

variable {cs : List Byte}

theorem drop_succ_of_cons (at_s : buf.drop s = c :: cs) : buf.drop (s + 1) = cs := by
  rw [← drop_drop, at_s]
  rfl

theorem lt_of_drop_cons (at_s : buf.drop s = c :: cs) : s < buf.length := by
  by_contra ge
  rw [drop_eq_nil_of_le (by omega)] at at_s
  cases at_s

theorem read_sym (at_s : buf.drop s = c :: cs) (solid : isSpace c = false)
    (symbol : strchr symbols c = true) (short : ¬ (c = chr '>' ∧ cs.head? = some (chr '>'))) :
    Read buf s (.sym c) c (s + 1) where
  tokens := by rw [at_s, tokens_cons cs solid, if_neg short, if_pos symbol, drop_succ_of_cons at_s]
  ret := rfl
  proper := symbol
  lt := Nat.lt_succ_self s
  le := lt_of_drop_cons at_s
  word := (by simp)

theorem read_append (at_s : buf.drop s = chr '>' :: cs) (twice : cs.head? = some (chr '>')) :
    Read buf s .append (chr '+') (s + 2) := by
  have next := drop_succ_of_cons at_s
  obtain ⟨ds, rfl⟩ : ∃ ds, cs = chr '>' :: ds := by
    cases cs with
    | nil => cases twice
    | cons d ds =>
      cases twice
      exact ⟨ds, rfl⟩
  refine ⟨?_, rfl, trivial, by omega, lt_of_drop_cons next, (by simp)⟩
  rw [at_s, tokens_cons _ (by decide), if_pos ⟨rfl, twice⟩, drop_succ_of_cons next]
  rfl

theorem read_word (at_s : buf.drop s = c :: cs) (solid : isSpace c = false)
    (plain : strchr symbols c = false) :
    Read buf s (.word (c :: cs.takeWhile isWord)) (chr 'a') (skip buf isWord s) := by
  have is_word : isWord c = true := by simp [isWord, solid, plain]
  have lt := lt_of_drop_cons at_s
  have not_arrow : ¬ (c = chr '>' ∧ cs.head? = some (chr '>')) := by
    rintro ⟨rfl, -⟩
    revert plain
    decide
  have taken : (buf.drop s).takeWhile isWord = c :: cs.takeWhile isWord := by
    rw [at_s, takeWhile_cons_of_pos is_word]
  have rest : (buf.drop s).dropWhile isWord = cs.dropWhile isWord := by
    rw [at_s, dropWhile_cons_of_pos is_word]
  have chars : slice buf ⟨s, skip buf isWord s⟩ = (buf.drop s).takeWhile isWord := by
    have width : skip buf isWord s - s = ((buf.drop s).takeWhile isWord).length := by
      unfold skip
      omega
    change (buf.drop s).take (skip buf isWord s - s) = _
    have start := takeWhile_prefix (l := buf.drop s) isWord
    rw [width]
    exact (prefix_iff_eq_take.mp start).symm
  have le := skip_le isWord (Nat.le_of_lt lt)
  have moves : s < skip buf isWord s := by
    rw [skip, taken, length_cons]
    omega
  refine ⟨?_, rfl, plain, moves, le, ?_⟩
  · rw [drop_skip, rest, at_s, tokens_cons cs solid, if_neg not_arrow, if_neg (by simp [plain])]
  · rintro _ ⟨⟩
    refine ⟨⟨moves, le, fun d mem => ?_, fun d at_d => ?_⟩, chars.trans taken⟩
    · rw [chars] at mem
      exact all_eq_true.mp all_takeWhile d mem
    · change (buf.drop (skip buf isWord s)).head? = some d at at_d
      rw [drop_skip] at at_d
      have := head?_dropWhile_not isWord (buf.drop s)
      rw [at_d] at this
      simpa using this

theorem scan_end (at_s : buf.drop s = []) : scan buf s = (0, s) := by
  have zero : char buf s = 0 := by rw [char_eq, at_s]; rfl
  rw [scan, zero]
  rfl

theorem scan_read (nul : (0 : Byte) ∉ buf) {c : Byte} {cs : List Byte} (at_s : buf.drop s = c :: cs)
    (solid : isSpace c = false) : ∃ t, Read buf s t (scan buf s).1 (scan buf s).2 := by
  have here : char buf s = c := by rw [char_eq, at_s]; rfl
  have next : char buf (s + 1) = cs.headD 0 := by rw [char_eq, drop_succ_of_cons at_s]
  have mem : c ∈ buf := by
    refine mem_of_mem_drop (i := s) ?_
    rw [at_s]
    exact mem_cons_self
  have nonzero : c ≠ 0 := fun zero => nul (zero ▸ mem)
  rw [scan, here, if_neg nonzero]
  by_cases single : strchr [chr '|', chr '(', chr ')', chr ';', chr '&', chr '<'] c = true
  · rw [if_pos single]
    have facts : strchr symbols c = true ∧ c ≠ chr '>' := by
      simp only [strchr, contains_eq_mem, mem_cons, not_mem_nil, or_false,
        decide_eq_true_eq] at single
      rcases single with rfl | rfl | rfl | rfl | rfl | rfl <;> decide
    exact ⟨_, read_sym at_s solid facts.1 fun both => facts.2 both.1⟩
  · rw [if_neg single]
    by_cases greater : c = chr '>'
    · subst greater
      rw [if_pos rfl, next]
      by_cases twice : cs.head? = some (chr '>')
      · rw [if_pos (by rw [headD_eq_head?_getD, twice]; rfl)]
        exact ⟨_, read_append at_s twice⟩
      · have once : cs.headD 0 ≠ chr '>' := by
          cases cs with
          | nil => decide
          | cons d ds => simpa using twice
        rw [if_neg once]
        have symbol : strchr symbols (chr '>') = true := by decide
        exact ⟨_, read_sym at_s solid symbol fun both => twice both.2⟩
    · rw [if_neg greater]
      have plain : strchr symbols c = false := by
        rw [Bool.eq_false_iff]
        intro symbol
        simp only [strchr, contains_eq_mem, mem_cons, not_mem_nil, or_false,
          decide_eq_true_eq, symbols] at symbol single
        tauto
      exact ⟨_, read_word at_s solid plain⟩

/-! ## `peek` and `gettoken` -/

section

variable {E : Stop → Prop}

theorem within_peek (le : s ≤ buf.length) (nul : (0 : Byte) ∉ buf) {toks : List Byte}
    {Q : Bool → Nat → Prop}
    (post : ∀ t, s ≤ t → t ≤ buf.length → tokens (buf.drop t) = tokens (buf.drop s) →
      Q (leads toks (tokens (buf.drop s))) t) : Within E (peek buf toks) s Q := by
  have same : tokens (buf.drop (skip buf isSpace s)) = tokens (buf.drop s) := by
    rw [drop_skip, tokens_space]
  have result := post _ (le_skip isSpace) (skip_le isSpace le) same
  have eq : leads toks (tokens (buf.drop s)) =
      (char buf (skip buf isSpace s) != 0 && strchr toks (char buf (skip buf isSpace s))) := by
    rw [char_eq, drop_skip, ← tokens_space]
    cases at_c : (buf.drop s).dropWhile isSpace with
    | nil =>
      rw [tokens_nil]
      rfl
    | cons c cs =>
      have mem : c ∈ buf := by
        refine mem_of_mem_drop (i := s) ((dropWhile_sublist isSpace).mem ?_)
        rw [at_c]
        exact mem_cons_self
      have nonzero : (c != 0) = true := by
        simpa using fun zero : c = 0 => nul (zero ▸ mem)
      change _ = (c != 0 && strchr toks c)
      rw [nonzero, Bool.true_and, tokens_cons cs (head_not_space _ at_c)]
      split
      · rename_i arrow
        rw [arrow.1]
        rfl
      · split
        · rfl
        · rfl
  rw [eq] at result
  exact result

theorem within_gettoken (le : s ≤ buf.length) (nul : (0 : Byte) ∉ buf)
    {Q : Byte × Span → Nat → Prop}
    (none : tokens (buf.drop s) = [] → ∀ w t, s ≤ t → t ≤ buf.length → tokens (buf.drop t) = [] →
      Q (0, w) t)
    (some : ∀ x w t, tokens (buf.drop s) = x :: tokens (buf.drop t) → s < t → t ≤ buf.length →
      x.Proper → (∀ v, x = .word v → Word buf w ∧ slice buf w = v) → Q (x.ret, w) t) :
    Within E (gettoken buf) s Q := by
  have first : buf.drop (skip buf isSpace s) = (buf.drop s).dropWhile isSpace := drop_skip isSpace
  have low : s ≤ skip buf isSpace s := le_skip isSpace
  cases at_c : (buf.drop s).dropWhile isSpace with
  | nil =>
    rw [at_c] at first
    have done := none (by rw [← tokens_space, at_c, tokens_nil])
      ⟨skip buf isSpace s, skip buf isSpace s⟩ (skip buf isSpace (skip buf isSpace s))
      (Nat.le_trans low (le_skip isSpace)) (skip_le isSpace (skip_le isSpace le))
      (by rw [drop_skip, tokens_space, first, tokens_nil])
    change Q ((scan buf (skip buf isSpace s)).1, ⟨_, (scan buf (skip buf isSpace s)).2⟩)
      (skip buf isSpace (scan buf (skip buf isSpace s)).2)
    rw [scan_end first]
    exact done
  | cons c cs =>
    rw [at_c] at first
    obtain ⟨x, read⟩ := scan_read nul first (head_not_space _ at_c)
    have here : tokens (buf.drop s) = x :: tokens (buf.drop (skip buf isSpace
        (scan buf (skip buf isSpace s)).2)) := by
      rw [drop_skip, tokens_space, ← tokens_space, at_c, ← first]
      exact read.tokens
    have done := some x ⟨skip buf isSpace s, (scan buf (skip buf isSpace s)).2⟩ _ here
      (Nat.lt_of_le_of_lt low (Nat.lt_of_lt_of_le read.lt (le_skip isSpace)))
      (skip_le isSpace read.le) read.proper read.word
    rw [← read.ret] at done
    exact done

end

end

end Xv6.Sh
