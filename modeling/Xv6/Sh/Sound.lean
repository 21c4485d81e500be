import Xv6.Sh.Scan

/-!
# What the parsers accept

Each parser reads the tokens of a phrase and returns its command, or panics.  The cursor moves
forward with every symbol, which bounds the number of rounds: with `4 * k + 4` of them for the `k`
characters ahead, no parser runs out.
-/

namespace Xv6.Sh

open List

/-- The panics of a line that is not a command. -/
def SyntaxError (why : Stop) : Prop := why ≠ .hang ∧ why ≠ .parseblock

section Tokens

variable {x : Token} {c : Byte}

theorem eq_of_strchr {a : Byte} (in_one : strchr [c] a = true) : a = c := by
  simpa [strchr] using in_one

theorem sym_of_lead (proper : x.Proper) (symbol : strchr symbols c = true) (ne : c ≠ chr '>')
    (lead : strchr [c] x.lead = true) : x = .sym c := by
  have eq := eq_of_strchr lead
  cases x with
  | sym d => exact congrArg Token.sym eq
  | append => exact absurd eq.symm ne
  | word w =>
    change w.headD 0 = c at eq
    change strchr symbols (w.headD 0) = false at proper
    rw [eq, symbol] at proper
    cases proper

theorem arrow_of_lead (proper : x.Proper) (lead : strchr [chr '<', chr '>'] x.lead = true) :
    Arrow x x.ret := by
  have either : x.lead = chr '<' ∨ x.lead = chr '>' := by simpa [strchr] using lead
  cases x with
  | sym d =>
    rcases either with eq | eq
    · change d = _ at eq
      subst eq
      exact .less
    · change d = _ at eq
      subst eq
      exact .greater
  | append => exact .append
  | word w =>
    change strchr symbols (w.headD 0) = false at proper
    change w.headD 0 = _ ∨ w.headD 0 = _ at either
    rcases either with eq | eq
    · rw [eq] at proper
      exact absurd proper (by decide)
    · rw [eq] at proper
      exact absurd proper (by decide)

theorem word_of_ret (proper : x.Proper) (ret : x.ret = chr 'a') : ∃ w, x = .word w := by
  cases x with
  | sym d =>
    change d = _ at ret
    change strchr symbols d = true at proper
    rw [ret] at proper
    exact absurd proper (by decide)
  | append => exact absurd ret (by decide)
  | word w => exact ⟨w, rfl⟩

theorem ret_ne_zero (proper : x.Proper) : x.ret ≠ 0 := by
  cases x with
  | sym d =>
    intro zero
    change d = 0 at zero
    change strchr symbols d = true at proper
    rw [zero] at proper
    exact absurd proper (by decide)
  | append => decide
  | word w => exact (by decide : chr 'a' ≠ 0)

end Tokens

section Strings

variable {W V : Type} (f : V → W)

theorem map_redircmd (cmd : Cmd V) (r : Byte × V) :
    (redircmd cmd r).map f = redircmd (cmd.map f) (r.1, f r.2) := by
  unfold redircmd
  split
  · rfl
  · split
    · rfl
    · split
      · rfl
      · rfl

theorem map_wrap (cmd : Cmd V) (rs : List (Byte × V)) :
    (wrap cmd rs).map f = wrap (cmd.map f) (rs.map fun r => (r.1, f r.2)) := by
  induction rs generalizing cmd with
  | nil => rfl
  | cons r rs ih =>
    change (wrap (redircmd cmd r) rs).map f = _
    rw [ih, map_redircmd]
    rfl

theorem map_backs (n : Nat) (cmd : Cmd V) : (backs n cmd).map f = backs n (cmd.map f) := by
  induction n generalizing cmd with
  | zero => rfl
  | succ n ih => exact ih (.back cmd)

def Cmd.All {V : Type} (ok : V → Prop) : Cmd V → Prop
  | .exec argv => ∀ w ∈ argv, ok w
  | .redir cmd file _ _ => cmd.All ok ∧ ok file
  | .pipe left right => left.All ok ∧ right.All ok
  | .list left right => left.All ok ∧ right.All ok
  | .back cmd => cmd.All ok

variable {ok : V → Prop} {cmd : Cmd V}

theorem all_redircmd {r : Byte × V} (all : cmd.All ok) (file : ok r.2) :
    (redircmd cmd r).All ok := by
  unfold redircmd
  split
  · exact ⟨all, file⟩
  · split
    · exact ⟨all, file⟩
    · split
      · exact ⟨all, file⟩
      · exact all

theorem all_wrap {rs : List (Byte × V)} (all : cmd.All ok) (files : ∀ r ∈ rs, ok r.2) :
    (wrap cmd rs).All ok := by
  induction rs generalizing cmd with
  | nil => exact all
  | cons r rs ih =>
    exact ih (all_redircmd all (files r mem_cons_self)) fun r' mem =>
      files r' (mem_cons_of_mem _ mem)

theorem all_backs {n : Nat} (all : cmd.All ok) : (backs n cmd).All ok := by
  induction n generalizing cmd with
  | zero => exact all
  | succ n ih =>
    have inner : (Cmd.back cmd).All ok := all
    exact ih inner

end Strings

def files (buf : List Byte) (rs : List (Byte × Span)) : List (Byte × List Byte) :=
  rs.map fun r => (r.1, slice buf r.2)

section Parsers

variable {buf : List Byte} (nul : (0 : Byte) ∉ buf)

include nul

/-- `gettoken`, where the next token is the symbol `c`, consumes that token. -/
theorem within_symbol {E : Stop → Prop} {c : Byte} {s s1 : Nat} {Q : Byte × Span → Nat → Prop}
    (len : s1 ≤ buf.length) (same : tokens (buf.drop s1) = tokens (buf.drop s))
    (lead : leads [c] (tokens (buf.drop s)) = true)
    (post : ∀ w t, tokens (buf.drop s) = .sym c :: tokens (buf.drop t) → s1 < t → t ≤ buf.length →
      Q (c, w) t)
    (symbol : strchr symbols c = true := by decide) (ne : c ≠ chr '>' := by decide) :
    Within E (gettoken buf) s1 Q := by
  refine within_gettoken len nul (fun none _ _ _ _ _ => ?_) fun x w t first lt len' proper _ => ?_
  · rw [← same, none] at lead
    cases lead
  · rw [← same, first] at lead
    obtain rfl := sym_of_lead proper symbol ne lead
    exact post w t (same.symm.trans first) lt len'

/-- What `parseredirs` consumes are redirections, those that it adds to the list. -/
theorem parseredirs_sound (n s : Nat) (rs0 : List (Byte × Span)) (le : s ≤ buf.length)
    (fuel : buf.length - s < n) :
    Within SyntaxError (parseredirs buf n rs0) s fun rs t => s ≤ t ∧ t ≤ buf.length ∧
      ∃ rs1 ts, rs = rs0 ++ rs1 ∧ tokens (buf.drop s) = ts ++ tokens (buf.drop t) ∧
        Redirs ts (files buf rs1) ∧ ∀ r ∈ rs1, Word buf r.2 := by
  induction n generalizing s rs0 with
  | zero => omega
  | succ n ih =>
    refine .bind (within_peek le nul fun s1 le1 len1 same1 => ?_)
    cases lead : leads [chr '<', chr '>'] (tokens (buf.drop s)) with
    | false => exact ⟨le1, len1, [], [], by simp, same1.symm, .nil, by simp⟩
    | true =>
      refine .bind (within_gettoken len1 nul (fun none _ _ _ _ _ => ?_) ?_)
      · rw [← same1, none] at lead
        cases lead
      intro x _ s2 first lt2 len2 proper _
      rw [← same1, first] at lead
      have arrow := arrow_of_lead proper lead
      refine .bind (within_gettoken len2 nul (fun _ _ _ _ _ _ => ?_) ?_)
      · exact ⟨(by simp), (by simp)⟩
      intro y w s3 second lt3 len3 proper' word
      dsimp only
      split
      · exact ⟨(by simp), (by simp)⟩
      · rename_i ret
        obtain ⟨v, rfl⟩ := word_of_ret proper' (not_not.mp ret)
        obtain ⟨is_word, chars⟩ := word v rfl
        refine (ih s3 _ len3 (by omega)).mono (fun _ => id) ?_
        rintro rs t ⟨le4, len4, rs1, ts, rfl, rest, redirs, words⟩
        refine ⟨by omega, len4, (x.ret, w) :: rs1, x :: .word v :: ts, by simp, ?_, ?_, ?_⟩
        · rw [← same1, first, second, rest]
          rfl
        · change Redirs _ ((x.ret, slice buf w) :: files buf rs1)
          rw [chars]
          exact .cons arrow redirs
        · simpa [is_word] using fun a b mem => words (a, b) mem

/-- The loop of `parseexec` consumes words and redirections, the ones in its command. -/
theorem argsLoop_sound (n s : Nat) (argv0 : List Span) (rs0 : List (Byte × Span))
    (le : s ≤ buf.length) (fuel : buf.length - s < n) (few : argv0.length < maxArgs) :
    Within SyntaxError (argsLoop buf n argv0 rs0) s fun cmd t => s ≤ t ∧ t ≤ buf.length ∧
      ∃ argv rs ts, cmd = wrap (.exec (argv0 ++ argv)) (rs0 ++ rs) ∧
        tokens (buf.drop s) = ts ++ tokens (buf.drop t) ∧
        Args ts (argv.map (slice buf)) (files buf rs) ∧ (argv0 ++ argv).length < maxArgs ∧
        (∀ w ∈ argv, Word buf w) ∧ ∀ r ∈ rs, Word buf r.2 := by
  induction n generalizing s argv0 rs0 with
  | zero => omega
  | succ n ih =>
    -- the loop is left
    have stop : ∀ t, s ≤ t → t ≤ buf.length → tokens (buf.drop t) = tokens (buf.drop s) →
        s ≤ t ∧ t ≤ buf.length ∧ ∃ argv rs ts,
          wrap (.exec argv0) rs0 = wrap (.exec (argv0 ++ argv)) (rs0 ++ rs) ∧
          tokens (buf.drop s) = ts ++ tokens (buf.drop t) ∧
          Args ts (argv.map (slice buf)) (files buf rs) ∧ (argv0 ++ argv).length < maxArgs ∧
          (∀ w ∈ argv, Word buf w) ∧ ∀ r ∈ rs, Word buf r.2 := by
      intro t le_t len_t same
      exact ⟨le_t, len_t, [], [], [], by simp, same.symm, .nil, by simpa using few, by simp,
        by simp⟩
    refine .bind (within_peek le nul fun s1 le1 len1 same1 => ?_)
    split
    · exact stop s1 le1 len1 same1
    · refine .bind (within_gettoken len1 nul (fun none _ s2 le2 len2 none2 => ?_) ?_)
      · exact stop s2 (by omega) len2 (by rw [none2, ← same1, none])
      intro x w s2 first lt2 len2 proper word
      dsimp only
      rw [if_neg (ret_ne_zero proper)]
      split
      · exact ⟨(by simp), (by simp)⟩
      · rename_i ret
        obtain ⟨v, rfl⟩ := word_of_ret proper (not_not.mp ret)
        obtain ⟨is_word, chars⟩ := word v rfl
        split
        · exact ⟨(by simp), (by simp)⟩
        · rename_i room
          refine .bind ((parseredirs_sound nul n s2 rs0 len2 (by omega)).mono
            (fun _ => id) ?_)
          rintro _ s3 ⟨le3, len3, rs1, ts1, rfl, second, redirs, words1⟩
          refine (ih s3 _ _ len3 (by omega) (by simpa using room)).mono (fun _ => id) ?_
          rintro _ t ⟨le4, len4, argv, rs, ts, rfl, third, args, few', words, words'⟩
          refine ⟨by omega, len4, w :: argv, rs1 ++ rs, .word v :: (ts1 ++ ts), by simp, ?_, ?_,
            by simpa using few', ?_, ?_⟩
          · rw [← same1, first, second, third]
            simp
          · have split : files buf (rs1 ++ rs) = files buf rs1 ++ files buf rs := map_append
            rw [split, map_cons, chars]
            exact .cons redirs args
          · simpa [is_word] using words
          · intro r mem
            rcases mem_append.mp mem with mem | mem
            · exact words1 r mem
            · exact words' r mem

/-- The loop of `parseline` consumes a `&` for each `backcmd` it makes. -/
theorem backLoop_sound (n s : Nat) (cmd : Cmd Span) (le : s ≤ buf.length)
    (fuel : buf.length - s < n) :
    Within SyntaxError (backLoop buf n cmd) s fun cmd' t => s ≤ t ∧ t ≤ buf.length ∧
      ∃ k, cmd' = backs k cmd ∧
        tokens (buf.drop s) = replicate k (.sym (chr '&')) ++ tokens (buf.drop t) := by
  induction n generalizing s cmd with
  | zero => omega
  | succ n ih =>
    refine .bind (within_peek le nul fun s1 le1 len1 same1 => ?_)
    cases lead : leads [chr '&'] (tokens (buf.drop s)) with
    | false => exact ⟨le1, len1, 0, rfl, by simpa using same1.symm⟩
    | true =>
      refine .bind (within_symbol nul len1 same1 lead fun _ s2 first lt2 len2 => ?_)
      refine (ih s2 _ len2 (by omega)).mono (fun _ => id) ?_
      rintro _ t ⟨le3, len3, k, rfl, rest⟩
      refine ⟨by omega, len3, k + 1, rfl, ?_⟩
      rw [first, rest]
      rfl

/-- A parser has consumed tokens from which the grammar derives its result. -/
def Parsed (buf : List Byte) (N : Nonterminal) (s : Nat) (cmd : Cmd Span) (t : Nat) : Prop :=
  s ≤ t ∧ t ≤ buf.length ∧ cmd.All (Word buf) ∧
    ∃ ts, tokens (buf.drop s) = ts ++ tokens (buf.drop t) ∧ Derives N ts (cmd.map (slice buf))

/-- **The parsers are sound**: each returns a command that the grammar derives from the tokens it
consumed, or stops with a syntax error. -/
theorem parse_sound (n : Nat) :
    (∀ s, s ≤ buf.length → 4 * (buf.length - s) + 4 ≤ n →
      Within SyntaxError (parseline buf n) s (Parsed buf .line s)) ∧
    (∀ s, s ≤ buf.length → 4 * (buf.length - s) + 3 ≤ n →
      Within SyntaxError (parsepipe buf n) s (Parsed buf .pipe s)) ∧
    (∀ s, s ≤ buf.length → 4 * (buf.length - s) + 2 ≤ n →
      Within SyntaxError (parseexec buf n) s (Parsed buf .exec s)) ∧
    (∀ s, s ≤ buf.length → 4 * (buf.length - s) + 1 ≤ n →
      leads [chr '('] (tokens (buf.drop s)) = true →
      Within SyntaxError (parseblock buf n) s (Parsed buf .exec s)) := by
  induction n with
  | zero => exact ⟨fun s _ _ => by omega, fun s _ _ => by omega, fun s _ _ => by omega,
      fun s _ _ => by omega⟩
  | succ n ih =>
    obtain ⟨line, pipe, exec, block⟩ := ih
    refine ⟨fun s le fuel => ?_, fun s le fuel => ?_, fun s le fuel => ?_,
      fun s le fuel lead => ?_⟩
    · rw [parseline]
      refine .bind ((pipe s le (by omega)).mono (fun _ => id) ?_)
      rintro cmd s1 ⟨le1, len1, words, ts, first, derives⟩
      refine .bind ((backLoop_sound nul n s1 cmd len1 (by omega)).mono
        (fun _ => id) ?_)
      rintro _ s2 ⟨le2, len2, k, rfl, second⟩
      refine .bind (within_peek len2 nul fun s3 le3 len3 same3 => ?_)
      cases lead : leads [chr ';'] (tokens (buf.drop s2)) with
      | false =>
        refine ⟨by omega, len3, all_backs words, ts ++ replicate k (.sym (chr '&')), ?_, ?_⟩
        · rw [first, second, same3, append_assoc]
        · rw [map_backs]
          exact .line k derives
      | true =>
        refine .bind
          (within_symbol nul len3 same3 lead fun _ s4 third lt4 len4 => ?_)
        refine .bind ((line s4 len4 (by omega)).mono (fun _ => id) ?_)
        rintro right t ⟨le5, len5, words', us, fourth, derives'⟩
        refine ⟨by omega, len5, ⟨all_backs words, words'⟩,
          ts ++ replicate k (.sym (chr '&')) ++ .sym (chr ';') :: us, ?_, ?_⟩
        · rw [first, second, third, fourth]
          simp
        · change Derives _ _ (.list ((backs k cmd).map _) _)
          rw [map_backs]
          exact .list k derives derives'
    · rw [parsepipe]
      refine .bind ((exec s le (by omega)).mono (fun _ => id) ?_)
      rintro cmd s1 ⟨le1, len1, words, ts, first, derives⟩
      refine .bind (within_peek len1 nul fun s2 le2 len2 same2 => ?_)
      cases lead : leads [chr '|'] (tokens (buf.drop s1)) with
      | false => exact ⟨by omega, len2, words, ts, by rw [first, same2], .single derives⟩
      | true =>
        refine .bind
          (within_symbol nul len2 same2 lead fun _ s3 second lt3 len3 => ?_)
        refine .bind ((pipe s3 len3 (by omega)).mono (fun _ => id) ?_)
        rintro right t ⟨le4, len4, words', us, third, derives'⟩
        refine ⟨by omega, len4, ⟨words, words'⟩, ts ++ .sym (chr '|') :: us, ?_,
          .pipe derives derives'⟩
        rw [first, second, third]
        simp
    · rw [parseexec]
      refine .bind (within_peek le nul fun s1 le1 len1 same1 => ?_)
      cases lead : leads [chr '('] (tokens (buf.drop s)) with
      | true =>
        rw [← same1] at lead
        refine (block s1 len1 (by omega) lead).mono (fun _ => id) ?_
        rintro cmd t ⟨le2, len2, words, ts, first, derives⟩
        exact ⟨by omega, len2, words, ts, by rw [← same1, first], derives⟩
      | false =>
        refine .bind ((parseredirs_sound nul n s1 [] len1 (by omega)).mono
          (fun _ => id) ?_)
        rintro rs s2 ⟨le2, len2, rs1, ts, eq, first, redirs, words⟩
        obtain rfl : rs = rs1 := eq
        refine (argsLoop_sound nul n s2 [] _ len2 (by omega) (by decide)).mono (fun _ => id) ?_
        rintro _ t ⟨le3, len3, argv, rs', us, rfl, second, args, few, words', words''⟩
        refine ⟨by omega, len3, all_wrap ?_ ?_, ts ++ us, ?_, ?_⟩
        · simpa [Cmd.All] using words'
        · intro r mem
          rcases mem_append.mp mem with mem | mem
          · exact words r mem
          · exact words'' r mem
        · rw [← same1, first, second, append_assoc]
        · rw [map_wrap]
          have split : ((rs ++ rs').map fun r => (r.1, slice buf r.2)) =
              files buf rs ++ files buf rs' := map_append
          rw [split]
          exact .exec redirs args (by simpa using few)
    · rw [parseblock]
      refine .bind (within_peek le nul fun s1 le1 len1 same1 => ?_)
      rw [lead]
      refine .bind (within_symbol nul len1 same1 lead fun _ s2 first lt2 len2 => ?_)
      refine .bind ((line s2 len2 (by omega)).mono (fun _ => id) ?_)
      rintro cmd s3 ⟨le3, len3, words, ts, second, derives⟩
      refine .bind (within_peek len3 nul fun s4 le4 len4 same4 => ?_)
      cases lead' : leads [chr ')'] (tokens (buf.drop s3)) with
      | false => exact ⟨(by simp), (by simp)⟩
      | true =>
        refine .bind
          (within_symbol nul len4 same4 lead' fun _ s5 third lt5 len5 => ?_)
        refine .bind ((parseredirs_sound nul n s5 [] len5 (by omega)).mono
          (fun _ => id) ?_)
        rintro rs t ⟨le6, len6, rs1, us, eq, fourth, redirs, words'⟩
        obtain rfl : rs = rs1 := eq
        refine ⟨by omega, len6, all_wrap words words',
          .sym (chr '(') :: ts ++ .sym (chr ')') :: us, ?_, ?_⟩
        · rw [first, second, third, fourth]
          simp
        · rw [map_wrap]
          exact .block derives redirs

end Parsers

end Xv6.Sh
