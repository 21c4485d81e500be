import Xv6.Sh.Sound

/-!
# The parser against the grammar

The converse of `Xv6.Sh.Sound`: on the tokens of a phrase, followed by something that ends it, a
parser returns the command of the phrase (`parse_complete`).  With both, `parsecmd` accepts the
lines of the grammar and no others (`parsecmd_correct`).  The strings of the command are those of
the line after `nulterminate`.
-/

namespace Xv6.Sh

open List

def follow : Nonterminal → List Byte
  | .line => [chr ')']
  | .pipe => [chr ')', chr '&', chr ';']
  | .exec => [chr ')', chr '&', chr ';', chr '|']

def Follows (N : Nonterminal) (us : List Token) : Prop :=
  us = [] ∨ ∃ c vs, us = .sym c :: vs ∧ c ∈ follow N

section Follows

variable {N : Nonterminal} {us : List Token} {toks : List Byte}

theorem Follows.sym {c : Byte} (mem : c ∈ follow N) : Follows N (.sym c :: us) :=
  .inr ⟨c, us, rfl, mem⟩

theorem Follows.mono {N' : Nonterminal} (follows : Follows N us) (sub : follow N ⊆ follow N') :
    Follows N' us := by
  rcases follows with rfl | ⟨c, vs, rfl, mem⟩
  · exact .inl rfl
  · exact .inr ⟨c, vs, rfl, sub mem⟩

theorem Follows.not_leads (follows : Follows N us) (apart : ∀ c ∈ follow N, strchr toks c = false) :
    leads toks us = false := by
  rcases follows with rfl | ⟨c, vs, rfl, mem⟩
  · rfl
  · exact apart c mem

theorem leads_word {w : List Byte} (proper : (Token.word w).Proper)
    (sub : ∀ c, strchr toks c = true → strchr symbols c = true) :
    leads toks (.word w :: us) = false := by
  change strchr symbols (w.headD 0) = false at proper
  change strchr toks (w.headD 0) = false
  rw [Bool.eq_false_iff]
  intro lead
  rw [sub _ lead] at proper
  cases proper

theorem leads_arrow {t : Token} {c : Byte} (us : List Token) (arrow : Arrow t c) :
    leads [chr '<', chr '>'] (t :: us) = true ∧ leads [chr '('] (t :: us) = false ∧ t.ret = c := by
  have lead : t.lead = chr '<' ∨ t.lead = chr '>' := by
    cases arrow with
    | less => exact .inl rfl
    | greater => exact .inr rfl
    | append => exact .inr rfl
  refine ⟨?_, ?_, by cases arrow <;> rfl⟩
  · change strchr _ t.lead = true
    rcases lead with eq | eq <;> rw [eq] <;> decide
  · change strchr _ t.lead = false
    rcases lead with eq | eq <;> rw [eq] <;> decide

end Follows

theorem symbols_of_mem {toks : List Byte} (sub : ∀ c ∈ toks, c ∈ symbols) (c : Byte)
    (in_toks : strchr toks c = true) : strchr symbols c = true := by
  have mem : c ∈ toks := by simpa [strchr] using in_toks
  simpa [strchr] using sub c mem

section Parsers

variable {buf : List Byte} {ts : List Token} {rs : List (Byte × List Byte)} {us : List Token}

/-- No redirection begins with the words of a command and what follows it. -/
theorem args_stop {s : Nat} {argv : List (List Byte)} (args : Args ts argv rs)
    (follows : Follows .exec us) (at_s : ∃ pre, tokens (buf.drop s) = pre ++ (ts ++ us)) :
    leads [chr '<', chr '>'] (ts ++ us) = false := by
  cases args with
  | nil => exact follows.not_leads (by decide)
  | cons redirs args =>
    obtain ⟨pre, at_s⟩ := at_s
    have proper : ∀ t ∈ tokens (buf.drop s), t.Proper := fun t => proper_of_mem
    refine leads_word (proper _ ?_) (symbols_of_mem (by decide))
    rw [at_s]
    simp

variable (nul : (0 : Byte) ∉ buf)

include nul

theorem parseredirs_complete (redirs : Redirs ts rs) (n s : Nat) (rs0 : List (Byte × Span))
    (le : s ≤ buf.length) (fuel : buf.length - s < n) (at_s : tokens (buf.drop s) = ts ++ us)
    (stop : leads [chr '<', chr '>'] us = false) :
    Within (fun _ => False) (parseredirs buf n rs0) s fun out t => s ≤ t ∧ t ≤ buf.length ∧
      tokens (buf.drop t) = us ∧ ∃ rs1, out = rs0 ++ rs1 ∧ files buf rs1 = rs := by
  induction redirs generalizing n s rs0 with
  | nil =>
    obtain ⟨n, rfl⟩ : ∃ k, n = k + 1 := ⟨n - 1, by omega⟩
    refine .bind (within_peek le nul fun s1 le1 len1 same1 => ?_)
    rw [nil_append] at at_s
    rw [at_s, stop]
    exact ⟨le1, len1, same1.trans at_s, [], by simp, rfl⟩
  | @cons x c w ts rs arrow redirs ih =>
    obtain ⟨n, rfl⟩ : ∃ k, n = k + 1 := ⟨n - 1, by omega⟩
    have facts := leads_arrow (.word w :: ts ++ us) arrow
    refine .bind (within_peek le nul fun s1 le1 len1 same1 => ?_)
    rw [at_s, cons_append, facts.1]
    refine .bind (within_gettoken len1 nul (fun none _ _ _ _ _ => ?_) ?_)
    · rw [same1, at_s] at none
      cases none
    intro y v s2 first lt2 len2 _ _
    rw [same1, at_s] at first
    injection first with eq first
    subst eq
    refine .bind (within_gettoken len2 nul (fun none _ _ _ _ _ => ?_) ?_)
    · rw [← first] at none
      cases none
    intro y v s3 second lt3 len3 _ word
    rw [← first] at second
    injection second with eq second
    subst eq
    dsimp only
    rw [facts.2.2]
    refine (ih n s3 (rs0 ++ [(c, v)]) len3 (by omega) second.symm).mono (fun _ => id) ?_
    rintro out t ⟨le4, len4, rest, rs1, rfl, strings⟩
    refine ⟨by omega, len4, rest, (c, v) :: rs1, by simp, ?_⟩
    change (c, slice buf v) :: files buf rs1 = _
    rw [strings, (word w rfl).2]

theorem argsLoop_complete {argv : List (List Byte)} (args : Args ts argv rs) (n s : Nat)
    (argv0 : List Span) (rs0 : List (Byte × Span)) (le : s ≤ buf.length) (fuel : buf.length - s < n)
    (at_s : tokens (buf.drop s) = ts ++ us) (follows : Follows .exec us)
    (few : argv0.length + argv.length < maxArgs) :
    Within (fun _ => False) (argsLoop buf n argv0 rs0) s fun out t => s ≤ t ∧ t ≤ buf.length ∧
      tokens (buf.drop t) = us ∧ ∃ argv1 rs1, out = wrap (.exec (argv0 ++ argv1)) (rs0 ++ rs1) ∧
        argv1.map (slice buf) = argv ∧ files buf rs1 = rs := by
  induction args generalizing n s argv0 rs0 with
  | nil =>
    obtain ⟨n, rfl⟩ : ∃ k, n = k + 1 := ⟨n - 1, by omega⟩
    rw [nil_append] at at_s
    refine .bind (within_peek le nul fun s1 le1 len1 same1 => ?_)
    rcases follows with rfl | ⟨c, vs, rfl, mem⟩
    · rw [at_s]
      refine .bind (within_gettoken len1 nul (fun none _ s2 le2 len2 none2 => ?_) ?_)
      · exact ⟨by omega, len2, none2, [], [], by simp, rfl, rfl⟩
      · intro x _ _ first
        rw [same1, at_s] at first
        cases first
    · have lead : leads [chr '|', chr ')', chr '&', chr ';'] (.sym c :: vs) = true := by
        change strchr _ c = true
        revert mem
        simp only [follow, mem_cons, not_mem_nil, or_false]
        rintro (rfl | rfl | rfl | rfl) <;> decide
      rw [at_s, lead]
      exact ⟨le1, len1, same1.trans at_s, [], [], by simp, rfl, rfl⟩
  | @cons w ts vs rs rs' argv redirs args ih =>
    obtain ⟨n, rfl⟩ : ∃ k, n = k + 1 := ⟨n - 1, by omega⟩
    have proper : (Token.word w).Proper := by
      have all : ∀ t ∈ tokens (buf.drop s), t.Proper := fun t => proper_of_mem
      refine all _ ?_
      rw [at_s]
      simp
    have lead : leads [chr '|', chr ')', chr '&', chr ';']
        (.word w :: (ts ++ vs) ++ us) = false :=
      leads_word proper (symbols_of_mem (by decide))
    refine .bind (within_peek le nul fun s1 le1 len1 same1 => ?_)
    rw [at_s, lead]
    refine .bind (within_gettoken len1 nul (fun none _ _ _ _ _ => ?_) ?_)
    · rw [same1, at_s] at none
      cases none
    intro y v s2 first lt2 len2 _ word
    rw [same1, at_s] at first
    injection first with eq first
    subst eq
    have room : ¬ argv0.length + 1 ≥ maxArgs := by
      rw [length_cons] at few
      omega
    dsimp only
    rw [if_neg (ret_ne_zero proper), if_neg (fun ne => ne rfl), if_neg room]
    replace first : ts ++ (vs ++ us) = tokens (buf.drop s2) :=
      (append_assoc ..).symm.trans first
    have stop := args_stop (s := s2) args follows ⟨ts, first.symm⟩
    refine .bind ((parseredirs_complete nul redirs n s2 rs0 len2 (by omega)
      first.symm stop).mono (fun _ => id) ?_)
    rintro _ s3 ⟨le3, len3, rest, rs1, rfl, strings⟩
    refine (ih n s3 (argv0 ++ [v]) (rs0 ++ rs1) len3 (by omega) rest ?_).mono (fun _ => id) ?_
    · rw [length_cons] at few
      simp only [length_append, length_singleton]
      omega
    · rintro _ t ⟨le4, len4, rest', argv1, rs2, rfl, strings', strings''⟩
      refine ⟨by omega, len4, rest', v :: argv1, rs1 ++ rs2, by simp, ?_, ?_⟩
      · rw [map_cons, strings', (word w rfl).2]
      · have split : files buf (rs1 ++ rs2) = files buf rs1 ++ files buf rs2 := map_append
        rw [split, strings, strings'']

theorem backLoop_complete (k n s : Nat) (cmd : Cmd Span) (le : s ≤ buf.length)
    (fuel : buf.length - s < n) (at_s : tokens (buf.drop s) = replicate k (.sym (chr '&')) ++ us)
    (stop : leads [chr '&'] us = false) :
    Within (fun _ => False) (backLoop buf n cmd) s fun out t => s ≤ t ∧ t ≤ buf.length ∧
      tokens (buf.drop t) = us ∧ out = backs k cmd := by
  induction k generalizing n s cmd with
  | zero =>
    obtain ⟨n, rfl⟩ : ∃ k, n = k + 1 := ⟨n - 1, by omega⟩
    have here : tokens (buf.drop s) = us := at_s
    refine .bind (within_peek le nul fun s1 le1 len1 same1 => ?_)
    rw [here, stop]
    exact ⟨le1, len1, same1.trans here, rfl⟩
  | succ k ih =>
    obtain ⟨n, rfl⟩ : ∃ k, n = k + 1 := ⟨n - 1, by omega⟩
    have lead : leads [chr '&'] (tokens (buf.drop s)) = true := by
      rw [at_s]
      exact (by decide : strchr [chr '&'] (chr '&') = true)
    refine .bind (within_peek le nul fun s1 le1 len1 same1 => ?_)
    rw [lead]
    refine .bind (within_symbol nul len1 same1 lead fun _ s2 first lt2 len2 => ?_)
    rw [at_s] at first
    injection first with _ first
    refine (ih n s2 (.back cmd) len2 (by omega) first.symm).mono (fun _ => id) ?_
    rintro out t ⟨le3, len3, rest, rfl⟩
    exact ⟨by omega, len3, rest, rfl⟩

def parser : Nonterminal → List Byte → Nat → P (Cmd Span)
  | .line => parseline
  | .pipe => parsepipe
  | .exec => parseexec

def enough (buf : List Byte) (s : Nat) : Nonterminal → Nat
  | .line => 4 * (buf.length - s) + 4
  | .pipe => 4 * (buf.length - s) + 3
  | .exec => 4 * (buf.length - s) + 2

theorem parse_complete {N : Nonterminal} {cmd : Cmd (List Byte)} (derives : Derives N ts cmd)
    (n s : Nat) (le : s ≤ buf.length) (fuel : enough buf s N ≤ n)
    (at_s : tokens (buf.drop s) = ts ++ us) (follows : Follows N us) :
    Within (fun _ => False) (parser N buf n) s fun out t => s ≤ t ∧ t ≤ buf.length ∧
      tokens (buf.drop t) = us ∧ out.map (slice buf) = cmd := by
  induction derives generalizing n s us with
  | @line ts cmd k derives ih =>
    change 4 * (buf.length - s) + 4 ≤ n at fuel
    obtain ⟨n, rfl⟩ : ∃ k, n = k + 1 := ⟨n - 1, by omega⟩
    change Within _ (parseline buf (n + 1)) s _
    rw [parseline]
    rw [append_assoc] at at_s
    have after : Follows .pipe (replicate k (.sym (chr '&')) ++ us) := by
      cases k with
      | zero => exact follows.mono (by decide)
      | succ k => exact .sym (by decide)
    refine .bind ((ih n s le (by simp only [enough]; omega) at_s after).mono
      (fun _ => id) ?_)
    rintro c s1 ⟨le1, len1, rest1, strings⟩
    refine .bind ((backLoop_complete nul k n s1 c len1 (by omega) rest1
      (follows.not_leads (by decide))).mono (fun _ => id) ?_)
    rintro _ s2 ⟨le2, len2, rest2, rfl⟩
    refine .bind (within_peek len2 nul fun s3 le3 len3 same3 => ?_)
    rw [rest2, follows.not_leads (by decide)]
    refine ⟨by omega, len3, same3.trans rest2, ?_⟩
    rw [map_backs, strings]
  | @list ts vs cmd right k derives derives' ih ih' =>
    change 4 * (buf.length - s) + 4 ≤ n at fuel
    obtain ⟨n, rfl⟩ : ∃ k, n = k + 1 := ⟨n - 1, by omega⟩
    change Within _ (parseline buf (n + 1)) s _
    rw [parseline]
    rw [append_assoc, append_assoc] at at_s
    have after : Follows .pipe (replicate k (.sym (chr '&')) ++ (.sym (chr ';') :: vs ++ us)) := by
      cases k with
      | zero => exact .sym (by decide)
      | succ k => exact .sym (by decide)
    refine .bind ((ih n s le (by simp only [enough]; omega) at_s after).mono
      (fun _ => id) ?_)
    rintro c s1 ⟨le1, len1, rest1, strings⟩
    refine .bind ((backLoop_complete nul k n s1 c len1 (by omega) rest1
      (by exact (by decide : strchr [chr '&'] (chr ';') = false))).mono (fun _ => id) ?_)
    rintro _ s2 ⟨le2, len2, rest2, rfl⟩
    have lead : leads [chr ';'] (tokens (buf.drop s2)) = true := by
      rw [rest2]
      exact (by decide : strchr [chr ';'] (chr ';') = true)
    refine .bind (within_peek len2 nul fun s3 le3 len3 same3 => ?_)
    rw [lead]
    refine .bind (within_symbol nul len3 same3 lead fun _ s4 third lt4 len4 => ?_)
    rw [rest2] at third
    injection third with _ third
    refine .bind ((ih' n s4 len4 (by simp only [enough]; omega) third.symm
      follows).mono (fun _ => id) ?_)
    rintro r t ⟨le5, len5, rest5, strings'⟩
    refine ⟨by omega, len5, rest5, ?_⟩
    change Cmd.list _ _ = _
    rw [map_backs, strings, strings']
  | @single ts cmd derives ih =>
    change 4 * (buf.length - s) + 3 ≤ n at fuel
    obtain ⟨n, rfl⟩ : ∃ k, n = k + 1 := ⟨n - 1, by omega⟩
    change Within _ (parsepipe buf (n + 1)) s _
    rw [parsepipe]
    refine .bind ((ih n s le (by simp only [enough]; omega) at_s
      (follows.mono (by decide))).mono (fun _ => id) ?_)
    rintro c s1 ⟨le1, len1, rest1, strings⟩
    refine .bind (within_peek len1 nul fun s2 le2 len2 same2 => ?_)
    rw [rest1, follows.not_leads (by decide)]
    exact ⟨by omega, len2, same2.trans rest1, strings⟩
  | @pipe ts vs cmd right derives derives' ih ih' =>
    change 4 * (buf.length - s) + 3 ≤ n at fuel
    obtain ⟨n, rfl⟩ : ∃ k, n = k + 1 := ⟨n - 1, by omega⟩
    change Within _ (parsepipe buf (n + 1)) s _
    rw [parsepipe]
    rw [append_assoc] at at_s
    refine .bind ((ih n s le (by simp only [enough]; omega) at_s
      (.sym (by decide))).mono (fun _ => id) ?_)
    rintro c s1 ⟨le1, len1, rest1, strings⟩
    have lead : leads [chr '|'] (tokens (buf.drop s1)) = true := by
      rw [rest1]
      exact (by decide : strchr [chr '|'] (chr '|') = true)
    refine .bind (within_peek len1 nul fun s2 le2 len2 same2 => ?_)
    rw [lead]
    refine .bind (within_symbol nul len2 same2 lead fun _ s3 second lt3 len3 => ?_)
    rw [rest1] at second
    injection second with _ second
    refine .bind ((ih' n s3 len3 (by simp only [enough]; omega) second.symm
      follows).mono (fun _ => id) ?_)
    rintro r t ⟨le4, len4, rest4, strings'⟩
    refine ⟨by omega, len4, rest4, ?_⟩
    change Cmd.pipe _ _ = _
    rw [strings, strings']
  | @block ts vs cmd rs derives redirs ih =>
    change 4 * (buf.length - s) + 2 ≤ n at fuel
    obtain ⟨n, rfl⟩ : ∃ k, n = k + 2 := ⟨n - 2, by omega⟩
    change Within _ (parseexec buf (n + 1 + 1)) s _
    have lead : leads [chr '('] (tokens (buf.drop s)) = true := by
      rw [at_s]
      exact (by decide : strchr [chr '('] (chr '(') = true)
    rw [parseexec]
    refine .bind (within_peek le nul fun s1 le1 len1 same1 => ?_)
    rw [lead]
    change Within _ (parseblock buf (n + 1)) s1 _
    rw [parseblock]
    rw [← same1] at lead at_s
    refine .bind (within_peek len1 nul fun s2 le2 len2 same2 => ?_)
    rw [lead]
    refine .bind (within_symbol nul len2 same2 lead fun _ s3 first lt3 len3 => ?_)
    rw [at_s, append_assoc] at first
    injection first with _ first
    refine .bind ((ih n s3 len3 (by simp only [enough]; omega) first.symm
      (.sym (by decide))).mono (fun _ => id) ?_)
    rintro c s4 ⟨le4, len4, rest4, strings⟩
    have lead' : leads [chr ')'] (tokens (buf.drop s4)) = true := by
      rw [rest4]
      exact (by decide : strchr [chr ')'] (chr ')') = true)
    refine .bind (within_peek len4 nul fun s5 le5 len5 same5 => ?_)
    rw [lead']
    refine .bind (within_symbol nul len5 same5 lead' fun _ s6 second lt6 len6 => ?_)
    rw [rest4] at second
    injection second with _ second
    refine .bind ((parseredirs_complete nul redirs n s6 [] len6 (by omega)
      second.symm (follows.not_leads (by decide))).mono (fun _ => id) ?_)
    rintro rs0 t ⟨le7, len7, rest7, rs1, eq, strings'⟩
    obtain rfl : rs0 = rs1 := eq
    refine ⟨by omega, len7, rest7, ?_⟩
    rw [map_wrap, strings]
    exact congrArg (wrap cmd) strings'
  | @exec ts vs argv rs rs' redirs args few =>
    change 4 * (buf.length - s) + 2 ≤ n at fuel
    obtain ⟨n, rfl⟩ : ∃ k, n = k + 1 := ⟨n - 1, by omega⟩
    change Within _ (parseexec buf (n + 1)) s _
    rw [append_assoc] at at_s
    have stop := args_stop (s := s) args follows ⟨ts, at_s⟩
    have lead : leads [chr '('] (tokens (buf.drop s)) = false := by
      have proper : ∀ t ∈ tokens (buf.drop s), t.Proper := fun t => proper_of_mem
      rw [at_s] at proper ⊢
      cases redirs with
      | cons arrow _ => exact (leads_arrow _ arrow).2.1
      | nil =>
        cases args with
        | nil => exact follows.not_leads (by decide)
        | cons _ _ => exact leads_word (proper _ (by simp)) (symbols_of_mem (by decide))
    rw [parseexec]
    refine .bind (within_peek le nul fun s1 le1 len1 same1 => ?_)
    rw [lead]
    rw [← same1] at at_s
    refine .bind ((parseredirs_complete nul redirs n s1 [] len1 (by omega) at_s
      stop).mono (fun _ => id) ?_)
    rintro rs0 s2 ⟨le2, len2, rest2, rs1, eq, strings⟩
    obtain rfl : rs0 = rs1 := eq
    refine (argsLoop_complete nul args n s2 [] rs0 len2 (by omega) rest2 follows
      (by simpa using few)).mono (fun _ => id) ?_
    rintro _ t ⟨le3, len3, rest3, argv1, rs2, rfl, strings', strings''⟩
    refine ⟨by omega, len3, rest3, ?_⟩
    rw [map_wrap, ← strings, ← strings', ← strings'']
    simp [Cmd.map, files]

end Parsers

section Strings

variable {buf b : List Byte}

/-- Some characters that are in no word were overwritten with NUL. -/
def Cut (buf b : List Byte) : Prop :=
  ∀ i : Nat, b[i]? = buf[i]? ∨ b[i]? = some 0 ∧ ∃ c, buf[i]? = some c ∧ isWord c = false

/-- The string is terminated: there is a NUL after it, or the line ends there. -/
def Ended (b : List Byte) (w : Span) : Prop := (b.drop w.eq).head?.getD 0 = 0

theorem Cut.set (cut : Cut buf b) {w : Span} (word : Word buf w) : Cut buf (b.set w.eq 0) := by
  intro i
  rw [getElem?_set]
  split
  next eq =>
    subst eq
    split
    next lt =>
      refine .inr ⟨rfl, ?_⟩
      rcases cut w.eq with same | ⟨-, c, at_c, not_word⟩
      · rw [getElem?_eq_getElem lt] at same
        exact ⟨_, same.symm, word.last _ (by rw [head?_drop, ← same])⟩
      · exact ⟨c, at_c, not_word⟩
    next ge =>
      have none := getElem?_eq_none (Nat.le_of_not_lt ge)
      rw [← none]
      exact cut w.eq
  next => exact cut i

theorem ended_set (w : Span) : Ended (b.set w.eq 0) w := by
  unfold Ended
  rw [head?_drop, getElem?_set]
  split <;> [split; skip] <;> simp_all

variable {v : Span}

theorem Ended.set (ended : Ended b v) (w : Span) : Ended (b.set w.eq 0) v := by
  unfold Ended at ended ⊢
  rw [head?_drop] at ended ⊢
  rw [getElem?_set]
  split
  · split <;> rfl
  · exact ended

theorem foldl_cut (argv : List Span) (words : ∀ w ∈ argv, Word buf w) (cut : Cut buf b) :
    Cut buf (argv.foldl (fun b w => b.set w.eq 0) b) := by
  induction argv generalizing b with
  | nil => exact cut
  | cons w argv ih =>
    exact ih (fun v mem => words v (mem_cons_of_mem _ mem))
      (cut.set (words w mem_cons_self))

theorem foldl_keeps (argv : List Span) (ended : Ended b v) :
    Ended (argv.foldl (fun b w => b.set w.eq 0) b) v := by
  induction argv generalizing b with
  | nil => exact ended
  | cons w argv ih => exact ih (ended.set w)

theorem foldl_ended (argv : List Span) :
    ∀ w ∈ argv, Ended (argv.foldl (fun b w => b.set w.eq 0) b) w := by
  induction argv generalizing b with
  | nil => intro w mem; cases mem
  | cons v argv ih =>
    intro w mem
    rcases mem_cons.mp mem with rfl | mem
    · exact foldl_keeps argv (ended_set w)
    · exact ih w mem

theorem nulterminate_cut {cmd : Cmd Span} (words : cmd.All (Word buf)) (cut : Cut buf b) :
    Cut buf (nulterminate cmd b) := by
  induction cmd generalizing b with
  | exec argv => exact foldl_cut argv words cut
  | redir cmd file _ _ ih => exact (ih words.1 cut).set words.2
  | pipe left right ihl ihr => exact ihr words.2 (ihl words.1 cut)
  | list left right ihl ihr => exact ihr words.2 (ihl words.1 cut)
  | back cmd ih => exact ih words cut

theorem nulterminate_keeps (cmd : Cmd Span) (ended : Ended b v) : Ended (nulterminate cmd b) v := by
  induction cmd generalizing b with
  | exec argv => exact foldl_keeps argv ended
  | redir cmd file _ _ ih => exact (ih ended).set file
  | pipe left right ihl ihr => exact ihr (ihl ended)
  | list left right ihl ihr => exact ihr (ihl ended)
  | back cmd ih => exact ih ended

variable {V : Type} {cmd : Cmd V}

theorem Cmd.All.mono {ok ok' : V → Prop} (all : cmd.All ok) (sub : ∀ w, ok w → ok' w) :
    cmd.All ok' := by
  induction cmd with
  | exec argv => exact fun w mem => sub w (all w mem)
  | redir cmd file _ _ ih => exact ⟨ih all.1, sub file all.2⟩
  | pipe left right ihl ihr => exact ⟨ihl all.1, ihr all.2⟩
  | list left right ihl ihr => exact ⟨ihl all.1, ihr all.2⟩
  | back cmd ih => exact ih all

theorem Cmd.All.and {ok ok' : V → Prop} (all : cmd.All ok) (all' : cmd.All ok') :
    cmd.All fun w => ok w ∧ ok' w := by
  induction cmd with
  | exec argv => exact fun w mem => ⟨all w mem, all' w mem⟩
  | redir cmd file _ _ ih => exact ⟨ih all.1 all'.1, all.2, all'.2⟩
  | pipe left right ihl ihr => exact ⟨ihl all.1 all'.1, ihr all.2 all'.2⟩
  | list left right ihl ihr => exact ⟨ihl all.1 all'.1, ihr all.2 all'.2⟩
  | back cmd ih => exact ih all all'

theorem Cmd.All.map_congr {W : Type} {f g : V → W} (same : cmd.All fun w => f w = g w) :
    cmd.map f = cmd.map g := by
  induction cmd with
  | exec argv => exact congrArg Cmd.exec (map_congr_left same)
  | redir cmd file _ _ ih => rw [Cmd.map, Cmd.map, ih same.1, same.2]
  | pipe left right ihl ihr => rw [Cmd.map, Cmd.map, ihl same.1, ihr same.2]
  | list left right ihl ihr => rw [Cmd.map, Cmd.map, ihl same.1, ihr same.2]
  | back cmd ih => rw [Cmd.map, Cmd.map, ih same]

theorem nulterminate_ended (cmd : Cmd Span) : cmd.All (Ended (nulterminate cmd b)) := by
  induction cmd generalizing b with
  | exec argv => exact foldl_ended argv
  | redir cmd file _ _ ih => exact ⟨ih.mono fun w ended => ended.set file, ended_set file⟩
  | pipe left right ihl ihr => exact ⟨ihl.mono fun w => nulterminate_keeps right, ihr⟩
  | list left right ihl ihr => exact ⟨ihl.mono fun w => nulterminate_keeps right, ihr⟩
  | back cmd ih => exact ih

theorem Cut.slice_eq (cut : Cut buf b) {w : Span} (word : Word buf w) :
    slice b w = slice buf w := by
  apply ext_getElem?
  intro i
  unfold slice
  rw [getElem?_take, getElem?_take]
  split
  next lt =>
    rw [getElem?_drop, getElem?_drop]
    rcases cut (w.q + i) with same | ⟨-, c, at_c, not_word⟩
    · exact same
    · have mem : c ∈ slice buf w := by
        refine mem_of_getElem? (i := i) ?_
        rw [slice, getElem?_take, if_pos lt, getElem?_drop, at_c]
      rw [word.chars c mem] at not_word
      cases not_word
  next => rfl

theorem Cut.cstr_eq (cut : Cut buf b) (nul : (0 : Byte) ∉ buf) {w : Span} (word : Word buf w)
    (ended : Ended b w) : cstr b w = slice buf w := by
  have split : b.drop w.q = slice b w ++ b.drop w.eq := by
    have at_eq : w.q + (w.eq - w.q) = w.eq := Nat.add_sub_cancel' (Nat.le_of_lt word.lt)
    rw [slice, ← at_eq, ← drop_drop, Nat.add_sub_cancel_left, take_append_drop]
  have chars : ∀ c ∈ slice b w, (c != 0) = true := by
    intro c mem
    rw [cut.slice_eq word] at mem
    have : c ≠ 0 := fun eq => nul (eq ▸ mem_of_mem_drop (mem_of_mem_take mem))
    simpa using this
  have stop : (b.drop w.eq).takeWhile (· != 0) = [] := by
    unfold Ended at ended
    cases at_eq : b.drop w.eq with
    | nil => rfl
    | cons c cs =>
      rw [at_eq] at ended
      obtain rfl : c = 0 := ended
      rfl
  rw [cstr, split, takeWhile_append_of_pos chars, stop, append_nil, cut.slice_eq word]

theorem Word.apart {v w : Span} (word : Word buf v) (other : Word buf w) :
    w.eq < v.q ∨ v.eq ≤ w.eq := by
  by_contra inside
  have le := word.le
  have lt : w.eq < buf.length := by omega
  have member : buf[w.eq] ∈ slice buf v := by
    refine mem_iff_getElem?.mpr ⟨w.eq - v.q, ?_⟩
    rw [slice, getElem?_take_of_lt (by omega), getElem?_drop, ← getElem?_eq_getElem lt]
    congr 1
    omega
  have ends := other.last _ (by rw [head?_drop, getElem?_eq_getElem lt])
  rw [word.chars _ member] at ends
  cases ends

/-- After `nulterminate` the strings of a command are its words. -/
theorem map_nulterminate {cmd : Cmd Span} (nul : (0 : Byte) ∉ buf) (words : cmd.All (Word buf)) :
    cmd.map (cstr (nulterminate cmd buf)) = cmd.map (slice buf) := by
  have cut : Cut buf (nulterminate cmd buf) := nulterminate_cut words fun i => .inl rfl
  exact ((words.and (nulterminate_ended cmd)).mono fun w both =>
    cut.cstr_eq nul both.1 both.2).map_congr

end Strings

section

variable {buf : List Byte}

theorem parsecmd_cases {E : Stop → Prop} {Q : Cmd Span → Nat → Prop}
    (within : Within E (parseline buf (rounds buf)) 0 Q) :
    (∃ why, parsecmd buf = .error why ∧ E why) ∨ ∃ cmd t, Q cmd t ∧
      parsecmd buf = if skip buf isSpace t ≠ buf.length then .error .syntaxError
        else .ok (cmd, nulterminate cmd buf) := by
  cases eq : parseline buf (rounds buf) 0 with
  | error why => exact .inl ⟨why, by rw [parsecmd, Prog.bind_error eq], (within_error eq).mp within⟩
  | ok r =>
    refine .inr ⟨r.1, r.2, (within_ok eq).mp within, ?_⟩
    rw [parsecmd, Prog.bind_ok eq]
    rfl

theorem dropWhile_eq_nil_of_tokens {line : List Byte} (none : tokens line = []) :
    line.dropWhile isSpace = [] := by
  cases rest : line.dropWhile isSpace with
  | nil => rfl
  | cons c cs =>
    rw [← tokens_space, rest, tokens_cons cs (head_not_space line rest)] at none
    split at none
    · cases none
    · split at none <;> cases none

variable (nul : (0 : Byte) ∉ buf)

include nul

theorem parsecmd_sound : (∀ cmd out, parsecmd buf = .ok (cmd, out) →
      Derives .line (tokens buf) (cmd.map (cstr out))) ∧
    ∀ why, parsecmd buf = .error why → SyntaxError why := by
  have parsed := (parse_sound nul (rounds buf)).1 0 (Nat.zero_le _) (Nat.le_refl _)
  rcases parsecmd_cases parsed with ⟨why, stops, error⟩ |
    ⟨cmd, t, ⟨-, len, words, ts, split, derives⟩, ends⟩
  · rw [stops]
    exact ⟨fun _ _ eq => (by cases eq), fun _ eq => (by cases eq; exact error)⟩
  · rw [ends]
    by_cases at_end : skip buf isSpace t = buf.length
    · rw [if_neg (not_not.mpr at_end)]
      refine ⟨fun _ _ eq => ?_, fun _ eq => (by cases eq)⟩
      cases eq
      have none : tokens (buf.drop t) = [] := by
        rw [← tokens_space, ← drop_skip, at_end, drop_length, tokens_nil]
      rw [drop_zero, none, append_nil] at split
      rw [map_nulterminate nul words, split]
      exact derives
    · rw [if_pos at_end]
      exact ⟨fun _ _ eq => (by cases eq), fun _ eq => (by cases eq; exact ⟨by decide, by decide⟩)⟩

/-- `nulterminate` isolates every token: each string of the command is read back from the changed
line as it stood there, and no terminator falls inside or at the start of a token. -/
theorem nulterminate_isolates {cmd : Cmd Span} {out : List Byte}
    (accepted : parsecmd buf = .ok (cmd, out)) :
    (cmd.All fun w => w.q < w.eq ∧ w.eq ≤ buf.length ∧ cstr out w = slice buf w) ∧
      cmd.All fun v => cmd.All fun w => w.eq < v.q ∨ v.eq ≤ w.eq := by
  have parsed := (parse_sound nul (rounds buf)).1 0 (Nat.zero_le _) (Nat.le_refl _)
  rcases parsecmd_cases parsed with ⟨why, stops, -⟩ | ⟨cmd', t, ⟨-, -, words, -⟩, ends⟩
  · rw [stops] at accepted
    cases accepted
  · rw [accepted] at ends
    split at ends
    · cases ends
    · cases ends
      have cut : Cut buf (nulterminate cmd buf) := nulterminate_cut words fun i => .inl rfl
      exact ⟨(words.and (nulterminate_ended cmd)).mono fun w both =>
          ⟨both.1.lt, both.1.le, cut.cstr_eq nul both.1 both.2⟩,
        words.mono fun v word => words.mono fun w other => word.apart other⟩

theorem parsecmd_complete {c : Cmd (List Byte)} (derives : Derives .line (tokens buf) c) :
    ∃ cmd out, parsecmd buf = .ok (cmd, out) ∧ cmd.map (cstr out) = c := by
  have at_start : tokens (buf.drop 0) = tokens buf ++ [] := by simp
  have accepted := parse_complete nul derives (rounds buf) 0 (Nat.zero_le _) (Nat.le_refl _)
    at_start (.inl rfl)
  have parsed := (parse_sound nul (rounds buf)).1 0 (Nat.zero_le _) (Nat.le_refl _)
  rcases parsecmd_cases (accepted.and parsed) with ⟨_, _, never, _⟩ |
    ⟨cmd, t, ⟨⟨-, len, none, strings⟩, -, -, words, -⟩, ends⟩
  · exact never.elim
  · have at_end : skip buf isSpace t = buf.length := by
      have rest : buf.drop (skip buf isSpace t) = [] := by
        rw [drop_skip]
        exact dropWhile_eq_nil_of_tokens none
      have := drop_eq_nil_iff.mp rest
      have := skip_le isSpace len
      omega
    rw [if_neg (not_not.mpr at_end)] at ends
    exact ⟨cmd, _, ends, (map_nulterminate nul words).trans strings⟩

end

def pipeLine : List Byte := [chr 'a', chr '>', chr 'b', chr '|', chr 'c']

theorem nulterminate_isolates_pipe : ∃ cmd out, parsecmd pipeLine = .ok (cmd, out) ∧
    (cmd.All fun w => w.q < w.eq ∧ w.eq ≤ pipeLine.length ∧ cstr out w = slice pipeLine w) ∧
      cmd.All fun v => cmd.All fun w => w.eq < v.q ∨ v.eq ≤ w.eq :=
  have accepted : parsecmd pipeLine = .ok
    (.pipe (.redir (.exec [⟨0, 1⟩]) ⟨2, 3⟩ 0x201 1) (.exec [⟨4, 5⟩]),
      [chr 'a', 0, chr 'b', 0, chr 'c']) := rfl
  ⟨_, _, accepted, nulterminate_isolates (by decide) accepted⟩

/-- The parser accepts the lines of the grammar, and gives the command of the line; on every other
line it stops with a message about it. -/
theorem parsecmd_correct (buf : List Byte) (nul : (0 : Byte) ∉ buf) :
    match parsecmd buf with
    | .ok (cmd, out) => ∀ c, Derives .line (tokens buf) c ↔ c = cmd.map (cstr out)
    | .error why => SyntaxError why ∧ ∀ c, ¬ Derives .line (tokens buf) c := by
  have sound := parsecmd_sound nul
  have complete := fun c => parsecmd_complete (c := c) nul
  rcases result : parsecmd buf with why | ⟨cmd, out⟩
  · refine ⟨sound.2 why result, fun c derives => ?_⟩
    obtain ⟨cmd, out, ok, -⟩ := complete c derives
    rw [result] at ok
    cases ok
  · intro c
    constructor
    · intro derives
      obtain ⟨cmd', out', ok, eq⟩ := complete c derives
      rw [result] at ok
      cases ok
      exact eq.symm
    · rintro rfl
      exact sound.1 cmd out result

/-- The line `(a<b;c)&`: a block in the background, with a redirection in it. -/
def blockLine : List Byte :=
  [chr '(', chr 'a', chr '<', chr 'b', chr ';', chr 'c', chr ')', chr '&']

theorem parsecmd_correct_block : (0 : Byte) ∉ blockLine ∧ Derives .line (tokens blockLine)
    (.back (.list (.redir (.exec [[chr 'a']]) [chr 'b'] 0 0) (.exec [[chr 'c']]))) := by
  have nul : (0 : Byte) ∉ blockLine := by decide
  refine ⟨nul, ?_⟩
  have correct := parsecmd_correct blockLine nul
  have result : parsecmd blockLine = .ok
      (.back (.list (.redir (.exec [⟨1, 2⟩]) ⟨3, 4⟩ 0 0) (.exec [⟨5, 6⟩])),
        [chr '(', chr 'a', 0, chr 'b', 0, chr 'c', 0, chr '&']) := by rfl
  rw [result] at correct
  exact (correct _).mpr (by decide)

end Xv6.Sh
