import Xv6.Lib.Prog

/-!
# The parser of the shell

`sh.c` from `gettoken` to `nulterminate`.  A pointer into the line is an index, and the character
at the end of the line is NUL.  The parsers work on the index `*ps`; the recursion is on a number
of rounds, and `hang` stands for a parser that would need more of them.

Words are pairs of pointers, as `argv` and `eargv` in the source, until `nulterminate` turns them
into strings.
-/

namespace Xv6.Sh

abbrev Byte := BitVec 8

def chr (c : Char) : Byte := BitVec.ofNat 8 c.toNat

def maxArgs : Nat := 10

def whitespace : List Byte := [chr ' ', chr '\t', chr '\r', chr '\n', 11]

def symbols : List Byte := [chr '<', chr '|', chr '>', chr '&', chr ';', chr '(', chr ')']

/-- `strchr(toks, c)`, as a truth value; `c` is not NUL. -/
def strchr (toks : List Byte) (c : Byte) : Bool := toks.contains c

def isSpace (c : Byte) : Bool := strchr whitespace c

def isWord (c : Byte) : Bool := !isSpace c && !strchr symbols c

structure Span where
  q : Nat
  eq : Nat
  deriving DecidableEq

/-- `struct cmd`, over the strings `W`. -/
inductive Cmd (W : Type)
  | exec (argv : List W)
  | redir (cmd : Cmd W) (file : W) (mode fd : Nat)
  | pipe (left right : Cmd W)
  | list (left right : Cmd W)
  | back (cmd : Cmd W)
  deriving DecidableEq

/-- The messages of `panic`, and a parser that does not come to an end. -/
inductive Stop
  | syntaxError
  | missingFile
  | missingParen
  | tooManyArgs
  | parseblock
  | hang
  deriving DecidableEq

abbrev P := Prog Stop Nat

section

variable (buf : List Byte)

def char (s : Nat) : Byte := buf.getD s 0

/-- `while(s < es && test(*s)) s++`. -/
def skip (test : Byte → Bool) (s : Nat) : Nat := s + ((buf.drop s).takeWhile test).length

/-- The `switch` of `gettoken`: `ret`, and `s` after the token. -/
def scan (s : Nat) : Byte × Nat :=
  let c := char buf s
  if c = 0 then (c, s)
  else if strchr [chr '|', chr '(', chr ')', chr ';', chr '&', chr '<'] c then (c, s + 1)
  else if c = chr '>' then
    if char buf (s + 1) = chr '>' then (chr '+', s + 2) else (c, s + 1)
  else (chr 'a', skip buf isWord s)

def gettoken : P (Byte × Span) := fun ps =>
  let s := skip buf isSpace ps
  let (ret, eq) := scan buf s
  .ok ((ret, ⟨s, eq⟩), skip buf isSpace eq)

def peek (toks : List Byte) : P Bool := fun ps =>
  let s := skip buf isSpace ps
  .ok (char buf s != 0 && strchr toks (char buf s), s)

/-- The redirection by one of the tokens `<`, `>` and `>>`, where `gettoken` returns `+` for the
last; `O_WRONLY|O_CREATE` is `0x201`. -/
def redircmd {W : Type} (cmd : Cmd W) (r : Byte × W) : Cmd W :=
  if r.1 = chr '<' then .redir cmd r.2 0 0
  else if r.1 = chr '>' then .redir cmd r.2 0x201 1
  else if r.1 = chr '+' then .redir cmd r.2 0x201 1
  else cmd

/-- A command inside its redirections, the last one outermost. -/
def wrap {W : Type} (cmd : Cmd W) (redirs : List (Byte × W)) : Cmd W := redirs.foldl redircmd cmd

/-- `parseredirs`: it adds to the redirections around a command.  `parseexec` goes on to fill in the
command under them, so that they are put together in the end. -/
def parseredirs : Nat → List (Byte × Span) → P (List (Byte × Span))
  | 0, _ => Prog.stop .hang
  | n + 1, redirs => do
      if ← peek buf [chr '<', chr '>'] then
        let (tok, _) ← gettoken buf
        let (tok', w) ← gettoken buf
        if tok' ≠ chr 'a' then Prog.stop .missingFile
        else parseredirs n (redirs ++ [(tok, w)])
      else pure redirs

def argsLoop : Nat → List Span → List (Byte × Span) → P (Cmd Span)
  | 0, _, _ => Prog.stop .hang
  | n + 1, argv, redirs => do
      if ← peek buf [chr '|', chr ')', chr '&', chr ';'] then pure (wrap (.exec argv) redirs)
      else
        let (tok, w) ← gettoken buf
        if tok = 0 then pure (wrap (.exec argv) redirs)
        else if tok ≠ chr 'a' then Prog.stop .syntaxError
        else if argv.length + 1 ≥ maxArgs then Prog.stop .tooManyArgs
        else
          let redirs ← parseredirs buf n redirs
          argsLoop n (argv ++ [w]) redirs

def backLoop : Nat → Cmd Span → P (Cmd Span)
  | 0, _ => Prog.stop .hang
  | n + 1, cmd => do
      if ← peek buf [chr '&'] then
        let _ ← gettoken buf
        backLoop n (.back cmd)
      else pure cmd

mutual

def parseline : Nat → P (Cmd Span)
  | 0 => Prog.stop .hang
  | n + 1 => do
      let cmd ← parsepipe n
      let cmd ← backLoop buf n cmd
      if ← peek buf [chr ';'] then
        let _ ← gettoken buf
        let right ← parseline n
        pure (.list cmd right)
      else pure cmd

def parsepipe : Nat → P (Cmd Span)
  | 0 => Prog.stop .hang
  | n + 1 => do
      let cmd ← parseexec n
      if ← peek buf [chr '|'] then
        let _ ← gettoken buf
        let right ← parsepipe n
        pure (.pipe cmd right)
      else pure cmd

def parseexec : Nat → P (Cmd Span)
  | 0 => Prog.stop .hang
  | n + 1 => do
      if ← peek buf [chr '('] then parseblock n
      else
        let redirs ← parseredirs buf n []
        argsLoop buf n [] redirs

def parseblock : Nat → P (Cmd Span)
  | 0 => Prog.stop .hang
  | n + 1 => do
      if !(← peek buf [chr '(']) then Prog.stop .parseblock
      else
        let _ ← gettoken buf
        let cmd ← parseline n
        if !(← peek buf [chr ')']) then Prog.stop .missingParen
        else
          let _ ← gettoken buf
          let redirs ← parseredirs buf n []
          pure (wrap cmd redirs)

end

def rounds : Nat := 4 * buf.length + 4

end

def nulterminate : Cmd Span → List Byte → List Byte
  | .exec argv, buf => argv.foldl (fun b w => b.set w.eq 0) buf
  | .redir cmd file _ _, buf => (nulterminate cmd buf).set file.eq 0
  | .pipe left right, buf => nulterminate right (nulterminate left buf)
  | .list left right, buf => nulterminate right (nulterminate left buf)
  | .back cmd, buf => nulterminate cmd buf

def parsecmd (buf : List Byte) : Except Stop (Cmd Span × List Byte) :=
  match
    (do let cmd ← parseline buf (rounds buf); let _ ← peek buf []; pure cmd : P (Cmd Span)) 0 with
  | .error why => .error why
  | .ok (cmd, s) => if s ≠ buf.length then .error .syntaxError else .ok (cmd, nulterminate cmd buf)

def cstr (buf : List Byte) (w : Span) : List Byte := (buf.drop w.q).takeWhile (· != 0)

def Cmd.map {V W : Type} (f : V → W) : Cmd V → Cmd W
  | .exec argv => .exec (argv.map f)
  | .redir cmd file mode fd => .redir (cmd.map f) (f file) mode fd
  | .pipe left right => .pipe (left.map f) (right.map f)
  | .list left right => .list (left.map f) (right.map f)
  | .back cmd => .back (cmd.map f)

end Xv6.Sh
