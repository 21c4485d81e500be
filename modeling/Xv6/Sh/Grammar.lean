import Xv6.Sh.Parser

/-!
# The grammar of the shell

What the parser is for, stated without it: the tokens of a line, and which sequences of tokens are
which commands.

    line  ::= pipe '&'* [';' line]
    pipe  ::= exec ['|' pipe]
    exec  ::= '(' line ')' redir* | redir* (word redir*)*
    redir ::= ('<' | '>' | '>>') word
-/

namespace Xv6.Sh

inductive Token
  | sym (c : Byte)
  | append
  | word (w : List Byte)
  deriving DecidableEq

def tokens : List Byte → List Token
  | [] => []
  | c :: cs =>
    if isSpace c then tokens cs
    else if c = chr '>' ∧ cs.head? = some (chr '>') then .append :: tokens cs.tail
    else if strchr symbols c then .sym c :: tokens cs
    else .word (c :: cs.takeWhile isWord) :: tokens (cs.dropWhile isWord)
termination_by line => line.length
decreasing_by
  · simp
  · simp only [List.length_tail, List.length_cons]
    omega
  · simp
  · have := (List.dropWhile_suffix (l := cs) isWord).length_le
    simp
    omega

/-- The arrow of a redirection: the token, and what `gettoken` calls it. -/
inductive Arrow : Token → Byte → Prop
  | less : Arrow (.sym (chr '<')) (chr '<')
  | greater : Arrow (.sym (chr '>')) (chr '>')
  | append : Arrow .append (chr '+')

inductive Redirs : List Token → List (Byte × List Byte) → Prop
  | nil : Redirs [] []
  | cons {t : Token} {c : Byte} {w : List Byte} {ts : List Token} {rs : List (Byte × List Byte)} :
      Arrow t c → Redirs ts rs → Redirs (t :: .word w :: ts) ((c, w) :: rs)

inductive Args : List Token → List (List Byte) → List (Byte × List Byte) → Prop
  | nil : Args [] [] []
  | cons {w : List Byte} {ts us : List Token} {rs rs' : List (Byte × List Byte)}
      {argv : List (List Byte)} :
      Redirs ts rs → Args us argv rs' → Args (.word w :: (ts ++ us)) (w :: argv) (rs ++ rs')

inductive Nonterminal
  | line
  | pipe
  | exec

def backs {W : Type} : Nat → Cmd W → Cmd W
  | 0, cmd => cmd
  | n + 1, cmd => backs n (.back cmd)

inductive Derives : Nonterminal → List Token → Cmd (List Byte) → Prop
  | line {ts : List Token} {cmd : Cmd (List Byte)} (n : Nat) :
      Derives .pipe ts cmd → Derives .line (ts ++ List.replicate n (.sym (chr '&'))) (backs n cmd)
  | list {ts us : List Token} {cmd right : Cmd (List Byte)} (n : Nat) :
      Derives .pipe ts cmd → Derives .line us right →
      Derives .line (ts ++ List.replicate n (.sym (chr '&')) ++ .sym (chr ';') :: us)
        (.list (backs n cmd) right)
  | single {ts : List Token} {cmd : Cmd (List Byte)} : Derives .exec ts cmd → Derives .pipe ts cmd
  | pipe {ts us : List Token} {cmd right : Cmd (List Byte)} :
      Derives .exec ts cmd → Derives .pipe us right →
      Derives .pipe (ts ++ .sym (chr '|') :: us) (.pipe cmd right)
  | block {ts us : List Token} {cmd : Cmd (List Byte)} {rs : List (Byte × List Byte)} :
      Derives .line ts cmd → Redirs us rs →
      Derives .exec (.sym (chr '(') :: ts ++ .sym (chr ')') :: us) (wrap cmd rs)
  | exec {ts us : List Token} {argv : List (List Byte)} {rs rs' : List (Byte × List Byte)} :
      Redirs ts rs → Args us argv rs' → argv.length < maxArgs →
      Derives .exec (ts ++ us) (wrap (.exec argv) (rs ++ rs'))

end Xv6.Sh
