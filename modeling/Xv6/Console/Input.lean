import Xv6.Lib.Fifo
import Xv6.Lib.Lts

/-!
# Console input

`consoleintr` and `consoleread` of `console.c`.  Both hold `cons.lock`, except where `consoleread`
sleeps; so a step of the system is what one of them does between taking the lock and letting it go.
A process that sleeps may go on at any time: the test before the `sleep` is made again.

The echo on the screen and the listing by `^P` do not touch the input and are left out.

`typed` and `events` are history.  `typed` is the text as an editor of lines sees it, without a
buffer: what was committed since the start, and the line under the cursor.  `events` is what the
readers were given, in the order in which they took it.
-/

namespace Xv6.Console

abbrev Byte := BitVec 8

abbrev inputBuf : Nat := 128

/-- `C(x)`. -/
def ctrl (x : Char) : Byte := BitVec.ofNat 8 (x.toNat - '@'.toNat)

def newline : Byte := BitVec.ofNat 8 '\n'.toNat

def cr : Byte := BitVec.ofNat 8 '\r'.toNat

def del : Byte := 0x7f

/-- `struct input`; `ring` has its fields `buf`, `r` and `e`. -/
structure Input where
  ring : Fifo 32 inputBuf Byte
  w : BitVec 32

namespace Input

def r (i : Input) : BitVec 32 := i.ring.nread

def e (i : Input) : BitVec 32 := i.ring.nwrite

def erase (i : Input) : Input := { i with ring := i.ring.unpush }

/-- The loop of `^U`, with the number of its rounds up to `input.w`. -/
def killLine : Nat → Input → Input
  | 0, i => i
  | n + 1, i => if i.e ≠ i.w ∧ i.ring.last ≠ newline then killLine n i.erase else i

def key (i : Input) (c : Byte) : Input :=
  if c = ctrl 'P' then i
  else if c = ctrl 'U' then i.killLine (i.e - i.w).toNat
  else if c = ctrl 'H' ∨ c = del then if i.e ≠ i.w then i.erase else i
  else if c ≠ 0 ∧ (i.e - i.r).toNat < inputBuf then
    let c := if c = cr then newline else c
    let i : Input := { i with ring := i.ring.push c }
    if c = newline ∨ c = ctrl 'D' ∨ i.e = i.r + BitVec.ofNat 32 inputBuf then { i with w := i.e }
    else i
  else i

def consoleintr (i : Input) (cs : List Byte) : Input := cs.foldl key i

end Input

/-- How `consoleread` lets go of `cons.lock`: in `sleep` with `n` bytes to go, or to return `got`
or -1. -/
inductive Outcome
  | sleep (n : Nat) (got : List Byte)
  | ret (got : List Byte)
  | killed
  deriving DecidableEq

/-- The loop of `consoleread`; `got` is what it copied to `dst` so far. -/
def consoleread (killed : Bool) (target : Nat) : Nat → List Byte → Input → Outcome × Input
  | 0, got, i => (.ret got, i)
  | n + 1, got, i =>
    if i.r = i.w then (if killed then .killed else .sleep (n + 1) got, i)
    else
      let c := i.ring.head
      let i := { i with ring := i.ring.pop }
      if c = ctrl 'D' then
        (.ret got, if n + 1 < target then { i with ring := i.ring.unpop } else i)
      else if c = newline then (.ret (got ++ [c]), i)
      else consoleread killed target n (got ++ [c]) i

structure Reading where
  target : Nat
  n : Nat
  got : List Byte
  deriving DecidableEq

structure Text where
  committed : List Byte
  line : List Byte
  deriving DecidableEq

namespace Text

def commit (t : Text) : Text := ⟨t.committed ++ t.line, []⟩

/-- What a key does to the text, when the first `taken` characters of it have been read.  There is
room for `inputBuf` characters that have not, and a line that takes up the last of it is
committed. -/
def key (taken : Nat) (t : Text) (c : Byte) : Text :=
  if c = ctrl 'P' ∨ c = 0 then t
  else if c = ctrl 'U' then { t with line := [] }
  else if c = ctrl 'H' ∨ c = del then { t with line := t.line.dropLast }
  else if t.committed.length + t.line.length < taken + inputBuf then
    let c := if c = cr then newline else c
    let t : Text := { t with line := t.line ++ [c] }
    if c = newline ∨ c = ctrl 'D' ∨ t.committed.length + t.line.length = taken + inputBuf then
      t.commit
    else t
  else t

end Text

inductive Event (P : Type)
  | byte (p : P) (c : Byte)
  | eof (p : P)
  deriving DecidableEq

def Event.char {P : Type} : Event P → Byte
  | .byte _ c => c
  | .eof _ => ctrl 'D'

structure State (P : Type) where
  input : Input
  reads : P → Option Reading
  typed : Text
  events : List (Event P)

def State.init (P : Type) : State P where
  input := ⟨⟨fun _ => 0, 0, 0⟩, 0⟩
  reads _ := none
  typed := ⟨[], []⟩
  events := []

inductive Label (P : Type)
  /-- `consoleintr`. -/
  | intr (cs : List Byte)
  /-- A call of `consoleread`, before it takes the lock. -/
  | call (p : P) (n : Nat)
  /-- `consoleread`, up to its next `sleep` or its end. -/
  | read (p : P)

def Outcome.events {P : Type} (p : P) (rd : Reading) : Outcome → List (Event P)
  | .sleep _ got => (got.drop rd.got.length).map (.byte p)
  | .ret got => (got.drop rd.got.length).map (.byte p) ++
      if got = [] ∧ 0 < rd.target then [.eof p] else []
  | .killed => []

def Outcome.reading (target : Nat) : Outcome → Option Reading
  | .sleep n got => some ⟨target, n, got⟩
  | .ret _ => none
  | .killed => none

section System

variable {P : Type} [DecidableEq P]

def State.intr (s : State P) (cs : List Byte) : State P :=
  { s with
    input := s.input.consoleintr cs
    typed := cs.foldl (Text.key s.events.length) s.typed }

def State.call (s : State P) (p : P) (n : Nat) : State P :=
  { s with reads := Function.update s.reads p (some ⟨n, n, []⟩) }

def State.read (s : State P) (p : P) (rd : Reading) : State P :=
  let result := consoleread false rd.target rd.n rd.got s.input
  { s with
    input := result.2
    reads := Function.update s.reads p (result.1.reading rd.target)
    events := s.events ++ result.1.events p rd }

def step (s : State P) : Label P → Option (State P)
  | .intr cs => some (s.intr cs)
  | .call p n => if s.reads p = none then some (s.call p n) else none
  | .read p => (s.reads p).map (s.read p)

def system (P : Type) [DecidableEq P] : Lts (State P) (Label P) :=
  .ofFun (fun s => s = State.init P) step

end System

end Xv6.Console
