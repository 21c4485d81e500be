import Xv6.Param
import Xv6.Sh.Correct
import Mathlib.Logic.Function.Basic

/-!
# Running a command

`runcmd` of `sh.c`: what the processes that it forks do to their descriptors before they call `exec`
or `wait`.  Descriptors are private to a process, so the order in which the processes run does not
matter, and the calls are listed in the order of the command.  `path` is the place of a command in
the command of the line, innermost step first; it names the pipe that a pipe command makes.

`network` is what a command is for: each program has the descriptors of the shell, with its standard
input or output replaced by the files and the pipes on the way to it.
-/

namespace Xv6.Sh

open Function List

variable {F : Type}

/-- What a descriptor refers to. -/
inductive End (F : Type)
  | file (f : F)
  | pipe (path : List Nat) (writes : Bool)

abbrev Fds (F : Type) := Nat → Option (End F)

def Fds.close (fds : Fds F) (fd : Nat) : Fds F := update fds fd none

def fdalloc (fds : Fds F) (x : End F) : Option (Nat × Fds F) :=
  ((range nofile).find? fun fd => (fds fd).isNone).map fun fd => (fd, update fds fd (some x))

/-- `dup`, whose result `runcmd` does not look at. -/
def Fds.dup (fds : Fds F) (fd : Nat) : Fds F :=
  match (fds fd).bind (fdalloc fds) with
  | none => fds
  | some (_, t) => t

def Fds.pipe (fds : Fds F) (path : List Nat) : Option (Nat × Nat × Fds F) := do
  let (p0, t) ← fdalloc fds (.pipe path false)
  let (p1, t) ← fdalloc t (.pipe path true)
  pure (p0, p1, t)

/-- What the calls of the command at a path come to; `fork` has the number of the call. -/
structure Env (F : Type) where
  openFile : List Nat → List Byte → Nat → Option F
  pipe : List Nat → Bool
  fork : List Nat → Nat → Bool
  exec : List Nat → Bool

inductive Event (F : Type)
  | exec (path : List Nat) (argv : List (List Byte)) (fds : Fds F)
  | wait (path : List Nat) (fds : Fds F)
  | printf (format : String) (arg : List Byte)
  | panic (why : String)

def runcmd (env : Env F) : Cmd (List Byte) → List Nat → Fds F → List (Event F)
  | .exec [], _, _ => []
  | .exec (name :: args), path, fds =>
    .exec path (name :: args) fds ::
      if env.exec path then [] else [.printf "exec %s failed\n" name]
  | .redir cmd file mode fd, path, fds =>
    match (env.openFile path file mode).bind fun f => fdalloc (fds.close fd) (.file f) with
    | none => [.printf "open %s failed\n" file]
    | some (_, t) => runcmd env cmd (0 :: path) t
  | .list left right, path, fds =>
    if env.fork path 0 then
      runcmd env left (0 :: path) fds ++ .wait path fds :: runcmd env right (1 :: path) fds
    else [.panic "fork"]
  | .pipe left right, path, fds =>
    match if env.pipe path then fds.pipe path else none with
    | none => [.panic "pipe"]
    | some (p0, p1, t) =>
      if env.fork path 0 then
        runcmd env left (0 :: path) ((((t.close 1).dup p1).close p0).close p1) ++
          if env.fork path 1 then
            runcmd env right (1 :: path) ((((t.close 0).dup p0).close p0).close p1) ++
              replicate 2 (.wait path ((t.close p0).close p1))
          else [.panic "fork"]
      else [.panic "fork"]
  | .back cmd, path, fds =>
    if env.fork path 0 then runcmd env cmd (0 :: path) fds else [.panic "fork"]

def network (env : Env F) : Cmd (List Byte) → List Nat → Fds F → List (Event F)
  | .exec [], _, _ => []
  | .exec (name :: args), path, fds =>
    .exec path (name :: args) fds ::
      if env.exec path then [] else [.printf "exec %s failed\n" name]
  | .redir cmd file mode fd, path, fds =>
    match env.openFile path file mode with
    | none => [.printf "open %s failed\n" file]
    | some f => network env cmd (0 :: path) (update fds fd (some (.file f)))
  | .list left right, path, fds =>
    if env.fork path 0 then
      network env left (0 :: path) fds ++ .wait path fds :: network env right (1 :: path) fds
    else [.panic "fork"]
  | .pipe left right, path, fds =>
    if env.pipe path then
      if env.fork path 0 then
        network env left (0 :: path) (update fds 1 (some (.pipe path true))) ++
          if env.fork path 1 then
            network env right (1 :: path) (update fds 0 (some (.pipe path false))) ++
              replicate 2 (.wait path fds)
          else [.panic "fork"]
      else [.panic "fork"]
    else [.panic "pipe"]
  | .back cmd, path, fds =>
    if env.fork path 0 then network env cmd (0 :: path) fds else [.panic "fork"]

/-! ## Descriptors -/

/-- The first `n` descriptors are open, the standard ones among them, and there are two more. -/
structure Ready (n : Nat) (fds : Fds F) : Prop where
  three : 3 ≤ n
  room : n + 1 < nofile
  used : ∀ fd < n, fds fd ≠ none
  free : ∀ fd, n ≤ fd → fd ≤ n + 1 → fds fd = none

variable {k : Nat}

section

variable {fds : Fds F} {n : Nat}

theorem fdalloc_first (used : ∀ fd < k, fds fd ≠ none) (free : fds k = none) (bound : k < nofile)
    (x : End F) : fdalloc fds x = some (k, update fds k (some x)) := by
  have first : ((range nofile).find? fun fd => (fds fd).isNone) = some k := by
    rw [find?_range_eq_some]
    refine ⟨by simp [free], mem_range.mpr bound, fun fd lt => ?_⟩
    simpa [Option.isSome_iff_ne_none] using used fd lt
  rw [fdalloc, first]
  rfl

/-- A descriptor that was closed is the next one to be opened. -/
theorem fdalloc_close (used : ∀ fd < k, fds fd ≠ none) (bound : k < nofile) (x : End F) :
    fdalloc (fds.close k) x = some (k, update fds k (some x)) := by
  have below : ∀ fd < k, fds.close k fd ≠ none := by
    intro fd lt
    rw [Fds.close, update_of_ne (Nat.ne_of_lt lt)]
    exact used fd lt
  rw [fdalloc_first below (update_self ..) bound, Fds.close, update_idem]

theorem update_ne_none {j : Nat} (used : j ≠ k → fds j ≠ none) (x : End F) :
    update fds k (some x) j ≠ none := by
  by_cases eq : j = k
  · simp [eq]
  · rw [update_of_ne eq]
    exact used eq

theorem Ready.update (ready : Ready n fds) {fd : Nat} (low : fd < 3) (x : End F) :
    Ready n (update fds fd (some x)) := by
  obtain ⟨three, room, used, free⟩ := ready
  refine ⟨three, room, fun k lt => update_ne_none (fun _ => used k lt) x, fun k le top => ?_⟩
  rw [update_of_ne (by omega), free k le top]

/-- A table with the two ends of a pipe. -/
def piped (fds : Fds F) (n : Nat) (path : List Nat) : Fds F :=
  update (update fds n (some (.pipe path false))) (n + 1) (some (.pipe path true))

variable {path : List Nat}

theorem Ready.pipe (ready : Ready n fds) : fds.pipe path = some (n, n + 1, piped fds n path) := by
  obtain ⟨three, room, used, free⟩ := ready
  have first := fdalloc_first used (free n (by omega) (by omega)) (by omega) (.pipe path false)
  have filled : ∀ fd < n + 1, Function.update fds n (some (.pipe path false)) fd ≠ none :=
    fun fd lt => update_ne_none (fun ne => used fd (by omega)) _
  have second := fdalloc_first filled
    (by rw [update_of_ne (by omega), free (n + 1) (by omega) (by omega)]) room (.pipe path true)
  simp [Fds.pipe, first, second, piped]

/-- A process that closes both ends has what it had before. -/
theorem Ready.unpipe (ready : Ready n fds) (path : List Nat) :
    ((piped fds n path).close n).close (n + 1) = fds := by
  funext fd
  have free := ready.free fd
  simp only [piped, Fds.close, update_apply]
  split_ifs <;> first | rfl | exact (free (by omega) (by omega)).symm

/-- `close(k); dup(end); close(p[0]); close(p[1])`. -/
theorem Ready.connect (ready : Ready n fds) (path : List Nat) (low : k < 3) (w : Bool) :
    ((((piped fds n path).close k).dup (n + w.toNat)).close n).close (n + 1) =
      Function.update fds k (some (.pipe path w)) := by
  have three := ready.three
  have used : ∀ fd < k, piped fds n path fd ≠ none := by
    intro fd lt
    rw [piped, update_of_ne (by omega), update_of_ne (by omega)]
    exact ready.used fd (by omega)
  have here : (piped fds n path).close k (n + w.toNat) = some (.pipe path w) := by
    cases w <;> simp [piped, Fds.close, update_apply]
    all_goals omega
  rw [Fds.dup, here, Option.bind_some, fdalloc_close used (Nat.lt_trans low (by decide))]
  funext fd
  have old := congrFun (ready.unpipe path) fd
  simp only [Fds.close, update_apply] at old ⊢
  split_ifs at old ⊢ <;> first | omega | exact old | rfl

end

/-! ## Refinement -/

/-- Only standard input and output are redirected. -/
def Cmd.Standard {W : Type} : Cmd W → Prop
  | .exec _ => True
  | .redir cmd _ _ fd => fd < 2 ∧ cmd.Standard
  | .pipe left right => left.Standard ∧ right.Standard
  | .list left right => left.Standard ∧ right.Standard
  | .back cmd => cmd.Standard

variable {cmd : Cmd (List Byte)}

theorem runcmd_eq (env : Env F) (standard : cmd.Standard) (path : List Nat) {n : Nat} {fds : Fds F}
    (ready : Ready n fds) : runcmd env cmd path fds = network env cmd path fds := by
  have three := ready.three
  induction cmd generalizing path fds with
  | exec argv => cases argv <;> rfl
  | redir cmd file mode fd ih =>
    rw [runcmd, network]
    cases env.openFile path file mode with
    | none => rfl
    | some f =>
      have low := standard.1
      rw [Option.bind_some, fdalloc_close (fun k lt => ready.used k (by omega))
        (Nat.lt_trans low (by decide))]
      exact ih standard.2 _ (ready.update (by omega) _)
  | pipe left right left_ih right_ih =>
    rw [runcmd, network]
    cases env.pipe path with
    | false => rfl
    | true =>
      have left := ready.connect path (k := 1) (by decide) true
      have right := ready.connect path (k := 0) (by decide) false
      simp only [Bool.toNat_true, Bool.toNat_false, Nat.add_zero] at left right
      simp only [if_true, ready.pipe, ready.unpipe, left, right]
      rw [left_ih standard.1 _ (ready.update (by decide) _),
        right_ih standard.2 _ (ready.update (by decide) _)]
  | list left right left_ih right_ih =>
    rw [runcmd, network, left_ih standard.1 _ ready, right_ih standard.2 _ ready]
  | back cmd ih => rw [runcmd, network, ih standard _ ready]

theorem wrap_standard {W : Type} {cmd : Cmd W} (standard : cmd.Standard) (rs : List (Byte × W)) :
    (wrap cmd rs).Standard := by
  induction rs generalizing cmd with
  | nil => exact standard
  | cons r rs ih =>
    apply ih
    unfold redircmd
    split_ifs <;> simp [Cmd.Standard, standard]

theorem backs_standard {W : Type} {cmd : Cmd W} (standard : cmd.Standard) (n : Nat) :
    (backs n cmd).Standard := by
  induction n generalizing cmd with
  | zero => exact standard
  | succ n ih => exact ih standard

theorem Derives.standard {N : Nonterminal} {ts : List Token} {c : Cmd (List Byte)}
    (derives : Derives N ts c) : c.Standard := by
  induction derives with
  | line n _ ih => exact backs_standard ih n
  | list n _ _ left right => exact ⟨backs_standard left n, right⟩
  | single _ ih => exact ih
  | pipe _ _ left right => exact ⟨left, right⟩
  | block _ _ ih => exact wrap_standard ih _
  | exec =>
    apply wrap_standard
    exact trivial

/-- **A line is run as the network of its command.**  Whatever the calls come to, `runcmd` has
`exec` and `wait` called with just the descriptors that the command of the line asks for. -/
theorem line_runs {buf : List Byte} (nul : (0 : Byte) ∉ buf) {cmd : Cmd Span} {out : List Byte}
    (ok : parsecmd buf = .ok (cmd, out)) (env : Env F) {n : Nat} {fds : Fds F}
    (ready : Ready n fds) :
    Derives .line (tokens buf) (cmd.map (cstr out)) ∧
      runcmd env (cmd.map (cstr out)) [] fds = network env (cmd.map (cstr out)) [] fds := by
  have derives := (parsecmd_sound nul).1 cmd out ok
  exact ⟨derives, runcmd_eq env derives.standard [] ready⟩

/-! ## The ends of the pipes -/

/-- The descriptors with which a process calls `exec` or `wait`, and its place in the command. -/
def Event.table : Event F → Option (List Nat × Fds F)
  | .exec path _ fds => some (path, fds)
  | .wait path fds => some (path, fds)
  | _ => none

/-- The process at `place` has this end of the pipe at `path` by right, as the descriptor `fd`. -/
def Belongs (place : List Nat) (fd : Nat) (path : List Nat) : Bool → Prop
  | true => fd = 1 ∧ 0 :: path <:+ place
  | false => fd = 0 ∧ 1 :: path <:+ place

/-- What the process at `place` has, when the command at `path` was started with `fds`. -/
structure Inherits (fds : Fds F) (path place : List Nat) (t : Fds F) : Prop where
  under : path <:+ place
  opened : ∀ fd, t fd = none ↔ fds fd = none
  high : ∀ fd, 2 ≤ fd → t fd = fds fd
  ends : ∀ fd p w, t fd = some (.pipe p w) → fds fd = some (.pipe p w) ∨ Belongs place fd p w

section

variable {fds : Fds F} {path : List Nat} {l : List (Event F)}

def Tables (fds : Fds F) (path : List Nat) (l : List (Event F)) : Prop :=
  ∀ e ∈ l, ∀ place t, e.table = some (place, t) → Inherits fds path place t

theorem Inherits.refl (fds : Fds F) (path : List Nat) : Inherits fds path path fds :=
  ⟨suffix_rfl, fun _ => Iff.rfl, fun _ _ => rfl, fun _ _ _ => .inl⟩

theorem Tables.sub (tables : Tables fds (k :: path) l) : Tables fds path l := by
  intro e member place t table
  obtain ⟨under, opened, high, ends⟩ := tables e member place t table
  exact ⟨(suffix_cons k path).trans under, opened, high, ends⟩

/-- A part of the command that is started with another standard input or output. -/
theorem Tables.child {fd : Nat} {x : End F} (low : fd < 2) (used : fds fd ≠ none)
    (new : ∀ p w, x = .pipe p w → Belongs (k :: path) fd p w)
    (tables : Tables (update fds fd (some x)) (k :: path) l) : Tables fds path l := by
  intro e member place t table
  obtain ⟨under, opened, high, ends⟩ := tables e member place t table
  refine ⟨(suffix_cons k path).trans under, fun i => (opened i).trans ?_, fun i two => ?_,
    fun i p w at_i => ?_⟩
  · by_cases eq : i = fd
    · simp [eq, used]
    · rw [update_of_ne eq]
  · rw [high i two, update_of_ne (by omega)]
  · rcases ends i p w at_i with old | belongs
    · by_cases eq : i = fd
      · rw [eq, update_self, Option.some.injEq] at old
        have fresh := new p w old
        rw [eq]
        cases w <;> exact .inr ⟨fresh.1, fresh.2.trans under⟩
      · rw [update_of_ne eq] at old
        exact .inl old
    · exact .inr belongs

theorem tables_nil : Tables fds path [] := by simp [Tables]

theorem Tables.cons {e : Event F} (here : e.table = none ∨ e.table = some (path, fds))
    (rest : Tables fds path l) : Tables fds path (e :: l) := by
  apply forall_mem_cons.mpr ⟨?_, rest⟩
  intro place t table
  rcases here with silent | here
  · cases silent.symm.trans table
  · cases here.symm.trans table
    exact .refl fds path

theorem Tables.append {l' : List (Event F)} (first : Tables fds path l)
    (rest : Tables fds path l') : Tables fds path (l ++ l') :=
  forall_mem_append.mpr ⟨first, rest⟩

theorem tables_network (env : Env F) (standard : cmd.Standard) (used : ∀ fd < 2, fds fd ≠ none) :
    Tables fds path (network env cmd path fds) := by
  have still : ∀ fds : Fds F, (∀ fd < 2, fds fd ≠ none) → ∀ fd x, ∀ k < 2,
      update fds fd (some x) k ≠ none :=
    fun fds used fd x k lt => update_ne_none (fun _ => used k lt) x
  have message : ∀ {fds : Fds F} {path}, ∀ why, Tables fds path [.panic why] :=
    fun why => .cons (.inl rfl) tables_nil
  induction cmd generalizing path fds with
  | exec argv =>
    rcases argv with _ | ⟨name, args⟩
    · exact tables_nil
    · rw [network]
      apply Tables.cons (.inr rfl)
      split
      · exact tables_nil
      · exact .cons (.inl rfl) tables_nil
  | redir cmd file mode fd ih =>
    rw [network]
    split
    · exact .cons (.inl rfl) tables_nil
    · exact .child standard.1 (used fd standard.1) (by simp) (ih standard.2 (still fds used fd _))
  | pipe left right left_ih right_ih =>
    have low : 0 < 2 ∧ 1 < 2 := by decide
    rw [network]
    split
    · split
      · apply Tables.append
        · apply Tables.child low.2 (used 1 low.2) _ (left_ih standard.1 (still fds used 1 _))
          rintro _ _ ⟨⟩
          exact ⟨rfl, suffix_rfl⟩
        · split
          · apply Tables.append
            · apply Tables.child low.1 (used 0 low.1) _ (right_ih standard.2 (still fds used 0 _))
              rintro _ _ ⟨⟩
              exact ⟨rfl, suffix_rfl⟩
            · exact .cons (.inr rfl) (.cons (.inr rfl) tables_nil)
          · exact message _
      · exact message _
    · exact message _
  | list left right left_ih right_ih =>
    rw [network]
    split
    · apply Tables.append (left_ih standard.1 used).sub
      exact .cons (.inr rfl) (right_ih standard.2 used).sub
    · exact message _
  | back cmd ih =>
    rw [network]
    split
    · exact (ih standard used).sub
    · exact message _

end

/-- **Pipes end where they should.**  A process that calls `exec` or `wait` has the descriptors that
the shell had and no others.  It has the write end of a pipe only as the standard output of the left
command, and the read end only as the standard input of the right one; so a reader comes to the end
of its input when the programs on the left are through. -/
theorem pipe_ends_apart (env : Env F) (standard : cmd.Standard) {n : Nat} {fds : Fds F}
    (ready : Ready n fds) (files : ∀ fd p w, fds fd ≠ some (.pipe p w)) {e : Event F}
    (member : e ∈ runcmd env cmd [] fds) {place : List Nat} {t : Fds F}
    (table : e.table = some (place, t)) :
    (∀ fd, t fd = none ↔ fds fd = none) ∧ (∀ fd, 2 ≤ fd → t fd = fds fd) ∧
      ∀ fd p w, t fd = some (.pipe p w) → Belongs place fd p w := by
  have three := ready.three
  have used : ∀ fd < 2, fds fd ≠ none := fun fd lt => ready.used fd (by omega)
  rw [runcmd_eq env standard [] ready] at member
  obtain ⟨-, opened, high, ends⟩ := tables_network env standard used e member place t table
  refine ⟨opened, high, fun fd p w at_fd => ?_⟩
  exact (ends fd p w at_fd).resolve_left (files fd p w)

/-- All calls succeed, and the shell has just the standard descriptors. -/
def calm : Env Unit := ⟨fun _ _ _ => some (), fun _ => true, fun _ _ => true, fun _ => true⟩

def console : Fds Unit := fun fd => if fd < 3 then some (.file ()) else none

theorem ready_console : Ready 3 console :=
  ⟨by decide, by decide, by decide, fun fd low _ => if_neg (by omega)⟩

theorem line_runs_pipe : ∃ cmd out, parsecmd pipeLine = .ok (cmd, out) ∧
    runcmd calm (cmd.map (cstr out)) [] console = network calm (cmd.map (cstr out)) [] console :=
  have accepted : parsecmd pipeLine = .ok
    (.pipe (.redir (.exec [⟨0, 1⟩]) ⟨2, 3⟩ 0x201 1) (.exec [⟨4, 5⟩]),
      [chr 'a', 0, chr 'b', 0, chr 'c']) := rfl
  ⟨_, _, accepted, (line_runs (by decide) accepted calm ready_console).2⟩

theorem pipe_ends_apart_reader :
    (∀ fd, update console 0 (some (.pipe [] false)) fd = none ↔ console fd = none) ∧
    (∀ fd, 2 ≤ fd → update console 0 (some (.pipe [] false)) fd = console fd) ∧
      ∀ fd p w, update console 0 (some (.pipe [] false)) fd = some (.pipe p w) →
        Belongs [1] fd p w := by
  have standard : Cmd.Standard (.pipe (.exec [[chr 'a']]) (.exec [[chr 'b']])) := ⟨trivial, trivial⟩
  have files : ∀ fd p w, console fd ≠ some (.pipe p w) := by
    intro fd p w
    unfold console
    split <;> simp
  apply pipe_ends_apart calm standard ready_console files
    (e := .exec [1] [[chr 'b']] (update console 0 (some (.pipe [] false)))) _ rfl
  rw [runcmd_eq calm standard [] ready_console]
  simp [network, calm]

end Xv6.Sh
