import Xv6.Console.Input

/-!
# The line discipline

The buffer holds the text of the editor from the first character that has not been read
(`Holds`): the rest of what was committed, up to `w`, and then the line, up to `e`.  A key does to
the buffer what it does to the text (`Holds.key`), and a section of `consoleread` takes committed
characters in order and stops where it should (`Holds.read`).
-/

namespace Xv6.Console

open Function List

/-- The buffer when `pre` has been read, `unread` is committed and `line` is under the cursor. -/
structure Holds (i : Input) (pre unread line : List Byte) : Prop where
  contents : i.ring.contents = unread ++ line
  r : i.r = BitVec.ofNat 32 pre.length
  w : i.w = i.r + BitVec.ofNat 32 unread.length
  room : unread.length + line.length ≤ inputBuf
  full : unread.length + line.length = inputBuf → line = []
  plain : newline ∉ line

section Holds

variable {i : Input} {pre unread line : List Byte}

theorem add_ofNat_inj (x : BitVec 32) {m n : Nat} (lt : m < 2 ^ 32) (lt' : n < 2 ^ 32) :
    x + BitVec.ofNat 32 m = x + BitVec.ofNat 32 n ↔ m = n := by
  rw [BitVec.add_right_inj, ← BitVec.toNat_inj, BitVec.toNat_ofNat, BitVec.toNat_ofNat,
    Nat.mod_eq_of_lt lt, Nat.mod_eq_of_lt lt']

namespace Holds

section Holds

variable (holds : Holds i pre unread line)
include holds

theorem count :
    (i.e - i.r).toNat = unread.length + line.length := by
  rw [← length_append, ← holds.contents]
  exact (Fifo.contents_length i.ring).symm

theorem e_eq :
    i.e = i.r + BitVec.ofNat 32 (unread.length + line.length) := by
  rw [← holds.count]
  exact i.ring.nwrite_eq

theorem e_eq_w : i.e = i.w ↔ line = [] := by
  have : _ ≤ 128 := holds.room
  rw [holds.e_eq, holds.w, add_ofNat_inj _ (by omega) (by omega), ← length_eq_zero_iff]
  omega

theorem r_eq_w : i.r = i.w ↔ unread = [] := by
  have : _ ≤ 128 := holds.room
  have zero := add_ofNat_inj i.r (m := 0) (n := unread.length) (by omega) (by omega)
  rw [BitVec.add_zero] at zero
  rw [holds.w, zero, ← length_eq_zero_iff]
  exact eq_comm

theorem e_sub_w : (i.e - i.w).toNat = line.length := by
  have : _ ≤ 128 := holds.room
  rw [holds.e_eq, holds.w, BitVec.ofNat_add, ← BitVec.add_assoc, BitVec.add_comm,
    BitVec.add_sub_cancel, BitVec.toNat_ofNat, Nat.mod_eq_of_lt (by omega)]

theorem at_full :
    i.e = i.r + BitVec.ofNat 32 inputBuf ↔ unread.length + line.length = inputBuf := by
  have : _ ≤ 128 := holds.room
  rw [holds.e_eq, add_ofNat_inj _ (by omega) (by decide)]

theorem last (some : line ≠ []) :
    i.ring.unpush.contents = unread ++ line.dropLast ∧ i.ring.last ∈ line := by
  have used : ¬ i.ring.Empty := by
    intro empty
    have zero := Fifo.contents_length i.ring
    rw [holds.contents, Fifo.count_eq_zero.mpr empty] at zero
    exact some (append_eq_nil_iff.mp (length_eq_zero_iff.mp zero)).2
  have split := holds.contents.symm.trans (Fifo.contents_unpush used)
  rw [← dropLast_append_getLast some, ← append_assoc] at split
  obtain ⟨front, back⟩ := append_inj' split rfl
  refine ⟨front.symm, ?_⟩
  rw [← head_eq_of_cons_eq back]
  exact getLast_mem some

theorem erase (some : line ≠ []) :
    Holds i.erase pre unread line.dropLast where
  contents := (holds.last some).1
  r := holds.r
  w := holds.w
  room := by
    have := holds.room
    rw [length_dropLast]
    omega
  full := by
    have := holds.room
    have := length_pos_of_ne_nil some
    rw [length_dropLast]
    omega
  plain := fun mem => holds.plain (dropLast_subset _ mem)

theorem killLine (n : Nat) (len : line.length = n) : Holds (i.killLine n) pre unread [] := by
  induction n generalizing i line with
  | zero =>
    obtain rfl := length_eq_zero_iff.mp len
    exact holds
  | succ n ih =>
    have some : line ≠ [] := by
      rintro rfl
      cases len
    have go : i.e ≠ i.w ∧ i.ring.last ≠ newline :=
      ⟨fun eq => some (holds.e_eq_w.mp eq), fun eq => holds.plain (eq ▸ (holds.last some).2)⟩
    rw [Input.killLine, if_pos go]
    exact ih (holds.erase some) (by rw [length_dropLast, len, Nat.add_sub_cancel])

theorem push (c : Byte) (room : unread.length + line.length < inputBuf) :
    (i.ring.push c).contents = unread ++ (line ++ [c]) := by
  have short : i.ring.count < inputBuf := holds.count.trans_lt room
  rw [Fifo.contents_push (by decide) (by decide) short, holds.contents, append_assoc]

theorem push_commit (c : Byte) (room : unread.length + line.length < inputBuf) :
    Holds ⟨i.ring.push c, (i.ring.push c).nwrite⟩ pre (unread ++ (line ++ [c])) [] where
  contents := by
    rw [append_nil]
    exact holds.push c room
  r := holds.r
  w := by
    rw [← holds.push c room, Fifo.contents_length]
    exact (i.ring.push c).nwrite_eq
  room := by
    simp only [length_append, length_singleton, length_nil]
    omega
  full := fun _ => rfl
  plain := not_mem_nil

theorem push_plain {c : Byte} (ne : c ≠ newline)
    (room : unread.length + line.length + 1 < inputBuf) :
    Holds ⟨i.ring.push c, i.w⟩ pre unread (line ++ [c]) where
  contents := holds.push c (by omega)
  r := holds.r
  w := holds.w
  room := by
    simp only [length_append, length_singleton]
    omega
  full := by
    simp only [length_append, length_singleton]
    omega
  plain := by
    rw [mem_append, mem_singleton]
    rintro (mem | eq)
    · exact holds.plain mem
    · exact ne eq.symm

/-- A key does to the buffer what it does to the text. -/
theorem key (c : Byte) :
    ∃ unread' line', Holds (i.key c) pre unread' line' ∧
      Text.key pre.length ⟨pre ++ unread, line⟩ c = ⟨pre ++ unread', line'⟩ := by
  unfold Input.key Text.key
  by_cases listing : c = ctrl 'P'
  · rw [if_pos listing, if_pos (.inl listing)]
    exact ⟨unread, line, holds, rfl⟩
  rw [if_neg listing]
  by_cases zero : c = 0
  · subst zero
    rw [if_neg (by decide), if_neg (by decide), if_neg (by simp), if_pos (.inr rfl)]
    exact ⟨unread, line, holds, rfl⟩
  rw [if_neg (not_or.mpr ⟨listing, zero⟩)]
  by_cases kill : c = ctrl 'U'
  · rw [if_pos kill, if_pos kill, holds.e_sub_w]
    exact ⟨unread, [], holds.killLine _ rfl, rfl⟩
  rw [if_neg kill, if_neg kill]
  by_cases back : c = ctrl 'H' ∨ c = del
  · rw [if_pos back, if_pos back]
    refine ⟨unread, line.dropLast, ?_, rfl⟩
    by_cases empty : line = []
    · rw [if_neg (not_not.mpr (holds.e_eq_w.mpr empty))]
      subst empty
      exact holds
    · rw [if_pos fun eq => empty (holds.e_eq_w.mp eq)]
      exact holds.erase empty
  rw [if_neg back, if_neg back, holds.count]
  have room_iff : (pre ++ unread).length + line.length < pre.length + inputBuf ↔
      unread.length + line.length < inputBuf := by
    rw [length_append]
    omega
  by_cases room : unread.length + line.length < inputBuf
  · rw [if_pos ⟨zero, room⟩, if_pos (room_iff.mpr room)]
    generalize (if c = cr then newline else c) = c
    dsimp only
    -- the buffer and the text agree on whether the line is committed
    have e_eq : (⟨i.ring.push c, i.w⟩ : Input).e = i.r + BitVec.ofNat 32 inputBuf ↔
        unread.length + line.length + 1 = inputBuf := by
      have count := (Fifo.contents_length (i.ring.push c)).symm.trans
        (congrArg length (holds.push c room))
      simp only [length_append, length_singleton] at count
      change (i.ring.push c).nwrite = (i.ring.push c).nread + _ ↔ _
      have small : unread.length + (line.length + 1) < 2 ^ 32 := by
        have : _ < 128 := room
        omega
      rw [(i.ring.push c).nwrite_eq, count, add_ofNat_inj _ small (by decide), Nat.add_assoc]
    have same : c = newline ∨ c = ctrl 'D' ∨
        (⟨i.ring.push c, i.w⟩ : Input).e = i.r + BitVec.ofNat 32 inputBuf ↔
        c = newline ∨ c = ctrl 'D' ∨
          (pre ++ unread).length + (line ++ [c]).length = pre.length + inputBuf := by
      rw [e_eq, length_append, length_append, length_singleton]
      refine or_congr_right (or_congr_right ?_)
      omega
    by_cases ends : c = newline ∨ c = ctrl 'D' ∨
        (⟨i.ring.push c, i.w⟩ : Input).e = i.r + BitVec.ofNat 32 inputBuf
    · refine ⟨unread ++ (line ++ [c]), [], ?_, ?_⟩
      · exact (congrArg (Holds · _ _ _) (if_pos ends)).mpr (holds.push_commit c room)
      · rw [if_pos (same.mp ends), Text.commit, append_assoc]
    · refine ⟨unread, line ++ [c], ?_, if_neg fun met => ends (same.mpr met)⟩
      have more : unread.length + line.length + 1 < inputBuf := by
        have : unread.length + line.length + 1 ≠ inputBuf :=
          fun eq => ends (.inr (.inr (e_eq.mpr eq)))
        omega
      exact (congrArg (Holds · _ _ _) (if_neg ends)).mpr
        (holds.push_plain (fun eq => ends (.inl eq)) more)
  · rw [if_neg fun both => room both.2, if_neg fun more => room (room_iff.mp more)]
    exact ⟨unread, line, holds, rfl⟩

theorem consoleintr (cs : List Byte) :
    ∃ unread' line', Holds (i.consoleintr cs) pre unread' line' ∧
      cs.foldl (Text.key pre.length) ⟨pre ++ unread, line⟩ = ⟨pre ++ unread', line'⟩ := by
  induction cs generalizing i unread line with
  | nil => exact ⟨unread, line, holds, rfl⟩
  | cons c cs ih =>
    obtain ⟨unread', line', holds', typed⟩ := holds.key c
    rw [foldl_cons, typed]
    exact ih holds'

end Holds

theorem pop {c : Byte} (holds : Holds i pre (c :: unread) line) :
    i.ring.head = c ∧ Holds { i with ring := i.ring.pop } (pre ++ [c]) unread line := by
  have used : ¬ i.ring.Empty := by
    intro empty
    have zero := Fifo.contents_length i.ring
    rw [holds.contents, Fifo.count_eq_zero.mpr empty] at zero
    cases zero
  have split := holds.contents.symm.trans (Fifo.contents_pop used)
  injection split with head rest
  have room := holds.room
  rw [length_cons] at room
  refine ⟨head.symm, rest.symm, ?_, ?_, by omega, by omega, holds.plain⟩
  · change i.r + 1 = _
    rw [holds.r, length_append, BitVec.ofNat_add]
    rfl
  · change i.w = i.r + 1 + _
    rw [holds.w, length_cons, Nat.add_comm, BitVec.ofNat_add, ← BitVec.add_assoc]
    rfl

end Holds

end Holds

/-- How a read of `target` bytes comes to return `got`: `used` is what it takes after them, and
`after` what it leaves. -/
inductive Ended (target : Nat) (got : List Byte) : List Byte → List Byte → Prop
  | full {after : List Byte} : got.length = target → Ended target got [] after
  | line {after : List Byte} : got.getLast? = some newline → Ended target got [] after
  | eof {after : List Byte} : got = [] → 0 < target → Ended target got [ctrl 'D'] after
  | pushBack {after : List Byte} : got ≠ [] → Ended target got [] (ctrl 'D' :: after)

/-- What a section of a read did: it was given `bs`, used up `used` and left `after`. -/
structure Section (target : Nat) (got unread : List Byte) (out : Outcome)
    (bs used after : List Byte) :
    Prop where
  stream : unread = bs ++ used ++ after
  bytes : ctrl 'D' ∉ bs
  stops : newline ∉ (got ++ bs).dropLast
  outcome : (out = .ret (got ++ bs) ∧ Ended target (got ++ bs) used after) ∨
    (out = .sleep (target - (got ++ bs).length) (got ++ bs) ∧ (got ++ bs).length < target ∧
      newline ∉ got ++ bs ∧ used = [] ∧ after = [])

section Read

variable {i : Input} {pre unread line got : List Byte} {target : Nat}

theorem Holds.read (n : Nat) (holds : Holds i pre unread line) (len : got.length + n = target)
    (plain : newline ∉ got) :
    ∃ bs used after, Section target got unread (consoleread false target n got i).1 bs used after ∧
      Holds (consoleread false target n got i).2 (pre ++ bs ++ used) after line := by
  induction n generalizing i pre unread got with
  | zero =>
    refine ⟨[], [], unread, ⟨rfl, not_mem_nil, ?_, .inl ⟨by simp [consoleread], .full ?_⟩⟩, ?_⟩
    · rw [append_nil]
      exact fun mem => plain (dropLast_subset _ mem)
    · simpa using len
    · simpa [consoleread] using holds
  | succ n ih =>
    cases unread with
    | nil =>
      rw [consoleread, if_pos (holds.r_eq_w.mpr rfl)]
      refine ⟨[], [], [], ⟨rfl, not_mem_nil, ?_, .inr ⟨?_, ?_, ?_, rfl, rfl⟩⟩, ?_⟩
      · rw [append_nil]
        exact fun mem => plain (dropLast_subset _ mem)
      · rw [append_nil, ← len, Nat.add_sub_cancel_left]
        rfl
      · rw [append_nil]
        omega
      · rwa [append_nil]
      · simpa using holds
    | cons c unread =>
      obtain ⟨head, popped⟩ := holds.pop
      have some : i.r ≠ i.w := fun eq => cons_ne_nil c unread (holds.r_eq_w.mp eq)
      rw [consoleread, if_neg some, head]
      dsimp only
      by_cases eof : c = ctrl 'D'
      · subst eof
        rw [if_pos rfl]
        have stops : newline ∉ (got ++ []).dropLast := by
          rw [append_nil]
          exact fun mem => plain (dropLast_subset _ mem)
        by_cases later : n + 1 < target
        · rw [if_pos later, Fifo.unpop_pop]
          refine ⟨[], [], ctrl 'D' :: unread, ⟨rfl, not_mem_nil, stops, .inl ⟨?_, ?_⟩⟩, ?_⟩
          · rw [append_nil]
          · refine .pushBack ?_
            rw [append_nil]
            rintro rfl
            simp only [length_nil] at len
            omega
          · simpa using holds
        · rw [if_neg later]
          have none : got = [] := length_eq_zero_iff.mp (by omega)
          refine ⟨[], [ctrl 'D'], unread, ⟨rfl, not_mem_nil, stops, .inl ⟨?_, ?_⟩⟩, ?_⟩
          · rw [append_nil]
          · exact .eof (by rw [none]; rfl) (by omega)
          · simpa using popped
      · rw [if_neg eof]
        by_cases ends : c = newline
        · subst ends
          rw [if_pos rfl]
          refine ⟨[newline], [], unread, ⟨by simp, ?_, ?_, .inl ⟨rfl, .line ?_⟩⟩, ?_⟩
          · rw [mem_singleton]
            exact Ne.symm eof
          · rwa [dropLast_concat]
          · rw [getLast?_concat]
          · simpa using popped
        · rw [if_neg ends]
          have plain' : newline ∉ got ++ [c] := by
            rw [mem_append, mem_singleton]
            rintro (mem | eq)
            · exact plain mem
            · exact ends eq.symm
          have len' : (got ++ [c]).length + n = target := by
            rw [length_append, length_singleton]
            omega
          obtain ⟨bs, used, after, sec, holds'⟩ := ih popped len' plain'
          have join : got ++ [c] ++ bs = got ++ c :: bs := by simp
          have join' : pre ++ [c] ++ bs = pre ++ c :: bs := by simp
          rw [join'] at holds'
          refine ⟨c :: bs, used, after, ⟨?_, ?_, ?_, ?_⟩, holds'⟩
          · rw [sec.stream]
            rfl
          · rw [mem_cons]
            rintro (eq | mem)
            · exact eof eq.symm
            · exact sec.bytes mem
          · rw [← join]
            exact sec.stops
          · rw [← join]
            exact sec.outcome

theorem Ended.used_eq {used after : List Byte} (ended : Ended target got used after) :
    used = if got = [] ∧ 0 < target then [ctrl 'D'] else [] := by
  cases ended with
  | full len =>
    rw [if_neg]
    rintro ⟨rfl, pos⟩
    exact Nat.lt_irrefl _ (len ▸ pos)
  | line last =>
    rw [if_neg]
    rintro ⟨rfl, -⟩
    cases last
  | eof none pos => rw [if_pos ⟨none, pos⟩]
  | pushBack some => rw [if_neg fun both => some both.1]

variable {P : Type} (p : P) {rd : Reading} {out : Outcome} {bs used after : List Byte}

theorem Section.events (sec : Section rd.target rd.got unread out bs used after) :
    out.events p rd = bs.map (.byte p) ++ used.map fun _ => .eof p := by
  have copied : (rd.got ++ bs).drop rd.got.length = bs := drop_left
  rcases sec.outcome with ⟨eq, ended⟩ | ⟨eq, -, -, none, -⟩
  · rw [eq, Outcome.events, copied, ended.used_eq]
    split <;> rfl
  · rw [eq, Outcome.events, copied, none, map_nil, append_nil]

theorem Section.chars (sec : Section rd.target rd.got unread out bs used after) :
    (out.events p rd).map Event.char = bs ++ used := by
  have eofs : used.map (fun _ => ctrl 'D') = used := by
    rcases sec.outcome with ⟨-, ended⟩ | ⟨-, -, -, none, -⟩
    · rw [ended.used_eq]
      split <;> rfl
    · rw [none]
      rfl
  rw [sec.events, map_append, map_map, map_map]
  change bs.map id ++ used.map (fun _ => ctrl 'D') = _
  rw [eofs, map_id]

end Read

section System

variable {P : Type}

structure Inv (s : State P) : Prop where
  buffer : ∃ unread, s.typed.committed = s.events.map Event.char ++ unread ∧
    Holds s.input (s.events.map Event.char) unread s.typed.line
  reads : ∀ p rd, s.reads p = some rd → rd.got.length + rd.n = rd.target ∧ newline ∉ rd.got

def State.unread (s : State P) : List Byte := s.typed.committed.drop s.events.length

variable {s : State P}

theorem Inv.holds (inv : Inv s) :
    s.typed.committed = s.events.map Event.char ++ s.unread ∧
      Holds s.input (s.events.map Event.char) s.unread s.typed.line := by
  obtain ⟨unread, eq, holds⟩ := inv.buffer
  have rest : s.unread = unread := by
    rw [State.unread, eq, drop_left' (by rw [length_map])]
  rw [rest]
  exact ⟨eq, holds⟩

theorem Inv.init : Inv (State.init P) where
  buffer := by
    refine ⟨[], rfl, ?_, rfl, rfl, Nat.zero_le _, fun _ => rfl, not_mem_nil⟩
    refine eq_nil_of_length_eq_zero ?_
    rw [Fifo.contents_length, Fifo.count_eq_zero]
    rfl
  reads p rd at_p := by cases at_p

theorem Inv.read_section (inv : Inv s) {p : P} {rd : Reading} (at_p : s.reads p = some rd) :
    ∃ bs used after, Section rd.target rd.got s.unread
        (consoleread false rd.target rd.n rd.got s.input).1 bs used after ∧
      Holds (consoleread false rd.target rd.n rd.got s.input).2
        (s.events.map Event.char ++ bs ++ used) after s.typed.line :=
  have now := inv.reads p rd at_p
  inv.holds.2.read rd.n now.1 now.2

variable [DecidableEq P]

theorem step_cases {t : State P} {l : Label P} (step : (system P).step s l t) :
    (∃ cs, l = .intr cs ∧ t = s.intr cs) ∨ (∃ p n, l = .call p n ∧ t = s.call p n) ∨
      ∃ p rd, l = .read p ∧ s.reads p = some rd ∧ t = s.read p rd := by
  change Console.step s l = some t at step
  cases l with
  | intr cs => exact .inl ⟨cs, rfl, (Option.some.inj step).symm⟩
  | call p n =>
    rw [Console.step] at step
    split at step
    · exact .inr (.inl ⟨p, n, rfl, (Option.some.inj step).symm⟩)
    · cases step
  | read p =>
    obtain ⟨rd, at_p, eq⟩ := Option.map_eq_some_iff.mp step
    exact .inr (.inr ⟨p, rd, rfl, at_p, eq.symm⟩)

omit [DecidableEq P] in
theorem Inv.intr (inv : Inv s) (cs : List Byte) : Inv (s.intr cs) := by
  obtain ⟨typed, holds⟩ := inv.holds
  obtain ⟨unread, line, holds', typed'⟩ := holds.consoleintr cs
  have eq : cs.foldl (Text.key s.events.length) s.typed =
      ⟨s.events.map Event.char ++ unread, line⟩ := by
    rw [← typed', length_map, ← typed]
  refine ⟨⟨unread, congrArg Text.committed eq, ?_⟩, inv.reads⟩
  change Holds _ _ _ (cs.foldl (Text.key s.events.length) s.typed).line
  rw [eq]
  exact holds'

theorem Inv.call (inv : Inv s) (p : P) (n : Nat) : Inv (s.call p n) := by
  refine ⟨inv.buffer, fun q rd at_q => ?_⟩
  change update s.reads p _ q = _ at at_q
  by_cases eq : q = p
  · subst eq
    rw [update_self] at at_q
    cases at_q
    exact ⟨Nat.zero_add n, not_mem_nil⟩
  · rw [update_of_ne eq] at at_q
    exact inv.reads q rd at_q

theorem Inv.read (inv : Inv s) {p : P} {rd : Reading} (at_p : s.reads p = some rd) :
    Inv (s.read p rd) := by
  obtain ⟨bs, used, after, sec, holds⟩ := inv.read_section at_p
  refine ⟨⟨after, ?_, ?_⟩, fun q rd' at_q => ?_⟩
  · change s.typed.committed = (s.events ++ _).map Event.char ++ after
    rw [inv.holds.1, map_append, sec.chars, sec.stream, append_assoc (s.events.map _)]
  · change Holds _ ((s.events ++ _).map Event.char) after _
    rw [map_append, sec.chars, ← append_assoc]
    exact holds
  · change update s.reads p _ q = _ at at_q
    by_cases eq : q = p
    · subst eq
      rw [update_self] at at_q
      rcases sec.outcome with ⟨out, -⟩ | ⟨out, lt, plain, -⟩
      · rw [out] at at_q
        cases at_q
      · rw [out] at at_q
        cases at_q
        exact ⟨Nat.add_sub_cancel' (Nat.le_of_lt lt), plain⟩
    · rw [update_of_ne eq] at at_q
      exact inv.reads q rd' at_q

theorem reachable_inv (reach : (system P).Reachable s) : Inv s :=
  reach.invariant (fun _ start => start ▸ Inv.init) fun _ _ _ _ inv step => by
    rcases step_cases step with ⟨cs, -, rfl⟩ | ⟨p, n, -, rfl⟩ | ⟨p, rd, -, at_p, rfl⟩
    · exact inv.intr cs
    · exact inv.call p n
    · exact inv.read at_p

/-- The state of the buffer at every moment, with the indices as numbers that never wrap around:
`r` counts the events, `w` the committed characters and `e` also those of the line. -/
structure Discipline (s : State P) : Prop where
  r : s.input.r = BitVec.ofNat 32 s.events.length
  w : s.input.w = BitVec.ofNat 32 s.typed.committed.length
  e : s.input.e = BitVec.ofNat 32 (s.typed.committed.length + s.typed.line.length)
  r_le_w : s.events.length ≤ s.typed.committed.length
  e_le : s.typed.committed.length + s.typed.line.length ≤ s.events.length + inputBuf
  buf : ∀ k, s.events.length ≤ k → k < s.typed.committed.length + s.typed.line.length →
    (s.typed.committed ++ s.typed.line)[k]? =
      some (s.input.ring.data (Fifo.cell (BitVec.ofNat 32 k)))
  full : s.input.e = s.input.r + BitVec.ofNat 32 inputBuf →
    s.input.w = s.input.e ∧ s.input.r ≠ s.input.w
  delivered : s.events.map Event.char <+: s.typed.committed

omit [DecidableEq P] in
theorem Inv.discipline (inv : Inv s) : Discipline s := by
  obtain ⟨typed, holds⟩ := inv.holds
  have r : s.input.r = BitVec.ofNat 32 s.events.length := by rw [holds.r, length_map]
  have len : s.typed.committed.length = s.events.length + s.unread.length := by
    rw [typed, length_append, length_map]
  refine ⟨r, ?_, ?_, by omega, ?_, fun k le lt => ?_, fun full => ?_, ⟨s.unread, typed.symm⟩⟩
  · rw [holds.w, r, len, BitVec.ofNat_add]
  · rw [holds.e_eq, r, len, Nat.add_assoc, ← BitVec.ofNat_add]
  · have := holds.room
    omega
  · obtain ⟨j, rfl⟩ := Nat.exists_eq_add_of_le le
    have before : (s.events.map Event.char).length ≤ s.events.length + j := by
      rw [length_map]
      exact Nat.le_add_right ..
    have count : s.input.ring.count = s.unread.length + s.typed.line.length := holds.count
    rw [typed, append_assoc, getElem?_append_right before, ← holds.contents,
      length_map, Nat.add_sub_cancel_left, Fifo.contents, getElem?_map,
      getElem?_range (by omega), Option.map_some, BitVec.ofNat_add, ← r]
    rfl
  · have all := holds.at_full.mp full
    have none := holds.full all
    refine ⟨(holds.e_eq_w.mpr none).symm, fun eq => ?_⟩
    rw [none, holds.r_eq_w.mp eq] at all
    cases all

theorem Text.key_committed (taken : Nat) (t : Text) (c : Byte) :
    t.committed <+: (t.key taken c).committed := by
  unfold Text.key
  dsimp only
  split_ifs <;> first | exact prefix_rfl | exact prefix_append ..

theorem Text.keys_committed (taken : Nat) (t : Text) (cs : List Byte) :
    t.committed <+: (cs.foldl (Text.key taken) t).committed := by
  induction cs generalizing t with
  | nil => exact prefix_rfl
  | cons c cs ih => exact (Text.key_committed taken t c).trans (ih _)

/-- The console is a queue of edited lines.  In every state the buffer holds the text from the
first character that was not read; what is committed stays; and the next section of any reader takes
what comes next, up to a newline, an end of file or the number of bytes it wants. -/
theorem console_discipline {s : State P} (reach : (system P).Reachable s) :
    Discipline s ∧
    (∀ l t, (system P).step s l t →
      s.typed.committed <+: t.typed.committed ∧ s.events <+: t.events) ∧
    ∀ p rd, s.reads p = some rd → ∃ bs used after, Section rd.target rd.got s.unread
        (consoleread false rd.target rd.n rd.got s.input).1 bs used after ∧
      ∀ t, (system P).step s (.read p) t → t.unread = after ∧
        t.events = s.events ++ bs.map (.byte p) ++ used.map fun _ => .eof p := by
  have inv := reachable_inv reach
  refine ⟨inv.discipline, fun l t step => ?_, fun p rd at_p => ?_⟩
  · rcases step_cases step with ⟨cs, -, rfl⟩ | ⟨p, n, -, rfl⟩ | ⟨p, rd, -, -, rfl⟩
    · exact ⟨Text.keys_committed _ _ cs, prefix_rfl⟩
    · exact ⟨prefix_rfl, prefix_rfl⟩
    · exact ⟨prefix_rfl, prefix_append ..⟩
  · obtain ⟨bs, used, after, sec, -⟩ := inv.read_section at_p
    refine ⟨bs, used, after, sec, fun t step => ?_⟩
    obtain rfl : t = s.read p rd := by
      change Option.map _ _ = _ at step
      rw [at_p] at step
      exact (Option.some.inj step).symm
    constructor
    · change s.typed.committed.drop (s.events ++ _).length = after
      have len := congrArg length (sec.chars p)
      rw [length_map] at len
      rw [length_append, len, ← drop_drop]
      change s.unread.drop _ = _
      rw [sec.stream, drop_left]
    · change s.events ++ _ = _
      rw [sec.events, append_assoc]

/-- A process asks for five bytes, a line is typed with a mistake in it, and the process gets it. -/
theorem console_discipline_line : ∃ s : State Unit, (system Unit).Reachable s ∧
    s.events.map Event.char = [104, 105, newline] ∧ Discipline s := by
  let asked := (State.init Unit).call () 5
  let typed := asked.intr [104, 111, ctrl 'H', 105, cr]
  have reach : (system Unit).Reachable (typed.read () ⟨5, 5, []⟩) :=
    .step (l := .read ()) (.step (l := .intr [104, 111, ctrl 'H', 105, cr])
      (.step (l := .call () 5) (.init rfl) rfl) rfl) rfl
  exact ⟨_, reach, by decide, (console_discipline reach).1⟩

end System

end Xv6.Console
