import Xv6.Vm.Copyout

/-!
# The arguments of a new program

`exec` pushes the argument strings from the end of the stack page down, each at a multiple of
four, and below them the array of pointers, `argv`, `argc` and a return address.  It compares
none of the addresses with anything: that all of this is in the stack page is left to `copyout`,
which fails at the guard page below it.

`Strung` is what the pushes of the strings have left behind so far; each push is below what is
there, and changes nothing that is not.
-/

namespace Xv6.Vm

open List

/-! ## What a program finds -/

def BytesAt (m : Mem) (d : Frame) (va : Addr) (bytes : List Byte) : Prop :=
  ∀ i (lt : i < bytes.length), m.userByte d (va + BitVec.ofNat 32 i) = bytes[i]

def WordsAt (m : Mem) (d : Frame) (va : Addr) (ws : List Addr) : Prop :=
  ∀ i (lt : i < ws.length), m.userWord d (va + BitVec.ofNat 32 (4 * i)) = ws[i]

def strings (argv : List CStr) (ptrs : List Addr) : List (Addr × Nat) :=
  (argv.zip ptrs).map fun q => (q.2, q.1.bytes.length + 1)

def Below (r s : Addr × Nat) : Prop := s.1.toNat + s.2 ≤ r.1.toNat

/-- A program with the stack pointer `esp` and the size `sz` has the arguments `argv`, and
`ptrs` are its `argv[0]`, `argv[1]` and so on. -/
structure Passed (m : Mem) (d : Frame) (sz esp : Addr) (argv : List CStr) (ptrs : List Addr) :
    Prop where
  user : ∀ va : Addr, sz.toNat ≤ va.toNat + 4096 → va < sz → m.Open d va
  count : ptrs.length = argv.length
  stack : WordsAt m d esp
    (0xFFFFFFFF :: BitVec.ofNat 32 argv.length :: (esp + 12) :: (ptrs ++ [0]))
  copies : ∀ q ∈ argv.zip ptrs, BytesAt m d q.2 (q.1.bytes ++ [0])
  inside : ∀ r ∈ strings argv ptrs ++ [(esp, 4 * (3 + argv.length + 1))],
    sz.toNat ≤ r.1.toNat + 4096 ∧ r.1.toNat + r.2 ≤ sz.toNat
  apart : (strings argv ptrs ++ [(esp, 4 * (3 + argv.length + 1))]).Pairwise Below

/-- The image before the arguments are pushed; the result is its size. -/
def loadProgram (L : Layout) (ip : File) (elf : ElfHdr) (pgdir : Frame) : K (Option Addr) := do
  match ← loadSegments L ip pgdir elf.phnum.toNat elf.phoff pgSize with
  | none => pure none
  | some sz =>
    let sz ← allocuvm L pgdir (pgRoundUp sz) (stackTop sz)
    if sz = 0 then pure none
    else
      clearpteu pgdir (sz - 2 * pgSize)
      pure (some sz)

variable {L : Layout} {m m' : Mem} {g g' : Ghost} {d : Frame} {sp : Space}

/-! ## Bytes and words -/

variable {va : Addr}

theorem bytesAt_append {a b : List Byte} : BytesAt m d va (a ++ b) ↔
    BytesAt m d va a ∧ BytesAt m d (va + BitVec.ofNat 32 a.length) b := by
  constructor
  · intro both
    refine ⟨fun i lt => ?_, fun i lt => ?_⟩
    · rw [both i (by rw [length_append]; omega), getElem_append_left lt]
    · rw [add_ofNat, both _ (by rw [length_append]; omega),
        getElem_append_right (Nat.le_add_right _ _)]
      simp only [Nat.add_sub_cancel_left]
  · rintro ⟨first, second⟩ i lt
    rcases Nat.lt_or_ge i a.length with inside | beyond
    · rw [first i inside, getElem_append_left inside]
    · rw [length_append] at lt
      have byte := second (i - a.length) (by omega)
      rw [add_ofNat, Nat.add_sub_cancel' beyond] at byte
      rw [byte, getElem_append_right beyond]

theorem userWord_of_bytes {w : Addr} (bytes : BytesAt m d va (wordBytes w)) :
    m.userWord d va = w := by
  have byte0 : m.userByte d va = w.extractLsb' 0 8 := by
    have first := bytes 0 (by decide : 0 < 4)
    rwa [BitVec.add_zero] at first
  have byte1 : m.userByte d (va + 1) = w.extractLsb' 8 8 := bytes 1 (by decide : 1 < 4)
  have byte2 : m.userByte d (va + 2) = w.extractLsb' 16 8 := bytes 2 (by decide : 2 < 4)
  have byte3 : m.userByte d (va + 3) = w.extractLsb' 24 8 := bytes 3 (by decide : 3 < 4)
  rw [Mem.userWord, byte0, byte1, byte2, byte3]
  exact Words.append_extract w

theorem wordsAt_of_bytes {ws : List Addr} (bytes : BytesAt m d va (ws.flatMap wordBytes)) :
    WordsAt m d va ws := by
  induction ws generalizing va with
  | nil => exact fun i lt => absurd lt (Nat.not_lt_zero i)
  | cons w rest ih =>
    obtain ⟨first, others⟩ := bytesAt_append.mp bytes
    have words := ih others
    intro i lt
    cases i with
    | zero => exact (congrArg _ (BitVec.add_zero va)).trans (userWord_of_bytes first)
    | succ i =>
      have word := words i (Nat.lt_of_succ_lt_succ lt)
      rw [add_ofNat] at word
      rw [Nat.mul_succ, Nat.add_comm]
      exact word

theorem BytesAt.congr {bytes : List Byte} (at_va : BytesAt m d va bytes)
    (fits : va.toNat + bytes.length ≤ 2 ^ 32)
    (same : ∀ x : Addr, va.toNat ≤ x.toNat → x.toNat < va.toNat + bytes.length →
      m'.userByte d x = m.userByte d x) : BytesAt m' d va bytes := by
  intro i lt
  have nat := toNat_add_ofNat lt fits
  rw [same _ (by omega) (by omega)]
  exact at_va i lt

theorem WordsAt.congr {ws : List Addr} (at_va : WordsAt m d va ws)
    (fits : va.toNat + 4 * ws.length ≤ 2 ^ 32)
    (same : ∀ x : Addr, va.toNat ≤ x.toNat → x.toNat < va.toNat + 4 * ws.length →
      m'.userByte d x = m.userByte d x) : WordsAt m' d va ws := by
  intro i lt
  have base : (va + BitVec.ofNat 32 (4 * i)).toNat = _ := toNat_add_ofNat (by omega) fits
  have word := at_va i lt
  generalize va + BitVec.ofNat 32 (4 * i) = a at *
  have byte : ∀ k : Addr, k.toNat < 4 → m'.userByte d (a + k) = m.userByte d (a + k) := by
    intro k four
    have nat : (a + k).toNat = a.toNat + k.toNat := by
      rw [BitVec.toNat_add]
      omega
    exact same _ (by omega) (by omega)
  rw [← word, Mem.userWord, Mem.userWord, byte 1 (by decide), byte 2 (by decide),
    byte 3 (by decide), same a (by omega) (by omega)]

theorem Written.kept {x : Addr} {buf : List Byte} (written : Written d va buf m m')
    (sep : Separate m d) (all : AllOpen m d va buf.length) (here : m.Open d x)
    (fits : va.toNat + buf.length ≤ 2 ^ 32)
    (out : x.toNat < va.toNat ∨ va.toNat + buf.length ≤ x.toNat) :
    m'.userByte d x = m.userByte d x := by
  rw [Mem.userByte, written.entries]
  refine written.rest _ _ fun i lt same => ?_
  have eq := congrArg BitVec.toNat (sep.place_inj (all i lt) here same)
  rw [toNat_add_ofNat lt fits] at eq
  omega

variable {argv : List CStr} {ptrs : List Addr}

theorem Passed.congr {sz esp : Addr} (passed : Passed m d sz esp argv ptrs)
    (same : ∀ x : Addr, sz.toNat ≤ x.toNat + 4096 → x < sz →
      m'.Open d x ∧ m'.userByte d x = m.userByte d x) : Passed m' d sz esp argv ptrs where
  user x above below := (same x above below).1
  count := passed.count
  stack := by
    have length : (0xFFFFFFFF :: BitVec.ofNat 32 argv.length :: (esp + 12) ::
        (ptrs ++ [0])).length = 3 + argv.length + 1 := by
      simp [passed.count]
      omega
    have bounds := passed.inside _ (mem_append_right _ (mem_singleton_self _))
    have limit := sz.isLt
    dsimp only at bounds
    refine passed.stack.congr (by omega) fun x above below => ?_
    exact (same x (by omega) (by change x.toNat < _; omega)).2
  copies q member := by
    have bounds := passed.inside _ (mem_append_left _ (mem_map_of_mem member))
    have length : (q.1.bytes ++ [0]).length = q.1.bytes.length + 1 := by simp
    have limit := sz.isLt
    dsimp only at bounds
    refine (passed.copies q member).congr (by omega) fun x above below => ?_
    exact (same x (by omega) (by change x.toNat < _; omega)).2
  inside := passed.inside
  apart := passed.apart

/-! ## The strings -/

/-- The strings `argv` are at `ptrs`, from `hi` down to `lo`. -/
structure Strung (m : Mem) (d : Frame) (argv : List CStr) (ptrs : List Addr) (hi lo : Nat) :
    Prop where
  count : ptrs.length = argv.length
  copies : ∀ q ∈ argv.zip ptrs, BytesAt m d q.2 (q.1.bytes ++ [0])
  bounds : ∀ r ∈ strings argv ptrs, lo ≤ r.1.toNat ∧ r.1.toNat + r.2 ≤ hi
  apart : (strings argv ptrs).Pairwise Below

theorem Strung.nil (m : Mem) (d : Frame) (hi lo : Nat) : Strung m d [] [] hi lo :=
  ⟨rfl, by rintro _ ⟨⟩, by rintro _ ⟨⟩, .nil⟩

theorem Strung.cons {s : CStr} {p : Addr} {hi lo : Nat} (strung : Strung m d argv ptrs p.toNat lo)
    (copy : BytesAt m d p (s.bytes ++ [0])) (le : lo ≤ p.toNat)
    (fits : p.toNat + (s.bytes.length + 1) ≤ hi) :
    Strung m d (s :: argv) (p :: ptrs) hi lo where
  count := congrArg Nat.succ strung.count
  copies := forall_mem_cons.mpr ⟨copy, strung.copies⟩
  bounds := by
    refine forall_mem_cons.mpr ⟨⟨le, fits⟩, fun r member => ?_⟩
    obtain ⟨above, below⟩ := strung.bounds r member
    exact ⟨above, by omega⟩
  apart := pairwise_cons.mpr ⟨fun r member => (strung.bounds r member).2, strung.apart⟩

theorem Strung.congr {hi lo : Nat} (strung : Strung m d argv ptrs hi lo) (low : hi ≤ 2 ^ 32)
    (same : ∀ x : Addr, lo ≤ x.toNat → x.toNat < hi → m'.userByte d x = m.userByte d x) :
    Strung m' d argv ptrs hi lo where
  count := strung.count
  copies q member := by
    have bounds := strung.bounds _ (mem_map_of_mem member)
    have length : (q.1.bytes ++ [0]).length = q.1.bytes.length + 1 := by simp
    dsimp only at bounds
    refine (strung.copies q member).congr (by omega) fun x above below => ?_
    exact same x (by omega) (by omega)
  bounds := strung.bounds
  apart := strung.apart

/-! ## The pushes -/

section Push

variable {hi : Nat} {m1 m2 : Mem} {g1 : Ghost} {sp1 : Space}

theorem Stacked.open_iff (stacked : Stacked L m g d hi m1 g1 sp1)
    (stacked' : Stacked L m g d hi m2 g1 sp1) (x : Addr) : m2.Open d x ↔ m1.Open d x := by
  rw [Mem.Open, (stacked'.inv.space d sp1 stacked'.at_d).pte_eq, Mem.Open,
    (stacked.inv.space d sp1 stacked.at_d).pte_eq]

structure Push (L : Layout) (m : Mem) (g : Ghost) (d : Frame) (hi : Nat) (g1 : Ghost) (sp1 : Space)
    (va : Addr) (buf : List Byte) (m1 m2 : Mem) : Prop where
  stacked : Stacked L m g d hi m2 g1 sp1
  above : 4096 * (hi - 1) ≤ va.toNat
  bytes : BytesAt m2 d va buf
  kept : ∀ x, m1.Open d x → x.toNat < va.toNat ∨ va.toNat + buf.length ≤ x.toNat →
    m2.userByte d x = m1.userByte d x

theorem Stacked.push (inv : Inv L m g) (stacked : Stacked L m g d hi m1 g1 sp1) {va : Addr}
    {buf : List Byte} (some : buf ≠ []) (fits : va.toNat + buf.length ≤ 4096 * hi)
    (reaches : 4096 * (hi - 2) < va.toNat + buf.length)
    (ran : Vm.copyout d va buf m1 = .ok (true, m2)) : Push L m g d hi g1 sp1 va buf m1 m2 := by
  have low := stacked.low
  obtain ⟨-, stacked2, above⟩ := (ends_of_eq ran).mp (stacked.copyout inv some fits reaches)
  obtain ⟨-, all, written, -⟩ :=
    (within_ok ran).mp (copyout_within stacked.separate va buf (by omega))
  refine ⟨stacked2, above.mp rfl, (written rfl).bytes, fun x here out => ?_⟩
  exact (written rfl).kept stacked.separate (all.mp rfl) here (by omega) out

theorem pushArgs_strung (inv : Inv L m g) (argv : List CStr) (stack stack' : Addr)
    (ptrs ptrs' : List Addr) (m1 : Mem) (stacked : Stacked L m g d hi m1 g1 sp1)
    (ge : 4096 * (hi - 1) ≤ stack.toNat) (le : stack.toNat ≤ 4096 * hi)
    (ran : pushArgs d argv stack ptrs m1 = .ok (some (stack', ptrs'), m2)) :
    ∃ new, ptrs' = ptrs ++ new ∧ Stacked L m g d hi m2 g1 sp1 ∧ 4096 * (hi - 1) ≤ stack'.toNat ∧
      stack'.toNat ≤ stack.toNat ∧ Strung m2 d argv new stack.toNat stack'.toNat ∧
      ∀ x, m1.Open d x → x.toNat < stack'.toNat ∨ stack.toNat ≤ x.toNat →
        m2.userByte d x = m1.userByte d x := by
  induction argv generalizing stack ptrs m1 with
  | nil =>
    cases ran
    exact ⟨[], (append_nil _).symm, stacked, ge, Nat.le_refl _, .nil .., fun _ _ _ => rfl⟩
  | cons s rest ih =>
    have three := stacked.three
    have low := stacked.low
    have len : (s.bytes ++ [0]).length = s.bytes.length + 1 := by simp
    have some : s.bytes ++ [0] ≠ [] := by simp
    rw [pushArgs] at ran
    by_cases many : ptrs.length ≥ maxArg
    · rw [if_pos many] at ran
      cases ran
    rw [if_neg many] at ran
    obtain ⟨r, m1', copied, ran⟩ := Prog.of_bind ran
    cases r with
    | false => cases ran
    | true =>
      rcases argSp_cases stack s (by omega) (by omega) with ⟨below, near⟩ | ⟨-, wrap⟩
      · have push := stacked.push inv some (by omega) (by omega) copied
        obtain ⟨new, rfl, stacked2, ge', le', strung, kept⟩ :=
          ih (argSp stack s) _ m1' push.stacked push.above (by omega) ran
        -- The later pushes are all below this string.
        have later : ∀ x : Addr, (argSp stack s).toNat ≤ x.toNat → x.toNat < 4096 * hi →
            m2.userByte d x = m1'.userByte d x := fun x above below =>
          kept x (push.stacked.open_stack (by have := push.above; omega) below) (.inr above)
        refine ⟨argSp stack s :: new, by simp, stacked2, ge', by omega,
          strung.cons (push.bytes.congr (by omega) fun x above lt => ?_) le' (by omega),
          fun x here out => ?_⟩
        · exact later x above (by omega)
        · rw [kept x ((stacked.open_iff push.stacked x).mpr here) (by omega),
            push.kept x here (by omega)]
      · -- A string that wraps around is not copied.
        have := (within_ok copied).mp (stacked.copyout_high some wrap)
        exact absurd this.2.1 Bool.true_eq_false.mp

/-- The array is right behind the three words that the program starts with. -/
theorem ustack_eq (stack : Addr) (ptrs : List Addr) :
    ustack stack ptrs = 0xFFFFFFFF :: BitVec.ofNat 32 ptrs.length ::
      (stack - BitVec.ofNat 32 (3 + ptrs.length + 1) * 4 + 12) :: (ptrs ++ [0]) := by
  have array : stack - (BitVec.ofNat 32 ptrs.length + 1) * 4 =
      stack - BitVec.ofNat 32 (3 + ptrs.length + 1) * 4 + 12 := by
    rw [BitVec.ofNat_add, BitVec.ofNat_add]
    generalize BitVec.ofNat 32 ptrs.length = argc
    change _ = stack - (3 + argc + 1) * 4 + 12
    bv_omega
  rw [← array]
  rfl

theorem pushStack_passed (inv : Inv L m g) {top esp : Addr} (at_top : top.toNat = 4096 * hi)
    (argv : List CStr) (stacked : Stacked L m g d hi m1 g1 sp1)
    (ran : pushStack d argv top m1 = .ok (some esp, m2)) :
    Stacked L m g d hi m2 g1 sp1 ∧ (∃ ptrs, Passed m2 d top esp argv ptrs) ∧
      ∀ x, m1.Open d x → x.toNat < 4096 * (hi - 1) → m2.userByte d x = m1.userByte d x := by
  have three := stacked.three
  have low := stacked.low
  obtain ⟨r, m1', pushed, ran⟩ := Prog.of_bind ran
  cases r with
  | none => cases ran
  | some r =>
    obtain ⟨stack, ptrs⟩ := r
    obtain ⟨_, rfl, stacked', ge, le, strung, kept⟩ :=
      pushArgs_strung inv argv top stack [] ptrs m1 stacked (by omega) (by omega) pushed
    obtain ⟨-, -, -, -, bounds⟩ := (within_ok pushed).mp (pushArgs_within inv at_top argv top []
      m1 stacked (by omega) (by omega) (Nat.zero_le _))
    have few : ptrs.length ≤ 32 := (bounds stack ptrs rfl).2.2
    have size := length_ustack stack ptrs
    have some : (ustack stack ptrs).flatMap wordBytes ≠ [] := by
      refine length_pos_iff.mp ?_
      omega
    obtain ⟨r, m1'', copied, ran⟩ := Prog.of_bind ran
    cases r with
    | false => cases ran
    | true =>
      cases ran
      have at_esp := ustack_toNat stack few (by omega)
      have words := ustack_eq stack ptrs
      generalize stack - BitVec.ofNat 32 (3 + ptrs.length + 1) * 4 = esp at *
      have push := stacked'.push inv some (by omega) (by omega) copied
      have above := push.above
      have strung := strung.congr (by omega) fun x above below =>
        push.kept x (stacked'.open_stack (by omega) (by omega)) (.inr (by omega))
      have stack_words := wordsAt_of_bytes push.bytes
      have count := strung.count
      rw [words, count] at stack_words
      refine ⟨push.stacked, ⟨ptrs, fun x ge lt => ?_, count, stack_words, strung.copies, ?_,
        ?_⟩, fun x here lt => ?_⟩
      · have lt : x.toNat < top.toNat := lt
        exact push.stacked.open_stack (by omega) (by omega)
      · intro r member
        rcases mem_append.mp member with string | array
        · have bounds := strung.bounds r string
          omega
        · obtain rfl := mem_singleton.mp array
          dsimp only
          omega
      · refine pairwise_append.mpr ⟨strung.apart, pairwise_singleton .., ?_⟩
        intro r string a array
        obtain rfl := mem_singleton.mp array
        have bounds := strung.bounds r string
        change esp.toNat + 4 * (3 + argv.length + 1) ≤ r.1.toNat
        omega
      · rw [push.kept x ((stacked.open_iff stacked' x).mpr here) (.inl (by omega)),
          kept x here (.inl (by omega))]

end Push

/-! ## `exec` -/

theorem loadImage_eq (ip : File) (elf : ElfHdr) (argv : List CStr) (pgdir : Frame) :
    loadImage L ip elf argv pgdir = (do
      match ← loadProgram L ip elf pgdir with
      | none => pure none
      | some sz =>
        match ← pushStack pgdir argv sz with
        | none => pure none
        | some sp => pure (some (sz, sp))) := by
  rw [loadImage, loadProgram, bind_assoc]
  refine bind_congr fun r => ?_
  cases r with
  | none => rfl
  | some sz =>
    unfold addStack
    rw [bind_assoc]
    refine bind_congr fun r => ?_
    split
    · rfl
    · rw [bind_assoc]
      rfl

theorem loadProgram_stacked {ip : File} {elf : ElfHdr} {sz : Addr} {m0 m1 : Mem} {g0 : Ghost}
    {sp0 : Space} (inv : Inv L m g) (loading : Loading L m g d pgSize m0 g0 sp0)
    (ran : loadProgram L ip elf d m0 = .ok (some sz, m1)) :
    sz.toNat = 4096 * pages sz ∧ ∃ g1 sp1, Stacked L m g d (pages sz) m1 g1 sp1 := by
  obtain ⟨r, ma, segments, ran⟩ := Prog.of_bind ran
  cases r with
  | none => cases ran
  | some s =>
    obtain ⟨-, ⟨g1, sp1, loading⟩, -⟩ := (within_ok segments).mp
      (loadSegments_within ip inv elf.phnum.toNat elf.phoff pgSize m0 g0 sp0 loading)
    refine (within_ok ran).mp (stack_pages (E := fun _ => True)
      (Q := fun r m1 => ∀ sz, r = some sz → sz.toNat = 4096 * pages sz ∧
        ∃ g1 sp1, Stacked L m g d (pages sz) m1 g1 sp1)
      inv loading (fun _ _ _ _ _ none => by cases none)
      fun m3 g3 sp3 _ _ at_top stacked => ?_) sz rfl
    rintro _ ⟨⟩
    exact ⟨at_top, g3, sp3, stacked⟩

theorem exec_calls {file : Option File} {old : Frame} {img : Image}
    (ran : exec L file argv old m = .ok (some img, m')) :
    ∃ ip elf m0 m1 m2, file = some ip ∧ ip.elfHeader = some elf ∧
      setupkvm L m = .ok (some img.pgdir, m0) ∧
      loadProgram L ip elf img.pgdir m0 = .ok (some img.sz, m1) ∧
      pushStack img.pgdir argv img.sz m1 = .ok (some img.esp, m2) ∧
      freevm L old m2 = .ok ((), m') := by
  unfold exec at ran
  cases file with
  | none => cases ran
  | some ip =>
    cases header : ip.elfHeader with
    | none =>
      simp only [header] at ran
      cases ran
    | some elf =>
      simp only [header] at ran
      obtain ⟨r, m0, setup, ran⟩ := Prog.of_bind ran
      cases r with
      | none => cases ran
      | some d =>
        obtain ⟨r, m2, loaded, ran⟩ := Prog.of_bind ran
        cases r with
        | none =>
          obtain ⟨_, _, _, ran⟩ := Prog.of_bind ran
          cases ran
        | some r =>
          obtain ⟨⟨⟩, _, freed, ran⟩ := Prog.of_bind ran
          cases ran
          rw [loadImage_eq] at loaded
          obtain ⟨r, m1, program, loaded⟩ := Prog.of_bind loaded
          cases r with
          | none => cases loaded
          | some sz =>
            obtain ⟨r, _, pushed, loaded⟩ := Prog.of_bind loaded
            cases r with
            | none => cases loaded
            | some esp =>
              cases loaded
              exact ⟨ip, elf, m0, m1, m2, rfl, header, setup, program, pushed, freed⟩

section Commit

variable {old : Frame} {spo : Space}

theorem Shrinks.pte_eq (inv : Inv L m g) (inv' : Inv L m' g') (at_d : g.space d = some sp)
    (ne : d ≠ old) (shrinks : Shrinks old (partOf g old) m g m' g') (x : Addr) :
    m'.pte d x = m.pte d x := by
  have at_d' : g'.space d = some sp := (shrinks.space d ne).trans at_d
  rw [(inv'.space d sp at_d').pte_eq, (inv.space d sp at_d).pte_eq]

theorem Shrinks.userByte_eq (inv : Inv L m g) (inv' : Inv L m' g') (at_d : g.space d = some sp)
    (at_old : g.space old = some spo) (ne : d ≠ old)
    (shrinks : Shrinks old (partOf g old) m g m' g') {x : Addr} (low : vpn x < 2 ^ 19)
    (present : Has pteP (m.pte d x)) : m'.userByte d x = m.userByte d x := by
  have ok := inv.space d sp at_d
  have role : g.own (pteFrame (m.pte d x)) = .user d (vpn x) := by
    rw [ok.pte_eq] at present ⊢
    exact (ok.user _ _).mpr ⟨low, present, rfl⟩
  rw [Mem.userByte, shrinks.pte_eq inv inv' at_d ne, Mem.userByte, shrinks.kept]
  · rintro (dir | inside)
    · rw [dir, (inv.space old spo at_old).dir] at role
      cases role
    · rw [role] at inside
      exact ne inside
  · intro i table
    cases role.symm.trans table

/-- **The arguments of a new program.**  After an `exec` that has succeeded the program finds its
arguments in the stack page, and the pushes have not changed the image below the guard page. -/
theorem exec_passes_args (inv : Inv L m g) (at_old : g.space old = some spo) (file : Option File)
    (argv : List CStr) (img : Image) (m' : Mem)
    (ran : exec L file argv old m = .ok (some img, m')) :
    (∃ ptrs, Passed m' img.pgdir img.sz img.esp argv ptrs) ∧
      ∃ ip elf m0 m1, file = some ip ∧ ip.elfHeader = some elf ∧
        setupkvm L m = .ok (some img.pgdir, m0) ∧
        loadProgram L ip elf img.pgdir m0 = .ok (some img.sz, m1) ∧
        ∀ va : Addr, pgSize ≤ va → va.toNat + 8192 < img.sz.toNat →
          m'.userByte img.pgdir va = m1.userByte img.pgdir va := by
  obtain ⟨ip, elf, m0, m1, m2, at_file, header, setup, program, pushed, freed⟩ := exec_calls ran
  obtain ⟨g0, inv0, ⟨nothing, -⟩ | ⟨d, sp, is_d, fresh, at_d, kernel⟩⟩ :=
    (ends_of_eq setup).mp (setupkvm_ends inv)
  · cases nothing
  cases is_d
  obtain ⟨size, g1, sp1, stacked⟩ :=
    loadProgram_stacked inv (kernel.loading inv inv0 fresh at_d) program
  obtain ⟨stacked2, ⟨ptrs, passed⟩, kept⟩ := pushStack_passed inv size argv stacked pushed
  have three := stacked.three
  have low := stacked.low
  have ne : img.pgdir ≠ old := by
    intro eq
    have free := stacked.builds.free
    rw [eq, (inv.space old spo at_old).dir] at free
    cases free
  have at_old1 : g1.space old = some spo := (stacked.builds.space old ne.symm).trans at_old
  obtain ⟨g2, inv2, -, shrinks⟩ := (ends_of_eq freed).mp (freevm_ends stacked2.inv at_old1)
  -- What the user can read below the end of the image is still there.
  have view : ∀ x : Addr, x < img.sz → m2.Open img.pgdir x →
      m'.Open img.pgdir x ∧ m'.userByte img.pgdir x = m2.userByte img.pgdir x := by
    intro x below here
    have below : x.toNat < img.sz.toNat := below
    have page : vpn x < 2 ^ 19 := by
      unfold vpn
      omega
    refine ⟨?_, shrinks.userByte_eq stacked2.inv inv2 stacked2.at_d at_old1 ne page here.1⟩
    rw [Mem.Open, shrinks.pte_eq stacked2.inv inv2 stacked2.at_d ne]
    exact here
  refine ⟨⟨ptrs, passed.congr fun x above below => ?_⟩, ip, elf, m0, m1, at_file, header, setup,
    program, fun va above below => ?_⟩
  · exact view x below (passed.user x above below)
  · have above : 4096 ≤ va.toNat := above
    have here : m1.Open img.pgdir va := by
      rw [stacked.open_page] <;> unfold vpn <;> omega
    have here2 := (stacked.open_iff stacked2 va).mpr here
    have lt : va < img.sz := by
      change va.toNat < img.sz.toNat
      omega
    rw [(view va lt here2).2, kept va here (by omega)]

theorem exec_passes_args_greeting : ∃ m old img m', exec kernelLayout (some smallProgram) [greeting]
    old m = .ok (some img, m') ∧ ∃ p, Passed m' img.pgdir img.sz img.esp [greeting] [p] := by
  obtain ⟨m, g, d, sp, inv, at_d, -, enough⟩ := machine_exists
  obtain ⟨img, m', -, -, ran, -⟩ := exec_small inv at_d enough
  obtain ⟨ptrs, passed⟩ := (exec_passes_args inv at_d _ [greeting] img m' ran).1
  obtain ⟨p, rfl⟩ := length_eq_one_iff.mp passed.count
  exact ⟨m, d, img, m', ran, p, passed⟩

end Commit

end Xv6.Vm
