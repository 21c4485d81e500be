import Xv6.Vm.Invariant

/-!
# Fetching arguments from user memory

The routines of `syscall.c` compare user addresses with the size of the process, and then trust
them.  Since page 0 has been taken out of every program that is right only from `PGSIZE` on, which
`argptr` alone tests; and a process that has given up all its memory has kept its size.

`Backing` is all that the routines depend on: below the size of the process, the bytes that are
mapped are those that the process `Backs`.
-/

namespace Xv6.Vm

/-! ## User memory -/

def Mem.userWord (m : Mem) (pgdir : Frame) (va : Addr) : Addr :=
  m.userByte pgdir (va + 3) ++ m.userByte pgdir (va + 2) ++ m.userByte pgdir (va + 1) ++
    m.userByte pgdir va

def Block (i size va : Addr) : Prop := va - i < size

/-- There is memory at an address below the size of the process. -/
def Proc.Backs (p : Proc) (va : Addr) : Prop := p.life = .loaded ∧ pgSize ≤ va

instance (p : Proc) (va : Addr) : Decidable (p.Backs va) := inferInstanceAs (Decidable (_ ∧ _))

def Proc.RejectsInt (p : Proc) (addr : Addr) : Prop := addr ≥ p.sz ∨ addr + 4 > p.sz

instance (p : Proc) (addr : Addr) : Decidable (p.RejectsInt addr) :=
  inferInstanceAs (Decidable (_ ∨ _))

def Proc.RejectsStr (p : Proc) (addr : Addr) : Prop := addr ≥ p.sz

instance (p : Proc) (addr : Addr) : Decidable (p.RejectsStr addr) :=
  inferInstanceAs (Decidable (_ ≥ _))

/-- Below the size of the process, the mapped bytes are those that the process backs. -/
structure Backing (m : Mem) (p : Proc) : Prop where
  limit : p.sz.toNat < 2 ^ 31
  present : ∀ va, va < p.sz → (Has pteP (m.pte p.pgdir va) ↔ p.Backs va)

section Sound

variable {L : Layout} {s : System} {g : Ghost} {i : Fin nproc} {p : Proc}

/-- The pages that are open to a process. -/
theorem Sound.user (sound : Sound L s g) (at_i : s.proc i = some p) (loaded : p.life = .loaded)
    (va : Addr) : s.mem.Open p.pgdir va ↔ p.accessible (vpn va) = true := by
  obtain ⟨sp, at_p, fits⟩ := (sound.alive i p at_i).space
  obtain ⟨-, limit, shape⟩ := fits.loaded loaded
  rw [shape.accessible limit (vpn_lt va), Mem.Open, (sound.inv.space _ sp at_p).pte_eq]
  rfl

theorem Sound.backing (sound : Sound L s g) (at_i : s.proc i = some p)
    (past : p.life ≠ .initcode) : Backing s.mem p := by
  obtain ⟨sp, at_p, fits⟩ := (sound.alive i p at_i).space
  have limit := fits.limit past
  refine ⟨limit, fun va inside => ?_⟩
  have lt : va.toNat < p.sz.toNat := inside
  have below : vpn va < pages p.sz := by
    rw [lt_pages]
    unfold vpn
    omega
  have low : vpn va < 2 ^ 19 := by
    unfold vpn
    omega
  rw [(sound.inv.space _ sp at_p).pte_eq, (fits.shape past).present _ low, Proc.Backs, pgSize_le,
    Proc.top]
  split
  · rename_i loaded
    simp only [loaded, true_and]
    exact and_iff_left below
  · rename_i emptied
    exact iff_of_false (fun h => by omega) fun h => emptied h.1

end Sound

variable {m : Mem} {p : Proc} {addr : Addr}

theorem ends_loadByte (d : Frame) (va : Addr) (Q : Byte → Mem → Prop) :
    Ends (loadByte d va) m Q ↔ Has pteP (m.pte d va) ∧ Q (m.userByte d va) m := by
  unfold Ends loadByte
  by_cases here : Has pteP (m.pte d va)
  · rw [if_pos here]
    exact (and_iff_right here).symm
  · rw [if_neg here]
    exact iff_of_false id fun h => here h.1

theorem loadByte_fault {d : Frame} {va : Addr} (absent : ¬ Has pteP (m.pte d va)) :
    loadByte d va m = .error (.fault va) := if_neg absent

theorem ends_loadWord (d : Frame) (va : Addr) (Q : Addr → Mem → Prop) :
    Ends (loadWord d va) m Q ↔ (Has pteP (m.pte d va) ∧ Has pteP (m.pte d (va + 1)) ∧
      Has pteP (m.pte d (va + 2)) ∧ Has pteP (m.pte d (va + 3))) ∧ Q (m.userWord d va) m := by
  simp only [loadWord, ends_bind, ends_loadByte, ends_pure, and_assoc]
  exact Iff.rfl

theorem loadWord_fault {d : Frame} {va : Addr} (absent : ¬ Has pteP (m.pte d va)) :
    loadWord d va m = .error (.fault va) :=
  Prog.bind_error (loadByte_fault absent) _

/-! ## The routines -/

theorem rejectsInt_iff (limit : p.sz.toNat < 2 ^ 31) :
    p.RejectsInt addr ↔ p.sz.toNat < addr.toNat + 4 := by
  have sum : (addr + 4).toNat = (addr.toNat + 4) % 2 ^ 32 := BitVec.toNat_add ..
  simp only [Proc.RejectsInt, ge_iff_le, gt_iff_lt, BitVec.le_def, BitVec.lt_def]
  omega

theorem fetchint_eq : fetchint p addr = if p.RejectsInt addr then pure none
    else loadWord p.pgdir addr >>= fun ip => pure (some ip) := rfl

theorem fetchstr_eq : fetchstr p addr = if p.RejectsStr addr then pure none
    else strLoop p.pgdir addr p.sz (p.sz.toNat + 1) addr := rfl

section Backing

variable (backing : Backing m p)
include backing

theorem ends_fetchint (Q : Option Addr → Mem → Prop) :
    Ends (fetchint p addr) m Q ↔ p.RejectsInt addr ∧ Q none m ∨
      ¬ p.RejectsInt addr ∧ p.Backs addr ∧ Q (some (m.userWord p.pgdir addr)) m := by
  rw [fetchint_eq]
  by_cases rejects : p.RejectsInt addr
  · rw [if_pos rejects, ends_pure]
    simp [rejects]
  · have inside := mt (rejectsInt_iff backing.limit).mpr rejects
    have later : ∀ k : Addr, k.toNat < 4 → p.Backs addr → Has pteP (m.pte p.pgdir (addr + k)) := by
      intro k small backs
      have sum : (addr + k).toNat = addr.toNat + k.toNat := by
        rw [BitVec.toNat_add]
        omega
      have lt : addr + k < p.sz := by
        change (addr + k).toNat < p.sz.toNat
        omega
      have le : pgSize ≤ addr + k := by
        have : pgSize.toNat ≤ addr.toNat := backs.2
        change pgSize.toNat ≤ (addr + k).toNat
        omega
      exact (backing.present _ lt).mpr ⟨backs.1, le⟩
    have first : addr < p.sz := by
      change addr.toNat < p.sz.toNat
      omega
    rw [if_neg rejects, ends_bind, ends_loadWord, backing.present addr first]
    simp only [rejects, false_and, false_or, not_false_eq_true, true_and, ends_pure]
    constructor
    · rintro ⟨⟨backs, -⟩, post⟩
      exact ⟨backs, post⟩
    · rintro ⟨backs, post⟩
      exact ⟨⟨backs, later 1 (by decide) backs, later 2 (by decide) backs,
        later 3 (by decide) backs⟩, post⟩

theorem fetchint_fault (accepts : ¬ p.RejectsInt addr) (unbacked : ¬ p.Backs addr) :
    fetchint p addr m = .error (.fault addr) := by
  have first : addr < p.sz := BitVec.not_le.mp fun ge => accepts (.inl ge)
  rw [fetchint_eq, if_neg accepts]
  exact Prog.bind_error (loadWord_fault (mt (backing.present addr first).mp unbacked)) _

/-- The loop of `fetchstr` looks at bytes of the process only. -/
theorem strLoop_ends (backs : p.Backs addr) (n : Nat) (s : Addr) (after : addr.toNat ≤ s.toNat)
    (before : s.toNat ≤ p.sz.toNat) (fuel : p.sz.toNat - s.toNat < n) :
    Ends (strLoop p.pgdir addr p.sz n s) m fun r m' =>
      m' = m ∧ ∀ len, r = some len → addr.toNat + len.toNat < p.sz.toNat := by
  have limit := backing.limit
  induction n generalizing s with
  | zero => omega
  | succ n ih =>
    rw [strLoop]
    by_cases more : s < p.sz
    · have lt : s.toNat < p.sz.toNat := more
      have le : pgSize ≤ s := by
        have : pgSize.toNat ≤ addr.toNat := backs.2
        change pgSize.toNat ≤ s.toNat
        omega
      have next : (s + 1).toNat = s.toNat + 1 := by
        rw [BitVec.toNat_add]
        change (s.toNat + 1) % 2 ^ 32 = _
        omega
      rw [if_pos more, ends_bind, ends_loadByte]
      refine ⟨(backing.present s more).mpr ⟨backs.1, le⟩, ?_⟩
      by_cases nul : m.userByte p.pgdir s = 0
      · rw [if_pos nul, ends_pure]
        refine ⟨rfl, ?_⟩
        rintro _ ⟨⟩
        rw [BitVec.toNat_sub]
        omega
      · rw [if_neg nul]
        exact ih (s + 1) (by omega) (by omega) (by omega)
    · rw [if_neg more, ends_pure]
      exact ⟨rfl, (by simp)⟩

theorem fetchstr_ends (safe : p.RejectsStr addr ∨ p.Backs addr) :
    Ends (fetchstr p addr) m fun r m' => m' = m ∧ ∀ len, r = some len →
      p.Backs addr ∧ addr.toNat + len.toNat < p.sz.toNat := by
  rw [fetchstr_eq]
  by_cases rejects : p.RejectsStr addr
  · rw [if_pos rejects, ends_pure]
    exact ⟨rfl, (by simp)⟩
  · have backs := safe.resolve_left rejects
    have first : addr.toNat < p.sz.toNat := BitVec.not_le.mp rejects
    rw [if_neg rejects]
    refine (strLoop_ends backing backs _ addr (Nat.le_refl _) (by omega) (by omega)).mono ?_
    exact fun r m' post => ⟨post.1, fun len eq => ⟨backs, post.2 len eq⟩⟩

theorem fetchstr_fault (accepts : ¬ p.RejectsStr addr) (unbacked : ¬ p.Backs addr) :
    fetchstr p addr m = .error (.fault addr) := by
  have first : addr < p.sz := BitVec.not_le.mp accepts
  rw [fetchstr_eq, if_neg accepts, strLoop, if_pos first]
  exact Prog.bind_error (loadByte_fault (mt (backing.present addr first).mp unbacked)) _

end Backing

/-! ## Safety -/

/-- A routine that looks at user memory is safe if it touches mapped bytes only, and the bytes that
it vouches for by a success are mapped as well. -/
def Safe {α : Type} (m : Mem) (p : Proc) (x : K (Option α)) (range : α → Addr → Prop) : Prop :=
  Ends x m fun r m' => m' = m ∧ ∀ a, r = some a → ∀ va, range a va → Has pteP (m.pte p.pgdir va)

theorem not_safe_of_error {α : Type} {x : K (Option α)} {range : α → Addr → Prop} {e : Stop}
    (error : x m = .error e) : ¬ Safe m p x range := by
  unfold Safe Ends
  rw [error]
  exact id

theorem Backing.block (backing : Backing m p) {i size va : Addr} (backs : p.Backs i)
    (inside : i.toNat + size.toNat ≤ p.sz.toNat) (block : Block i size va) :
    Has pteP (m.pte p.pgdir va) := by
  have limit := backing.limit
  have lt : (va - i).toNat < size.toNat := block
  rw [BitVec.toNat_sub] at lt
  have from_i : i.toNat ≤ va.toNat := by omega
  have below : va < p.sz := by
    change va.toNat < p.sz.toNat
    omega
  exact (backing.present va below).mpr ⟨backs.1, Nat.le_trans backs.2 from_i⟩

section Safety

variable (backing : Backing m p)
include backing

theorem fetchint_safe_iff : Safe m p (fetchint p addr) (fun _ => Block addr 4) ↔
    p.RejectsInt addr ∨ p.Backs addr := by
  rw [Safe, ends_fetchint backing]
  by_cases rejects : p.RejectsInt addr
  · simp [rejects]
  · have inside := mt (rejectsInt_iff backing.limit).mpr rejects
    simp only [rejects, false_and, not_false_eq_true, true_and, false_or]
    refine ⟨fun h => h.1, fun backs => ⟨backs, fun _ _ va block => ?_⟩⟩
    refine backing.block backs ?_ block
    change addr.toNat + 4 ≤ p.sz.toNat
    omega

theorem fetchstr_safe_iff : Safe m p (fetchstr p addr) (fun len => Block addr (len + 1)) ↔
    p.RejectsStr addr ∨ p.Backs addr := by
  constructor
  · intro safe
    refine Classical.byContradiction fun bad => ?_
    rw [not_or] at bad
    exact not_safe_of_error (fetchstr_fault backing bad.1 bad.2) safe
  · intro good
    refine (fetchstr_ends backing good).mono fun r m' post => ⟨post.1, fun len eq va block => ?_⟩
    obtain ⟨backs, inside⟩ := post.2 len eq
    refine backing.block backs ?_ block
    have limit := backing.limit
    have sum : (len + 1).toNat = len.toNat + 1 := by
      rw [BitVec.toNat_add]
      change (len.toNat + 1) % 2 ^ 32 = _
      omega
    omega

variable (esp n size : Addr)

theorem argptr_safe_iff : Safe m p (argptr p esp n size) (fun i => Block i size) ↔
    p.RejectsInt (argAddr esp n) ∨ p.Backs (argAddr esp n) := by
  rw [Safe, argptr, ends_bind, argint, ends_fetchint backing]
  by_cases rejects : p.RejectsInt (argAddr esp n)
  · simp [rejects]
  · simp only [rejects, false_and, not_false_eq_true, true_and, false_or]
    refine and_iff_left_of_imp fun backs => ?_
    generalize m.userWord p.pgdir (argAddr esp n) = i
    by_cases accepted : blockOk p.sz i size
    · have range := (blockOk_iff backing.limit).mp accepted
      rw [if_pos accepted, ends_pure]
      refine ⟨rfl, ?_⟩
      rintro _ ⟨⟩ va block
      exact backing.block ⟨backs.1, range.1⟩ range.2.2.2 block
    · rw [if_neg accepted, ends_pure]
      exact ⟨rfl, (by simp)⟩

theorem argstr_safe_iff :
    Safe m p (argstr p esp n) (fun r => Block r.1 (r.2 + 1)) ↔
      p.RejectsInt (argAddr esp n) ∨ p.Backs (argAddr esp n) ∧
        (p.RejectsStr (m.userWord p.pgdir (argAddr esp n)) ∨
          p.Backs (m.userWord p.pgdir (argAddr esp n))) := by
  rw [Safe, argstr, ends_bind, argint, ends_fetchint backing]
  by_cases rejects : p.RejectsInt (argAddr esp n)
  · simp [rejects]
  · simp only [rejects, false_and, not_false_eq_true, true_and, false_or]
    refine and_congr_right fun _ => ?_
    generalize m.userWord p.pgdir (argAddr esp n) = addr
    rw [ends_bind, ← fetchstr_safe_iff backing]
    constructor
    · refine fun ends => ends.mono fun r m' post => ?_
      cases r with
      | none => exact ⟨post.1, (by simp)⟩
      | some len =>
        refine ⟨post.1, ?_⟩
        rintro _ ⟨⟩
        exact post.2 (addr, len) rfl
    · refine fun ends => ends.mono fun r m' post => ?_
      cases r with
      | none => exact ⟨post.1, (by simp)⟩
      | some len =>
        refine ⟨post.1, ?_⟩
        rintro _ ⟨⟩
        exact post.2 len rfl

end Safety

/-- **Fetching arguments.**  For every process that has been through `exec`, or descends from one
that has, and for all stack pointers and arguments: each routine is safe just if the address that
it is given is rejected, or is not in page 0 of a process that still has its memory. -/
theorem fetch_safe_iff {L : Layout} {init : List Byte} {s : System} {i : Fin nproc}
    (reach : (processes L init).Reachable s) (at_i : s.proc i = some p)
    (past : p.life ≠ .initcode) (addr esp n size : Addr) :
    (Safe s.mem p (fetchint p addr) (fun _ => Block addr 4) ↔
      p.RejectsInt addr ∨ p.Backs addr) ∧
    (Safe s.mem p (fetchstr p addr) (fun len => Block addr (len + 1)) ↔
      p.RejectsStr addr ∨ p.Backs addr) ∧
    (Safe s.mem p (argint p esp n) (fun _ => Block (argAddr esp n) 4) ↔
      p.RejectsInt (argAddr esp n) ∨ p.Backs (argAddr esp n)) ∧
    (Safe s.mem p (argptr p esp n size) (fun i => Block i size) ↔
      p.RejectsInt (argAddr esp n) ∨ p.Backs (argAddr esp n)) ∧
    (Safe s.mem p (argstr p esp n) (fun r => Block r.1 (r.2 + 1)) ↔
      p.RejectsInt (argAddr esp n) ∨ p.Backs (argAddr esp n) ∧
        (p.RejectsStr (s.mem.userWord p.pgdir (argAddr esp n)) ∨
          p.Backs (s.mem.userWord p.pgdir (argAddr esp n)))) := by
  obtain ⟨g, sound⟩ := reachable_sound reach
  have backing := sound.backing at_i past
  exact ⟨fetchint_safe_iff backing, fetchstr_safe_iff backing, fetchint_safe_iff backing,
    argptr_safe_iff backing esp n size, argstr_safe_iff backing esp n⟩

theorem fetch_safe_iff_loaded : ∃ s p, (processes kernelLayout []).Reachable s ∧
    s.proc 0 = some p ∧ p.life = .loaded ∧
      Safe s.mem p (fetchint p 0x1000) (fun _ => Block 0x1000 4) := by
  obtain ⟨s, p, img, reach, at_0, -⟩ := loaded_exists
  have safe := fetch_safe_iff reach at_0 (by rintro ⟨⟩) 0x1000 0 0 0
  exact ⟨s, _, reach, at_0, rfl, safe.1.mpr (.inr ⟨rfl, by decide⟩)⟩

/-- The null pointer is accepted by `fetchint` and `fetchstr`, and it is not mapped: a stack pointer
just below 0 or a null string brings the kernel down. -/
theorem fetch_null_faults : ∃ s p, (processes kernelLayout []).Reachable s ∧
    s.proc 0 = some p ∧ p.life = .loaded ∧
      fetchint p 0 s.mem = .error (.fault 0) ∧ fetchstr p 0 s.mem = .error (.fault 0) ∧
      argint p 0xFFFFFFFC 0 s.mem = .error (.fault 0) := by
  obtain ⟨s, p, img, reach, at_0, size, -⟩ := loaded_exists
  obtain ⟨g, sound⟩ := reachable_sound reach
  have backing := sound.backing at_0 (by rintro ⟨⟩)
  have accepts : ¬ (p.load img).RejectsInt 0 := by
    rw [rejectsInt_iff backing.limit]
    change ¬ img.sz.toNat < 0 + 4
    rw [size]
    decide
  have unbacked : ¬ (p.load img).Backs 0 := fun backs => absurd backs.2 (by decide)
  have int := fetchint_fault backing accepts unbacked
  refine ⟨s, _, reach, at_0, rfl, int, ?_, int⟩
  exact fetchstr_fault backing (fun ge => accepts (.inl ge)) unbacked

end Xv6.Vm
