import Xv6.Vm.Fetch

/-!
# Filling buffers in user memory

`argptr` compares a buffer with the size of the process.  In an address space of the right shape
that makes sure that its pages are there, and nothing makes sure that the kernel may store to them:
`mprotect` can take `PTE_W` from any of them, and with `CR0_WP` the kernel minds.
-/

namespace Xv6.Vm

open List

variable {L : Layout} {m m' : Mem} {g : Ghost} {s : System} {i : Fin nproc} {p : Proc}

/-! ## Requests -/

def Request.Touches (r : Request) (va : Addr) : Prop :=
  ∃ store ∈ r.stores, ∃ k, k < store.2.length ∧ va = r.buf + store.1 + BitVec.ofNat 32 k

/-- Every store of the request is within the first `size` bytes of its buffer. -/
def Request.Fits (r : Request) (size : Nat) : Prop :=
  ∀ store ∈ r.stores, store.1.toNat + store.2.length ≤ size

theorem fileread_fits (f : OpenFile) (addr n : Addr) :
    (fileread f addr n).buf = addr ∧ (fileread f addr n).Fits n.toNat := by
  unfold fileread
  cases delivered : f.deliver n.toNat with
  | none => exact ⟨rfl, by rintro _ ⟨⟩⟩
  | some bytes =>
    refine ⟨rfl, fun store member => ?_⟩
    rw [mem_singleton.mp member]
    have short := f.short _ _ delivered
    change 0 + bytes.length ≤ _
    omega

theorem filestat_fits (f : OpenFile) (st : Addr) :
    (filestat f st).buf = st ∧ (filestat f st).Fits 20 := by
  unfold filestat
  cases f.inode with
  | none => exact ⟨rfl, by rintro _ ⟨⟩⟩
  | some ip =>
    refine ⟨rfl, fun store member => ?_⟩
    simp only [mem_cons, not_mem_nil, or_false] at member
    rcases member with rfl | rfl | rfl | rfl | rfl <;> simp [wordBytes, shortBytes]

theorem getpinfo_fits (table : Fin nproc → SlotInfo) (currentState : Addr) :
    (getpinfo table currentState).Fits 1024 := by
  intro store member
  obtain ⟨slot, -, member⟩ := mem_flatMap.mp member
  have small := slot.isLt
  have field : ∀ k, k < 4 → (BitVec.ofNat 32 (4 * (nproc * k + slot.val))).toNat + 4 ≤ 1024 := by
    intro k lt
    rw [BitVec.toNat_ofNat]
    simp only [nproc] at small ⊢
    omega
  simp only [slotStores, mem_cons, not_mem_nil, or_false] at member
  rcases member with rfl | rfl | rfl | rfl
  · exact field 0 (by decide)
  · exact field 1 (by decide)
  · exact field 2 (by decide)
  · exact field 3 (by decide)

/-! ## What `argptr` makes sure of -/

def anyStop : Stop → Prop := fun _ => True

theorem argint_within (backing : Backing m p) (esp n : Addr) :
    Within anyStop (argint p esp n) m fun r m' => m' = m ∧ ∀ w, r = some w →
      p.life = .loaded := by
  by_cases rejects : p.RejectsInt (argAddr esp n)
  · refine Ends.within ((ends_fetchint backing _).mpr (.inl ⟨rejects, rfl, (by simp)⟩))
  · by_cases backs : p.Backs (argAddr esp n)
    · exact Ends.within ((ends_fetchint backing _).mpr
        (.inr ⟨rejects, backs, rfl, fun _ _ => backs.1⟩))
    · unfold Within
      rw [argint, fetchint_fault backing rejects backs]
      trivial

theorem argptr_within (backing : Backing m p) (esp n size : Addr) :
    Within anyStop (argptr p esp n size) m fun r m' => m' = m ∧ ∀ i, r = some i →
      p.life = .loaded ∧ blockOk p.sz i size := by
  rw [argptr, within_bind]
  refine (argint_within backing esp n).mono (fun _ => id) ?_
  rintro r _ ⟨rfl, loaded⟩
  cases r with
  | none => exact ⟨rfl, (by simp)⟩
  | some i =>
    by_cases accepted : blockOk p.sz i size
    · simp only [accepted, if_true, within_pure]
      refine ⟨trivial, ?_⟩
      rintro _ ⟨⟩
      exact ⟨loaded i rfl, accepted⟩
    · simp only [accepted]
      exact ⟨rfl, (by simp)⟩

theorem argfd_within (backing : Backing m p) (esp n : Addr) (ofile : Nat → Option OpenFile) :
    Within anyStop (argfd p esp n ofile) m fun _ m' => m' = m := by
  rw [argfd, within_bind]
  refine (argint_within backing esp n).mono (fun _ => id) ?_
  rintro r _ ⟨rfl, -⟩
  cases r with
  | none => exact rfl
  | some fd =>
    by_cases bad : fd.toInt < 0 ∨ fd.toInt ≥ nofile
    · simp only [if_pos bad, within_pure]
    · simp only [if_neg bad, within_pure]

/-- An accepted request stores inside a block that `argptr` has accepted. -/
def Accepted (m : Mem) (p : Proc) (r : Option Request) (m' : Mem) : Prop :=
  m' = m ∧ ∀ req, r = some req → p.life = .loaded ∧
    ∃ size : Addr, blockOk p.sz req.buf size ∧ req.Fits size.toNat

theorem accepted_none : Accepted m p none m := ⟨rfl, (by simp)⟩

section Backing

variable (backing : Backing m p)
include backing

theorem readArgs_within (esp : Addr) (ofile : Nat → Option OpenFile) :
    Within anyStop (readArgs p esp ofile) m (Accepted m p) := by
  rw [readArgs, within_bind]
  refine (argfd_within backing esp 0 ofile).mono (fun _ => id) ?_
  rintro file _ rfl
  cases file with
  | none => exact accepted_none
  | some f =>
    rw [within_bind]
    refine (argint_within backing esp 2).mono (fun _ => id) ?_
    rintro count _ ⟨rfl, -⟩
    cases count with
    | none => exact accepted_none
    | some n =>
      rw [within_bind]
      refine (argptr_within backing esp 1 n).mono (fun _ => id) ?_
      rintro block _ ⟨rfl, accepted⟩
      cases block with
      | none => exact accepted_none
      | some addr =>
        obtain ⟨loaded, ok⟩ := accepted addr rfl
        obtain ⟨buf, fits⟩ := fileread_fits f addr n
        refine ⟨rfl, ?_⟩
        rintro _ ⟨⟩
        exact ⟨loaded, n, by rwa [buf], fits⟩

theorem fstatArgs_within (esp : Addr) (ofile : Nat → Option OpenFile) :
    Within anyStop (fstatArgs p esp ofile) m (Accepted m p) := by
  rw [fstatArgs, within_bind]
  refine (argfd_within backing esp 0 ofile).mono (fun _ => id) ?_
  rintro file _ rfl
  cases file with
  | none => exact accepted_none
  | some f =>
    rw [within_bind]
    refine (argptr_within backing esp 1 20).mono (fun _ => id) ?_
    rintro block _ ⟨rfl, accepted⟩
    cases block with
    | none => exact accepted_none
    | some st =>
      obtain ⟨loaded, ok⟩ := accepted st rfl
      obtain ⟨buf, fits⟩ := filestat_fits f st
      refine ⟨rfl, ?_⟩
      rintro _ ⟨⟩
      exact ⟨loaded, 20, by rwa [buf], fits⟩

theorem pipeArgs_within (esp : Addr) (fds : Option (Addr × Addr)) :
    Within anyStop (pipeArgs p esp fds) m (Accepted m p) := by
  rw [pipeArgs, within_bind]
  refine (argptr_within backing esp 0 8).mono (fun _ => id) ?_
  rintro block _ ⟨rfl, accepted⟩
  cases block with
  | none => exact accepted_none
  | some fd =>
    obtain ⟨loaded, ok⟩ := accepted fd rfl
    cases fds with
    | none => exact accepted_none
    | some pair =>
      refine ⟨rfl, ?_⟩
      rintro _ ⟨⟩
      refine ⟨loaded, 8, ok, fun store member => ?_⟩
      simp only [mem_cons, not_mem_nil, or_false] at member
      rcases member with rfl | rfl <;> simp [wordBytes]

theorem getpinfoArgs_within (esp : Addr) (table : Fin nproc → SlotInfo) :
    Within anyStop (getpinfoArgs p esp table) m (Accepted m p) := by
  rw [getpinfoArgs, within_bind]
  refine (argptr_within backing esp 0 1024).mono (fun _ => id) ?_
  rintro block _ ⟨rfl, accepted⟩
  cases block with
  | none => exact accepted_none
  | some currentState =>
    obtain ⟨loaded, ok⟩ := accepted currentState rfl
    by_cases null : currentState = 0
    · simp only [if_pos null]
      exact accepted_none
    · simp only [if_neg null]
      refine ⟨rfl, ?_⟩
      rintro _ ⟨⟩
      exact ⟨loaded, 1024, ok, getpinfo_fits table currentState⟩

theorem request_within (esp : Addr) (call : BufferCall) :
    Within anyStop (call.request p esp) m (Accepted m p) := by
  cases call with
  | read ofile => exact readArgs_within backing esp ofile
  | fstat ofile => exact fstatArgs_within backing esp ofile
  | pipe fds => exact pipeArgs_within backing esp fds
  | getpinfo table => exact getpinfoArgs_within backing esp table

end Backing

variable {va : Addr}

/-- The bytes that an accepted request stores are bytes of the process, outside page 0. -/
theorem Accepted.touches {req : Request} (accepted : Accepted m p (some req) m')
    (limit : p.sz.toNat < 2 ^ 31) (touches : req.Touches va) :
    4096 ≤ va.toNat ∧ va.toNat < p.sz.toNat := by
  obtain ⟨-, size, ok, fits⟩ := accepted.2 req rfl
  obtain ⟨store, member, k, lt, rfl⟩ := touches
  have range := (blockOk_iff limit).mp ok
  have inside := fits store member
  have sum : (req.buf + store.1 + BitVec.ofNat 32 k).toNat =
      req.buf.toNat + store.1.toNat + k := by
    rw [BitVec.toNat_add, BitVec.toNat_add, BitVec.toNat_ofNat]
    omega
  omega

/-! ## Stores to protected pages -/

/-- A system call that fills a buffer stores to pages where the kernel may store, or it returns
`-1`. -/
def BufferCall.Allowed (m : Mem) (p : Proc) (esp : Addr) (call : BufferCall) : Prop :=
  (∀ m', call.request p esp m = .ok (none, m') → call.run p esp m = .ok (-1, m')) ∧
  ∀ req m', call.request p esp m = .ok (some req, m') → ∀ va, req.Touches va →
    Has pteP (m.pte p.pgdir va) ∧ Has pteW (m.pte p.pgdir va)

theorem run_of_none {call : BufferCall} {esp : Addr}
    (refused : call.request p esp m = .ok (none, m')) : call.run p esp m = .ok (-1, m') := by
  change (call.request p esp m >>= _) = _
  rw [refused]
  rfl

theorem Sound.writable (sound : Sound L s g) (at_i : s.proc i = some p) (loaded : p.life = .loaded)
    (low : 4096 ≤ va.toNat) (inside : va.toNat < p.sz.toNat) :
    Has pteP (s.mem.pte p.pgdir va) ∧
      (Has pteW (s.mem.pte p.pgdir va) ↔ p.ro (vpn va) = false) := by
  obtain ⟨sp, at_p, fits⟩ := (sound.alive i p at_i).space
  obtain ⟨-, limit, shape⟩ := fits.loaded loaded
  have pos : 1 ≤ vpn va := by
    unfold vpn
    omega
  have below : vpn va < pages p.sz := by
    rw [lt_pages]
    unfold vpn
    omega
  have user : vpn va < 2 ^ 19 := by
    unfold vpn
    omega
  rw [(sound.inv.space _ sp at_p).pte_eq]
  exact ⟨(shape.present _ user).mpr ⟨pos, below⟩, shape.write _ user pos below⟩

variable {init : List Byte}

/-- **Buffers and protected pages.**  In every reachable state, for every process that has been
through `exec` and all arguments: a call that fills a buffer stores to writable pages only, just if
the process has not closed one of them with `mprotect`. -/
theorem buffer_allowed_iff (reach : (processes L init).Reachable s) (at_i : s.proc i = some p)
    (past : p.life ≠ .initcode) (esp : Addr) (call : BufferCall) :
    call.Allowed s.mem p esp ↔
      ∀ req m', call.request p esp s.mem = .ok (some req, m') → ∀ va, req.Touches va →
        p.ro (vpn va) = false := by
  obtain ⟨g, sound⟩ := reachable_sound reach
  have backing := sound.backing at_i past
  have within := request_within backing esp call
  have writable : ∀ req m', call.request p esp s.mem = .ok (some req, m') → ∀ va, req.Touches va →
      Has pteP (s.mem.pte p.pgdir va) ∧
        (Has pteW (s.mem.pte p.pgdir va) ↔ p.ro (vpn va) = false) := by
    intro req m' requested va touches
    unfold Within at within
    rw [requested] at within
    obtain ⟨low, inside⟩ := within.touches backing.limit touches
    exact sound.writable at_i (within.2 req rfl).1 low inside
  constructor
  · intro allowed req m' requested va touches
    exact (writable req m' requested va touches).2.mp (allowed.2 req m' requested va touches).2
  · refine fun open_pages => ⟨fun m' => run_of_none, fun req m' requested va touches => ?_⟩
    obtain ⟨here, write⟩ := writable req m' requested va touches
    exact ⟨here, write.mpr (open_pages req m' requested va touches)⟩

theorem buffer_allowed_iff_loaded : ∃ s p, (processes kernelLayout []).Reachable s ∧
    s.proc 0 = some p ∧ p.life = .loaded ∧
      ∀ esp call, BufferCall.Allowed s.mem p esp call := by
  obtain ⟨s, p, img, reach, at_0, -⟩ := loaded_exists
  exact ⟨s, _, reach, at_0, rfl, fun esp call =>
    (buffer_allowed_iff reach at_0 (by rintro ⟨⟩) esp call).mpr fun _ _ _ _ _ => rfl⟩

/-! ## Stores -/

/-- A store changes one byte of one address space. -/
theorem storeByte_private {d e : Frame} {sp sp' : Space} (inv : Inv L m g)
    (at_d : g.space d = some sp) (at_e : g.space e = some sp') {x : Addr} (low : va < kernBase)
    (low_x : x < kernBase) {b : Byte} {m' : Mem} (done : storeByte d va b m = .ok ((), m')) :
    m'.pte e x = m.pte e x ∧ (Has pteP (m.pte e x) →
      m'.userByte e x = if e = d ∧ x = va then b else m.userByte e x) := by
  have ok := inv.space d sp at_d
  have ok_e := inv.space e sp' at_e
  have inv' := ((within_ok done).mp (storeByte_within inv at_d low b)).1
  have table : m'.pte e x = m.pte e x := by rw [(inv'.space e sp' at_e).pte_eq, ok_e.pte_eq]
  refine ⟨table, fun present => ?_⟩
  simp only [storeByte, ok.pte_eq] at done
  split at done
  · rename_i here
    cases done
    have role := (ok.user _ _).mpr ⟨(low_iff _).mp low, here.1, rfl⟩
    rw [Mem.userByte, Mem.userByte, table]
    rw [ok_e.pte_eq] at present ⊢
    have role_x := (ok_e.user _ _).mpr ⟨(low_iff _).mp low_x, present, rfl⟩
    by_cases same : pteFrame (sp'.pte (vpn x)) = pteFrame (sp.pte (vpn va))
    · rw [same, role, Role.user.injEq] at role_x
      obtain ⟨rfl, page⟩ := role_x
      rw [same, Mem.setPage_self]
      by_cases eq : x = va
      · rw [if_pos ⟨rfl, eq⟩, eq, Function.update_self]
      · have offset : pgOffset x ≠ pgOffset va := by
          intro offset
          have : x.toNat % 4096 = va.toNat % 4096 := congrArg Fin.val offset
          apply eq (BitVec.eq_of_toNat_eq _)
          unfold vpn at page
          omega
        rw [if_neg fun both => eq both.2, Function.update_of_ne offset]
    · rw [Mem.setPage_ne _ same, if_neg]
      rintro ⟨rfl, rfl⟩
      cases at_d.symm.trans at_e
      exact same rfl
  · cases done

theorem step_store (at_i : s.proc i = some p) {b : Byte} {t : System} :
    s.step L (.store i va b) = some (.ok t) ↔
      va < kernBase ∧
        ∃ m', storeByte p.pgdir va b s.mem = .ok ((), m') ∧ t = { s with mem := m' } := by
  rw [System.step, at_i]
  by_cases low : va < kernBase
  · simp only [low, if_true, System.run, Option.some.injEq, true_and]
    cases storeByte p.pgdir va b s.mem with
    | ok r =>
      rcases r with ⟨⟨⟩, m'⟩
      simp [eq_comm]
    | error e => simp
  · simp [low]

theorem Sound.can_store (sound : Sound L s g) (at_i : s.proc i = some p) (loaded : p.life = .loaded)
    (low : 4096 ≤ va.toNat) (inside : va.toNat < p.sz.toNat) (writable : p.ro (vpn va) = false)
    (b : Byte) : ∃ t, s.step L (.store i va b) = some (.ok t) := by
  obtain ⟨sp, at_p, fits⟩ := (sound.alive i p at_i).space
  obtain ⟨-, limit, -⟩ := fits.loaded loaded
  obtain ⟨here, write⟩ := sound.writable at_i loaded low inside
  have kernel : va < kernBase := by
    change va.toNat < 2 ^ 31
    omega
  exact ⟨_, (step_store at_i).mpr ⟨kernel, _, if_pos ⟨here, write.mpr writable⟩, rfl⟩⟩

theorem Sound.pgdir_eq (sound : Sound L s g) {j : Fin nproc} {q : Proc} (at_j : s.proc j = some q)
    (at_i : s.proc i = some p) : q.pgdir = p.pgdir ↔ j = i := by
  constructor
  · intro eq
    by_contra ne
    exact (sound.apart j i q p at_j at_i ne).1 eq
  · rintro rfl
    cases at_i.symm.trans at_j
    rfl

/-- **User mode is confined.**  In every reachable state, what a process that has been through
`exec` can reach in user mode, at any of the addresses of the machine, is below `KERNBASE`, in a
page of its own memory other than the guard page, which no process maps anywhere else. -/
theorem user_confined (reach : (processes L init).Reachable s) (at_i : s.proc i = some p)
    (loaded : p.life = .loaded) (present : Has pteP (s.mem.pte p.pgdir va))
    (user : Has pteU (s.mem.pte p.pgdir va)) :
    va < kernBase ∧ (pgSize ≤ va ∧ va < pgRoundUp p.sz ∧ p.guard ≠ some (vpn va)) ∧
      ∀ j q x, s.proc j = some q → x < kernBase → Has pteP (s.mem.pte q.pgdir x) →
        pteFrame (s.mem.pte q.pgdir x) = pteFrame (s.mem.pte p.pgdir va) →
          j = i ∧ vpn x = vpn va := by
  obtain ⟨g, sound⟩ := reachable_sound reach
  obtain ⟨sp, at_p, fits⟩ := (sound.alive i p at_i).space
  obtain ⟨-, limit, shape⟩ := fits.loaded loaded
  have ok := sound.inv.space _ sp at_p
  rw [ok.pte_eq] at present user ⊢
  have low : vpn va < 2 ^ 19 := by
    by_contra high
    exact shape.kernel _ (by omega) (by unfold vpn; omega) user
  obtain ⟨pos, below⟩ := (shape.present _ low).mp present
  rw [pgSize_le, lt_pgRoundUp limit]
  refine ⟨(low_iff va).mpr low, ⟨pos, below, (shape.user _ low pos below).mp user⟩,
    fun j q x at_j low_x here same => ?_⟩
  obtain ⟨sp', at_q, -⟩ := (sound.alive j q at_j).space
  have ok' := sound.inv.space _ sp' at_q
  rw [ok'.pte_eq] at here same
  have role := (ok.user _ _).mpr ⟨low, present, rfl⟩
  have role' := (ok'.user _ _).mpr ⟨(low_iff x).mp low_x, here, rfl⟩
  rw [same, role, Role.user.injEq] at role'
  exact ⟨(sound.pgdir_eq at_j at_i).mp role'.1.symm, role'.2.symm⟩

theorem load_access {p : Proc} {img : Image} (size : img.sz = 0x5000) :
    (p.load img).accessible (vpn 0x4000) = true := by
  rw [Proc.accessible_iff]
  change 1 ≤ vpn 0x4000 ∧ vpn 0x4000 < pages img.sz ∧ some (pages img.sz - 2) ≠ some (vpn 0x4000)
  rw [size]
  decide

theorem user_confined_stack : ∃ s p va, (processes kernelLayout []).Reachable s ∧
    s.proc 0 = some p ∧ Has pteP (s.mem.pte p.pgdir va) ∧ Has pteU (s.mem.pte p.pgdir va) ∧
      va < kernBase ∧ p.guard ≠ some (vpn va) := by
  obtain ⟨s, p, img, reach, at_0, size, -⟩ := loaded_exists
  obtain ⟨g, sound⟩ := reachable_sound reach
  obtain ⟨present, user⟩ := (sound.user at_0 rfl 0x4000).mpr (load_access size)
  obtain ⟨below, own, -⟩ := user_confined reach at_0 rfl present user
  exact ⟨s, _, _, reach, at_0, present, user, below, own.2.2⟩

/-- **Memory is private.**  In every reachable state a store to the memory of a process changes one
byte of that process: every other byte that a process has is the same afterwards, and so is the page
table through which the processor finds it. -/
theorem memory_private (reach : (processes L init).Reachable s) {j : Fin nproc} {q : Proc}
    (at_i : s.proc i = some p) (at_j : s.proc j = some q) {b : Byte} {t : System}
    (step : s.step L (.store i va b) = some (.ok t)) {x : Addr} (low : x < kernBase) :
    t.mem.pte q.pgdir x = s.mem.pte q.pgdir x ∧ (Has pteP (s.mem.pte q.pgdir x) →
      t.mem.userByte q.pgdir x = if j = i ∧ x = va then b else s.mem.userByte q.pgdir x) := by
  obtain ⟨g, sound⟩ := reachable_sound reach
  obtain ⟨sp, at_p, -⟩ := (sound.alive i p at_i).space
  obtain ⟨sp', at_q, -⟩ := (sound.alive j q at_j).space
  obtain ⟨low_va, m', done, rfl⟩ := (step_store at_i).mp step
  simp only [← sound.pgdir_eq at_j at_i]
  exact storeByte_private sound.inv at_p at_q low_va low done

theorem memory_private_loaded : ∃ s t p, (processes kernelLayout []).Reachable s ∧
    s.proc 0 = some p ∧ s.step kernelLayout (.store 0 pgSize 7) = some (.ok t) ∧
      t.mem.userByte p.pgdir pgSize = 7 := by
  obtain ⟨s, p, img, reach, at_0, size, -⟩ := loaded_exists
  obtain ⟨g, sound⟩ := reachable_sound reach
  have inside : pgSize.toNat < img.sz.toNat := by
    rw [size]
    decide
  obtain ⟨t, step⟩ := sound.can_store at_0 rfl (by decide) inside rfl 7
  have changed := memory_private reach at_0 at_0 step (x := pgSize) (by decide)
  have present := (sound.writable at_0 rfl (by decide) inside).1
  exact ⟨s, t, _, reach, at_0, step, (changed.2 present).trans (if_pos ⟨rfl, rfl⟩)⟩

/-! ## A protected buffer

A process stores the address of a buffer in the buffer itself, closes its page, and hands it to
`pipe`. -/

variable {init : List Byte}

theorem store_step (reach : (processes L init).Reachable s) (at_i : s.proc i = some p)
    (loaded : p.life = .loaded) (va : Addr) (low : 4096 ≤ va.toNat)
    (inside : va.toNat < p.sz.toNat) (writable : p.ro (vpn va) = false) (b : Byte) :
    ∃ t, (processes L init).Reachable t ∧ t.proc = s.proc ∧ ∀ x : Addr, 4096 ≤ x.toNat →
      x.toNat < p.sz.toNat → t.mem.userByte p.pgdir x =
        if x = va then b else s.mem.userByte p.pgdir x := by
  obtain ⟨g, sound⟩ := reachable_sound reach
  obtain ⟨sp, at_p, fits⟩ := (sound.alive i p at_i).space
  obtain ⟨-, limit, -⟩ := fits.loaded loaded
  obtain ⟨t, step⟩ := sound.can_store at_i loaded low inside writable b
  obtain ⟨kernel, m', done, rfl⟩ := (step_store at_i).mp step
  refine ⟨_, reach.step step, rfl, fun x low' inside' => ?_⟩
  have kernel_x : x < kernBase := by
    change x.toNat < 2 ^ 31
    omega
  have changed := storeByte_private sound.inv at_p at_p kernel kernel_x done
  simpa using changed.2 (sound.writable at_i loaded low' inside').1

theorem storeWord_steps (reach : (processes L init).Reachable s) (at_i : s.proc i = some p)
    (loaded : p.life = .loaded) (va : Addr) (low : 4096 ≤ va.toNat)
    (inside : va.toNat + 4 ≤ p.sz.toNat) (limit : p.sz.toNat < 2 ^ 31)
    (writable : ∀ u, p.ro u = false) (w : Addr) :
    ∃ t, (processes L init).Reachable t ∧ t.proc = s.proc ∧ t.mem.userWord p.pgdir va = w ∧
      ∀ x : Addr, 4096 ≤ x.toNat → x.toNat < p.sz.toNat →
        x.toNat < va.toNat ∨ va.toNat + 4 ≤ x.toNat →
        t.mem.userByte p.pgdir x = s.mem.userByte p.pgdir x := by
  have next : ∀ k : Addr, k.toNat < 4 → (va + k).toNat = va.toNat + k.toNat := by
    intro k small
    rw [BitVec.toNat_add]
    omega
  have one := next 1 (by decide)
  have two := next 2 (by decide)
  have three := next 3 (by decide)
  change _ = va.toNat + 1 at one
  change _ = va.toNat + 2 at two
  change _ = va.toNat + 3 at three
  obtain ⟨t0, reach0, same0, byte0⟩ := store_step reach at_i loaded va low (by omega) (writable _)
    (w.extractLsb' 0 8)
  obtain ⟨t1, reach1, same1, byte1⟩ := store_step reach0 (same0 ▸ at_i) loaded (va + 1)
    (by omega) (by omega) (writable _) (w.extractLsb' 8 8)
  obtain ⟨t2, reach2, same2, byte2⟩ := store_step reach1 (same1 ▸ same0 ▸ at_i) loaded
    (va + 2) (by omega) (by omega) (writable _) (w.extractLsb' 16 8)
  obtain ⟨t3, reach3, same3, byte3⟩ := store_step reach2 (same2 ▸ same1 ▸ same0 ▸ at_i) loaded
    (va + 3) (by omega) (by omega) (writable _) (w.extractLsb' 24 8)
  have apart : ∀ x y : Addr, x.toNat ≠ y.toNat → x ≠ y := fun x y ne eq => ne (congrArg _ eq)
  refine ⟨t3, reach3, same3.trans (same2.trans (same1.trans same0)), ?_, fun x low' below out => ?_⟩
  case refine_2 =>
    rw [byte3 x low' below, if_neg (apart _ _ (by omega)), byte2 x low' below,
      if_neg (apart _ _ (by omega)), byte1 x low' below, if_neg (apart _ _ (by omega)),
      byte0 x low' below, if_neg (apart _ _ (by omega))]
  rw [Mem.userWord, byte3 _ (by omega) (by omega), byte3 _ (by omega) (by omega),
    byte3 _ (by omega) (by omega), byte3 _ (by omega) (by omega), if_pos rfl,
    if_neg (apart _ _ (by omega)), if_neg (apart _ _ (by omega)), if_neg (apart _ _ (by omega)),
    byte2 _ (by omega) (by omega), byte2 _ (by omega) (by omega), byte2 _ (by omega) (by omega),
    if_pos rfl, if_neg (apart _ _ (by omega)), if_neg (apart _ _ (by omega)),
    byte1 _ (by omega) (by omega), byte1 _ (by omega) (by omega), if_pos rfl,
    if_neg (apart _ _ (by omega)), byte0 _ (by omega) (by omega), if_pos rfl]
  exact Words.append_extract w

theorem mprotect_step (reach : (processes L init).Reachable s) (at_i : s.proc i = some p)
    (loaded : p.life = .loaded) (addr len : Addr) :
    ∃ t, (processes L init).Reachable t ∧ t.proc i = some (p.sysMarked true addr len) ∧
      ∀ va : Addr, 4096 ≤ va.toNat → va.toNat < p.sz.toNat →
        t.mem.userByte p.pgdir va = s.mem.userByte p.pgdir va := by
  obtain ⟨g, sound⟩ := reachable_sound reach
  obtain ⟨sp, at_p, fits⟩ := (sound.alive i p at_i).space
  obtain ⟨-, limit, -⟩ := fits.loaded loaded
  obtain ⟨r, m', result, g', sp', inv', at_p', grows, frames, -⟩ :=
    (sysProtect_grows closed_marks sound.inv at_p fits loaded addr len).exists
  have caller : s.caller i [.loaded] = some p :=
    Option.filter_eq_some_iff.mpr ⟨at_i, decide_eq_true (mem_singleton.mpr loaded)⟩
  have step : s.step L (.mprotect i addr len) = some (.ok (System.setProc { s with mem := m' } i
      (some (p.sysMarked true addr len)))) := by
    rw [System.step, caller, Option.map_some, System.run, result]
  refine ⟨_, reach.step step, System.setProc_self .., fun va low inside => ?_⟩
  have ok := sound.inv.space _ sp at_p
  have here := (sound.writable at_i loaded low inside).1
  have user : vpn va < 2 ^ 19 := by
    unfold vpn
    omega
  change m'.userByte p.pgdir va = _
  rw [ok.pte_eq] at here
  rw [Mem.userByte, Mem.userByte, (inv'.space _ sp' at_p').pte_eq, ok.pte_eq, frames,
    grows.user_page sound.inv at_p ((ok.user _ _).mpr ⟨user, here, rfl⟩)]

theorem load_marked {p : Proc} {img : Image} (size : img.sz = 0x5000) :
    (p.load img).sysMarked true 0x4000 1 = (p.load img).marked true (vpn 0x4000) 1 ∧
      ((p.load img).marked true (vpn 0x4000) 1).ro (vpn 0x4000) = true := by
  have accepted : blockOk img.sz 0x4000 1 = true := by
    rw [size]
    decide
  have one : stretch (p.load img).accessible 1 (vpn 0x4000) = 1 := by
    rw [stretch, if_pos (load_access size), stretch]
  refine ⟨if_pos ⟨accepted, by decide⟩, ?_⟩
  change (if vpn 0x4000 ≤ vpn 0x4000 ∧ vpn 0x4000 < vpn 0x4000 +
    stretch (p.load img).accessible 1 (vpn 0x4000) then _ else _) = _
  rw [one, if_pos ⟨Nat.le_refl _, Nat.lt_succ_self _⟩]

theorem protected_buffer_exists : ∃ s p buf, (processes kernelLayout []).Reachable s ∧
    s.proc 0 = some p ∧ p.life = .loaded ∧ 4096 ≤ buf.toNat ∧ buf.toNat + 8 ≤ p.sz.toNat ∧
    p.ro (vpn buf) = true ∧ s.mem.userWord p.pgdir buf = buf := by
  obtain ⟨s0, p, img, reach0, at_0, size, -⟩ := loaded_exists
  obtain ⟨marked, closed⟩ := load_marked (p := p) size
  have total : img.sz.toNat = 0x5000 := by rw [size]; rfl
  have at_buf : (0x4000 : Addr).toNat = 0x4000 := rfl
  generalize (0x4000 : Addr) = buf at marked closed at_buf
  obtain ⟨s1, reach1, same1, word, -⟩ := storeWord_steps reach0 at_0 rfl buf (by omega)
    (show buf.toNat + 4 ≤ img.sz.toNat by omega) (show img.sz.toNat < 2 ^ 31 by omega)
    (fun _ => rfl) buf
  obtain ⟨s2, reach2, at_2, kept⟩ := mprotect_step reach1 (same1 ▸ at_0) rfl buf 1
  rw [marked] at at_2
  refine ⟨s2, _, buf, reach2, at_2, rfl, by omega, show buf.toNat + 8 ≤ img.sz.toNat by omega,
    closed, ?_⟩
  have next : ∀ k : Addr, k.toNat < 4 → s2.mem.userByte (p.load img).pgdir (buf + k) =
      s1.mem.userByte (p.load img).pgdir (buf + k) := by
    intro k small
    have sum : (buf + k).toNat = buf.toNat + k.toNat := by
      rw [BitVec.toNat_add]
      omega
    exact kept _ (by omega) (show (buf + k).toNat < img.sz.toNat by omega)
  have first := next 0 (by decide)
  rw [show buf + 0 = buf by simp] at first
  change s2.mem.userWord (p.load img).pgdir buf = buf
  rw [Mem.userWord, first, next 1 (by decide), next 2 (by decide), next 3 (by decide)]
  exact word

theorem argptr_self (backing : Backing m p) (loaded : p.life = .loaded) {buf : Addr}
    (low : 4096 ≤ buf.toNat) (inside : buf.toNat + 8 ≤ p.sz.toNat)
    (word : m.userWord p.pgdir buf = buf) : argptr p (buf - 4) 0 8 m = .ok (some buf, m) := by
  have limit := backing.limit
  have arg : argAddr (buf - 4) 0 = buf := by
    have zero : (4 : Addr) * 0 = 0 := by decide
    rw [argAddr, zero, BitVec.sub_add_cancel]
    simp
  have block : blockOk p.sz buf 8 = true := by
    rw [blockOk_iff limit]
    change _ ∧ _ ∧ 8 < _ ∧ _ + 8 ≤ _
    omega
  have fetched : Ends (argptr p (buf - 4) 0 8) m fun r m' => r = some buf ∧ m' = m := by
    rw [argptr, ends_bind, argint, arg, ends_fetchint backing, word]
    refine .inr ⟨?_, ⟨loaded, low⟩, ?_⟩
    · rw [rejectsInt_iff limit]
      omega
    · simp only [block, if_true]
      exact ⟨rfl, rfl⟩
  obtain ⟨_, _, result, rfl, rfl⟩ := fetched.exists
  exact result

/-- `pipe` is handed a protected buffer: `argptr` accepts it, and the first store faults. -/
theorem buffer_protected_faults : ∃ s p esp buf, (processes kernelLayout []).Reachable s ∧
    s.proc 0 = some p ∧ p.life = .loaded ∧ argptr p esp 0 8 s.mem = .ok (some buf, s.mem) ∧
    (BufferCall.pipe (some (3, 4))).run p esp s.mem = .error (.fault buf) ∧
    Has pteP (s.mem.pte p.pgdir buf) ∧ ¬ Has pteW (s.mem.pte p.pgdir buf) := by
  obtain ⟨s, p, buf, reach, at_0, loaded, low, inside, closed, word⟩ := protected_buffer_exists
  obtain ⟨g, sound⟩ := reachable_sound reach
  have result := argptr_self (sound.backing at_0 (by rw [loaded]; simp)) loaded low inside word
  obtain ⟨here, write⟩ := sound.writable at_0 loaded low (by omega)
  have read_only : ¬ Has pteW (s.mem.pte p.pgdir buf) := by
    rw [write, closed]
    simp
  refine ⟨s, p, buf - 4, buf, reach, at_0, loaded, result, ?_, here, read_only⟩
  have requested : pipeArgs p (buf - 4) (some (3, 4)) s.mem =
      .ok (some ⟨buf, [(0, wordBytes 3), (4, wordBytes 4)], 0⟩, s.mem) := by
    change (argptr p (buf - 4) 0 8 s.mem >>= _) = _
    rw [result]
    rfl
  have fault : ∀ b, storeByte p.pgdir (buf + 0) b s.mem = .error (.fault buf) := by
    intro b
    rw [show buf + 0 = buf by simp]
    exact if_neg fun h => read_only h.2
  change (pipeArgs p (buf - 4) (some (3, 4)) s.mem >>= _) = _
  rw [requested]
  change (storeAll p.pgdir buf [(0, wordBytes 3), (4, wordBytes 4)] >>= fun _ => pure 0) s.mem = _
  exact Prog.bind_error (Prog.bind_error (Prog.bind_error (fault _) _) _) _

end Xv6.Vm
