import Xv6.Buf.Invariant

/-!
# The log's use of the buffer cache

`LogInv` is what holds of `log.lh`, of the operations and of the process that runs `commit`: there
is at most one, it runs while no operation is outstanding, and a buffer that is dirty without a
request under way belongs to a logged block that `commit` has still to write.  The last part is
why `commit` leaves no buffer pinned.
-/

namespace Xv6.Buf

variable {P D : Type} {g : Log.Geometry} {header : List Nat → D → D}

/-- What a statement of `commit` relies on: what was stored into a buffer is written next, and
after `log.lh.n = 0` nothing is written but the header. -/
def Tidy (g : Log.Geometry) : List Instr → Prop
  | [] => True
  | .move dst _ :: rest => rest.head? = some (.bwrite dst) ∧ Tidy g rest
  | .fill :: rest => rest.head? = some (.bwrite g.start) ∧ Tidy g rest
  | .reset :: rest => (∀ i ∈ rest, i = .writeHead) ∧ Tidy g rest
  | _ :: rest => Tidy g rest

def Writes (lh : List Nat) (code : List Instr) (n : Nat) : Prop :=
  .bwrite n ∈ code ∨ ∃ tail, .installTrans tail ∈ code ∧ n ∈ lh.drop tail

def inOpCount (pr : Process) : ℤ := if pr.inOp then 1 else 0

structure Ops [Fintype P] (g : Log.Geometry) (proc : P → Process) (outstanding : Nat)
    (committing : Bool) : Prop where
  client : ∀ p, (proc p).inOp = true → (proc p).code = none
  logging : ∀ p b, (proc p).pc = .logWrite b → (proc p).inOp = true
  single : ∀ p q, (proc p).code ≠ none → (proc q).code ≠ none → p = q
  count : (outstanding : ℤ) = tally inOpCount proc
  alone : ∀ p, (proc p).code ≠ none → committing = true ∧ outstanding = 0
  tidy : ∀ p code, (proc p).code = some code → Tidy g code

structure LogInv [Fintype P] (g : Log.Geometry) (s : Bcache P D) : Prop where
  ops : Ops g s.proc s.outstanding s.committing
  edited : ∀ p b code, (s.buf b).lock = some p → (s.buf b).edited = true →
    (s.proc p).code = some code → code.head? = some (.bwrite (s.buf b).blockno)
  pinned : ∀ b, (s.buf b).dirty = true → b ∈ s.idequeue ∨ (s.buf b).blockno ∈ s.lh ∧
    ∀ p code, (s.proc p).code = some code → Writes s.lh code (s.buf b).blockno

section

variable [Fintype P] [DecidableEq P] {s t : Bcache P D} {p : P} {b : Ptr}

namespace Ops

variable {proc : P → Process} {outstanding : Nat} {committing : Bool}

variable (ops : Ops g proc outstanding committing)
include ops

omit [DecidableEq P] in
theorem outstanding_pos (inside : (proc p).inOp = true) : 0 < outstanding := by
  have one : inOpCount (proc p) = 1 := if_pos inside
  have le := le_tally (w := inOpCount) (g := proc) (fun q => by
    unfold inOpCount
    split <;> omega) p
  have := ops.count
  omega

omit [DecidableEq P] in
theorem no_commit (inside : (proc p).inOp = true) (q : P) : (proc q).code = none := by
  by_contra running
  have := (ops.alone q running).2
  have := ops.outstanding_pos inside
  omega

theorem update {pr : Process} {outstanding' : Nat} {committing' : Bool}
    (client : pr.inOp = true → pr.code = none) (logging : ∀ b, pr.pc = .logWrite b → pr.inOp = true)
    (single : pr.code ≠ none → ∀ q, q ≠ p → (proc q).code = none)
    (count : (outstanding' : ℤ) = outstanding - inOpCount (proc p) + inOpCount pr)
    (alone : pr.code ≠ none → committing' = true ∧ outstanding' = 0)
    (others : ∀ q, q ≠ p → (proc q).code ≠ none → committing' = true ∧ outstanding' = 0)
    (tidy : ∀ code, pr.code = some code → Tidy g code) :
    Ops g (Function.update proc p pr) outstanding' committing' := by
  have at_p : Function.update proc p pr p = pr := Function.update_self ..
  have at_q : ∀ q, q ≠ p → Function.update proc p pr q = proc q :=
    fun q ne => Function.update_of_ne ne _ _
  refine ⟨fun q => ?_, fun q b => ?_, fun q r code_q code_r => ?_, ?_, fun q => ?_, fun q => ?_⟩
  · rcases eq_or_ne q p with rfl | ne
    · rwa [at_p]
    · rw [at_q q ne]
      exact ops.client q
  · rcases eq_or_ne q p with rfl | ne
    · rw [at_p]
      exact logging b
    · rw [at_q q ne]
      exact ops.logging q b
  · rcases eq_or_ne q p with eq_q | ne_q <;> rcases eq_or_ne r p with eq_r | ne_r
    · exact eq_q.trans eq_r.symm
    · rw [eq_q, at_p] at code_q
      rw [at_q r ne_r] at code_r
      exact absurd (single code_q r ne_r) code_r
    · rw [eq_r, at_p] at code_r
      rw [at_q q ne_q] at code_q
      exact absurd (single code_r q ne_q) code_q
    · rw [at_q q ne_q] at code_q
      rw [at_q r ne_r] at code_r
      exact ops.single q r code_q code_r
  · rw [tally_update, count, ops.count]
  · rcases eq_or_ne q p with rfl | ne
    · rwa [at_p]
    · rw [at_q q ne]
      exact others q ne
  · rcases eq_or_ne q p with rfl | ne
    · rwa [at_p]
    · rw [at_q q ne]
      exact ops.tidy q

end Ops

/-! ## Steps that leave the log alone -/

/-- The operations and the log header are the same; a process may have moved and a buffer may have
changed, as long as no stored contents and no dirty buffer are added behind the log's back. -/
structure Apart (s t : Bcache P D) : Prop where
  inOp : ∀ q, (t.proc q).inOp = (s.proc q).inOp
  code : ∀ q, (t.proc q).code = (s.proc q).code
  outstanding : t.outstanding = s.outstanding
  committing : t.committing = s.committing
  lh : t.lh = s.lh
  logging : ∀ q c,
    (t.proc q).pc = .logWrite c → (s.proc q).pc = .logWrite c ∨ (s.proc q).inOp = true
  edited : ∀ q c, (t.buf c).lock = some q → (t.buf c).edited = true →
    ((s.buf c).lock = some q ∧ (s.buf c).edited = true ∧ (t.buf c).blockno = (s.buf c).blockno) ∨
    ∀ code, (s.proc q).code = some code → code.head? = some (.bwrite (t.buf c).blockno)
  pinned : ∀ c, (t.buf c).dirty = true → c ∈ t.idequeue ∨
    c ∉ s.idequeue ∧ (s.buf c).dirty = true ∧ (t.buf c).blockno = (s.buf c).blockno

omit [DecidableEq P] in
theorem LogInv.apart (log : LogInv g s) (apart : Apart s t) : LogInv g t := by
  have inv := log.ops
  refine ⟨⟨fun q => ?_, fun q c at_q => ?_, fun q r => ?_, ?_, fun q => ?_, fun q code => ?_⟩,
    fun q c code lock edited at_q => ?_, fun c dirty => ?_⟩
  · rw [apart.inOp, apart.code]
    exact inv.client q
  · rw [apart.inOp]
    exact (apart.logging q c at_q).elim (inv.logging q c) id
  · rw [apart.code, apart.code]
    exact inv.single q r
  · rw [apart.outstanding, inv.count]
    exact tally_congr fun q => by rw [inOpCount, inOpCount, apart.inOp]
  · rw [apart.code, apart.committing, apart.outstanding]
    exact inv.alone q
  · rw [apart.code]
    exact inv.tidy q code
  · rw [apart.code] at at_q
    rcases apart.edited q c lock edited with ⟨lock', edited', same⟩ | written
    · rw [same]
      exact log.edited q c code lock' edited' at_q
    · exact written code at_q
  · refine (apart.pinned c dirty).imp id fun ⟨free, dirty', same⟩ => ?_
    obtain ⟨logged, writes⟩ := (log.pinned c dirty').resolve_left free
    rw [same, apart.lh]
    exact ⟨logged, fun q code at_q => writes q code (apart.code q ▸ at_q)⟩

omit [Fintype P] in
theorem Apart.set {pc : Pc} {x : Buffer P D}
    (logging : ∀ c, pc = .logWrite c → (s.proc p).inOp = true)
    (edited : ∀ q, x.lock = some q → x.edited = true →
      ((s.buf b).lock = some q ∧ (s.buf b).edited = true ∧ x.blockno = (s.buf b).blockno) ∨
      ∀ code, (s.proc q).code = some code → code.head? = some (.bwrite x.blockno))
    (pinned : x.dirty = true → b ∉ s.idequeue → (s.buf b).dirty = true ∧
      x.blockno = (s.buf b).blockno) : Apart s ((s.setBuf b x).goto p pc) := by
  have proc : ∀ q, ((s.setBuf b x).goto p pc).proc q =
      if q = p then { s.proc p with pc := pc } else s.proc q := by
    intro q
    split
    · rename_i eq
      subst eq
      exact setBuf_goto_self x pc
    · rename_i ne
      exact setBuf_goto_ne x pc ne
  have buf : ∀ c, c ≠ b → ((s.setBuf b x).goto p pc).buf c = s.buf c :=
    fun c ne => Function.update_of_ne ne _ _
  refine ⟨fun q => ?_, fun q => ?_, rfl, rfl, rfl, fun q c at_q => ?_, fun q c => ?_, fun c => ?_⟩
  · rw [proc q]
    split
    · rename_i eq
      rw [eq]
    · rfl
  · rw [proc q]
    split
    · rename_i eq
      rw [eq]
    · rfl
  · rw [proc q] at at_q
    split at at_q
    · rename_i eq
      rw [eq]
      exact .inr (logging c at_q)
    · exact .inl at_q
  · rcases eq_or_ne c b with rfl | ne
    · rw [setBuf_goto_buf]
      exact edited q
    · rw [buf c ne]
      exact fun lock edited => .inl ⟨lock, edited, rfl⟩
  · change _ → c ∈ s.idequeue ∨ _
    rcases eq_or_ne c b with rfl | ne
    · rw [setBuf_goto_buf]
      intro dirty
      by_cases queued : c ∈ s.idequeue
      · exact .inl queued
      · exact .inr ⟨queued, pinned dirty queued⟩
    · rw [buf c ne]
      intro dirty
      by_cases queued : c ∈ s.idequeue
      · exact .inl queued
      · exact .inr ⟨queued, dirty, rfl⟩

omit [Fintype P] [DecidableEq P] in
theorem Apart.stop (s : Bcache P D) (why : Panic) : Apart s (s.stop why) := by
  refine ⟨fun _ => rfl, fun _ => rfl, rfl, rfl, rfl, fun _ _ => .inl,
    fun _ _ lock edited => .inl ⟨lock, edited, rfl⟩, fun c dirty => ?_⟩
  by_cases queued : c ∈ s.idequeue
  · exact .inl queued
  · exact .inr ⟨queued, dirty, rfl⟩

omit [Fintype P] in
theorem Apart.goto {pc : Pc} (logging : ∀ c, pc = .logWrite c → (s.proc p).inOp = true) :
    Apart s (s.goto p pc) := by
  have same : s.setBuf 0 (s.buf 0) = s := by rw [Bcache.setBuf, Function.update_eq_self]
  have set := Apart.set (s := s) (b := 0) (x := s.buf 0) logging
    (fun _ lock edited => .inl ⟨lock, edited, rfl⟩) fun dirty _ => ⟨dirty, rfl⟩
  rwa [same] at set

omit [Fintype P] in
theorem Apart.of_ask {n : Nat} (apart : Apart (s.ask p n) t) : Apart s t :=
  ⟨apart.inOp, apart.code, apart.outstanding, apart.committing, apart.lh, apart.logging,
    apart.edited, apart.pinned⟩

theorem Apart.bget (settled : Settled s) {dev n : Nat} (eq : bget s p dev n = some t) :
    Apart s t := by
  refine .of_ask (p := p) (n := n) ?_
  rcases settled.bget p dev n with ⟨b, _, hit⟩ | ⟨_, ⟨b, idle, miss⟩ | ⟨_, full⟩⟩
  · rw [hit] at eq
    cases eq
    exact .set (by simp) (fun _ lock edited => .inl ⟨lock, edited, rfl⟩) fun dirty _ => ⟨dirty, rfl⟩
  · rw [miss] at eq
    cases eq
    refine .set (by simp) (fun q lock _ => ?_) (by simp)
    have := (settled.at_buf b).counted (p := q) (.inl lock)
    omega
  · rw [full] at eq
    cases eq
    exact .stop (s.ask p n) _

section

omit [Fintype P]

omit [DecidableEq P] in
theorem idestart_eq (s : Bcache P D) (b : Ptr) :
    ∃ disk panic, idestart s b = { s with disk := disk, panic := panic } := by
  unfold idestart
  split
  · exact ⟨_, _, rfl⟩
  · split
    · exact ⟨_, _, rfl⟩
    · exact ⟨_, _, rfl⟩

theorem iderw_eq {r : Bool} (lock : (s.buf b).lock = some p)
    (work : ¬ ((s.buf b).valid = true ∧ (s.buf b).dirty = false)) :
    ∃ disk panic, iderw s p b r =
      { ({ s with idequeue := s.idequeue ++ [b] }.goto p (.iderw b r)) with
      disk := disk, panic := panic } := by
  rw [iderw, if_neg (by simp [lock]), if_neg work]
  simp only
  split
  · exact idestart_eq ..
  · exact ⟨_, _, rfl⟩

theorem Apart.iderw {r : Bool} (lock : (s.buf b).lock = some p)
    (work : ¬ ((s.buf b).valid = true ∧ (s.buf b).dirty = false)) : Apart s (iderw s p b r) := by
  obtain ⟨disk, panic, eq⟩ := iderw_eq (r := r) lock work
  rw [eq]
  have goto : Apart s (s.goto p (.iderw b r)) := Apart.goto (by simp)
  refine ⟨goto.inOp, goto.code, rfl, rfl, rfl, goto.logging, goto.edited, fun c dirty => ?_⟩
  by_cases queued : c ∈ s.idequeue
  · exact .inl (List.mem_append_left _ queued)
  · exact .inr ⟨queued, dirty, rfl⟩

theorem Apart.bwrite : Apart s (bwrite s p b) := by
  unfold Buf.bwrite
  split
  · exact .stop s _
  · rename_i held
    have lock : (s.buf b).lock = some p := by simpa using held
    generalize new : ({ s.setBuf b { s.buf b with dirty := true, edited := false } with
      last := Function.update s.last (s.buf b).blockno (s.buf b).data } : Bcache P D) = s'
    have proc : s'.proc = s.proc := by rw [← new]; rfl
    have buf : ∀ c, c ≠ b → s'.buf c = s.buf c := by
      intro c ne
      rw [← new]
      exact Function.update_of_ne ne _ _
    have buf_b : s'.buf b = { s.buf b with dirty := true, edited := false } := by
      rw [← new]
      exact Function.update_self ..
    have queue : s'.idequeue = s.idequeue := by rw [← new]; rfl
    obtain ⟨disk, panic, eq⟩ := iderw_eq (s := s') (p := p) (b := b) (r := false)
      (by rw [buf_b]; exact lock) (by simp [buf_b])
    have goto : Apart s' (s'.goto p (.iderw b false)) := Apart.goto (by simp)
    rw [eq]
    refine ⟨fun q => ?_, fun q => ?_, by rw [← new]; rfl, by rw [← new]; rfl, by rw [← new]; rfl,
      fun q c at_q => ?_, fun q c lock' edited => ?_, fun c dirty => ?_⟩
    · exact (goto.inOp q).trans (by rw [proc])
    · exact (goto.code q).trans (by rw [proc])
    · have := goto.logging q c at_q
      rwa [proc] at this
    · have ne : c ≠ b := by
        rintro rfl
        change (s'.buf c).edited = true at edited
        rw [buf_b] at edited
        cases edited
      change (s'.buf c).lock = some q at lock'
      change (s'.buf c).edited = true at edited
      change ((s.buf c).lock = _ ∧ _ ∧ (s'.buf c).blockno = _) ∨ _
      rw [buf c ne] at lock' edited ⊢
      exact .inl ⟨lock', edited, rfl⟩
    · change (s'.buf c).dirty = true at dirty
      change c ∈ s'.idequeue ++ [b] ∨ _ ∧ _ ∧ (s'.buf c).blockno = _
      rw [queue]
      rcases eq_or_ne c b with rfl | ne
      · exact .inl (by simp)
      · rw [buf c ne] at dirty ⊢
        by_cases queued : c ∈ s.idequeue
        · exact .inl (List.mem_append_left _ queued)
        · exact .inr ⟨queued, dirty, rfl⟩

omit [DecidableEq P] in
theorem Apart.ideintr (eq : ideintr s = some t) : Apart s t := by
  rw [Buf.ideintr] at eq
  cases queue : s.idequeue with
  | nil =>
    rw [queue] at eq
    cases eq
  | cons b rest =>
    rw [queue] at eq
    simp only at eq
    obtain ⟨disk, panic, rfl⟩ : ∃ disk panic, t =
        { ({ s with idequeue := rest }.setBuf b { s.buf b with
        data := if (s.buf b).dirty then (s.buf b).data else s.disk (s.buf b).blockno
        valid := true
        dirty := false }) with disk := disk, panic := panic } := by
      cases rest with
      | nil => exact ⟨_, _, (Option.some.inj eq).symm⟩
      | cons c rest =>
        obtain ⟨disk, panic, start⟩ := idestart_eq ({ s with idequeue := c :: rest }.setBuf b
          { s.buf b with
            data := if (s.buf b).dirty then (s.buf b).data else s.disk (s.buf b).blockno
            valid := true
            dirty := false }) c
        exact ⟨disk, panic, (Option.some.inj eq).symm.trans start⟩
    generalize new : ({ s.buf b with
        data := if (s.buf b).dirty then (s.buf b).data else s.disk (s.buf b).blockno
        valid := true
        dirty := false } : Buffer P D) = x
    have buf : ∀ c, c ≠ b → ({ s with idequeue := rest }.setBuf b x).buf c = s.buf c :=
      fun c ne => Function.update_of_ne ne _ _
    have buf_b : ({ s with idequeue := rest }.setBuf b x).buf b = x := Function.update_self ..
    refine ⟨fun _ => rfl, fun _ => rfl, rfl, rfl, rfl, fun _ _ => .inl,
      fun q c lock edited => .inl ?_, fun c dirty => ?_⟩
    · change (Bcache.buf _ c).lock = some q at lock
      change (Bcache.buf _ c).edited = true at edited
      change _ ∧ _ ∧ (({ s with idequeue := rest }.setBuf b x).buf c).blockno = _
      rcases eq_or_ne c b with rfl | ne
      · rw [buf_b, ← new] at lock edited
        rw [buf_b, ← new]
        exact ⟨lock, edited, rfl⟩
      · rw [buf c ne] at lock edited ⊢
        exact ⟨lock, edited, rfl⟩
    · change (({ s with idequeue := rest }.setBuf b x).buf c).dirty = true at dirty
      change c ∈ rest ∨ _ ∧ _ ∧ (({ s with idequeue := rest }.setBuf b x).buf c).blockno = _
      rcases eq_or_ne c b with rfl | ne
      · rw [buf_b, ← new] at dirty
        cases dirty
      · rw [buf c ne] at dirty ⊢
        by_cases queued : c ∈ rest
        · exact .inl queued
        · exact .inr ⟨by rw [queue]; simp [ne, queued], dirty, rfl⟩

end

/-! ## The statements of `commit` -/

theorem LogInv.update (log : LogInv g s) {pr : Process} (buf : t.buf = s.buf)
    (queue : t.idequeue = s.idequeue) (lh : t.lh = s.lh)
    (proc : t.proc = Function.update s.proc p pr)
    (ops : Ops g t.proc t.outstanding t.committing)
    (edited : ∀ b code, (s.buf b).lock = some p → (s.buf b).edited = true → pr.code = some code →
      code.head? = some (.bwrite (s.buf b).blockno))
    (pinned : ∀ b code, (s.buf b).dirty = true → b ∉ s.idequeue → (s.buf b).blockno ∈ s.lh →
      (∀ old, (s.proc p).code = some old → Writes s.lh old (s.buf b).blockno) →
      pr.code = some code → Writes s.lh code (s.buf b).blockno) : LogInv g t := by
  have at_p : t.proc p = pr := by rw [proc, Function.update_self]
  have at_q : ∀ q, q ≠ p → t.proc q = s.proc q := fun q ne => by rw [proc, Function.update_of_ne ne]
  refine ⟨ops, fun q b code lock stored code_q => ?_, fun b dirty => ?_⟩
  · rw [buf] at lock stored ⊢
    rcases eq_or_ne q p with rfl | ne
    · exact edited b code lock stored (at_p ▸ code_q)
    · exact log.edited q b code lock stored (at_q q ne ▸ code_q)
  · rw [buf] at dirty ⊢
    rw [queue, lh]
    by_cases queued : b ∈ s.idequeue
    · exact .inl queued
    · obtain ⟨logged, writes⟩ := (log.pinned b dirty).resolve_left queued
      refine .inr ⟨logged, fun q code code_q => ?_⟩
      rcases eq_or_ne q p with rfl | ne
      · exact pinned b code dirty queued logged (writes q) (at_p ▸ code_q)
      · exact writes q code (at_q q ne ▸ code_q)

theorem LogInv.setCode (log : LogInv g s) {old code : List Instr}
    (at_p : (s.proc p).code = some old) (tidy : Tidy g code)
    (edited : ∀ b, (s.buf b).lock = some p → (s.buf b).edited = true →
      code.head? = some (.bwrite (s.buf b).blockno))
    (writes : ∀ b, (s.buf b).dirty = true → b ∉ s.idequeue →
      Writes s.lh old (s.buf b).blockno → Writes s.lh code (s.buf b).blockno) :
    LogInv g (s.setCode p code) := by
  have some_p : (s.proc p).code ≠ none := by simp [at_p]
  refine log.update rfl rfl rfl rfl (log.ops.update (fun inside => ?_) (log.ops.logging p)
    (fun _ q ne => ?_) (by change (s.outstanding : ℤ) = _ - _ + inOpCount (s.proc p); omega)
    (fun _ => log.ops.alone p some_p) (fun q _ => log.ops.alone q) fun code' eq => ?_)
    (fun b code' lock stored eq => ?_) fun b code' dirty free _ pending eq => ?_
  · exact absurd (log.ops.client p inside) some_p
  · by_contra some_q
    exact ne (log.ops.single q p some_q some_p)
  · exact Option.some.inj eq ▸ tidy
  · exact Option.some.inj eq ▸ edited b lock stored
  · exact Option.some.inj eq ▸ writes b dirty free (pending old at_p)

theorem LogInv.append (log : LogInv g s) (inv : Inv s) (at_p : (s.proc p).pc = .logWrite b) :
    LogInv g { (s.setBuf b { s.buf b with dirty := true, edited := false }).goto p .out with
      lh := Log.absorb s.lh (s.buf b).blockno
      last := Function.update s.last (s.buf b).blockno (s.buf b).data } := by
  have inside := log.ops.logging p b at_p
  have nobody := log.ops.no_commit inside
  have lock := (inv.at_buf b).holds p (by rw [at_p]; rfl)
  generalize new : ({ s.buf b with dirty := true, edited := false } : Buffer P D) = x
  have buf_b : ((s.setBuf b x).goto p .out).buf b = x := setBuf_goto_buf x .out
  have buf : ∀ c, c ≠ b → ((s.setBuf b x).goto p .out).buf c = s.buf c :=
    fun c ne => Function.update_of_ne ne _ _
  have code : ∀ q, (((s.setBuf b x).goto p .out).proc q).code = none := by
    intro q
    rcases eq_or_ne q p with rfl | ne
    · rw [setBuf_goto_self]
      exact nobody q
    · rw [setBuf_goto_ne x .out ne]
      exact nobody q
  refine ⟨?_, fun q c code' _ _ eq => ?_, fun c dirty => ?_⟩
  · refine log.ops.update (log.ops.client p) (by simp) (fun _ q _ => nobody q) ?_
      (log.ops.alone p) (fun q _ => log.ops.alone q) (log.ops.tidy p)
    change (s.outstanding : ℤ) = _ - _ + inOpCount (s.proc p)
    omega
  · cases (code q).symm.trans eq
  · change (((s.setBuf b x).goto p .out).buf c).dirty = true at dirty
    change c ∈ s.idequeue ∨ (((s.setBuf b x).goto p .out).buf c).blockno ∈ Log.absorb _ _ ∧ _
    have idle : ∀ q code', (((s.setBuf b x).goto p .out).proc q).code = some code' →
        Writes (Log.absorb s.lh (s.buf b).blockno) code'
          (((s.setBuf b x).goto p .out).buf c).blockno := fun q _ eq => by
      cases (code q).symm.trans eq
    rcases eq_or_ne c b with rfl | ne
    · refine .inr ⟨?_, idle⟩
      rw [buf_b, ← new]
      exact Log.mem_absorb.mpr (.inr rfl)
    · rw [buf c ne] at dirty
      refine (log.pinned c dirty).imp id fun logged => ⟨?_, idle⟩
      rw [buf c ne]
      exact Log.mem_absorb.mpr (.inl logged.1)

theorem LogInv.beginOp (log : LogInv g s) (client : s.Client p) (eq : beginOp s p = some t)
    (outside : (s.proc p).inOp = false) : LogInv g t := by
  unfold Buf.beginOp at eq
  split at eq
  · cases eq
  · rename_i not_committing
    split at eq
    · cases eq
    · cases eq
      have nobody : ∀ q, (s.proc q).code = none := by
        intro q
        by_contra running
        exact not_committing (log.ops.alone q running).1
      refine log.update rfl rfl rfl rfl (log.ops.update (fun _ => client.2) (fun _ _ => rfl)
        (fun _ q _ => nobody q) ?_ (fun running => absurd client.2 running)
        (fun q _ running => absurd (nobody q) running) fun code running => ?_)
        (fun b code _ _ running => ?_) fun b code _ _ _ _ running => ?_
      · have before : inOpCount (s.proc p) = 0 := if_neg (by simp [outside])
        rw [before]
        change ((s.outstanding + 1 : Nat) : ℤ) = _ - 0 + 1
        omega
      · cases client.2.symm.trans running
      · cases client.2.symm.trans running
      · cases client.2.symm.trans running

theorem tidy_commit (g : Log.Geometry) (lh : List Nat) : Tidy g (commit lh) := by
  unfold commit
  split
  · simp [Tidy]
  · exact trivial

theorem LogInv.endOp (log : LogInv g s) (client : s.Client p) (inside : (s.proc p).inOp = true)
    (released : ∀ b, (s.buf b).lock ≠ some p) : LogInv g (endOp s p) := by
  have nobody := log.ops.no_commit inside
  have pos := log.ops.outstanding_pos inside
  have one : inOpCount (s.proc p) = 1 := if_pos inside
  have not_logging : ∀ b, (s.proc p).pc ≠ .logWrite b := by simp [client.1]
  have count : ((s.outstanding - 1 : Nat) : ℤ) = s.outstanding - inOpCount (s.proc p) + 0 := by
    rw [one]
    omega
  -- without code `p` is outside the log
  have out : ∀ {t : Bcache P D}, t.buf = s.buf → t.idequeue = s.idequeue → t.lh = s.lh →
      t.outstanding = s.outstanding - 1 → t.proc = Function.update s.proc p
        { s.proc p with inOp := false } → LogInv g t := by
    intro t buf queue lh fewer proc
    refine log.update buf queue lh proc ?_ (fun b _ lock => absurd lock (released b))
      fun b code _ _ _ _ running => ?_
    · rw [proc, fewer]
      refine log.ops.update (by simp) (fun b at_p => absurd at_p (not_logging b))
        (fun _ q _ => nobody q)
        count (fun running => absurd client.2 running)
        (fun q _ running => absurd (nobody q) running) fun code running => ?_
      cases client.2.symm.trans running
    · cases client.2.symm.trans running
  unfold Buf.endOp
  split
  · exact out rfl rfl rfl rfl rfl
  · split
    · rename_i last
      refine log.update rfl rfl rfl rfl (log.ops.update (by simp)
        (fun b at_p => absurd at_p (not_logging b)) (fun _ q _ => nobody q) count
        (fun _ => ⟨rfl, last⟩)
          (fun q _ running => absurd (nobody q) running) fun code running => ?_)
        (fun b _ lock => absurd lock (released b)) fun b code _ _ logged _ running => ?_
      · exact Option.some.inj running ▸ tidy_commit g s.lh
      · obtain rfl := Option.some.inj running
        have nonempty : s.lh.length > 0 := List.length_pos_of_mem logged
        refine .inr ⟨0, ?_, by simpa using logged⟩
        rw [commit, if_pos nonempty]
        simp
    · exact out rfl rfl rfl rfl rfl

theorem LogInv.finish (log : LogInv g s) (at_p : (s.proc p).code = some []) :
    LogInv g { s with
      committing := false
      proc := Function.update s.proc p { s.proc p with code := none } } := by
  have only : ∀ q, q ≠ p → (s.proc q).code = none := by
    intro q ne
    by_contra running
    exact ne (log.ops.single q p running (by simp [at_p]))
  refine log.update rfl rfl rfl rfl (log.ops.update (fun _ => rfl) (log.ops.logging p)
    (fun running => absurd rfl running) ?_ (fun running => absurd rfl running)
    (fun q ne running => absurd (only q ne) running) (by simp)) (by simp) (by simp)
  change (s.outstanding : ℤ) = _ - _ + inOpCount (s.proc p)
  omega

variable {i : Instr} {rest : List Instr}

theorem Tidy.tail (tidy : Tidy g (i :: rest)) : Tidy g rest := by
  cases i <;> first | exact tidy.2 | exact tidy

theorem Writes.tail {lh : List Nat} {code : List Instr} {n : Nat} (writes : Writes lh (i :: code) n)
    (not_bwrite : i ≠ .bwrite n) (not_install : ∀ tail, i ≠ .installTrans tail) :
    Writes lh code n := by
  refine writes.imp (fun mem => ?_) fun ⟨tail, mem, logged⟩ => ⟨tail, ?_, logged⟩
  · exact (List.mem_cons.mp mem).resolve_left (Ne.symm not_bwrite)
  · exact (List.mem_cons.mp mem).resolve_left (Ne.symm (not_install tail))

theorem Writes.append {lh : List Nat} {code : List Instr} {n : Nat} (writes : Writes lh code n)
    (more : List Instr) : Writes lh (more ++ code) n :=
  writes.imp (List.mem_append_right more) fun ⟨tail, mem, logged⟩ =>
    ⟨tail, List.mem_append_right more mem, logged⟩

omit [DecidableEq P] in
theorem LogInv.clean (log : LogInv g s) (at_p : (s.proc p).code = some (i :: rest))
    (other : ∀ n, i ≠ .bwrite n) (lock : (s.buf b).lock = some p) : (s.buf b).edited = false := by
  cases stored : (s.buf b).edited with
  | false => rfl
  | true => exact absurd (Option.some.inj (log.edited p b _ lock stored at_p)) (other _)

/-- A statement other than `bwrite` and the loop of `install_trans` is done. -/
theorem LogInv.next (log : LogInv g s) {more : List Instr}
    (at_p : (s.proc p).code = some (i :: rest)) (not_bwrite : ∀ n, i ≠ .bwrite n)
    (not_install : ∀ tail, i ≠ .installTrans tail) (tidy : Tidy g (more ++ rest)) :
    LogInv g (s.setCode p (more ++ rest)) := by
  refine log.setCode at_p tidy (fun b lock stored => ?_) fun b _ _ writes => ?_
  · rw [log.clean at_p not_bwrite lock] at stored
    cases stored
  · exact (writes.tail (not_bwrite _) not_install).append more

section

omit [Fintype P]

theorem goto_setCode (s : Bcache P D) (p : P) (pc : Pc) (code : List Instr) :
    (s.setCode p code).goto p pc = (s.goto p pc).setCode p code := by
  simp only [Bcache.goto, Bcache.setCode, Function.update_self, Function.update_idem]

theorem idestart_setCode (s : Bcache P D) (p : P) (b : Ptr) (code : List Instr) :
    idestart (s.setCode p code) b = (idestart s b).setCode p code := by
  change (if (s.buf b).blockno ≥ fsSize then _ else if (s.buf b).dirty then _ else _) = _
  unfold idestart
  split
  · rfl
  · split <;> rfl

theorem iderw_setCode (s : Bcache P D) (p : P) (b : Ptr) (r : Bool) (code : List Instr) :
    iderw (s.setCode p code) p b r = (iderw s p b r).setCode p code := by
  rw [iderw_ite, iderw_ite]
  change (if (s.buf b).lock ≠ some p then _
    else if (s.buf b).valid ∧ (s.buf b).dirty = false then _
    else if s.idequeue = [] then
      idestart (({ s with idequeue := s.idequeue ++ [b] }.setCode p code).goto p _) b
    else ({ s with idequeue := s.idequeue ++ [b] }.setCode p code).goto p _) = _
  rw [goto_setCode, idestart_setCode]
  split
  · rfl
  · split
    · rfl
    · split <;> rfl

theorem bwrite_setCode (s : Bcache P D) (p : P) (b : Ptr) (code : List Instr) :
    bwrite (s.setCode p code) p b = (bwrite s p b).setCode p code := by
  change (if (s.buf b).lock ≠ some p then _ else iderw (Bcache.setCode { s.setBuf b
    { s.buf b with dirty := true, edited := false } with
      last := Function.update s.last (s.buf b).blockno (s.buf b).data } p code) p b false) = _
  unfold bwrite
  rw [iderw_setCode]
  split <;> rfl

end

structure Good (g : Log.Geometry) (s : Bcache P D) : Prop where
  inv : Inv s
  log : LogInv g s

omit [DecidableEq P] in
theorem Good.apart (good : Good g s) (inv : Inv t) (apart : Apart s t) : Good g t :=
  ⟨inv, good.log.apart apart⟩

theorem Good.edit (good : Good g s) (lock : (s.buf b).lock = some p) (out : (s.proc p).pc = .out)
    (d : D) (written : ∀ code, (s.proc p).code = some code →
      code.head? = some (.bwrite (s.buf b).blockno)) : Good g (edit s b d) := by
  refine good.apart (good.inv.edit lock out d) ?_
  have same : Buf.edit s b d =
      (s.setBuf b { s.buf b with data := d, edited := true }).goto p (s.proc p).pc :=
    (goto_self (Buf.edit s b d) p).symm
  rw [same, out]
  refine .set (by simp) (fun q lock' _ => .inr ?_) fun dirty _ => ⟨dirty, rfl⟩
  obtain rfl : p = q := Option.some.inj (lock.symm.trans lock')
  exact written

theorem Good.bwrite (good : Good g s) (out : (s.proc p).pc = .out) : Good g (bwrite s p b) :=
  good.apart (good.inv.bwrite out) .bwrite

theorem Good.brelse (good : Good g s) (out : (s.proc p).pc = .out)
    (clean : (s.buf b).edited = false) : Good g (brelse s p b) := by
  unfold Buf.brelse
  split
  · exact good.apart (good.inv.stop _) (.stop s _)
  · rename_i held
    exact good.apart (good.inv.release (by simpa using held) out clean)
      (.set (by simp) (by simp) fun dirty _ => ⟨dirty, rfl⟩)

omit [Fintype P] in
theorem setCode_pc (s : Bcache P D) (p : P) (code : List Instr) (q : P) :
    ((s.setCode p code).proc q).pc = (s.proc q).pc := by
  refine update_pc ?_ q
  rfl

omit [Fintype P] in
theorem setCode_self (s : Bcache P D) (p : P) (code : List Instr) :
    ((s.setCode p code).proc p).code = some code := by
  change (Function.update s.proc p _ p).code = _
  rw [Function.update_self]

omit [Fintype P] in
theorem bwrite_buf (lock : (s.buf b).lock = some p) : ((bwrite s p b).buf b).edited = false ∧
    ((bwrite s p b).buf b).dev = (s.buf b).dev ∧
    ((bwrite s p b).buf b).blockno = (s.buf b).blockno ∧ b ∈ (bwrite s p b).idequeue := by
  rw [bwrite, if_neg (by simp [lock])]
  generalize new : ({ s.setBuf b { s.buf b with dirty := true, edited := false } with
    last := Function.update s.last (s.buf b).blockno (s.buf b).data } : Bcache P D) = s'
  have buf_b : s'.buf b = { s.buf b with dirty := true, edited := false } := by
    rw [← new]
    exact Function.update_self ..
  obtain ⟨disk, panic, eq⟩ := iderw_eq (s := s') (p := p) (b := b) (r := false)
    (by rw [buf_b]; exact lock) (by simp [buf_b])
  rw [eq]
  change (s'.buf b).edited = _ ∧ (s'.buf b).dev = _ ∧ (s'.buf b).blockno = _ ∧
    b ∈ s'.idequeue ++ [b]
  rw [buf_b]
  exact ⟨rfl, rfl, rfl, by simp⟩

theorem Good.execute (good : Good g s) (out : (s.proc p).pc = .out)
    (at_p : (s.proc p).code = some (i :: rest)) (eq : execute g header s p i rest = some t) :
    Good g t := by
  have tidy := good.log.ops.tidy p _ at_p
  have out' : ∀ code, ((s.setCode p code).proc p).pc = .out := fun code =>
    (setCode_pc s p code p).trans out
  have next : ∀ more, (∀ n, i ≠ .bwrite n) → (∀ tail, i ≠ .installTrans tail) →
      Tidy g (more ++ rest) → Good g (s.setCode p (more ++ rest)) := fun more not_bwrite not_install
        tidy => ⟨good.inv.setCode _, good.log.next at_p not_bwrite not_install tidy⟩
  cases i with
  | writeLog tail =>
    simp only [Buf.execute] at eq
    split at eq
    · cases eq
      exact next [] (by simp) (by simp) tidy.tail
    · cases eq
      exact next [_, _, _, _, _, _, _] (by simp) (by simp) ⟨rfl, tidy.tail⟩
  | writeHead =>
    cases eq
    exact next [_, _, _, _] (by simp) (by simp) ⟨rfl, tidy.tail⟩
  | installTrans tail =>
    have clean : ∀ b, (s.buf b).lock = some p → (s.buf b).edited = true → False := by
      intro b lock stored
      rw [good.log.clean at_p (by simp) lock] at stored
      cases stored
    simp only [Buf.execute] at eq
    split at eq
    · rename_i past
      cases eq
      refine ⟨good.inv.setCode _, good.log.setCode at_p tidy.tail
        (fun b lock stored => (clean b lock stored).elim) fun b _ _ writes => ?_⟩
      refine writes.imp (fun mem => by simpa using mem) fun ⟨k, mem, logged⟩ => ⟨k, ?_, logged⟩
      refine (List.mem_cons.mp mem).resolve_left fun same => ?_
      cases same
      rw [List.drop_eq_nil_of_le (List.getElem?_eq_none_iff.mp past)] at logged
      cases logged
    · rename_i n at_tail
      cases eq
      refine ⟨good.inv.setCode _, good.log.setCode at_p ⟨rfl, tidy.tail⟩
        (fun b lock stored => (clean b lock stored).elim) fun b _ _ writes => ?_⟩
      obtain ⟨lt, at_tail⟩ := List.getElem?_eq_some_iff.mp at_tail
      rcases writes with mem | ⟨k, mem, logged⟩
      · exact .inl (by simpa using Or.inr (by simpa using mem))
      · rcases List.mem_cons.mp mem with same | mem
        · cases same
          rw [List.drop_eq_getElem_cons lt, at_tail, List.mem_cons] at logged
          rcases logged with rfl | logged
          · exact .inl (by simp)
          · exact .inr ⟨tail + 1, by simp, logged⟩
        · exact .inr ⟨k, by simp [mem], logged⟩
  | reset =>
    cases eq
    have after := next [] (by simp) (by simp) tidy.tail
    refine ⟨after.inv.same rfl rfl rfl rfl rfl (fun _ => rfl) id, after.log.ops,
      after.log.edited, fun b dirty => .inl ?_⟩
    by_contra free
    obtain ⟨_, writes⟩ := (after.log.pinned b dirty).resolve_left free
    rcases writes p rest (setCode_self s p rest) with mem | ⟨k, mem, _⟩
    · cases tidy.1 _ mem
    · cases tidy.1 _ mem
  | bread n =>
    have after := next [] (by simp) (by simp) tidy.tail
    exact after.apart (after.inv.bget (out' rest) eq) (.bget after.inv.toSettled eq)
  | move dst src =>
    have after := next [] (by simp) (by simp) tidy.tail
    simp only [Buf.execute] at eq
    split at eq
    · rename_i b c held _
      cases eq
      obtain ⟨lock, _, rfl⟩ := Bcache.held_some held
      refine after.edit lock (out' rest) _ fun code at_code => ?_
      obtain rfl := Option.some.inj ((setCode_self s p rest).symm.trans at_code)
      exact tidy.1
    · cases eq
  | fill =>
    have after := next [] (by simp) (by simp) tidy.tail
    simp only [Buf.execute] at eq
    split at eq
    · rename_i b held
      cases eq
      obtain ⟨lock, _, at_start⟩ := Bcache.held_some held
      refine after.edit lock (out' rest) _ fun code at_code => ?_
      obtain rfl := Option.some.inj ((setCode_self s p rest).symm.trans at_code)
      change _ = some (Instr.bwrite (s.buf b).blockno)
      rw [at_start]
      exact tidy.1
    · cases eq
  | bwrite n =>
    simp only [Buf.execute] at eq
    split at eq
    · rename_i b held
      cases eq
      obtain ⟨lock, dev, at_n⟩ := Bcache.held_some held
      rw [bwrite_setCode]
      have after := good.bwrite (b := b) out
      obtain ⟨clean, dev', blockno, queued⟩ := bwrite_buf lock
      have code : ((Buf.bwrite s p b).proc p).code = some (.bwrite n :: rest) :=
        (Apart.bwrite.code p).trans at_p
      have mine : ∀ c, ((Buf.bwrite s p b).buf c).dev = rootDev →
          ((Buf.bwrite s p b).buf c).blockno = n → c = b := fun c dev_c at_c =>
        after.inv.unique c b dev_c (dev'.trans dev) (at_c.trans (blockno.trans at_n).symm)
      refine ⟨after.inv.setCode _, after.log.setCode code tidy.tail (fun c lock_c stored => ?_)
        fun c dirty free writes => ?_⟩
      · have same := Option.some.inj (after.log.edited p c _ lock_c stored code)
        obtain rfl := mine c ((after.inv.at_buf c).rootDev_of_ref (.inl lock_c))
          (Instr.bwrite.inj same).symm
        rw [clean] at stored
        cases stored
      · refine writes.tail (fun same => ?_) (by simp)
        obtain rfl := mine c ((after.inv.at_buf c).used (.inr ((after.inv.at_buf c).dirty dirty)))
          (Instr.bwrite.inj same).symm
        exact free queued
    · cases eq
  | brelse n =>
    have after := next [] (by simp) (by simp) tidy.tail
    simp only [Buf.execute] at eq
    split at eq
    · rename_i b held
      cases eq
      exact after.brelse (out' rest) (good.log.clean at_p (by simp) (Bcache.held_some held).1)
    · cases eq

/-! ## Every reachable state -/

theorem Good.step (good : Good g s) {a : Act P D} (eq : step g header s a = some t) :
    Good g t := by
  have inv := good.inv
  unfold Buf.step at eq
  split at eq
  · cases eq
  rename_i running
  have running : s.panic = none := by simpa using running
  cases a with
  | bread p n =>
    obtain ⟨client, eq⟩ := Option.ite_none_right_eq_some.mp eq
    exact good.apart (inv.bget client.1 eq) (.bget inv.toSettled eq)
  | acquire p =>
    simp only [acquiresleep] at eq
    split at eq
    · rename_i b at_p
      split at eq
      · rename_i free
        cases eq
        refine good.apart (inv.acquire at_p free) (.set (by simp) (fun q _ stored => ?_)
          fun dirty _ => ⟨dirty, rfl⟩)
        cases ((inv.at_buf b).unlocked free).2.symm.trans stored
      · cases eq
    · cases eq
  | test p =>
    simp only [breadTest] at eq
    split at eq
    · rename_i b at_p
      have lock := (inv.at_buf b).holds p (by rw [at_p]; rfl)
      obtain ⟨free, clean⟩ := ((inv.at_buf b).locked p lock).test at_p
      have before : ∀ c, (s.proc p).pc.about = some c → c = b := by simp [at_p, Pc.about]
      split at eq
      · rename_i valid
        cases eq
        exact good.apart (inv.walk lock before (by intros; contradiction) (by rw [at_p]; rfl) rfl
          ⟨(by simp), (by simp), fun _ _ => ⟨valid, free⟩⟩) (.goto (by simp))
      · rename_i invalid
        cases eq
        have valid : (s.buf b).valid = false := by simpa using invalid
        have not_dirty : (s.buf b).dirty = false := by
          cases dirty : (s.buf b).dirty with
          | false => rfl
          | true => exact absurd ((inv.at_buf b).dirty dirty) invalid
        exact good.apart (inv.request lock before (by rw [at_p]; rfl) free clean valid not_dirty)
          (.iderw lock (by simp [valid]))
    · cases eq
  | wake p =>
    simp only [iderwWait] at eq
    split at eq
    · rename_i b r at_p
      have lock := (inv.at_buf b).holds p (by rw [at_p]; rfl)
      obtain ⟨_, queued, _⟩ := ((inv.at_buf b).locked p lock).request r at_p
      split at eq
      · rename_i done
        cases eq
        refine good.apart (inv.walk lock (by simp [at_p, Pc.about]) (by intros; contradiction)
          (by rw [at_p]; rfl) rfl
          ⟨(by simp), (by simp), fun _ _ => ⟨done.1, fun mem => ?_⟩⟩) (.goto (by simp))
        obtain ⟨valid, dirty⟩ := queued mem
        rw [done.1] at valid
        rw [done.2] at dirty
        cases valid.trans dirty.symm
      · cases eq
    · cases eq
  | edit p b d =>
    obtain ⟨⟨client, lock⟩, eq⟩ := Option.ite_none_right_eq_some.mp eq
    cases eq
    exact good.edit lock client.1 d fun code running => by cases client.2.symm.trans running
  | logWrite p b =>
    obtain ⟨⟨client, lock, inside⟩, eq⟩ := Option.ite_none_right_eq_some.mp eq
    cases eq
    unfold logWriteTest
    split
    · exact good.apart (inv.stop _) (.stop s _)
    · split
      · exact good.apart (inv.stop _) (.stop s _)
      · obtain ⟨valid, free⟩ := (inv.at_buf b).ready lock client.1
        exact good.apart (inv.walk lock (by simp [client.1, Pc.about])
          (fun c about => (Option.some.inj about).symm) (by rw [client.1]; rfl) rfl
          ⟨(by simp), (by simp), fun _ _ => ⟨valid, free⟩⟩) (.goto fun _ _ => inside)
  | append p =>
    simp only [logWriteAppend] at eq
    split at eq
    · rename_i b at_p
      cases eq
      have lock := (inv.at_buf b).holds p (by rw [at_p]; rfl)
      have stage := (inv.at_buf b).locked p lock
      rw [at_p] at stage
      obtain ⟨valid, free⟩ := stage.ready (by simp) (by simp)
      exact ⟨inv.publish lock (by simp [at_p, Pc.about]) (by rw [at_p]; rfl) valid free _,
        good.log.append inv at_p⟩
    · cases eq
  | bwrite p b =>
    obtain ⟨client, eq⟩ := Option.ite_none_right_eq_some.mp eq
    cases eq
    exact good.bwrite client.1
  | brelse p b =>
    obtain ⟨⟨client, clean⟩, eq⟩ := Option.ite_none_right_eq_some.mp eq
    cases eq
    exact good.brelse client.1 clean
  | unref p =>
    have step := eq
    simp only [brelseUnref] at eq
    split at eq
    · rename_i b at_p
      have set : Apart s ((s.setBuf b { s.buf b with refcnt := (s.buf b).refcnt - 1 }).goto p
          .out) :=
        .set (by simp) (fun _ lock stored => .inl ⟨lock, stored, rfl⟩) fun dirty _ => ⟨dirty, rfl⟩
      refine good.apart (inv.unref at_p step) ?_
      split at eq
      · cases eq
        exact ⟨set.inOp, set.code, rfl, rfl, rfl, set.logging, set.edited, set.pinned⟩
      · cases eq
        exact set
    · cases eq
  | beginOp p =>
    obtain ⟨⟨client, outside⟩, eq⟩ := Option.ite_none_right_eq_some.mp eq
    refine ⟨?_, good.log.beginOp client eq outside⟩
    unfold Buf.beginOp at eq
    split at eq
    · cases eq
    · split at eq
      · cases eq
      · cases eq
        exact inv.same rfl rfl rfl rfl rfl (update_pc rfl) id
  | endOp p =>
    obtain ⟨⟨client, inside, released⟩, eq⟩ := Option.ite_none_right_eq_some.mp eq
    cases eq
    refine ⟨?_, good.log.endOp client inside released⟩
    unfold Buf.endOp
    split
    · exact inv.same rfl rfl rfl rfl rfl (update_pc rfl) (by intros; contradiction)
    · split
      · exact inv.same rfl rfl rfl rfl rfl (update_pc rfl) id
      · exact inv.same rfl rfl rfl rfl rfl (update_pc rfl) id
  | commit p =>
    obtain ⟨out, eq⟩ := Option.ite_none_right_eq_some.mp eq
    unfold commitStep at eq
    split at eq
    · rename_i i rest at_p
      exact good.execute out at_p eq
    · rename_i at_p
      cases eq
      exact ⟨inv.same rfl rfl rfl rfl rfl (update_pc rfl) id, good.log.finish at_p⟩
    · cases eq
  | intr => exact good.apart (inv.intr running eq) (.ideintr eq)

theorem ring_binitLoop {l : Links Node} {ys : List Ptr} (ring : l.Ring none (ys.map some))
    (bs : List Ptr) (nodup : (bs.reverse ++ ys).Nodup) :
    (binitLoop bs l).Ring none ((bs.reverse ++ ys).map some) := by
  induction bs generalizing l ys with
  | nil => exact ring
  | cons b bs ih =>
    rw [List.reverse_cons, List.append_assoc] at nodup ⊢
    refine ih (ring.push ?_) nodup
    have := (List.nodup_append.mp nodup).2.1
    simpa using (List.nodup_cons.mp this).1

omit [DecidableEq P] in
theorem good_initial (g : Log.Geometry) (disk : Nat → D) :
    Good g (Bcache.initial P disk) := by
  have empty : Links.Ring ⟨fun _ => none, fun _ => none⟩ none (([] : List Ptr).map some) :=
    .empty rfl rfl
  have ring := ring_binitLoop empty (List.finRange nbuf) (by simp [List.nodup_finRange])
  have none_waits : ∀ b, tally (waiting b) (Bcache.initial P disk).proc = 0 :=
    fun b => tally_eq_zero fun _ => rfl
  refine ⟨⟨⟨⟨_, ring, by simp⟩, ?_, fun b => ?_, List.nodup_nil, fun n => .inl rfl⟩, ?_⟩,
    ⟨⟨fun _ _ => rfl, ?_, fun _ _ code => absurd rfl code, ?_, fun _ code => absurd rfl code, ?_⟩,
      ?_, ?_⟩⟩
  case refine_2 =>
    refine ⟨?_, ?_, ?_, ?_, fun _ => ⟨List.not_mem_nil, rfl⟩, ?_, ?_⟩
    · rw [none_waits]
      rfl
    · rintro (pos | valid)
      · cases pos
      · cases valid
    all_goals intros; contradiction
  case refine_5 => exact (tally_eq_zero fun _ => rfl).symm
  -- nothing is cached, queued or held
  all_goals intros; contradiction

theorem reachable_good {disk : Nat → D} (reach : (bcache P g header disk).Reachable s) :
    Good g s := by
  refine reach.invariant (fun s start => ?_) fun s a t _ good step => good.step step
  obtain rfl : s = Bcache.initial P disk := start
  exact good_initial g disk

end

end Xv6.Buf
