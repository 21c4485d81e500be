import Xv6.Fs.Balance
import Xv6.Fs.Layout

/-!
# Reference counts are exact

`Inv` ties the reference counts and locks of the state to the ghosts of the processes.  Every step
keeps it (`protocol_sound`), so with the calls verified in `Xv6.Fs.Balance` it holds in every
interleaving.
-/

namespace Xv6.Fs

open Function

section Weights

variable {P : Type}

def fileRef (ip : Ip) (x : File) : ℤ := if x.type = .inode ∧ x.ip = ip then 1 else 0

def fdRef (f : FilePtr) (x : Option FilePtr) : ℤ := if x = some f then 1 else 0

/-- The references of a process to an inode: its current directory, and what its call holds. -/
def ipRefs (ip : Ip) (x : Proc × Ghost P) : ℤ :=
  (if x.1.cwd = some ip then 1 else 0) + x.2.refs ip

/-- The references of a process to a file: its descriptors, and what its call holds. -/
def fdRefs (f : FilePtr) (x : Proc × Ghost P) : ℤ := tally (fdRef f) x.1.ofile + x.2.frefs f

end Weights

section Inv

variable {P D A : Type}

structure Owns (pr : Proc) (g : Ghost P) : Prop where
  net : ∀ ip, 0 ≤ g.net ip
  netFile : ∀ f, 0 ≤ g.netFile f
  cwd : ∀ ip, g.cwd = some ip → pr.cwd = some ip
  ofile : ∀ fd x, g.ofile fd = some x → pr.ofile fd = x
  alive : g.alive = true → pr.status = .running
  closed : ∀ fd, g.ofile fd = some none → pr.status = .running
  unused : pr.status = .unused → pr.cwd = none ∧ ∀ fd, pr.ofile fd = none
  ops : pr.ops = g.ops

structure Embryo (pr : Proc) (n : Nat) : Prop where
  status : pr.status = .embryo
  cwd : pr.cwd = none
  ofile : ∀ fd : Fd, n ≤ fd.val → pr.ofile fd = none

structure Fresh (s : State P D A) (f : FilePtr) (x : Proc × Ghost P) : Prop where
  type : (s.ftable f).type = .none
  ref : (s.ftable f).ref = 1
  held : 1 ≤ fdRefs f x

def pairs (s : State P D A) (γ : P → Ghost P) (p : P) : Proc × Ghost P := (s.proc p, γ p)

structure Inv [Fintype P] (s : State P D A) (γ : P → Ghost P) : Prop where
  owns : ∀ p, Owns (s.proc p) (γ p)
  refs : ∀ ip, (s.icache ip).ref = tally (fileRef ip) s.ftable + tally (ipRefs ip) (pairs s γ)
  frefs : ∀ f, (s.ftable f).ref = tally (fdRefs f) (pairs s γ)
  locks : ∀ ip p, (s.icache ip).lock = some p ↔ (γ p).locks ip = true
  used : ∀ f, (s.ftable f).type ≠ .none → 0 < (s.ftable f).ref
  fresh : ∀ p f, (γ p).fresh f = true → Fresh s f (pairs s γ p)
  unique : ∀ ip jp, 0 < (s.icache ip).ref → 0 < (s.icache jp).ref →
    (s.icache ip).dev = (s.icache jp).dev → (s.icache ip).inum = (s.icache jp).inum → ip = jp
  child : ∀ p q n, (γ p).child = some (q, n) → Embryo (s.proc q) n
  only : ∀ p p' q n n', (γ p).child = some (q, n) → (γ p').child = some (q, n') → p = p'

end Inv

section

variable {P : Type} {g : Ghost P} {pr : Proc} {ip : Ip} {f : FilePtr}

/-! ## What a process knows -/

theorem Owns.le_ipRefs (owns : Owns pr g) (ip : Ip) : g.net ip ≤ ipRefs ip (pr, g) := by
  unfold Ghost.net ipRefs
  have cwd := owns.cwd ip
  split
  · rename_i eq
    rw [if_pos (cwd eq)]
  · dsimp only
    split <;> omega

theorem Owns.known_le (owns : Owns pr g) (f : FilePtr) (fd : Fd) :
    Ghost.known f (g.ofile fd) ≤ fdRef f (pr.ofile fd) := by
  unfold Ghost.known fdRef
  split
  · rename_i eq
    rw [if_pos (owns.ofile fd _ eq)]
  · split <;> decide

theorem Owns.le_fdRefs (owns : Owns pr g) (f : FilePtr) : g.netFile f ≤ fdRefs f (pr, g) :=
  add_le_add_left (tally_mono (owns.known_le f)) _

theorem refs_addRef (g : Ghost P) (ip jp : Ip) (k : ℤ) :
    (g.addRef ip k).refs jp = g.refs jp + if jp = ip then k else 0 := by
  unfold Ghost.addRef
  rcases eq_or_ne jp ip with rfl | ne
  · simp
  · simp [ne]

theorem frefs_addFile (g : Ghost P) (f f' : FilePtr) (k : ℤ) :
    (g.addFile f k).frefs f' = g.frefs f' + if f' = f then k else 0 := by
  unfold Ghost.addFile
  rcases eq_or_ne f' f with rfl | ne
  · simp
  · simp [ne]

theorem ipRefs_addRef (pr : Proc) (g : Ghost P) (ip jp : Ip) (k : ℤ) :
    ipRefs jp (pr, g.addRef ip k) = ipRefs jp (pr, g) + if jp = ip then k else 0 := by
  simp [ipRefs, refs_addRef, add_assoc]

theorem fdRefs_addFile (pr : Proc) (g : Ghost P) (f f' : FilePtr) (k : ℤ) :
    fdRefs f' (pr, g.addFile f k) = fdRefs f' (pr, g) + if f' = f then k else 0 := by
  rw [fdRefs, fdRefs, add_assoc, ← frefs_addFile]

theorem fdRef_nonneg (f : FilePtr) (x : Option FilePtr) : 0 ≤ fdRef f x := by
  unfold fdRef
  split <;> decide

theorem known_eq_fdRef (f : FilePtr) (x : Option FilePtr) : Ghost.known f (some x) = fdRef f x := by
  simp [Ghost.known, fdRef]

variable (owns : Owns pr g)
include owns

theorem Owns.addRef {k : ℤ} (enough : 0 ≤ g.net ip + k) : Owns pr (g.addRef ip k) := by
  refine { owns with net := fun jp => ?_ }
  rcases eq_or_ne jp ip with rfl | ne
  · rwa [Ghost.net_addRef_self]
  · rw [Ghost.net_addRef_ne ne]
    exact owns.net jp

theorem Owns.addFile {k : ℤ} (enough : 0 ≤ g.netFile f + k) : Owns pr (g.addFile f k) := by
  refine { owns with netFile := fun f' => ?_ }
  rcases eq_or_ne f' f with rfl | ne
  · rwa [Ghost.netFile_addFile_self]
  · rw [Ghost.netFile_addFile_ne ne]
    exact owns.netFile f'

theorem Owns.setCwd (cwd : pr.cwd = some ip) : Owns pr (g.setCwd (some ip)) := by
  refine { owns with
    net := fun jp => ?_, cwd := fun jp eq => cwd.trans eq, netFile := owns.netFile }
  have pos := owns.net jp
  have was := owns.cwd jp
  unfold Ghost.net Ghost.setCwd at *
  dsimp only
  rw [cwd] at was
  by_cases eq : some ip = some jp
  · rw [if_pos eq]
    by_cases known : g.cwd = some jp
    · rwa [if_pos known] at pos
    · rw [if_neg known] at pos
      omega
  · rw [if_neg eq]
    rwa [if_neg fun known => eq (was known)] at pos

theorem Owns.setChild (c : Option (P × Nat)) : Owns pr (g.setChild c) :=
  { owns with }

theorem Owns.not_embryo (alive : g.alive = true) (n : Nat) : ¬ Embryo pr n := by
  intro embryo
  have running := owns.alive alive
  rw [embryo.status] at running
  cases running

theorem Owns.not_unused (alive : g.alive = true) : pr.status ≠ .unused := by
  simp [owns.alive alive]

theorem Owns.setFd (alive : g.alive = true) (fd : Fd) (x : Option FilePtr)
    {frefs : FilePtr → ℤ} (enough : ∀ f, 0 ≤ g.netFile f - g.frefs f -
      Ghost.known f (g.ofile fd) + fdRef f x + frefs f) :
    Owns { pr with ofile := update pr.ofile fd x } { g.setFd fd x with frefs := frefs } := by
  have running := owns.alive alive
  refine ⟨owns.net, fun f => ?_, owns.cwd, fun d y known => ?_, fun _ => running,
    fun _ _ => running, fun unused => ?_, owns.ops⟩
  · have total := tally_update (Ghost.known f) g.ofile fd (some x)
    have := enough f
    have eq := known_eq_fdRef f x
    unfold Ghost.netFile at this ⊢
    change 0 ≤ tally (Ghost.known f) (update g.ofile fd (some x)) + frefs f
    omega
  · rcases eq_or_ne d fd with rfl | ne
    · simpa [Ghost.setFd] using known
    · simpa [ne] using owns.ofile d y (by simpa [Ghost.setFd, ne] using known)
  · exact absurd unused (owns.not_unused alive)

end

section

variable {P D A : Type} [Fintype P] [DecidableEq P] {s t : State P D A} {γ : P → Ghost P}
  {p q : P} {g h : Ghost P} {pr : Proc} {ip : Ip} {f : FilePtr}

/-! ## What the counts are at least -/

namespace Inv

omit [DecidableEq P] in
theorem ipRefs_nonneg (inv : Inv s γ) (ip : Ip) (p : P) : 0 ≤ ipRefs ip (pairs s γ p) :=
  ((inv.owns p).net ip).trans ((inv.owns p).le_ipRefs ip)

omit [DecidableEq P] in
theorem fdRefs_nonneg (inv : Inv s γ) (f : FilePtr) (p : P) : 0 ≤ fdRefs f (pairs s γ p) :=
  ((inv.owns p).netFile f).trans ((inv.owns p).le_fdRefs f)

omit [DecidableEq P] in
theorem net_le_ref (inv : Inv s γ) (ip : Ip) (p : P) : (γ p).net ip ≤ (s.icache ip).ref := by
  have files : 0 ≤ tally (fileRef ip) s.ftable :=
    tally_nonneg fun f => by unfold fileRef; split <;> decide
  have all := le_tally (inv.ipRefs_nonneg ip) p
  have own := (inv.owns p).le_ipRefs ip
  have := inv.refs ip
  change ipRefs ip (s.proc p, γ p) ≤ _ at all
  omega

omit [DecidableEq P] in
theorem netFile_le_ref (inv : Inv s γ) (f : FilePtr) (p : P) :
    (γ p).netFile f ≤ (s.ftable f).ref := by
  have all := le_tally (inv.fdRefs_nonneg f) p
  have own := (inv.owns p).le_fdRefs f
  rw [inv.frefs f]
  exact own.trans all

theorem not_fresh (inv : Inv s γ) (held : 1 ≤ fdRefs f (pairs s γ q)) (ne : p ≠ q) :
    (γ p).fresh f = false := by
  cases new : (γ p).fresh f with
  | false => rfl
  | true =>
    have fresh := inv.fresh p f new
    have both := add_le_tally (inv.fdRefs_nonneg f) ne
    have := inv.frefs f
    have := fresh.ref
    have := fresh.held
    omega

end Inv

/-! ## Changes -/

omit [Fintype P] in
theorem ghost_update {α : Type} (w : Ghost P → α) (same : w h = w (γ p)) (q : P) :
    w (update γ p h q) = w (γ q) := by
  rcases eq_or_ne q p with rfl | ne
  · rw [update_self, same]
  · rw [update_of_ne ne]

omit [Fintype P] in
theorem pairs_update (others : ∀ q, q ≠ p → t.proc q = s.proc q) :
    pairs t (update γ p h) = update (pairs s γ) p (t.proc p, h) := by
  funext q
  rcases eq_or_ne q p with rfl | ne
  · simp [pairs]
  · simp [pairs, ne, others q ne]

variable (inv : Inv s γ)
include inv

theorem Inv.change (others : ∀ q, q ≠ p → t.proc q = s.proc q)
    (owns : Owns (t.proc p) h)
    (refs : ∀ ip, (t.icache ip).ref + tally (fileRef ip) s.ftable + ipRefs ip (s.proc p, γ p) =
      (s.icache ip).ref + tally (fileRef ip) t.ftable + ipRefs ip (t.proc p, h))
    (frefs : ∀ f, (t.ftable f).ref + fdRefs f (s.proc p, γ p) =
      (s.ftable f).ref + fdRefs f (t.proc p, h))
    (locks : ∀ ip q, (t.icache ip).lock = some q ↔ (update γ p h q).locks ip = true)
    (used : ∀ f, (t.ftable f).type ≠ .none → 0 < (t.ftable f).ref)
    (fresh : ∀ f, h.fresh f = true → Fresh t f (t.proc p, h))
    (old : ∀ q f, q ≠ p → (γ q).fresh f = true →
      (t.ftable f).type = (s.ftable f).type ∧ (t.ftable f).ref = (s.ftable f).ref)
    (unique : ∀ ip jp, 0 < (t.icache ip).ref → 0 < (t.icache jp).ref →
      (t.icache ip).dev = (t.icache jp).dev → (t.icache ip).inum = (t.icache jp).inum → ip = jp)
    (child : h.child = (γ p).child) (embryo : ∀ n, Embryo (s.proc p) n → Embryo (t.proc p) n) :
    Inv t (update γ p h) := by
  have pairs_eq := pairs_update (γ := γ) (h := h) others
  have same_child := ghost_update (·.child) child
  refine ⟨fun q => ?_, fun ip => ?_, fun f => ?_, locks, used, fun q f new => ?_, unique, ?_, ?_⟩
  · rcases eq_or_ne q p with rfl | ne
    · simpa using owns
    · simpa [ne, others q ne] using inv.owns q
  · rw [pairs_eq, tally_update]
    have := refs ip
    have := inv.refs ip
    change _ = _ + (_ - ipRefs ip (s.proc p, γ p) + _)
    omega
  · rw [pairs_eq, tally_update]
    have := frefs f
    have := inv.frefs f
    change _ = _ - fdRefs f (s.proc p, γ p) + _
    omega
  · rw [pairs_eq]
    rcases eq_or_ne q p with rfl | ne
    · simpa using fresh f (by simpa using new)
    · have new : (γ q).fresh f = true := by simpa [ne] using new
      have was := inv.fresh q f new
      obtain ⟨type, ref⟩ := old q f ne new
      refine ⟨type.trans was.type, ref.trans was.ref, ?_⟩
      simpa [ne] using was.held
  · intro q r n at_q
    rw [same_child] at at_q
    have was := inv.child q r n at_q
    rcases eq_or_ne r p with rfl | ne
    · exact embryo n was
    · rwa [others r ne]
  · intro q q' r n n' at_q at_q'
    rw [same_child] at at_q at_q'
    exact inv.only q q' r n n' at_q at_q'

structure Alike (s t : State P D A) : Prop where
  entry : ∀ ip, (t.icache ip).dev = (s.icache ip).dev ∧ (t.icache ip).inum = (s.icache ip).inum ∧
    (t.icache ip).ref = (s.icache ip).ref ∧ (t.icache ip).lock = (s.icache ip).lock
  file : ∀ f, (t.ftable f).type = (s.ftable f).type ∧ (t.ftable f).ref = (s.ftable f).ref ∧
    (t.ftable f).ip = (s.ftable f).ip
  proc : t.proc = s.proc

omit [DecidableEq P] in
theorem Inv.alike (same : Alike s t) : Inv t γ := by
  have pairs_eq : pairs t γ = pairs s γ := by
    funext p
    simp [pairs, same.proc]
  have files : ∀ ip, tally (fileRef ip) t.ftable = tally (fileRef ip) s.ftable := by
    intro ip
    refine tally_congr fun f => ?_
    obtain ⟨type, -, at_ip⟩ := same.file f
    rw [fileRef, fileRef, type, at_ip]
  refine ⟨fun p => ?_, fun ip => ?_, fun f => ?_, fun ip p => ?_, fun f => ?_, fun p f new => ?_,
    fun ip jp => ?_, fun p q n => ?_, inv.only⟩
  · rw [same.proc]
    exact inv.owns p
  · rw [(same.entry ip).2.2.1, files, pairs_eq]
    exact inv.refs ip
  · rw [(same.file f).2.1, pairs_eq]
    exact inv.frefs f
  · rw [(same.entry ip).2.2.2]
    exact inv.locks ip p
  · rw [(same.file f).1, (same.file f).2.1]
    exact inv.used f
  · have was := inv.fresh p f new
    rw [pairs_eq]
    exact ⟨(same.file f).1.trans was.type, (same.file f).2.1.trans was.ref, was.held⟩
  · rw [(same.entry ip).1, (same.entry ip).2.1, (same.entry ip).2.2.1, (same.entry jp).1,
      (same.entry jp).2.1, (same.entry jp).2.2.1]
    exact inv.unique ip jp
  · rw [same.proc]
    exact inv.child p q n

theorem Inv.entry {x : Entry P A} {k : ℤ} (ref : x.ref = (s.icache ip).ref + k)
    (lock : x.lock = (s.icache ip).lock) (enough : 0 ≤ (γ p).net ip + k)
    (unique : ∀ jp, jp ≠ ip → 0 < x.ref → 0 < (s.icache jp).ref → x.dev = (s.icache jp).dev →
      x.inum ≠ (s.icache jp).inum) :
    Inv (s.setEntry ip x) (update γ p ((γ p).addRef ip k)) := by
  refine inv.change (fun _ _ => rfl) ((inv.owns p).addRef enough) (fun jp => ?_) (fun f => rfl)
    (fun jp q => ?_) inv.used (fun f new => ?_) (fun q f _ _ => ⟨rfl, rfl⟩)
    (fun jp jp' => ?_) rfl fun n => id
  · rw [State.setEntry_proc, ipRefs_addRef]
    rcases eq_or_ne jp ip with rfl | ne
    · simp [ref]
      omega
    · simp [ne, State.setEntry_icache_ne]
  · have same : ((s.setEntry ip x).icache jp).lock = (s.icache jp).lock := by
      rcases eq_or_ne jp ip with rfl | ne
      · simp [lock]
      · simp [ne, State.setEntry_icache_ne]
    rw [same, inv.locks jp q, ghost_update (h := (γ p).addRef ip k) (·.locks jp) rfl]
  · have was := inv.fresh p f new
    exact ⟨was.type, was.ref, was.held⟩
  · rcases eq_or_ne jp ip with rfl | ne
    · rcases eq_or_ne jp' jp with rfl | ne'
      · exact fun _ _ _ _ => rfl
      · rw [State.setEntry_icache_self, State.setEntry_icache_ne _ _ ne']
        exact fun pos pos' dev inum => absurd inum (unique jp' ne' pos pos' dev)
    · rw [State.setEntry_icache_ne _ _ ne]
      rcases eq_or_ne jp' ip with rfl | ne'
      · rw [State.setEntry_icache_self]
        exact fun pos pos' dev inum => absurd inum.symm (unique jp ne pos' pos dev.symm)
      · rw [State.setEntry_icache_ne _ _ ne']
        exact inv.unique jp jp'

theorem Inv.lock {l : Option P} {b : Bool}
    (owner : ∀ q, l = some q ↔ (update γ p ((γ p).setLock ip b) q).locks ip = true) :
    Inv (s.setEntry ip { s.icache ip with lock := l }) (update γ p ((γ p).setLock ip b)) := by
  have same : ∀ jp, ((s.setEntry ip { s.icache ip with lock := l }).icache jp).dev =
        (s.icache jp).dev ∧
      ((s.setEntry ip { s.icache ip with lock := l }).icache jp).inum = (s.icache jp).inum ∧
      ((s.setEntry ip { s.icache ip with lock := l }).icache jp).ref = (s.icache jp).ref := by
    intro jp
    rcases eq_or_ne jp ip with rfl | ne
    · simp
    · simp [ne, State.setEntry_icache_ne]
  refine inv.change (fun _ _ => rfl) { inv.owns p with } (fun jp => ?_) (fun f => rfl)
    (fun jp q => ?_) inv.used (fun f new => ?_) (fun q f _ _ => ⟨rfl, rfl⟩)
    (fun jp jp' => ?_) rfl fun n => id
  · rw [(same jp).2.2]
    rfl
  · rcases eq_or_ne jp ip with rfl | ne
    · rw [State.setEntry_icache_self]
      exact owner q
    · rw [State.setEntry_icache_ne _ _ ne, inv.locks jp q,
        ghost_update (·.locks jp) (Ghost.locks_setLock_ne ne b)]
  · have was := inv.fresh p f new
    exact ⟨was.type, was.ref, was.held⟩
  · rw [(same jp).1, (same jp).2.1, (same jp).2.2, (same jp').1, (same jp').2.1, (same jp').2.2]
    exact inv.unique jp jp'

/-- A file changes, with the references to it and to its inode.  `h` differs from the ghost of the
process in these references and in whether the file is new. -/
theorem Inv.file {x : File} {k : ℤ} (owns : Owns (s.proc p) h)
    (ref : x.ref = (s.ftable f).ref + k) (used : x.type ≠ .none → 0 < x.ref)
    (frefs : ∀ f', h.frefs f' = (γ p).frefs f' + if f' = f then k else 0)
    (refs : ∀ ip, fileRef ip x + h.refs ip = fileRef ip (s.ftable f) + (γ p).refs ip)
    (locks : h.locks = (γ p).locks) (child : h.child = (γ p).child)
    (new : h.fresh f = true → Fresh (s.setFile f x) f (s.proc p, h))
    (old : ∀ f', f' ≠ f → h.fresh f' = (γ p).fresh f')
    (others : ∀ q, q ≠ p → (γ q).fresh f = false) :
    Inv (s.setFile f x) (update γ p h) := by
  have fd : ∀ f',
      fdRefs f' (s.proc p, h) = fdRefs f' (s.proc p, γ p) + if f' = f then k else 0 := by
    intro f'
    unfold fdRefs
    dsimp only
    rw [frefs f', add_assoc]
  refine inv.change (fun _ _ => rfl) owns (fun ip => ?_) (fun f' => ?_) (fun ip q => ?_)
    (fun f' type => ?_) (fun f' fresh => ?_) (fun q f' ne fresh => ?_) inv.unique child fun n => id
  · have total := tally_update (fileRef ip) s.ftable f x
    have own : ipRefs ip (s.proc p, h) + (γ p).refs ip = ipRefs ip (s.proc p, γ p) + h.refs ip := by
      exact add_right_comm _ _ _
    have := refs ip
    change (s.icache ip).ref + _ + _ = (s.icache ip).ref +
      tally (fileRef ip) (update s.ftable f x) + ipRefs ip (s.proc p, h)
    omega
  · rw [State.setFile_proc, fd]
    rcases eq_or_ne f' f with rfl | ne
    · simp [ref]
      omega
    · simp [ne, State.setFile_ftable_ne]
  · rw [State.setFile_icache, inv.locks ip q, ghost_update (·.locks ip) (by rw [locks])]
  · rcases eq_or_ne f' f with rfl | ne
    · rw [State.setFile_ftable_self] at type ⊢
      exact used type
    · rw [State.setFile_ftable_ne _ _ ne] at type ⊢
      exact inv.used f' type
  · rcases eq_or_ne f' f with rfl | ne
    · exact new fresh
    · have was := inv.fresh p f' ((old f' ne).symm.trans fresh)
      refine ⟨?_, ?_, ?_⟩
      · rw [State.setFile_ftable_ne _ _ ne]
        exact was.type
      · rw [State.setFile_ftable_ne _ _ ne]
        exact was.ref
      · rw [State.setFile_proc, fd, if_neg ne, add_zero]
        exact was.held
  · have ne : f' ≠ f := by
      rintro rfl
      simp [others q ne] at fresh
    rw [State.setFile_ftable_ne _ _ ne]
    exact ⟨rfl, rfl⟩

theorem Inv.own {z : Proc} (icache : t.icache = s.icache) (ftable : t.ftable = s.ftable)
    (proc : t.proc = update s.proc p z) (owns : Owns z h)
    (refs : ∀ ip, ipRefs ip (z, h) = ipRefs ip (s.proc p, γ p))
    (frefs : ∀ f, fdRefs f (z, h) = fdRefs f (s.proc p, γ p)) (locks : h.locks = (γ p).locks)
    (fresh : h.fresh = (γ p).fresh) (child : h.child = (γ p).child)
    (embryo : ∀ n, Embryo (s.proc p) n → Embryo z n) : Inv t (update γ p h) := by
  have self : t.proc p = z := by simp [proc]
  refine inv.change (fun q ne => by simp [proc, ne]) (by rwa [self]) (fun ip => ?_) (fun f => ?_)
    (fun ip q => ?_) (by rw [ftable]; exact inv.used) (fun f new => ?_)
    (fun q f _ _ => by simp [ftable]) (by rw [icache]; exact inv.unique) child (by rwa [self])
  · rw [icache, ftable, self, refs]
  · rw [ftable, self, frefs]
  · rw [icache, inv.locks ip q, ghost_update (·.locks ip) (by rw [locks])]
  · have was := inv.fresh p f (by rwa [fresh] at new)
    rw [self]
    refine ⟨by rw [ftable]; exact was.type, by rw [ftable]; exact was.ref, ?_⟩
    rw [frefs]
    exact was.held

theorem Inv.setFd (alive : (γ p).alive = true) (fd : Fd) (x : Option FilePtr) (h : Ghost P)
    (eq : h = { (γ p).setFd fd x with frefs := h.frefs })
    (moved : ∀ f, h.frefs f + fdRef f x = (γ p).frefs f + fdRef f ((s.proc p).ofile fd)) :
    Inv (s.setProc p { s.proc p with ofile := update (s.proc p).ofile fd x })
      (update γ p h) := by
  have owns := inv.owns p
  rw [eq]
  refine inv.own rfl rfl rfl (owns.setFd alive fd x fun f => ?_) (fun ip => rfl) (fun f => ?_) rfl
    rfl rfl fun n embryo => absurd embryo (owns.not_embryo alive n)
  · have := moved f
    have := owns.known_le f fd
    have := owns.netFile f
    omega
  · have total := tally_update (fdRef f) (s.proc p).ofile fd x
    have := moved f
    change tally (fdRef f) (update (s.proc p).ofile fd x) + h.frefs f =
      tally (fdRef f) (s.proc p).ofile + (γ p).frefs f
    omega

/-! ## The steps -/

theorem Inv.iget {dev inum : Nat} (ran : State.iget dev inum s = .ok (ip, t)) :
    0 ≤ (γ p).net ip ∧ Inv t (update γ p ((γ p).addRef ip 1)) := by
  have pos := (inv.owns p).net ip
  refine ⟨pos, ?_⟩
  unfold State.iget at ran
  split at ran
  · rename_i found
    cases ran
    have live : 0 < (s.icache ip).ref := by
      have := List.find?_some found
      simp only [decide_eq_true_eq] at this
      exact this.1
    refine inv.entry rfl rfl (by omega) fun jp ne _ pos' dev inum => ne ?_
    exact inv.unique jp ip pos' live dev.symm inum.symm
  · rename_i absent
    split at ran
    · rename_i found
      cases ran
      have free : (s.icache ip).ref = 0 := by simpa using List.find?_some found
      refine inv.entry (by simp [free]) rfl (by omega) fun jp _ _ pos' dev inum => ?_
      have := List.find?_eq_none.mp absent jp (List.mem_finRange jp)
      simp only [decide_eq_true_eq] at this
      exact this ⟨pos', dev.symm, inum.symm⟩
    · cases ran

theorem Inv.idup (live : 0 < (s.icache ip).ref) :
    Inv (s.setEntry ip { s.icache ip with ref := (s.icache ip).ref + 1 })
      (update γ p ((γ p).addRef ip 1)) := by
  have pos := (inv.owns p).net ip
  refine inv.entry rfl rfl (by omega) fun jp ne _ pos' dev inum => ne ?_
  exact inv.unique jp ip pos' live dev.symm inum.symm

omit [DecidableEq P] in
theorem Inv.cwd_live (unknown : (γ p).cwd = none) (cwd : (s.proc p).cwd = some ip) :
    0 < (s.icache ip).ref := by
  have files : 0 ≤ tally (fileRef ip) s.ftable :=
    tally_nonneg fun f => by unfold fileRef; split <;> decide
  have all := le_tally (inv.ipRefs_nonneg ip) p
  have pos : 0 ≤ (γ p).refs ip := by simpa [Ghost.net, unknown] using (inv.owns p).net ip
  have own : ipRefs ip (pairs s γ p) = 1 + (γ p).refs ip := by simp [ipRefs, pairs, cwd]
  have := inv.refs ip
  omega

theorem Inv.unref (held : 1 ≤ (γ p).net ip) :
    Inv (s.setEntry ip { s.icache ip with ref := (s.icache ip).ref - 1 })
      (update γ p ((γ p).addRef ip (-1))) := by
  have live := inv.net_le_ref ip p
  refine inv.entry rfl rfl (by omega) fun jp ne _ pos' dev inum => ne ?_
  exact inv.unique jp ip pos' (by omega) dev.symm inum.symm

theorem Inv.acquiresleep (ran : State.acquiresleep p ip s = .ok ((), t)) :
    (γ p).locks ip = false ∧ Inv t (update γ p ((γ p).setLock ip true)) := by
  unfold State.acquiresleep at ran
  split at ran
  · rename_i free
    have unlocked : ∀ q, (γ q).locks ip = false := by
      intro q
      have := inv.locks ip q
      rw [free] at this
      simpa using this
    cases ran
    refine ⟨unlocked p, inv.lock fun q => ?_⟩
    rcases eq_or_ne q p with rfl | ne
    · simp
    · simp [ne, ne.symm, unlocked q]
  · cases ran

theorem Inv.releasesleep (held : (γ p).locks ip = true) :
    Inv (s.setEntry ip { s.icache ip with lock := none })
      (update γ p ((γ p).setLock ip false)) := by
  have owner := (inv.locks ip p).mpr held
  refine inv.lock fun q => ?_
  rcases eq_or_ne q p with rfl | ne
  · simp
  · have := inv.locks ip q
    rw [owner] at this
    simpa [ne, ne.symm] using this

theorem Inv.iunlock (ran : State.iunlock p ip s = .ok ((), t)) :
    (γ p).locks ip = true ∧ Inv t (update γ p ((γ p).setLock ip false)) := by
  unfold State.iunlock at ran
  split at ran
  · cases ran
  · rename_i holding
    push Not at holding
    have held := (inv.locks ip p).mp holding.1
    cases ran
    exact ⟨held, inv.releasesleep held⟩

theorem Inv.ofile (alive : (γ p).alive = true) (fd : Fd) :
    Inv s (update γ p ((γ p).setFd fd ((s.proc p).ofile fd))) := by
  have same : s.setProc p { s.proc p with
      ofile := update (s.proc p).ofile fd ((s.proc p).ofile fd) } = s := by
    simp [State.setProc]
  have kept := inv.setFd alive fd ((s.proc p).ofile fd) ((γ p).setFd fd ((s.proc p).ofile fd)) rfl
    fun f => rfl
  rwa [same] at kept

theorem Inv.closeFd (alive : (γ p).alive = true) {fd : Fd}
    (known : (γ p).ofile fd = some (some f)) :
    Inv (s.setProc p { s.proc p with ofile := update (s.proc p).ofile fd none })
      (update γ p (((γ p).setFd fd none).addFile f 1)) := by
  refine inv.setFd alive fd none _ rfl fun f' => ?_
  rw [(inv.owns p).ofile fd _ known, frefs_addFile]
  simp [fdRef, Ghost.setFd, eq_comm]

theorem Inv.fdalloc (alive : (γ p).alive = true) {fd : Fd} (free : (s.proc p).ofile fd = none)
    (f : FilePtr) :
    (∀ f, (γ p).ofile fd ≠ some (some f)) ∧
    Inv (s.setProc p { s.proc p with ofile := update (s.proc p).ofile fd (some f) })
      (update γ p (((γ p).setFd fd (some f)).addFile f (-1))) := by
  have owns := inv.owns p
  refine ⟨fun f' known => ?_, ?_⟩
  · rw [owns.ofile fd _ known] at free
    cases free
  refine inv.setFd alive fd (some f) _ rfl fun f' => ?_
  rw [free, frefs_addFile]
  by_cases eq : f' = f
  · simp [fdRef, Ghost.setFd, eq]
  · simp [fdRef, Ghost.setFd, eq, Ne.symm eq]

theorem Inv.cwd (cwd : (s.proc p).cwd = some ip) : Inv s (update γ p ((γ p).setCwd (some ip))) :=
  inv.own rfl rfl (update_eq_self p s.proc).symm ((inv.owns p).setCwd cwd) (fun _ => rfl)
    (fun _ => rfl) rfl rfl rfl fun _ => id

theorem Inv.chdir (alive : (γ p).alive = true) (held : 1 ≤ (γ p).net ip) {old : Ip}
    (known : (γ p).cwd = some old) :
    Inv (s.setProc p { s.proc p with cwd := some ip })
      (update γ p ((((γ p).addRef ip (-1)).addRef old 1).setCwd (some ip))) := by
  have owns := inv.owns p
  have cwd := owns.cwd old known
  have running := owns.alive alive
  -- the references of the process are the same as before
  have same : ∀ jp, (if some ip = some jp then 1 else 0) +
      (((γ p).addRef ip (-1)).addRef old 1).refs jp =
      (if some old = some jp then 1 else 0) + (γ p).refs jp := by
    intro jp
    rcases eq_or_ne jp ip with rfl | ne
    · rcases eq_or_ne jp old with rfl | ne'
      · simp [Ghost.addRef]
      · simp [Ghost.addRef, ne', ne'.symm]
    · rcases eq_or_ne jp old with rfl | ne'
      · simp [Ghost.addRef, ne, ne.symm, add_comm]
      · simp [Ghost.addRef, ne, ne', ne.symm, ne'.symm]
  refine inv.own rfl rfl rfl ⟨fun jp => ?_, owns.netFile, fun jp eq => eq, owns.ofile,
    fun _ => running, owns.closed, fun unused => ?_, owns.ops⟩ (fun jp => ?_) (fun f => rfl) rfl rfl
    rfl fun n embryo => absurd embryo (owns.not_embryo alive n)
  · have pos := owns.net jp
    unfold Ghost.net at pos
    rw [known, ← same] at pos
    exact pos
  · exact absurd unused (owns.not_unused alive)
  · unfold ipRefs
    dsimp only
    rw [cwd]
    exact same jp

theorem Inv.exit (alive : (γ p).alive = true) (closed : ∀ fd, (γ p).ofile fd = some none) {old : Ip}
    (known : (γ p).cwd = some old) :
    Inv (s.setProc p { s.proc p with cwd := none, status := .unused })
      (update γ p ((γ p).addRef old 1).gone) := by
  have owns := inv.owns p
  have cwd := owns.cwd old known
  have same : ∀ jp, ((γ p).addRef old 1).refs jp =
      (if some old = some jp then 1 else 0) + (γ p).refs jp := by
    intro jp
    rcases eq_or_ne jp old with rfl | ne
    · simp [Ghost.addRef, add_comm]
    · simp [Ghost.addRef, ne, ne.symm]
  refine inv.own rfl rfl rfl ⟨fun jp => ?_, fun f => ?_, fun jp eq => (by cases eq),
    fun fd x eq => (by cases eq), fun alive => (by cases alive), fun fd eq => (by cases eq),
    fun _ => ⟨rfl, fun fd => owns.ofile fd _ (closed fd)⟩, owns.ops⟩ (fun jp => ?_) (fun f => rfl)
    rfl rfl rfl fun n embryo => absurd embryo (owns.not_embryo alive n)
  · have pos := owns.net jp
    unfold Ghost.net at pos
    rw [known, ← same] at pos
    simpa [Ghost.net, Ghost.gone] using pos
  · have pos := owns.netFile f
    have zero : tally (Ghost.known f) (γ p).ofile = 0 :=
      tally_eq_zero fun fd => by rw [closed fd]; rfl
    have zero' : tally (Ghost.known f) ((γ p).addRef old 1).gone.ofile = 0 :=
      tally_eq_zero fun fd => rfl
    unfold Ghost.netFile at pos ⊢
    rw [zero] at pos
    rw [zero']
    exact pos
  · have none : (if (none : Option Ip) = some jp then 1 else 0 : ℤ) = 0 := rfl
    unfold ipRefs
    dsimp only
    rw [cwd, none, zero_add]
    exact same jp

theorem Inv.filealloc (free : (s.ftable f).ref = 0) :
    (γ p).fresh f = false ∧ Inv (s.setFile f { s.ftable f with ref := 1 })
      (update γ p (((γ p).addFile f 1).setFresh f true)) := by
  have old : ∀ q, (γ q).fresh f = false := by
    intro q
    cases new : (γ q).fresh f with
    | false => rfl
    | true =>
      have := (inv.fresh q f new).ref
      omega
  have type : (s.ftable f).type = .none := by
    by_contra used
    have := inv.used f used
    omega
  have own := inv.fdRefs_nonneg f p
  refine ⟨old p,
    inv.file (k := 1) ?_ (by simp [free]) (by simp) (fun f' => ?_) (fun ip => rfl) rfl rfl
    (fun _ => ?_) (fun f' ne => ?_) fun q _ => old q⟩
  · refine { (inv.owns p).addFile (f := f) (k := 1) ?_ with }
    have := (inv.owns p).netFile f
    omega
  · exact frefs_addFile ..
  · refine ⟨by simp [type], by simp, ?_⟩
    change 1 ≤ fdRefs f (s.proc p, (γ p).addFile f 1)
    rw [fdRefs_addFile, if_pos rfl]
    change 0 ≤ fdRefs f (s.proc p, γ p) at own
    omega
  · simp [Ghost.setFresh, ne, Ghost.addFile]

theorem Inv.others_old (held : 1 ≤ (γ p).netFile f) (q : P) (ne : q ≠ p) : (γ q).fresh f = false :=
  inv.not_fresh (held.trans ((inv.owns p).le_fdRefs f)) ne

theorem Inv.filedup (held : 1 ≤ (γ p).netFile f) (old : (γ p).fresh f = false) :
    Inv (s.setFile f { s.ftable f with ref := (s.ftable f).ref + 1 })
      (update γ p ((γ p).addFile f 1)) := by
  have live := inv.netFile_le_ref f p
  refine inv.file (k := 1) ((inv.owns p).addFile (by omega)) rfl (fun _ => ?_) (fun f' => ?_)
    (fun ip => rfl) rfl rfl (fun new => ?_) (fun f' ne => rfl) (inv.others_old held)
  · dsimp only
    omega
  · exact frefs_addFile ..
  · change (γ p).fresh f = true at new
    rw [old] at new
    cases new

theorem Inv.filedrop (held : 1 ≤ (γ p).netFile f) (more : 0 < (s.ftable f).ref - 1) :
    (γ p).fresh f = false ∧ Inv (s.setFile f { s.ftable f with ref := (s.ftable f).ref - 1 })
      (update γ p ((γ p).addFile f (-1))) := by
  have old : (γ p).fresh f = false := by
    cases new : (γ p).fresh f with
    | false => rfl
    | true =>
      have := (inv.fresh p f new).ref
      omega
  refine ⟨old,
    inv.file (k := -1) ((inv.owns p).addFile (by omega)) rfl (fun _ => more) (fun f' => ?_)
    (fun ip => rfl) rfl rfl (fun new => ?_) (fun f' ne => rfl) (inv.others_old held)⟩
  · exact frefs_addFile ..
  · change (γ p).fresh f = true at new
    rw [old] at new
    cases new

/-- The last reference to a file is dropped: the process holds the file's reference to its inode. -/
theorem Inv.filedrop_last (held : 1 ≤ (γ p).netFile f) (last : ¬ 0 < (s.ftable f).ref - 1) :
    Inv (s.setFile f { s.ftable f with ref := 0, type := .none })
      (update γ p (((if (s.ftable f).type = .inode then (γ p).addRef (s.ftable f).ip 1
        else γ p).addFile f (-1)).setFresh f false)) := by
  have live := inv.netFile_le_ref f p
  have owns : Owns (s.proc p) (if (s.ftable f).type = .inode then (γ p).addRef (s.ftable f).ip 1
      else γ p) := by
    split
    · have := (inv.owns p).net (s.ftable f).ip
      exact (inv.owns p).addRef (by omega)
    · exact inv.owns p
  have file : (if (s.ftable f).type = .inode then (γ p).addRef (s.ftable f).ip 1
      else γ p).frefs = (γ p).frefs := by split <;> rfl
  have net : (if (s.ftable f).type = .inode then (γ p).addRef (s.ftable f).ip 1
      else γ p).netFile f = (γ p).netFile f := by split <;> rfl
  refine inv.file (k := -1) ?_ ?_ (by simp) (fun f' => ?_) (fun ip => ?_) (by split <;> rfl)
    (by split <;> rfl) (fun new => ?_) (fun f' ne => ?_) (inv.others_old held)
  · exact { owns.addFile (f := f) (k := -1) (by rw [net]; omega) with }
  · dsimp only
    omega
  · change update _ f _ f' = _
    rw [file]
    rcases eq_or_ne f' f with rfl | ne
    · simp
    · simp [ne]
  · change 0 +
      (if (s.ftable f).type = .inode then (γ p).addRef (s.ftable f).ip 1 else γ p).refs ip = _
    unfold fileRef
    by_cases inode : (s.ftable f).type = .inode
    · rcases eq_or_ne (s.ftable f).ip ip with rfl | ne
      · simp [inode, Ghost.addRef, add_comm]
      · simp [inode, Ghost.addRef, ne, ne.symm]
    · simp [inode]
  · simp [Ghost.setFresh] at new
  · simp only [Ghost.setFresh, update_of_ne ne]
    split <;> rfl

theorem Inv.openFile (new : (γ p).fresh f = true) (held : 1 ≤ (γ p).net ip) {x : File}
    (ref : x.ref = (s.ftable f).ref) (type : x.type = .inode) (at_ip : x.ip = ip) :
    Inv (s.setFile f x) (update γ p (((γ p).addRef ip (-1)).setFresh f false)) := by
  have fresh := inv.fresh p f new
  refine inv.file (k := 0) ?_ (by omega) (fun _ => ?_) (fun f' => ?_) (fun jp => ?_) rfl rfl
    (fun new => ?_) (fun f' ne => ?_) fun q ne => inv.not_fresh fresh.held ne
  · exact { (inv.owns p).addRef (k := -1) (by omega) with }
  · rw [ref, fresh.ref]
    decide
  · split <;> exact (add_zero _).symm
  · have none : fileRef jp (s.ftable f) = 0 := by simp [fileRef, fresh.type]
    rw [none]
    unfold fileRef
    rcases eq_or_ne jp ip with rfl | ne
    · simp [type, at_ip, Ghost.addRef, Ghost.setFresh]
    · simp [type, at_ip, Ghost.addRef, Ghost.setFresh, ne, ne.symm]
  · simp [Ghost.setFresh] at new
  · simp [Ghost.setFresh, ne, Ghost.addRef]

theorem Inv.openPipe (new : (γ p).fresh f = true) {x : File} (ref : x.ref = (s.ftable f).ref)
    (type : x.type = .pipe) : Inv (s.setFile f x) (update γ p ((γ p).setFresh f false)) := by
  have fresh := inv.fresh p f new
  refine inv.file (k := 0) { inv.owns p with } (by omega) (fun _ => ?_) (fun f' => ?_)
    (fun jp => ?_) rfl
    rfl (fun new => ?_) (fun f' ne => ?_) fun q ne => inv.not_fresh fresh.held ne
  · rw [ref, fresh.ref]
    decide
  · split <;> exact (add_zero _).symm
  · simp [fileRef, fresh.type, type, Ghost.setFresh]
  · simp [Ghost.setFresh] at new
  · simp [Ghost.setFresh, ne]

theorem Inv.spawn {z : Proc} {c : Option (P × Nat)}
    (proc : t.proc = update s.proc q z) (owns : Owns z (γ q))
    (refs : ∀ ip, (t.icache ip).ref + (if (s.proc q).cwd = some ip then 1 else 0) =
      (s.icache ip).ref + if z.cwd = some ip then 1 else 0)
    (frefs : ∀ f, (t.ftable f).ref + tally (fdRef f) (s.proc q).ofile =
      (s.ftable f).ref + tally (fdRef f) z.ofile)
    (more : ∀ f, tally (fdRef f) (s.proc q).ofile ≤ tally (fdRef f) z.ofile)
    (entries : ∀ ip, (t.icache ip).dev = (s.icache ip).dev ∧
      (t.icache ip).inum = (s.icache ip).inum ∧ (t.icache ip).lock = (s.icache ip).lock ∧
      (0 < (t.icache ip).ref → 0 < (s.icache ip).ref))
    (files : ∀ f, (t.ftable f).type = (s.ftable f).type ∧ (t.ftable f).ip = (s.ftable f).ip)
    (fresh : ∀ r f, (γ r).fresh f = true → (t.ftable f).ref = (s.ftable f).ref)
    (child : ∀ r n, c = some (r, n) → Embryo (t.proc r) n ∧
      ∀ p' n', p' ≠ p → (γ p').child ≠ some (r, n'))
    (rest : ∀ p' n, p' ≠ p → (γ p').child ≠ some (q, n)) :
    Inv t (update γ p ((γ p).setChild c)) := by
  have self : t.proc q = z := by simp [proc]
  have others : ∀ r, r ≠ q → t.proc r = s.proc r := fun r ne => by simp [proc, ne]
  -- the parent's new ghost weighs as much as its old one
  have weigh : ∀ (w : Proc × Ghost P → ℤ), (∀ pr g c, w (pr, Ghost.setChild g c) = w (pr, g)) →
      tally w (pairs t (update γ p ((γ p).setChild c))) =
        tally w (pairs s γ) - w (s.proc q, γ q) + w (z, γ q) := by
    intro w same
    refine Eq.trans (tally_congr fun r => ?_) (tally_update w (pairs s γ) q (z, γ q))
    have ghost : w (t.proc r, update γ p ((γ p).setChild c) r) = w (t.proc r, γ r) := by
      rcases eq_or_ne r p with rfl | ne
      · simp [same]
      · simp [ne]
    change w (t.proc r, update γ p ((γ p).setChild c) r) = _
    rw [ghost]
    rcases eq_or_ne r q with rfl | ne
    · simp [self]
    · simp [ne, others r ne, pairs]
  have owns' : ∀ r, Owns (t.proc r) (γ r) := by
    intro r
    rcases eq_or_ne r q with rfl | ne
    · rwa [self]
    · rw [others r ne]
      exact inv.owns r
  have nonneg : ∀ f, (s.ftable f).ref ≤ (t.ftable f).ref := by
    intro f
    have := frefs f
    have := more f
    omega
  refine ⟨fun r => ?_, fun ip => ?_, fun f => ?_, fun ip r => ?_, fun f type => ?_,
    fun r f new => ?_, fun ip jp pos pos' => ?_, fun r r' n at_r => ?_,
    fun r r' x n n' at_r at_r' => ?_⟩
  · rcases eq_or_ne r p with rfl | ne
    · simpa using (owns' r).setChild c
    · simpa [ne] using owns' r
  · have file : tally (fileRef ip) t.ftable = tally (fileRef ip) s.ftable := by
      refine tally_congr fun f => ?_
      rw [fileRef, fileRef, (files f).1, (files f).2]
    rw [weigh (ipRefs ip) fun _ _ _ => rfl, file]
    have := refs ip
    have := inv.refs ip
    unfold ipRefs at *
    dsimp only
    omega
  · rw [weigh (fdRefs f) fun _ _ _ => rfl]
    have := frefs f
    have := inv.frefs f
    have old : fdRefs f (s.proc q, γ q) = tally (fdRef f) (s.proc q).ofile + (γ q).frefs f := rfl
    have new : fdRefs f (z, γ q) = tally (fdRef f) z.ofile + (γ q).frefs f := rfl
    omega
  · rw [(entries ip).2.2.1, inv.locks ip r]
    rcases eq_or_ne r p with rfl | ne
    · simp [Ghost.setChild]
    · simp [ne]
  · rw [(files f).1] at type
    exact (inv.used f type).trans_le (nonneg f)
  · have new : (γ r).fresh f = true := by
      rcases eq_or_ne r p with rfl | ne
      · simpa [Ghost.setChild] using new
      · simpa [ne] using new
    have was := inv.fresh r f new
    refine ⟨(files f).1.trans was.type, (fresh r f new).trans was.ref, was.held.trans ?_⟩
    have ghost : fdRefs f (pairs t (update γ p ((γ p).setChild c)) r) =
        tally (fdRef f) (t.proc r).ofile + (γ r).frefs f := by
      rcases eq_or_ne r p with rfl | ne
      · simp [pairs, fdRefs, Ghost.setChild]
      · simp [pairs, fdRefs, ne]
    rw [ghost]
    rcases eq_or_ne r q with rfl | ne
    · rw [self]
      exact add_le_add_left (more f) _
    · rw [others r ne]
      exact le_rfl
  · rw [(entries ip).1, (entries ip).2.1, (entries jp).1, (entries jp).2.1]
    exact inv.unique ip jp ((entries ip).2.2.2 pos) ((entries jp).2.2.2 pos')
  · rcases eq_or_ne r p with rfl | ne
    · exact (child r' n (by simpa [Ghost.setChild] using at_r)).1
    · have at_r : (γ r).child = some (r', n) := by simpa [ne] using at_r
      have ne' : r' ≠ q := by
        rintro rfl
        exact rest r n ne at_r
      rw [others r' ne']
      exact inv.child r r' n at_r
  · rcases eq_or_ne r p with rfl | ne
    · have mine : c = some (x, n) := by simpa [Ghost.setChild] using at_r
      by_contra ne
      have at_r' : (γ r').child = some (x, n') := by simpa [Ne.symm ne] using at_r'
      exact (child x n mine).2 r' n' (Ne.symm ne) at_r'
    · have theirs : (γ r).child = some (x, n) := by simpa [ne] using at_r
      rcases eq_or_ne r' p with rfl | ne'
      · have mine : c = some (x, n') := by simpa [Ghost.setChild] using at_r'
        exact absurd theirs ((child x n' mine).2 r n ne)
      · exact inv.only r r' x n n' theirs (by simpa [ne'] using at_r')

theorem Inv.allocproc (unused : (s.proc q).status = .unused) :
    Inv (s.setProc q { s.proc q with status := .embryo })
      (update γ p ((γ p).setChild (some (q, 0)))) := by
  have owns := inv.owns q
  obtain ⟨cwd, closed⟩ := owns.unused unused
  have unclaimed : ∀ p' n, (γ p').child ≠ some (q, n) := by
    intro p' n at_p
    have := (inv.child p' q n at_p).status
    rw [unused] at this
    cases this
  refine inv.spawn rfl ⟨owns.net, owns.netFile, owns.cwd, owns.ofile, fun alive => ?_,
    fun fd known => ?_, fun unused => ?_, owns.ops⟩ (fun ip => rfl) (fun f => rfl) (fun f => le_rfl)
    (fun ip => ⟨rfl, rfl, rfl, id⟩) (fun f => ⟨rfl, rfl⟩) (fun r f _ => rfl) (fun r n eq => ?_)
    fun p' n _ => unclaimed p' n
  · have := owns.alive alive
    rw [unused] at this
    cases this
  · have := owns.closed fd known
    rw [unused] at this
    cases this
  · cases unused
  · cases eq
    rw [State.setProc_proc_self]
    exact ⟨⟨rfl, cwd, fun fd _ => closed fd⟩, fun p' n' _ => unclaimed p' n'⟩

theorem Inv.forkFd_closed {fd : Fd} (mine : (γ p).child = some (q, fd.val)) :
    Inv s (update γ p ((γ p).setChild (some (q, fd.val + 1)))) := by
  have embryo := inv.child p q _ mine
  have only : ∀ p' n, p' ≠ p → (γ p').child ≠ some (q, n) :=
    fun p' n ne at_p => ne (inv.only p' p q n _ at_p mine)
  refine inv.spawn (update_eq_self q s.proc).symm (inv.owns q) (fun ip => rfl) (fun f => rfl)
    (fun f => le_rfl) (fun ip => ⟨rfl, rfl, rfl, id⟩) (fun f => ⟨rfl, rfl⟩) (fun r f _ => rfl)
    (fun r n eq => ?_) only
  cases eq
  exact ⟨⟨embryo.status, embryo.cwd, fun d le => embryo.ofile d (by omega)⟩,
    fun p' n' ne => only p' n' ne⟩

theorem Inv.forkFd {fd : Fd} (mine : (γ p).child = some (q, fd.val)) (none_held : (γ p).frefs = 0)
    (old : (γ p).fresh = fun _ => false) (at_fd : (s.proc p).ofile fd = some f) :
    Inv ((s.setFile f { s.ftable f with ref := (s.ftable f).ref + 1 }).setProc q
        { s.proc q with ofile := update (s.proc q).ofile fd (some f) })
      (update γ p ((γ p).setChild (some (q, fd.val + 1)))) := by
  have owns := inv.owns q
  have embryo := inv.child p q _ mine
  have only : ∀ p' n, p' ≠ p → (γ p').child ≠ some (q, n) :=
    fun p' n ne at_p => ne (inv.only p' p q n _ at_p mine)
  have free := embryo.ofile fd le_rfl
  have none : ∀ f', fdRef f' none = 0 := fun _ => rfl
  have total : ∀ f', tally (fdRef f') (update (s.proc q).ofile fd (some f)) =
      tally (fdRef f') (s.proc q).ofile + fdRef f' (some f) := by
    intro f'
    rw [tally_update, free, none, sub_zero]
  -- the parent's own descriptor keeps the file from being new
  have held : 1 ≤ fdRefs f (pairs s γ p) := by
    have le := le_tally (fun d => fdRef_nonneg f ((s.proc p).ofile d)) fd
    rw [at_fd, fdRef, if_pos rfl] at le
    simpa [fdRefs, pairs, none_held] using le
  have not_new : ∀ r, (γ r).fresh f = false := by
    intro r
    rcases eq_or_ne r p with rfl | ne
    · rw [old]
    · exact inv.not_fresh held ne
  refine inv.spawn rfl
    ⟨owns.net, owns.netFile, owns.cwd, fun d x known => ?_, owns.alive, owns.closed,
    fun unused => ?_, owns.ops⟩ (fun ip => rfl) (fun f' => ?_) (fun f' => ?_)
    (fun ip => ⟨rfl, rfl, rfl, id⟩) (fun f' => ?_) (fun r f' new => ?_) (fun r n eq => ?_) only
  · have was := owns.ofile d x known
    rcases eq_or_ne d fd with rfl | ne
    · rw [free] at was
      rw [← was] at known
      have running := owns.closed d known
      rw [embryo.status] at running
      cases running
    · simpa [ne] using was
  · change (s.proc q).status = .unused at unused
    rw [embryo.status] at unused
    cases unused
  · dsimp only
    rw [total, State.setProc_ftable]
    rcases eq_or_ne f' f with rfl | ne
    · simp [fdRef]
      omega
    · simp [State.setFile_ftable_ne, ne, fdRef, ne.symm]
  · dsimp only
    have := fdRef_nonneg f' (some f)
    rw [total]
    omega
  · rw [State.setProc_ftable]
    rcases eq_or_ne f' f with rfl | ne
    · simp
    · simp [State.setFile_ftable_ne, ne]
  · have ne : f' ≠ f := by
      rintro rfl
      simp [not_new r] at new
    rw [State.setProc_ftable, State.setFile_ftable_ne _ _ ne]
  · cases eq
    rw [State.setProc_proc_self]
    refine ⟨⟨embryo.status, embryo.cwd, fun d le => ?_⟩, fun p' n' ne => only p' n' ne⟩
    have ne : d ≠ fd := by
      rintro rfl
      omega
    simpa [ne] using embryo.ofile d (by omega)

theorem Inv.forkCwd (mine : (γ p).child = some (q, nofile)) (live : 0 < (s.icache ip).ref) :
    Inv ((s.setEntry ip { s.icache ip with ref := (s.icache ip).ref + 1 }).setProc q
        { s.proc q with cwd := some ip, status := .running })
      (update γ p ((γ p).setChild none)) := by
  have owns := inv.owns q
  have embryo := inv.child p q _ mine
  refine inv.spawn rfl ⟨owns.net, owns.netFile, fun jp known => ?_, owns.ofile, fun _ => rfl,
    fun _ _ => rfl, fun unused => ?_, owns.ops⟩ (fun jp => ?_) (fun f => rfl) (fun f => le_rfl)
    (fun jp => ?_) (fun f => ⟨rfl, rfl⟩) (fun r f _ => rfl) (fun r n eq => by cases eq)
    fun p' n ne at_p => ne (inv.only p' p q n _ at_p mine)
  · have := owns.cwd jp known
    rw [embryo.cwd] at this
    cases this
  · cases unused
  · rw [embryo.cwd, State.setProc_icache]
    rcases eq_or_ne jp ip with rfl | ne
    · simp
    · simp [State.setEntry_icache_ne, ne, ne.symm]
  · rw [State.setProc_icache]
    rcases eq_or_ne jp ip with rfl | ne
    · simpa using fun _ => live
    · simp [State.setEntry_icache_ne, ne]

end

/-! ## Soundness -/

section Sound

variable {P D A : Type} [Fintype P] [DecidableEq P] [Store D A] {s t : State P D A}
  {γ : P → Ghost P} {p : P} {ip : Ip}

omit [Fintype P] [DecidableEq P] [Store D A] in
theorem alike_setEntry (s : State P D A) (disk : D) {x : Entry P A}
    (same : x.dev = (s.icache ip).dev ∧
    x.inum = (s.icache ip).inum ∧ x.ref = (s.icache ip).ref ∧ x.lock = (s.icache ip).lock) :
    Alike s ({ s with disk := disk }.setEntry ip x) := by
  refine ⟨fun jp => ?_, fun f => ⟨rfl, rfl, rfl⟩, rfl⟩
  rcases eq_or_ne jp ip with rfl | ne
  · simpa using same
  · rw [State.setEntry_icache_ne _ _ ne]
    exact ⟨rfl, rfl, rfl, rfl⟩

omit [Fintype P] [DecidableEq P] [Store D A] in
theorem alike_onInode {α : Type} {f : Bool → Nat → Dinode A → Prog Panic D (α × Dinode A)} {r : α}
    (ran : State.onInode ip f s = .ok (r, t)) : Alike s t := by
  unfold State.onInode at ran
  split at ran
  · cases ran
    exact alike_setEntry s _ ⟨rfl, rfl, rfl, rfl⟩
  · cases ran

omit [Fintype P] [DecidableEq P] [Store D A] in
theorem Alike.trans {u : State P D A} (first : Alike s t) (second : Alike t u) : Alike s u := by
  refine ⟨fun ip => ?_, fun f => ?_, second.proc.trans first.proc⟩
  · obtain ⟨dev, inum, ref, lock⟩ := first.entry ip
    obtain ⟨dev', inum', ref', lock'⟩ := second.entry ip
    exact ⟨dev'.trans dev, inum'.trans inum, ref'.trans ref, lock'.trans lock⟩
  · obtain ⟨type, ref, at_ip⟩ := first.file f
    obtain ⟨type', ref', at_ip'⟩ := second.file f
    exact ⟨type'.trans type, ref'.trans ref, at_ip'.trans at_ip⟩

omit [Fintype P] [DecidableEq P] [Store D A] in
theorem Alike.refl (s : State P D A) : Alike s s :=
  ⟨fun _ => ⟨rfl, rfl, rfl, rfl⟩, fun _ => ⟨rfl, rfl, rfl⟩, rfl⟩

omit [Fintype P] [DecidableEq P] in
theorem alike_load (ran : State.load ip s = .ok ((), t)) : Alike s t := by
  unfold State.load at ran
  split at ran
  · cases ran
    exact Alike.refl s
  · split at ran
    · cases ran
    · cases ran
      exact alike_setEntry s s.disk ⟨rfl, rfl, rfl, rfl⟩

omit [Fintype P] [DecidableEq P] in
theorem alike_reclaim (ran : State.reclaim ip s = .ok ((), t)) : Alike s t := by
  obtain ⟨a, u, first, second⟩ := Prog.of_bind ran
  cases second
  exact (alike_onInode first).trans (alike_setEntry u u.disk ⟨rfl, rfl, rfl, rfl⟩)

theorem protocol_sound : (calls P D).Sound (protocol P) (Inv (D := D)) := by
  intro s t γ p o r Q inv spec exec
  have ran : State.exec p o s = .ok (r, t) := by
    revert exec
    change (State.exec p o s).toOption = some (r, t) → _
    cases State.exec p o s with
    | error e => simp [Except.toOption]
    | ok x => simp [Except.toOption]
  clear exec
  -- what a step does to the state when the ghost stays
  have same : (∀ r, Q r (γ p)) → Alike s t → ∃ h, Q r h ∧ Inv t (update γ p h) := by
    intro post alike
    refine ⟨γ p, post r, ?_⟩
    rw [update_eq_self]
    exact inv.alike alike
  cases o with
  | panic why => cases ran
  | beginOp =>
    cases ran
    exact ⟨_, spec, inv.own rfl rfl rfl
      { inv.owns p with ops := congrArg (· + 1) (inv.owns p).ops } (fun _ => rfl) (fun _ => rfl) rfl
      rfl rfl fun n embryo => ⟨embryo.status, embryo.cwd, embryo.ofile⟩⟩
  | endOp =>
    cases ran
    exact ⟨_, spec, inv.own rfl rfl rfl
      { inv.owns p with ops := congrArg (· - 1) (inv.owns p).ops } (fun _ => rfl) (fun _ => rfl) rfl
      rfl rfl fun n embryo => ⟨embryo.status, embryo.cwd, embryo.ofile⟩⟩
  | iget dev inum =>
    obtain ⟨pos, kept⟩ := inv.iget (p := p) ran
    exact ⟨_, spec r pos, kept⟩
  | idupCwd =>
    obtain ⟨unknown, spec⟩ := spec
    simp only [State.exec] at ran
    split at ran
    · rename_i ip cwd
      cases ran
      exact ⟨_, spec _ ((inv.owns p).net _), inv.idup (inv.cwd_live unknown cwd)⟩
    · cases ran
  | ref ip | valid ip | attr ip | ident ip | ninodes | file f =>
    cases ran
    exact same spec (.refl s)
  | unref ip =>
    cases ran
    exact ⟨_, spec.2, inv.unref spec.1⟩
  | acquiresleep ip =>
    obtain ⟨free, kept⟩ := inv.acquiresleep ran
    exact ⟨_, spec free, kept⟩
  | releasesleep ip =>
    cases ran
    exact ⟨_, spec.2, inv.releasesleep spec.1⟩
  | iunlock ip =>
    obtain ⟨held, kept⟩ := inv.iunlock ran
    exact ⟨_, spec held, kept⟩
  | load ip => exact same spec (alike_load ran)
  | reclaim ip => exact same spec (alike_reclaim ran)
  | incLink ip | decLink ip | initInode ip major minor => exact same spec (alike_onInode ran)
  | claim inum type =>
    simp only [State.exec] at ran
    split at ran
    · cases ran
      exact same spec ⟨fun _ => ⟨rfl, rfl, rfl, rfl⟩, fun _ => ⟨rfl, rfl, rfl⟩, rfl⟩
    · cases ran
  | dirlookup dp name | emptyDirent dp | isdirempty dp | readi ip off n | writei ip off src =>
    simp only [State.exec] at ran
    exact same spec (alike_onInode ran)
  | ofile fd =>
    cases ran
    exact ⟨_, spec.2 _, inv.ofile spec.1 fd⟩
  | closeFd fd =>
    obtain ⟨alive, f, known, spec⟩ := spec
    cases ran
    exact ⟨_, spec, inv.closeFd alive known⟩
  | fdalloc f =>
    obtain ⟨alive, held, absent, found⟩ := spec
    change State.fdalloc p f s = _ at ran
    unfold State.fdalloc at ran
    split at ran
    · rename_i fd free
      cases ran
      obtain ⟨unknown, kept⟩ := inv.fdalloc alive (by simpa using List.find?_some free) f
      exact ⟨_, found fd unknown, kept⟩
    · cases ran
      exact ⟨_, absent, by rwa [update_eq_self]⟩
  | filealloc =>
    change State.filealloc s = _ at ran
    unfold State.filealloc at ran
    split at ran
    · rename_i f free
      cases ran
      obtain ⟨old, kept⟩ := inv.filealloc (p := p) (by simpa using List.find?_some free)
      exact ⟨_, spec.2 f old, kept⟩
    · cases ran
      exact ⟨_, spec.1, by rwa [update_eq_self]⟩
  | filedup f =>
    obtain ⟨held, old, spec⟩ := spec
    change State.filedup f s = _ at ran
    unfold State.filedup at ran
    split at ran
    · cases ran
    · cases ran
      exact ⟨_, spec, inv.filedup held old⟩
  | filedrop f =>
    obtain ⟨held, some_left, none_left⟩ := spec
    change State.filedrop f s = _ at ran
    unfold State.filedrop at ran
    split at ran
    · cases ran
    · split at ran
      · rename_i more
        cases ran
        obtain ⟨old, kept⟩ := inv.filedrop held more
        exact ⟨_, some_left old, kept⟩
      · rename_i last
        cases ran
        refine ⟨_, none_left _ (fun new => ?_) ((inv.owns p).net _), inv.filedrop_last held last⟩
        exact (inv.fresh p f new).type
  | openFile f ip readable writable =>
    obtain ⟨new, held, spec⟩ := spec
    cases ran
    exact ⟨_, spec, inv.openFile new held rfl rfl rfl⟩
  | openPipe f writable =>
    cases ran
    exact ⟨_, spec.2, inv.openPipe spec.1 rfl rfl⟩
  | advance f n =>
    cases ran
    refine same spec ⟨fun _ => ⟨rfl, rfl, rfl, rfl⟩, fun f' => ?_, rfl⟩
    rcases eq_or_ne f' f with rfl | ne
    · simp
    · simp [State.setFile_ftable_ne, ne]
  | cwd =>
    simp only [State.exec] at ran
    split at ran
    · rename_i ip cwd
      cases ran
      exact ⟨_, spec _, inv.cwd cwd⟩
    · cases ran
  | chdir ip =>
    obtain ⟨alive, held, old, known, spec⟩ := spec
    cases ran
    exact ⟨_, spec, inv.chdir alive held known⟩
  | allocproc child =>
    obtain ⟨free, failed, made⟩ := spec
    simp only [State.exec] at ran
    split at ran
    · rename_i unused
      cases ran
      exact ⟨_, made, inv.allocproc unused⟩
    · cases ran
      exact ⟨_, failed, by rwa [update_eq_self]⟩
  | forkFd child fd =>
    obtain ⟨mine, none_held, old, spec⟩ := spec
    simp only [State.exec] at ran
    split at ran
    · cases ran
      exact ⟨_, spec, inv.forkFd_closed mine⟩
    · rename_i f at_fd
      split at ran
      · cases ran
      · rename_i dup
        unfold State.filedup at dup
        split at dup
        · cases dup
        · cases dup
          cases ran
          exact ⟨_, spec, inv.forkFd mine none_held old at_fd⟩
  | forkCwd child =>
    obtain ⟨unknown, mine, spec⟩ := spec
    simp only [State.exec] at ran
    split at ran
    · cases ran
    · rename_i ip cwd
      cases ran
      exact ⟨_, spec, inv.forkCwd mine (inv.cwd_live unknown cwd)⟩
  | exit =>
    obtain ⟨alive, closed, old, known, spec⟩ := spec
    cases ran
    exact ⟨_, spec, inv.exit alive closed known⟩

theorem protocol_starts : (calls P D).Starts Ghost.Rest Ghost.ready (Inv (D := D)) := by
  intro s γ p c inv rest running
  obtain ⟨refs, locks, frefs, fresh, child, ops⟩ := rest
  have owns := inv.owns p
  have running : (s.proc p).status = .running := running
  refine inv.own rfl rfl (update_eq_self p s.proc).symm ⟨fun ip => le_rfl, fun f => ?_,
    fun ip eq => (by cases eq), fun fd x eq => (by cases eq), fun _ => running,
    fun fd eq => (by cases eq), owns.unused, owns.ops.trans ops⟩ (fun ip => ?_) (fun f => ?_)
    locks.symm fresh.symm child.symm fun _ => id
  · exact netFile_ready.ge
  · unfold ipRefs
    rw [refs]
    rfl
  · unfold fdRefs
    rw [frefs]
    rfl

theorem inv_initial (disk : D) (init : P) :
    Inv (State.initial (A := A) disk init) fun _ => Ghost.ready.gone := by
  have none_open : ∀ fd : Fd, Proc.zero.ofile fd = none := fun _ => rfl
  have owns : ∀ pr : Proc, pr.ops = 0 → (pr.status = .unused → pr.cwd = none) →
      (∀ fd, pr.ofile fd = none) → Owns pr (Ghost.ready.gone : Ghost P) := by
    intro pr ops unused closed
    exact ⟨fun ip => le_rfl, fun f => (netFile_ready (P := P) (f := f)).ge,
      fun ip eq => (by cases eq),
      fun fd x eq => (by cases eq), fun eq => (by cases eq), fun fd eq => (by cases eq),
      fun eq => ⟨unused eq, closed⟩, ops⟩
  have total : ∀ w : Proc × Ghost P → ℤ, w (.zero, Ghost.ready.gone) = 0 →
      tally w (pairs (State.initial (A := A) disk init) fun _ => Ghost.ready.gone) =
        w ((State.initial (A := A) disk init).proc init, Ghost.ready.gone) := by
    intro w zero
    have eq : pairs (State.initial (A := A) disk init) (fun _ => Ghost.ready.gone) =
        update (fun _ => (Proc.zero, Ghost.ready.gone)) init
          ((State.initial (A := A) disk init).proc init, Ghost.ready.gone) := by
      funext p
      rcases eq_or_ne p init with rfl | ne
      · simp [pairs]
      · simp [pairs, State.initial, ne]
    have rest : tally w (fun _ : P => (Proc.zero, Ghost.ready.gone)) = 0 :=
      tally_eq_zero fun _ => zero
    rw [eq, tally_update, rest, zero]
    omega
  have files : ∀ ip, tally (fileRef ip) (State.initial (A := A) disk init).ftable = 0 :=
    fun ip => tally_eq_zero fun f => rfl
  have closed : ∀ f, tally (fdRef f) Proc.zero.ofile = 0 := fun f => tally_eq_zero fun _ => rfl
  refine ⟨fun p => ?_, fun ip => ?_, fun f => ?_, fun ip p => ?_, fun f used => absurd rfl used,
    fun p f new => (by cases new), fun ip jp pos pos' _ _ => ?_, fun p q n eq => (by cases eq),
    fun p p' q n n' eq => (by cases eq)⟩
  · rcases eq_or_ne p init with rfl | ne
    · refine owns _ (by simp [State.initial, Proc.zero]) (by simp [State.initial]) fun fd => ?_
      simp [State.initial, Proc.zero]
    · simpa [State.initial, ne] using owns .zero rfl (fun _ => rfl) fun _ => rfl
  · rw [files, total (ipRefs ip) rfl]
    rcases eq_or_ne ip 0 with rfl | ne
    · simp [State.initial, ipRefs, Ghost.gone, Ghost.ready]
    · simp [State.initial, ipRefs, Ghost.gone, Ghost.ready, ne, ne.symm, Entry.zero]
  · have zero : fdRefs f (Proc.zero, (Ghost.ready.gone : Ghost P)) = 0 := by
      simpa [fdRefs, Ghost.gone, Ghost.ready] using closed f
    rw [total (fdRefs f) zero]
    simpa [State.initial, fdRefs, Ghost.gone, Ghost.ready, File.zero] using (closed f).symm
  · rcases eq_or_ne ip 0 with rfl | ne
    · simp [State.initial, Entry.zero, Ghost.gone, Ghost.ready]
    · simp [State.initial, Entry.zero, Ghost.gone, Ghost.ready, ne]
  · have only : ∀ ip, 0 < ((State.initial (A := A) disk init).icache ip).ref → ip = 0 := by
      intro ip pos
      by_contra ne
      simp [State.initial, ne, Entry.zero] at pos
    rw [only ip pos, only jp pos']

/-- When no call is in progress, the references to an inode are those of the open files and of the
current directories, no inode is locked, an inode has one entry, and operations are over. -/
theorem inode_references_exact {image : D → Prop} {s : Threads P (Op P) Op.Res Int (State P D A)}
    (reach : (system P D image).Reachable s) (quiet : Pool.Quiet s) :
    (∀ ip, (s.shared.icache ip).ref =
      (Finset.univ.filter fun f =>
        (s.shared.ftable f).type = .inode ∧ (s.shared.ftable f).ip = ip).card +
      (Finset.univ.filter fun p => (s.shared.proc p).cwd = some ip).card) ∧
    (∀ ip, (s.shared.icache ip).lock = none) ∧
    (∀ ip jp, 0 < (s.shared.icache ip).ref → 0 < (s.shared.icache jp).ref →
      (s.shared.icache ip).dev = (s.shared.icache jp).dev →
      (s.shared.icache ip).inum = (s.shared.icache jp).inum → ip = jp) ∧
    ∀ p, (s.shared.proc p).ops = 0 := by
  obtain ⟨γ, verified⟩ : ∃ γ, Pool.Verified (protocol P) Ghost.Rest Inv s γ := by
    refine Pool.verified protocol_sound protocol_starts syscall_protocol (fun s start => ?_) reach
    obtain ⟨disk, init, -, rfl⟩ := start
    exact ⟨_, inv_initial disk init, fun _ => rest_ready⟩
  have inv := verified.inv
  have rest := fun p => verified.idle p (quiet p)
  refine ⟨fun ip => ?_, fun ip => ?_, inv.unique, fun p => ?_⟩
  · have own : tally (ipRefs ip) (pairs s.shared γ) =
        tally (fun x => if x.cwd = some ip then 1 else 0) s.shared.proc := by
      refine Finset.sum_congr rfl fun p _ => ?_
      unfold ipRefs pairs
      rw [(rest p).1]
      exact add_zero _
    rw [inv.refs ip, own]
    simp [tally, fileRef]
  · by_contra held
    obtain ⟨p, held⟩ := Option.ne_none_iff_exists'.mp held
    have locked := (inv.locks ip p).mp held
    rw [(rest p).2.1] at locked
    cases locked
  · exact (inv.owns p).ops.trans (rest p).2.2.2.2.2

/-- The root directory, which is the current directory of the process and open as well. -/
theorem inode_references_exact_open : ∃ s : State Unit (Disk Disk.smallSb) Addrs,
    (system Unit _ (· = Disk.rootDisk)).Reachable ⟨s, fun _ => none⟩ ∧ (s.icache 0).ref = 2 ∧
      (s.icache 0).ref =
        (Finset.univ.filter fun f => (s.ftable f).type = .inode ∧ (s.ftable f).ip = 0).card +
        (Finset.univ.filter fun p => (s.proc p).cwd = some 0).card := by
  have ran : (Lts.exec (calls Unit _).whole (fun _ => true) (State.initial Disk.rootDisk ())
      [((), .open (some [slash]) (some 0))]).map (fun s => (s.icache 0).ref) = some 2 := by
    decide +kernel
  obtain ⟨s, ends, two⟩ := Option.map_eq_some_iff.mp ran
  have reach : (system Unit _ (· = Disk.rootDisk)).Reachable ⟨s, fun _ => none⟩ :=
    Pool.reachable_of_serial (Lts.Reachable.of_exec (.init ⟨_, (), rfl, rfl⟩)
      (fun _ _ _ _ step _ => Pool.serial_of_whole step) ends)
  exact ⟨s, reach, two, (inode_references_exact reach fun _ => rfl).1 0⟩

end Sound

end Xv6.Fs
