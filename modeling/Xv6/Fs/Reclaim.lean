import Xv6.Fs.Calls
import Xv6.Fs.Contents
import Xv6.Lib.Tally

/-!
# The last `iput`

Any number of processes drop their references to an inode without links.  `iput` looks at `ip->ref`
while it holds the sleep lock of the inode, and gives up its own reference later, when it does not
hold the lock any more.  Two processes can both look before either has given up its reference: both
find `ref = 2`, and the inode is never freed.

If nobody looks while another process is between `releasesleep` and `ip->ref--`, the last `iput`
frees the inode (`last_iput_frees`).

The disk is that of `Xv6.Fs.Blocks`; `d` is the disk before the first `iput`.
-/

namespace Xv6.Fs

open Function

def iputs {P : Type} (ip : Ip) : Nat → Body P Unit
  | 0 => pure ()
  | n + 1 => do
      iput ip
      iputs ip n

/-- The file system, with the number of times an inode was freed and the processes that are about
to decrement `ip->ref`. -/
structure Dropping (P : Type) (sb : Superblock) where
  fs : State P (Disk sb) Addrs
  freed : Nat
  leaving : P → Bool

section

variable {P : Type} [DecidableEq P] {sb : Superblock}

def Dropping.note (s : Dropping P sb) (p : P) (t : State P (Disk sb) Addrs) : Op P → Dropping P sb
  | .reclaim _ => { s with fs := t, freed := s.freed + 1 }
  | .releasesleep _ => { s with fs := t, leaving := update s.leaving p true }
  | .unref _ => { s with fs := t, leaving := update s.leaving p false }
  | _ => { s with fs := t }

def Dropping.exec (p : P) (o : Op P) (s : Dropping P sb) : Option (o.Res × Dropping P sb) :=
  (State.exec p o s.fs).toOption.map fun x => (x.1, s.note p x.2 o)

/-- Processes inside calls of `iput`; no other call is made. -/
def drops : Pool P Empty (Op P) Op.Res Unit (Dropping P sb) where
  allowed _ _ _ := False
  body := Empty.elim
  exec := Dropping.exec

def Op.isRef : Op P → Bool
  | .ref _ => true
  | _ => false

/-- Process `p` does not look at `ip->ref` while another one is about to decrement it. -/
def Unhurried (s : Dropping P sb) (p : P) (o : Op P) : Prop :=
  o.isRef = true → ∀ q, q ≠ p → s.leaving q = false

instance [Fintype P] (s : Dropping P sb) (p : P) (o : Op P) : Decidable (Unhurried s p o) :=
  inferInstanceAs (Decidable (_ → _))

/-- The inode is a file in order without links, and nothing has been written to the disk. -/
structure Unlinked (d : Disk sb) (s : State P (Disk sb) Addrs) (ip : Ip) : Prop where
  valid : (s.icache ip).valid = true
  nlink : (s.icache ip).ino.nlink = 0
  same : (s.icache ip).ino = d.dinode (s.icache ip).inum
  type : (s.icache ip).ino.type ≠ 0
  ok : d.FileOk (s.icache ip).inum
  disk : s.disk = d

/-- On the disk the inode is free and has no blocks, and those that it had are free. -/
structure Cleared (d : Disk sb) (s : State P (Disk sb) Addrs) (ip : Ip) : Prop where
  type : (s.disk.dinode (s.icache ip).inum).type = 0
  size : (s.disk.dinode (s.icache ip).inum).size = 0
  addrs : ∀ i, (s.disk.dinode (s.icache ip).inum).addrs i = 0
  blocks : ∀ k, d.slot (d.dinode (s.icache ip).inum) k ≠ 0 →
    s.disk.bit (d.slot (d.dinode (s.icache ip).inum) k) = false

variable [Fintype P]

/-- Process `p` has `n p` references to the unlinked inode `ip`, and drops them. -/
structure Begins (d : Disk sb) (ip : Ip) (n : P → Nat)
    (s : Threads P (Op P) Op.Res Unit (Dropping P sb)) : Prop where
  unlinked : Unlinked d s.shared.fs ip
  ref : (s.shared.fs.icache ip).ref = tally (fun k : Nat => (k : ℤ)) n
  positive : 0 < (s.shared.fs.icache ip).ref
  lock : (s.shared.fs.icache ip).lock = none
  freed : s.shared.freed = 0
  leaving : ∀ p, s.shared.leaving p = false
  code : ∀ p, s.code p = some (iputs ip (n p))

def dropping (M : Pool P Empty (Op P) Op.Res Unit (Dropping P sb)) (d : Disk sb) (ip : Ip)
    (n : P → Nat) :
    Lts (Threads P (Op P) Op.Res Unit (Dropping P sb)) (Pool.Act P Empty Unit) where
  init := Begins d ip n
  step := M.Step

end

/-! ## Where the processes are -/

/-- A process outside `iput` or waiting for the sleep lock, with the lock before it looks at `ref`,
with the lock after it found `ref > 1`, after it found `ref = 1`, after it freed the inode, and
after it released the lock. -/
inductive Stage
  | out
  | inside
  | passed
  | last
  | freed
  | leaving
  deriving DecidableEq

/-- `left` counts the references that a process has still to give up. -/
structure Dropper where
  left : Nat
  stage : Stage

namespace Dropper

def Locked (g : Dropper) : Prop :=
  g.stage = .inside ∨ g.stage = .passed ∨ g.stage = .last ∨ g.stage = .freed

def Pending (g : Dropper) : Prop :=
  g.stage = .inside ∨ g.stage = .last ∨ (g.stage = .out ∧ 0 < g.left) ∨ 1 < g.left

end Dropper

inductive DropSpec {P : Type} (ip : Ip) :
    (o : Op P) → Dropper → (o.Res → Dropper → Prop) → Prop
  | acquiresleep {n : Nat} {Q : Unit → Dropper → Prop} : Q () ⟨n + 1, .inside⟩ →
      DropSpec ip (.acquiresleep ip) ⟨n + 1, .out⟩ Q
  | valid {n : Nat} {Q : Bool → Dropper → Prop} : Q true ⟨n, .inside⟩ →
      DropSpec ip (.valid ip) ⟨n, .inside⟩ Q
  | attr {n : Nat} {Q : Attr → Dropper → Prop} : (∀ a, a.nlink = 0 → Q a ⟨n, .inside⟩) →
      DropSpec ip (.attr ip) ⟨n, .inside⟩ Q
  | ref {n : Nat} {Q : Int → Dropper → Prop} : (∀ r, r ≠ 1 → Q r ⟨n, .passed⟩) → Q 1 ⟨n, .last⟩ →
      DropSpec ip (.ref ip) ⟨n, .inside⟩ Q
  | reclaim {n : Nat} {Q : Unit → Dropper → Prop} : Q () ⟨n, .freed⟩ →
      DropSpec ip (.reclaim ip) ⟨n, .last⟩ Q
  | releasesleep {g : Dropper} {Q : Unit → Dropper → Prop} :
      g.stage = .passed ∨ g.stage = .freed → Q () ⟨g.left, .leaving⟩ →
      DropSpec ip (.releasesleep ip) g Q
  | unref {n : Nat} {Q : Unit → Dropper → Prop} : Q () ⟨n, .out⟩ →
      DropSpec ip (.unref ip) ⟨n + 1, .leaving⟩ Q

def dropLogic (P : Type) (ip : Ip) : Logic (Op P) Op.Res Dropper where
  spec := DropSpec ip
  mono imp safe := by
    cases safe with
    | acquiresleep post => exact .acquiresleep (imp _ _ post)
    | valid post => exact .valid (imp _ _ post)
    | attr post => exact .attr fun a zero => imp _ _ (post a zero)
    | ref other one => exact .ref (fun r ne => imp _ _ (other r ne)) (imp _ _ one)
    | reclaim post => exact .reclaim (imp _ _ post)
    | releasesleep stage post => exact .releasesleep stage (imp _ _ post)
    | unref post => exact .unref (imp _ _ post)

section

variable {P : Type} {ip : Ip} {Q : Unit → Dropper → Prop}

/-- `iput` looks at `ref` with the lock held, and frees the inode if it is 1. -/
theorem drop_iputFree {n : Nat} (passed : Q () ⟨n, .passed⟩) (freed : Q () ⟨n, .freed⟩) :
    (iputFree ip : Body P Unit).wp (dropLogic P ip) ⟨n, .inside⟩ Q := by
  refine .bind (.attr fun a zero => ?_)
  change Code.wp _ (if a.nlink = 0 then _ else _) _ _
  rw [if_pos zero]
  refine .bind (.ref (fun r ne => ?_) ?_)
  · change Code.wp _ (if r = 1 then _ else _) _ _
    rw [if_neg ne]
    exact passed
  · exact .reclaim freed

theorem drop_iput {n : Nat} (post : Q () ⟨n, .out⟩) :
    (iput ip : Body P Unit).wp (dropLogic P ip) ⟨n + 1, .out⟩ Q := by
  have finish : ∀ g : Dropper, g.left = n + 1 → g.stage = .passed ∨ g.stage = .freed →
      (do step (.releasesleep ip); step (.unref ip) : Body P Unit).wp (dropLogic P ip) g Q := by
    rintro ⟨_, stage⟩ rfl at_end
    exact .releasesleep at_end (.unref post)
  refine .bind (.acquiresleep (.bind (.valid ?_)))
  refine .bind (drop_iputFree ?_ ?_)
  · exact finish ⟨n + 1, .passed⟩ rfl (.inl rfl)
  · exact finish ⟨n + 1, .freed⟩ rfl (.inr rfl)

theorem drop_iputs (n : Nat) : (iputs ip n : Body P Unit).wp (dropLogic P ip) ⟨n, .out⟩
    fun _ g => g = ⟨0, .out⟩ := by
  induction n with
  | zero => exact rfl
  | succ n ih => exact .bind (drop_iput ih)

end

/-! ## The invariant -/

def Dropper.weight (g : Dropper) : ℤ := g.left

section

variable {P : Type} [DecidableEq P] [Fintype P] {sb : Superblock}

structure DropInv (d : Disk sb) (ip : Ip) (s : Dropping P sb) (γ : P → Dropper) : Prop where
  ref : (s.fs.icache ip).ref = tally Dropper.weight γ
  lock : ∀ p, (s.fs.icache ip).lock = some p ↔ (γ p).Locked
  leaving : ∀ p, s.leaving p = true ↔ (γ p).stage = .leaving
  holds : ∀ p, (γ p).stage ≠ .out → 0 < (γ p).left
  last : ∀ p, (γ p).stage = .last → s.freed = 0 ∧ (s.fs.icache ip).ref = 1
  whole : s.freed = 0 → Unlinked d s.fs ip ∧ ∃ p, (γ p).Pending
  gone : s.freed ≠ 0 → s.freed = 1 ∧ Cleared d s.fs ip ∧ ∀ p, 0 < (γ p).left →
    (γ p).left = 1 ∧ ((γ p).stage = .freed ∨ (γ p).stage = .leaving)

variable {d : Disk sb} {ip : Ip} {s : Dropping P sb} {γ : P → Dropper} {p : P}

omit [DecidableEq P] [Fintype P] in
theorem weight_nonneg (γ : P → Dropper) (p : P) : 0 ≤ (γ p).weight := Int.natCast_nonneg _

omit [DecidableEq P] in
theorem DropInv.unlinked (inv : DropInv d ip s γ) (left : 0 < (γ p).left)
    (early : (γ p).stage ≠ .freed ∧ (γ p).stage ≠ .leaving) :
    s.freed = 0 ∧ Unlinked d s.fs ip := by
  have zero : s.freed = 0 := by
    by_contra ne
    rcases ((inv.gone ne).2.2 p left).2 with stage | stage
    · exact early.1 stage
    · exact early.2 stage
  exact ⟨zero, (inv.whole zero).1⟩

omit [DecidableEq P] in
theorem DropInv.alone (inv : DropInv d ip s γ) (locked : (γ p).Locked) {q : P} (ne : q ≠ p) :
    ¬ (γ q).Locked := by
  intro other
  have here := (inv.lock p).mpr locked
  have there := (inv.lock q).mpr other
  exact ne (Option.some.inj (there.symm.trans here))

theorem DropInv.change (inv : DropInv d ip s γ) {t : Dropping P sb} {h : Dropper}
    (ref : (t.fs.icache ip).ref = (s.fs.icache ip).ref - (γ p).weight + h.weight)
    (lock : (t.fs.icache ip).lock = some p ↔ h.Locked)
    (locks : ∀ q, q ≠ p → ((t.fs.icache ip).lock = some q ↔ (γ q).Locked))
    (leaving : t.leaving = update s.leaving p (decide (h.stage = .leaving)))
    (holds : h.stage ≠ .out → 0 < h.left)
    (last : h.stage = .last → t.freed = 0 ∧ (t.fs.icache ip).ref = 1)
    (lasts : ∀ q, q ≠ p → (γ q).stage = .last → t.freed = 0 ∧ (t.fs.icache ip).ref = 1)
    (whole : t.freed = 0 → Unlinked d t.fs ip ∧ (h.Pending ∨ ∃ q, q ≠ p ∧ (γ q).Pending))
    (gone : t.freed ≠ 0 → t.freed = 1 ∧ Cleared d t.fs ip ∧
      (0 < h.left → h.left = 1 ∧ (h.stage = .freed ∨ h.stage = .leaving)) ∧
      ∀ q, q ≠ p → 0 < (γ q).left →
        (γ q).left = 1 ∧ ((γ q).stage = .freed ∨ (γ q).stage = .leaving)) :
    DropInv d ip t (update γ p h) where
  ref := by rw [ref, inv.ref, tally_update]
  lock :=
    (forall_update_iff γ fun q x => (t.fs.icache ip).lock = some q ↔ x.Locked).mpr ⟨lock, locks⟩
  leaving := by
    refine (forall_update_iff γ fun q x => t.leaving q = true ↔ x.stage = .leaving).mpr
      ⟨?_, fun q ne => ?_⟩
    · rw [leaving, update_self, decide_eq_true_eq]
    · rw [leaving, update_of_ne ne]
      exact inv.leaving q
  holds := (forall_update_iff γ fun _ x => x.stage ≠ .out → 0 < x.left).mpr
    ⟨holds, fun q _ => inv.holds q⟩
  last := (forall_update_iff γ fun _ x => x.stage = .last → _).mpr ⟨last, lasts⟩
  whole zero := by
    obtain ⟨unlinked, pending⟩ := whole zero
    exact ⟨unlinked, (exists_update_iff γ fun _ x => x.Pending).mpr pending⟩
  gone ne := by
    obtain ⟨one, cleared, here, others⟩ := gone ne
    exact ⟨one, cleared, (forall_update_iff γ fun _ x =>
      0 < x.left → x.left = 1 ∧ (x.stage = .freed ∨ x.stage = .leaving)).mpr ⟨here, others⟩⟩

omit [DecidableEq P] [Fintype P] in
theorem Unlinked.entry {s t : State P (Disk sb) Addrs} (unlinked : Unlinked d s ip)
    (valid : (t.icache ip).valid = (s.icache ip).valid)
    (ino : (t.icache ip).ino = (s.icache ip).ino)
    (inum : (t.icache ip).inum = (s.icache ip).inum) (disk : t.disk = s.disk) :
      Unlinked d t ip where
  valid := valid ▸ unlinked.valid
  nlink := ino ▸ unlinked.nlink
  same := by rw [ino, inum, unlinked.same]
  type := ino ▸ unlinked.type
  ok := inum ▸ unlinked.ok
  disk := disk.trans unlinked.disk

omit [DecidableEq P] [Fintype P] in
theorem Cleared.entry {s t : State P (Disk sb) Addrs} (cleared : Cleared d s ip)
    (inum : (t.icache ip).inum = (s.icache ip).inum) (disk : t.disk = s.disk) : Cleared d t ip where
  type := by rw [inum, disk, cleared.type]
  size := by rw [inum, disk, cleared.size]
  addrs i := by rw [inum, disk, cleared.addrs]
  blocks := by
    rw [inum, disk]
    exact cleared.blocks

/-! ## The steps -/

omit [Fintype P] in
theorem exec_note {o : Op P} {r : o.Res} {t : Dropping P sb}
    (exec : Dropping.exec p o s = some (r, t)) :
    ∃ u, State.exec p o s.fs = .ok (r, u) ∧ t = s.note p u o := by
  obtain ⟨⟨r', u⟩, ran, eq⟩ := Option.map_eq_some_iff.mp exec
  cases eq
  exact ⟨u, Prog.of_toOption ran, rfl⟩

omit [DecidableEq P] [Fintype P] in
theorem reclaim_cleared {s u : State P (Disk sb) Addrs} (unlinked : Unlinked d s ip)
    (ran : State.reclaim ip s = .ok ((), u)) :
    Cleared d u ip ∧ (u.icache ip).ref = (s.icache ip).ref ∧
      (u.icache ip).lock = (s.icache ip).lock := by
  obtain ⟨_, v, first, last⟩ := Prog.of_bind ran
  cases last
  unfold State.onInode at first
  split at first
  · rename_i a ino disk stored
    cases first
    rw [unlinked.disk, unlinked.same] at stored
    obtain ⟨ino₁, disk₁, truncated, updated⟩ := Prog.of_bind stored
    obtain ⟨_, disk₂, written, ends⟩ := Prog.of_bind updated
    cases ends
    obtain ⟨rfl, bits⟩ := (within_ok truncated).mp (unlinked.ok.itrunc s.trans)
    obtain rfl : disk = disk₁.putInode (s.icache ip).inum
        { d.dinode (s.icache ip).inum with type := 0, size := 0, addrs := fun _ => 0 } :=
      (within_ok written).mp (Disk.within_iupdate (Q := fun _ e => e = disk₁.putInode _ _) rfl)
    have dinode := @Disk.dinode_putInode _ disk₁
      { d.dinode (s.icache ip).inum with type := 0, size := 0, addrs := fun _ => 0 }
      (s.icache ip).inum (Nat.two_pow_pos 32)
    refine ⟨⟨?_, ?_, fun i => ?_, fun k full => ?_⟩, ?_, ?_⟩ <;>
      simp only [State.setEntry_icache_self, State.setEntry_disk] at *
    · rw [dinode]
    · rw [dinode]
    · rw [dinode]
    · rw [Disk.bit_putInode unlinked.ok.good unlinked.ok.bound (unlinked.ok.owns.data k full).2.1]
      exact bits k full
  · cases first

/-- If a process has one reference and it is not the last, another one has yet to look at `ref`. -/
theorem DropInv.others_pending (inv : DropInv d ip s γ) (locked : (γ p).Locked)
    (unhurried : ∀ q, q ≠ p → s.leaving q = false) (one : (γ p).left = 1)
    (more : (s.fs.icache ip).ref ≠ 1) : ∃ q, q ≠ p ∧ (γ q).Pending := by
  obtain ⟨q, ne, has⟩ : ∃ q, q ≠ p ∧ 0 < (γ q).left := by
    by_contra none
    push Not at none
    have zeros : ∀ q, (update γ p ⟨0, .out⟩ q).weight = 0 :=
      (forall_update_iff γ fun _ x => x.weight = 0).mpr
        ⟨rfl, fun q ne => by simpa [Dropper.weight] using none q ne⟩
    have total := tally_update Dropper.weight γ p ⟨0, .out⟩
    rw [tally_eq_zero zeros, ← inv.ref] at total
    simp only [Dropper.weight, one] at total
    omega
  refine ⟨q, ne, .inr (.inr (.inl ⟨?_, has⟩))⟩
  have unlocked := inv.alone locked ne
  have slow : (γ q).stage ≠ .leaving := by
    intro late
    have := (inv.leaving q).mpr late
    rw [unhurried q ne] at this
    cases this
  unfold Dropper.Locked at unlocked
  cases at_q : (γ q).stage <;> simp_all

theorem DropInv.only (inv : DropInv d ip s γ) (one : (s.fs.icache ip).ref = 1)
    (pos : 0 < (γ p).left) :
    (γ p).left = 1 ∧ ∀ q, q ≠ p → (γ q).left = 0 := by
  refine ⟨?_, fun q ne => ?_⟩
  · have := le_tally (weight_nonneg γ) p
    rw [← inv.ref, one, Dropper.weight] at this
    omega
  · have := add_le_tally (weight_nonneg γ) ne
    rw [← inv.ref, one, Dropper.weight, Dropper.weight] at this
    omega

theorem drop_sound (d : Disk sb) (ip : Ip) :
    ((@drops P _ sb).within (fun _ _ _ => True) Unhurried).Sound (dropLogic P ip)
      (DropInv d ip) := by
  intro s t γ p o r Q inv spec exec
  rw [Pool.within_exec] at exec
  obtain ⟨unhurried, exec⟩ := exec
  obtain ⟨u, ran, rfl⟩ := exec_note exec
  generalize at_p : γ p = g at spec
  -- the process keeps its place, and nothing changes
  have same : ∀ g, γ p = g → update γ p g = γ := by
    rintro g rfl
    exact update_eq_self p γ
  have leaving : (γ p).stage ≠ .leaving → s.leaving = update s.leaving p false := by
    intro ne
    have no : s.leaving p = false := by
      rw [Bool.eq_false_iff]
      exact fun yes => ne ((inv.leaving p).mp yes)
    rw [← no, update_eq_self]
  cases spec with
  | @acquiresleep n Q post =>
    refine ⟨_, post, ?_⟩
    obtain ⟨zero, unlinked⟩ := inv.unlinked (p := p) (by simp [at_p]) (by simp [at_p])
    simp only [State.exec, State.acquiresleep] at ran
    split at ran <;> cases ran
    rename_i free
    refine inv.change ?_ ?_ (fun q ne => ?_) (leaving (by simp [at_p])) (fun _ => Nat.succ_pos n)
      (by simp) (fun q _ is => ?_) (fun _ => ⟨?_, .inl (.inl rfl)⟩) fun ne => absurd zero ne
    · simp [Dropping.note, at_p, Dropper.weight]
    · simp [Dropping.note, Dropper.Locked]
    · simp [Dropping.note, ne.symm, ← inv.lock q, free]
    · simpa [Dropping.note] using inv.last q is
    · exact unlinked.entry (by simp [Dropping.note]) (by simp [Dropping.note])
        (by simp [Dropping.note]) rfl
  | @valid n Q post =>
    have stage : (γ p).stage = .inside := by rw [at_p]
    obtain ⟨zero, unlinked⟩ := inv.unlinked (inv.holds p (by simp [stage])) (by simp [stage])
    cases ran
    refine ⟨_, ?_, by rw [same _ at_p]; exact inv⟩
    rw [unlinked.valid]
    exact post
  | @attr n Q post =>
    have stage : (γ p).stage = .inside := by rw [at_p]
    obtain ⟨zero, unlinked⟩ := inv.unlinked (inv.holds p (by simp [stage])) (by simp [stage])
    cases ran
    exact ⟨_, post _ unlinked.nlink, by rw [same _ at_p]; exact inv⟩
  | @ref n Q other one =>
    have stage : (γ p).stage = .inside := by rw [at_p]
    have left : (γ p).left = n := by rw [at_p]
    have pos := inv.holds p (by simp [stage])
    obtain ⟨zero, unlinked⟩ := inv.unlinked pos (by simp [stage])
    have locked : (γ p).Locked := .inl stage
    cases ran
    have step : ∀ st : Stage, st = .passed ∨ st = .last →
        (st = .last → (s.fs.icache ip).ref = 1) →
        (Dropper.Pending ⟨n, st⟩ ∨ ∃ q, q ≠ p ∧ (γ q).Pending) →
        DropInv d ip (s.note p s.fs (.ref ip)) (update γ p ⟨n, st⟩) := by
      intro st is last pending
      refine inv.change ?_ ((inv.lock p).trans ?_) (fun q _ => inv.lock q) ?_ (fun _ => left ▸ pos)
        (fun at_last => ⟨zero, last at_last⟩) (fun q _ => inv.last q) (fun _ => ⟨unlinked, pending⟩)
        fun ne => absurd zero ne
      · simp [Dropping.note, Dropper.weight, left]
      · rcases is with rfl | rfl <;> simp [Dropper.Locked, stage]
      · rcases is with rfl | rfl <;> exact leaving (by simp [stage])
    by_cases is : (s.fs.icache ip).ref = 1
    · rw [is]
      exact ⟨_, one, step .last (.inr rfl) (fun _ => is) (.inl (.inr (.inl rfl)))⟩
    · refine ⟨_, other _ is, step .passed (.inl rfl) (by simp) ?_⟩
      by_cases many : 1 < n
      · exact .inl (.inr (.inr (.inr many)))
      · exact .inr (inv.others_pending locked (unhurried rfl) (by omega) is)
  | @reclaim n Q post =>
    refine ⟨_, post, ?_⟩
    have stage : (γ p).stage = .last := by rw [at_p]
    have left : (γ p).left = n := by rw [at_p]
    have pos := inv.holds p (by simp [stage])
    have locked : (γ p).Locked := .inr (.inr (.inl stage))
    obtain ⟨zero, one⟩ := inv.last p stage
    obtain ⟨cleared, ref, lock⟩ := reclaim_cleared (inv.whole zero).1 ran
    obtain ⟨single, nobody⟩ := inv.only one pos
    refine inv.change ?_ ?_ (fun q _ => ?_) (leaving (by simp [stage])) (fun _ => left ▸ pos)
      (by simp)
      (fun q ne is => ?_) (fun none => ?_) fun _ => ⟨?_, cleared, fun _ => ⟨?_, .inl rfl⟩, ?_⟩
    · change (u.icache ip).ref = _
      simp [ref, Dropper.weight, left]
    · change (u.icache ip).lock = some p ↔ _
      rw [lock, inv.lock p]
      simp [Dropper.Locked, stage]
    · change (u.icache ip).lock = some q ↔ _
      rw [lock, inv.lock q]
    · exact absurd (.inr (.inr (.inl is))) (inv.alone locked ne)
    · simp [Dropping.note] at none
    · simp [Dropping.note, zero]
    · rw [← single, left]
    · intro q ne has
      rw [nobody q ne] at has
      exact absurd has (lt_irrefl 0)
  | @releasesleep g Q stage post =>
    subst at_p
    refine ⟨_, post, ?_⟩
    cases ran
    have locked : (γ p).Locked :=
      stage.elim (fun is => .inr (.inl is)) fun is => .inr (.inr (.inr is))
    have pos := inv.holds p (by rcases stage with is | is <;> simp [is])
    refine inv.change ?_ ?_ (fun q ne => ?_) rfl (fun _ => pos) (by simp) (fun q _ is => ?_)
      (fun zero => ?_) fun ne => ?_
    · simp [Dropping.note, Dropper.weight]
    · simp [Dropping.note, Dropper.Locked]
    · simp [Dropping.note, inv.alone locked ne]
    · simpa [Dropping.note] using inv.last q is
    · obtain ⟨unlinked, q, pending⟩ := inv.whole zero
      refine ⟨unlinked.entry (by simp [Dropping.note]) (by simp [Dropping.note])
        (by simp [Dropping.note]) rfl, ?_⟩
      rcases eq_or_ne q p with rfl | ne
      · left
        unfold Dropper.Pending at pending ⊢
        rcases stage with is | is <;> simp_all
      · exact .inr ⟨q, ne, pending⟩
    · obtain ⟨one, cleared, rest⟩ := inv.gone ne
      exact ⟨one, cleared.entry (by simp [Dropping.note]) rfl,
        fun has => ⟨(rest p has).1, .inr rfl⟩, fun q _ => rest q⟩
  | @unref n Q post =>
    refine ⟨_, post, ?_⟩
    have stage : (γ p).stage = .leaving := by rw [at_p]
    have left : (γ p).left = n + 1 := by rw [at_p]
    cases ran
    refine inv.change ?_ ?_ (fun q _ => ?_) rfl (fun out => absurd rfl out) (by simp)
      (fun q ne is => ?_) (fun zero => ?_) fun ne => ?_
    · simp only [Dropping.note, State.setEntry_icache_self, Dropper.weight, left]
      omega
    · simp [Dropping.note, inv.lock p, Dropper.Locked, stage]
    · simp [Dropping.note, inv.lock q]
    · have pos := inv.holds q (by simp [is])
      have none := (inv.only (inv.last q is).2 pos).2 p ne.symm
      omega
    · obtain ⟨unlinked, q, pending⟩ := inv.whole zero
      refine ⟨unlinked.entry (by simp [Dropping.note]) (by simp [Dropping.note])
        (by simp [Dropping.note]) rfl, ?_⟩
      rcases eq_or_ne q p with rfl | ne
      · left
        unfold Dropper.Pending at pending ⊢
        simp only [stage, left] at pending
        simp_all
      · exact .inr ⟨q, ne, pending⟩
    · obtain ⟨one, cleared, rest⟩ := inv.gone ne
      refine ⟨one, cleared.entry (by simp [Dropping.note]) rfl, fun has => ?_, fun q _ => rest q⟩
      have := (rest p (by omega)).1
      dsimp only at has
      omega

omit [DecidableEq P] in
theorem DropInv.begins {n : P → Nat} {s : Threads P (Op P) Op.Res Unit (Dropping P sb)}
    (begins : Begins d ip n s) : DropInv d ip s.shared fun p => ⟨n p, .out⟩ where
  ref := begins.ref
  lock p := by
    rw [begins.lock]
    simp [Dropper.Locked]
  leaving p := by
    rw [begins.leaving p]
    simp
  holds p out := absurd rfl out
  last p is := by cases is
  whole _ := by
    refine ⟨begins.unlinked, ?_⟩
    by_contra none
    have zeros : ∀ p, ((n p : Nat) : ℤ) = 0 := by
      intro p
      by_contra ne
      exact none ⟨p, .inr (.inr (.inl ⟨rfl, by dsimp only; omega⟩))⟩
    have positive := begins.positive
    rw [begins.ref, tally_eq_zero zeros] at positive
    exact lt_irrefl 0 positive
  gone ne := absurd begins.freed ne

/-- When `ref` has come to 0, the inode was freed, once. -/
theorem last_iput_frees {n : P → Nat} {s : Threads P (Op P) Op.Res Unit (Dropping P sb)}
    (reach : (dropping (drops.within (fun _ _ _ => True) Unhurried) d ip n).Reachable s)
    (zero : (s.shared.fs.icache ip).ref = 0) :
    s.shared.freed = 1 ∧ Cleared d s.shared.fs ip := by
  have verified : ∃ γ, Pool.Verified (dropLogic P ip) (· = ⟨0, .out⟩) (DropInv d ip) s γ := by
    refine reach.invariant
      (P := fun s => ∃ γ, Pool.Verified (dropLogic P ip) (· = ⟨0, .out⟩) (DropInv d ip) s γ)
      (fun s begins => ⟨fun p => ⟨n p, .out⟩, .begins begins, fun p idle => ?_, fun p c code => ?_⟩)
      fun s a t _ ver step => ?_
    · rw [begins.code p] at idle
      cases idle
    · rw [begins.code p] at code
      cases code
      exact drop_iputs (n p)
    · obtain ⟨γ, ver⟩ := ver
      have starts : ((@drops P _ sb).within (fun _ _ _ => True) Unhurried).Starts
          (· = ⟨0, .out⟩) ⟨0, .out⟩ (DropInv d ip) := fun {_ _ _ c} => c.elim
      exact ver.step (drop_sound d ip) starts (fun c => c.elim) step
  obtain ⟨γ, ver⟩ := verified
  have inv := ver.inv
  have none : ∀ p, (γ p).left = 0 := by
    intro p
    have le := le_tally (weight_nonneg γ) p
    rw [← inv.ref, zero, Dropper.weight] at le
    omega
  have freed : s.shared.freed ≠ 0 := by
    intro whole
    obtain ⟨_, p, pending⟩ := inv.whole whole
    have out : (γ p).stage = .out := by
      by_contra busy
      have := inv.holds p busy
      rw [none p] at this
      exact lt_irrefl 0 this
    unfold Dropper.Pending at pending
    rw [none p, out] at pending
    simp at pending
  exact ⟨(inv.gone freed).1, (inv.gone freed).2.1⟩

end

/-! ## Two processes -/

def twoHolders : Threads (Fin 2) (Op (Fin 2)) Op.Res Unit (Dropping (Fin 2) Disk.smallSb) where
  shared :=
    { fs :=
        { State.initial (Disk.smallDisk 0) 0 with
          icache := fun _ => ⟨rootDev, 1, 2, none, true, Disk.smallFile 0⟩
          outstanding := 2 }
      freed := 0
      leaving := fun _ => false }
  code := fun _ => some (iputs 0 1)

theorem twoHolders_begins : Begins (Disk.smallDisk 0) 0 (fun _ => 1) twoHolders where
  unlinked := ⟨rfl, rfl, (Disk.smallDisk_dinode 0).symm, by decide, Disk.smallDisk_ok 0, rfl⟩
  ref := rfl
  positive := by decide
  lock := rfl
  freed := rfl
  leaving _ := rfl
  code _ := rfl

/-- One process after the other. -/
theorem last_iput_frees_two :
    ∃ s, (dropping (drops.within (fun _ _ _ => True) Unhurried) (Disk.smallDisk 0) 0
        fun _ : Fin 2 => 1).Reachable s ∧ (s.shared.fs.icache 0).ref = 0 ∧ s.shared.freed = 1 ∧
      Cleared (Disk.smallDisk 0) s.shared.fs 0 := by
  have run : ((Lts.exec (drops.within (fun _ _ _ => True) Unhurried).next (fun _ => true) twoHolders
      (List.replicate 6 (.op 0) ++ List.replicate 7 (.op 1))).map fun s =>
      decide ((s.shared.fs.icache 0).ref = 0)) = some true := by
    decide +kernel
  obtain ⟨s, exec, zero⟩ := Option.map_eq_some_iff.mp run
  have start : (dropping (drops.within (fun _ _ _ => True) Unhurried) (Disk.smallDisk 0) 0
      fun _ : Fin 2 => 1).Reachable twoHolders := .init twoHolders_begins
  have reach := start.of_exec (fun _ _ _ _ next _ => Pool.step_of_next next) exec
  have zero := of_decide_eq_true zero
  exact ⟨s, reach, zero, last_iput_frees reach zero⟩

/-- Both look at `ref` before either has decremented it.  Nobody frees the inode, and its blocks
stay marked. -/
theorem iput_leaks :
    ∃ s, (dropping drops (Disk.smallDisk 0) 0 fun _ : Fin 2 => 1).Reachable s ∧
      (s.shared.fs.icache 0).ref = 0 ∧ s.shared.freed = 0 ∧
      (s.shared.fs.disk.dinode 1).type ≠ 0 ∧ s.shared.fs.disk.bit 5 = true := by
  have run : ((Lts.exec drops.next (fun _ => true) twoHolders
      (List.replicate 5 (.op 0) ++ List.replicate 5 (.op 1) ++ [.op 0, .op 1])).map fun s =>
      decide ((s.shared.fs.icache 0).ref = 0 ∧ s.shared.freed = 0 ∧
        (s.shared.fs.disk.dinode 1).type ≠ 0 ∧ s.shared.fs.disk.bit 5 = true)) = some true := by
    decide +kernel
  obtain ⟨s, exec, facts⟩ := Option.map_eq_some_iff.mp run
  have start : (dropping drops (Disk.smallDisk 0) 0 fun _ : Fin 2 => 1).Reachable twoHolders :=
    .init twoHolders_begins
  exact ⟨s, start.of_exec (fun _ _ _ _ next _ => Pool.step_of_next next) exec,
    of_decide_eq_true facts⟩

end Xv6.Fs
