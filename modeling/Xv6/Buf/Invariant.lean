import Xv6.Buf.Cache
import Xv6.Lib.Tally
import Mathlib.Tactic.Linarith

/-!
# The invariant of the buffer cache

`At s b` is the part about a single buffer: how its reference count comes about, what its holder's
position says about its flags, and that its contents are those last logged or written for its
block.  `Inv` adds what relates buffers to each other and to the disk.  A step moves one process,
which works on one buffer (`Moves`); `At.frame` gives `At` for all the others.
-/

namespace Xv6.Buf

open Function List

def Pc.about : Pc → Option Ptr
  | .out => none
  | .sleep b | .test b | .iderw b _ | .logWrite b | .unref b => some b

/-- The buffer a process counts in `refcnt` without having it locked. -/
def Pc.awaits : Pc → Option Ptr
  | .sleep b | .unref b => some b
  | _ => none

/-- The buffer a process works on with the lock held. -/
def Pc.holds : Pc → Option Ptr
  | .test b | .iderw b _ | .logWrite b => some b
  | _ => none

/-- The buffer `bread` is going to return. -/
def Pc.fetches : Pc → Option Ptr
  | .sleep b | .test b | .iderw b true => some b
  | _ => none

variable {pc : Pc} {b : Ptr}

theorem Pc.about_of_awaits (awaits : pc.awaits = some b) : pc.about = some b := by
  cases pc <;> simp_all [Pc.awaits, Pc.about]

theorem Pc.about_of_holds (holds : pc.holds = some b) : pc.about = some b := by
  cases pc <;> simp_all [Pc.holds, Pc.about]

variable {P D : Type}

/-- What the position of its holder says about a locked buffer. -/
structure Stage (pc : Pc) (b : Ptr) (queued : Prop) (x : Buffer P D) : Prop where
  test : pc = .test b → ¬ queued ∧ x.edited = false
  request : ∀ r, pc = .iderw b r → x.edited = false ∧
    (queued → x.valid = !r ∧ x.dirty = !r) ∧ (¬ queued → x.valid = true ∧ x.dirty = false)
  ready : pc ≠ .test b → (∀ r, pc ≠ .iderw b r) → x.valid = true ∧ ¬ queued

variable {x : Buffer P D}

theorem Stage.of_ready {queued : Prop} (elsewhere : ∀ c, pc.about = some c → c ≠ b)
    (valid : x.valid = true) (free : ¬ queued) :
    Stage pc b queued x where
  test eq := absurd rfl (elsewhere b (eq ▸ rfl))
  request _ eq := absurd rfl (elsewhere b (eq ▸ rfl))
  ready _ _ := ⟨valid, free⟩

theorem Stage.valid {queued : Prop} (stage : Stage pc b queued x)
    (elsewhere : ∀ c, pc.about = some c → c ≠ b) : x.valid = true ∧ ¬ queued :=
  stage.ready (fun eq => absurd rfl (elsewhere b (eq ▸ rfl)))
    fun _ eq => absurd rfl (elsewhere b (eq ▸ rfl))

def waiting (b : Ptr) (pr : Process) : ℤ := if pr.pc.awaits = some b then 1 else 0

theorem waiting_of_ne {pr : Process} (ne : pr.pc.about ≠ some b) : waiting b pr = 0 :=
  if_neg fun awaits => ne (Pc.about_of_awaits awaits)

section

variable [Fintype P]

structure At (s : Bcache P D) (b : Ptr) : Prop where
  refs : ((s.buf b).refcnt : ℤ) =
    (if (s.buf b).lock.isSome then 1 else 0) + tally (waiting b) s.proc
  used : 0 < (s.buf b).refcnt ∨ (s.buf b).valid = true → (s.buf b).dev = rootDev
  holds : ∀ p, (s.proc p).pc.holds = some b → (s.buf b).lock = some p
  locked : ∀ p, (s.buf b).lock = some p → Stage (s.proc p).pc b (b ∈ s.idequeue) (s.buf b)
  unlocked : (s.buf b).lock = none → b ∉ s.idequeue ∧ (s.buf b).edited = false
  dirty : (s.buf b).dirty = true → (s.buf b).valid = true
  data : (s.buf b).valid = true → (s.buf b).edited = false →
    (s.buf b).data = s.last (s.buf b).blockno

/-- The invariant, but for the request the disk works on. -/
structure Settled (s : Bcache P D) : Prop where
  ring : ∃ xs : List Ptr, s.links.Ring none (xs.map some) ∧ ∀ b, b ∈ xs
  unique : ∀ b c, (s.buf b).dev = rootDev → (s.buf c).dev = rootDev →
    (s.buf b).blockno = (s.buf c).blockno → b = c
  at_buf : ∀ b, At s b
  queue : s.idequeue.Nodup
  store : ∀ n, s.disk n = s.last n ∨ ∃ b, (s.buf b).dirty = true ∧ (s.buf b).blockno = n

/-- The invariant.  A block that is being written is on the disk already. -/
structure Inv (s : Bcache P D) : Prop extends Settled s where
  head : s.panic = none → ∀ b, s.idequeue.head? = some b → (s.buf b).dirty = true →
    s.disk (s.buf b).blockno = (s.buf b).data

end

section

variable [Fintype P] {s : Bcache P D} {p : P} {b : Ptr}

theorem waiting_nonneg (b : Ptr) (pr : Process) : 0 ≤ waiting b pr := by
  unfold waiting
  split <;> omega

theorem At.counted (at_b : At s b)
    (who : (s.buf b).lock = some p ∨ (s.proc p).pc.awaits = some b) : 0 < (s.buf b).refcnt := by
  have refs := at_b.refs
  rcases who with lock | waits
  · have nonneg := tally_nonneg (g := s.proc) fun q => waiting_nonneg b (s.proc q)
    rw [lock, Option.isSome_some, if_pos rfl] at refs
    omega
  · have one : waiting b (s.proc p) = 1 := if_pos waits
    have le := le_tally (g := s.proc) (fun q => waiting_nonneg b (s.proc q)) p
    split at refs <;> omega

theorem At.used_of_fetches (at_b : At s b) (fetches : (s.proc p).pc.fetches = some b) :
    0 < (s.buf b).refcnt := by
  refine at_b.counted (p := p) ?_
  cases at_p : (s.proc p).pc with
  | out | logWrite _ | unref _ =>
    rw [at_p] at fetches
    cases fetches
  | sleep c =>
    rw [at_p] at fetches
    exact .inr (by rw [← fetches]; rfl)
  | test c =>
    rw [at_p] at fetches
    exact .inl (at_b.holds p (by rw [at_p, ← fetches]; rfl))
  | iderw c r =>
    rw [at_p] at fetches
    cases r with
    | false => cases fetches
    | true => exact .inl (at_b.holds p (by rw [at_p, ← fetches]; rfl))

theorem At.rootDev_of_ref (at_b : At s b)
    (who : (s.buf b).lock = some p ∨ (s.proc p).pc.awaits = some b) : (s.buf b).dev = rootDev :=
  at_b.used (.inl (at_b.counted who))

end

/-! ## Steps that move one process -/

/-- Between `s` and `t` process `p` worked on buffer `b`. -/
structure Moves (p : P) (b : Ptr) (s t : Bcache P D) : Prop where
  buf : ∀ c, c ≠ b → t.buf c = s.buf c
  proc : ∀ q, q ≠ p → t.proc q = s.proc q
  before : ∀ c, (s.proc p).pc.about = some c → c = b
  after : ∀ c, (t.proc p).pc.about = some c → c = b
  queue : ∀ c, c ≠ b → (c ∈ t.idequeue ↔ c ∈ s.idequeue)
  last : ∀ c, c ≠ b → (s.buf c).valid = true → t.last (s.buf c).blockno = s.last (s.buf c).blockno

section

variable [Fintype P] {s t : Bcache P D} {p : P} {b : Ptr}

theorem At.frame {c : Ptr} (at_c : At s c) (moves : Moves p b s t) (ne : c ≠ b) : At t c := by
  have same := moves.buf c ne
  have elsewhere : ∀ q x, (s.proc q).pc.about = some x ∨ (t.proc q).pc.about = some x →
      q = p → x ≠ c := by
    rintro q x (about | about) rfl rfl
    · exact ne (moves.before x about)
    · exact ne (moves.after x about)
  have still : ∀ q, q ≠ p → (t.proc q).pc = (s.proc q).pc := fun q h => by rw [moves.proc q h]
  refine ⟨?_, ?_, fun q holds => ?_, fun q lock => ?_, ?_, ?_, ?_⟩
  · rw [same, at_c.refs]
    congr 1
    refine tally_congr (fun q => ?_)
    rcases eq_or_ne q p with rfl | h
    · rw [waiting_of_ne fun about => elsewhere q c (.inl about) rfl rfl,
        waiting_of_ne fun about => elsewhere q c (.inr about) rfl rfl]
    · rw [moves.proc q h]
  · rw [same]
    exact at_c.used
  · rw [same]
    rcases eq_or_ne q p with rfl | h
    · exact absurd rfl (elsewhere q c (.inr (Pc.about_of_holds holds)) rfl)
    · exact at_c.holds q (still q h ▸ holds)
  · rw [same] at lock ⊢
    have stage := at_c.locked q lock
    rw [propext (moves.queue c ne)]
    rcases eq_or_ne q p with rfl | h
    · obtain ⟨valid, free⟩ := stage.valid fun x about => elsewhere q x (.inl about) rfl
      exact .of_ready (fun x about => elsewhere q x (.inr about) rfl) valid free
    · rw [still q h]
      exact stage
  · rw [same, moves.queue c ne]
    exact at_c.unlocked
  · rw [same]
    exact at_c.dirty
  · rw [same]
    intro valid clean
    rw [moves.last c ne valid]
    exact at_c.data valid clean

variable [DecidableEq P]

theorem Moves.waits (moves : Moves p b s t) :
    tally (waiting b) t.proc =
      tally (waiting b) s.proc - waiting b (s.proc p) + waiting b (t.proc p) := by
  have moved : t.proc = update s.proc p (t.proc p) := by
    funext q
    rcases eq_or_ne q p with rfl | h
    · rw [update_self]
    · rw [update_of_ne h, moves.proc q h]
  calc tally (waiting b) t.proc
      = tally (waiting b) (update s.proc p (t.proc p)) := by rw [← moved]
    _ = _ := tally_update ..

omit [DecidableEq P] in
theorem Settled.of_move (ring : ∃ xs : List Ptr, t.links.Ring none (xs.map some) ∧ ∀ b, b ∈ xs)
    (unique : ∀ b c, (s.buf b).dev = rootDev → (s.buf c).dev = rootDev →
      (s.buf b).blockno = (s.buf c).blockno → b = c)
    (at_buf : ∀ c, At s c) (moves : Moves p b s t)
    (dev : (t.buf b).dev = (s.buf b).dev) (blockno : (t.buf b).blockno = (s.buf b).blockno)
    (at_b : At t b) (queue : t.idequeue.Nodup)
    (store : ∀ n, t.disk n = t.last n ∨ ∃ c, (t.buf c).dirty = true ∧ (t.buf c).blockno = n) :
    Settled t := by
  have block : ∀ c, (t.buf c).dev = (s.buf c).dev ∧ (t.buf c).blockno = (s.buf c).blockno := by
    intro c
    rcases eq_or_ne c b with rfl | ne
    · exact ⟨dev, blockno⟩
    · rw [moves.buf c ne]
      exact ⟨rfl, rfl⟩
  refine ⟨ring, fun c d => ?_, fun c => ?_, queue, store⟩
  · rw [(block c).1, (block c).2, (block d).1, (block d).2]
    exact unique c d
  · rcases eq_or_ne c b with rfl | ne
    · exact at_b
    · exact (at_buf c).frame moves ne

omit [DecidableEq P] in
theorem At.same (at_b : At s b) (buf : t.buf b = s.buf b) (queue : t.idequeue = s.idequeue)
    (pc : ∀ q, (t.proc q).pc = (s.proc q).pc)
    (data : (s.buf b).valid = true → (s.buf b).edited = false →
      (s.buf b).data = t.last (s.buf b).blockno) : At t b := by
  refine ⟨?_, ?_, fun q => ?_, fun q => ?_, ?_, ?_, ?_⟩
  · rw [buf, at_b.refs]
    congr 1
    refine tally_congr fun q => ?_
    rw [waiting, waiting, pc q]
  · exact buf ▸ at_b.used
  · rw [buf, pc q]
    exact at_b.holds q
  · rw [buf, pc q, queue]
    exact at_b.locked q
  · rw [buf, queue]
    exact at_b.unlocked
  · exact buf ▸ at_b.dirty
  · rw [buf]
    exact data

omit [DecidableEq P] in
theorem Inv.same (inv : Inv s) (buf : t.buf = s.buf) (links : t.links = s.links)
    (queue : t.idequeue = s.idequeue) (disk : t.disk = s.disk) (last : t.last = s.last)
    (pc : ∀ q, (t.proc q).pc = (s.proc q).pc) (panic : t.panic = none → s.panic = none) :
    Inv t := by
  refine ⟨⟨links ▸ inv.ring, buf ▸ inv.unique, fun c => ?_, queue ▸ inv.queue, ?_⟩,
    fun running => ?_⟩
  · exact (inv.at_buf c).same (congrFun buf c) queue pc (last ▸ (inv.at_buf c).data)
  · rw [disk, last, buf]
    exact inv.store
  · rw [queue, buf, disk]
    exact inv.head (panic running)

omit [DecidableEq P] in
theorem Inv.stop (inv : Inv s) (why : Panic) : Inv (s.stop why) :=
  inv.same rfl rfl rfl rfl rfl (fun _ => rfl) (by intros; contradiction)

omit [DecidableEq P] in
theorem Settled.buffers (settled : Settled s) : ∃ xs : List Ptr,
    s.links.Ring none (xs.map some) ∧ xs.Nodup ∧ (∀ b, b ∈ xs) ∧ (xs.map some).length = nbuf := by
  obtain ⟨xs, ring, all⟩ := settled.ring
  have nodup : xs.Nodup := List.Nodup.of_map some (nodup_cons.mp ring.nodup).2
  refine ⟨xs, ring, nodup, all, ?_⟩
  have perm : xs.Perm (finRange nbuf) :=
    (perm_ext_iff_of_nodup nodup (nodup_finRange nbuf)).mpr fun b => by simp [all b]
  rw [length_map, perm.length_eq, length_finRange]

theorem find_node {ys : List Node} (all : ∀ b, some b ∈ ys) (nodes : none ∉ ys)
    (test : Node → Bool) : (∃ b, test (some b) = true ∧ ys.find? test = some (some b)) ∨
      (∀ b, test (some b) = false) ∧ ys.find? test = none := by
  cases found : ys.find? test with
  | none =>
    rw [find?_eq_none] at found
    exact .inr ⟨fun b => by simpa using found _ (all b), rfl⟩
  | some y =>
    cases y with
    | none => exact absurd (mem_of_find?_eq_some found) nodes
    | some b => exact .inl ⟨b, find?_some found, rfl⟩

omit [DecidableEq P] in
theorem Settled.walks (settled : Settled s) (test : Node → Bool) :
    ((∃ b, test (some b) = true ∧
        Links.walk s.links.next none test (nbuf + 1) (s.links.next none) = some (some (some b))) ∨
      (∀ b, test (some b) = false) ∧
        Links.walk s.links.next none test (nbuf + 1) (s.links.next none) = some none) ∧
    ((∃ b, test (some b) = true ∧
        Links.walk s.links.prev none test (nbuf + 1) (s.links.prev none) = some (some (some b))) ∨
      (∀ b, test (some b) = false) ∧
        Links.walk s.links.prev none test (nbuf + 1) (s.links.prev none) = some none) := by
  obtain ⟨xs, ring, _, all, length⟩ := settled.buffers
  rw [ring.walk_next test (by omega), ring.walk_prev test (by omega)]
  have forth : ∀ b, some b ∈ xs.map some := by simpa using all
  have back : ∀ b, some b ∈ (xs.map some).reverse := by simpa using all
  have next := find_node forth (by simp) test
  have prev := find_node back (by simp) test
  simp only [Option.some.injEq]
  exact ⟨next, prev⟩

/-- What `bget` does: it finds the block, it recycles a buffer that nobody uses, or it panics
because there is none. -/
theorem Settled.bget (settled : Settled s) (p : P) (dev n : Nat) :
    (∃ b, ((s.buf b).dev = dev ∧ (s.buf b).blockno = n) ∧ bget s p dev n =
      some (((s.ask p n).setBuf b { s.buf b with refcnt := (s.buf b).refcnt + 1 }).goto p
        (.sleep b))) ∨
    (∀ b, ¬ ((s.buf b).dev = dev ∧ (s.buf b).blockno = n)) ∧
    ((∃ b, ((s.buf b).refcnt = 0 ∧ (s.buf b).dirty = false) ∧ bget s p dev n =
        some (((s.ask p n).setBuf b { s.buf b with
          dev := dev, blockno := n, valid := false, dirty := false, refcnt := 1 }).goto p
            (.sleep b))) ∨
      (∀ b, ¬ ((s.buf b).refcnt = 0 ∧ (s.buf b).dirty = false)) ∧
        bget s p dev n = some ((s.ask p n).stop .noBuffers)) := by
  rcases (settled.walks (s.caches dev n)).1 with ⟨b, found, walk⟩ | ⟨absent, walk⟩
  · refine .inl ⟨b, by simpa [Bcache.caches] using found, ?_⟩
    rw [Buf.bget, walk]
  · refine .inr ⟨fun b => by simpa [Bcache.caches] using absent b, ?_⟩
    rcases (settled.walks s.unused).2 with ⟨b, found, walk'⟩ | ⟨busy, walk'⟩
    · refine .inl ⟨b, by simpa [Bcache.unused] using found, ?_⟩
      rw [Buf.bget, walk, walk']
    · refine .inr ⟨fun b => by simpa [Bcache.unused] using busy b, ?_⟩
      rw [Buf.bget, walk, walk']

/-! ## The steps -/

variable {pc : Pc}

omit [Fintype P] in
theorem moves_set (x : Buffer P D) (before : ∀ c, (s.proc p).pc.about = some c → c = b)
    (after : ∀ c, pc.about = some c → c = b) : Moves p b s ((s.setBuf b x).goto p pc) where
  buf c ne := update_of_ne ne _ _
  proc q ne := update_of_ne ne _ _
  before := before
  after c about := by
    refine after c ?_
    have moved : ((s.setBuf b x).goto p pc).proc p = { s.proc p with pc := pc } :=
      update_self ..
    rwa [moved] at about
  queue _ _ := Iff.rfl
  last _ _ _ := rfl

omit [Fintype P] in
theorem setBuf_goto_buf (x : Buffer P D) (pc : Pc) : ((s.setBuf b x).goto p pc).buf b = x :=
  update_self ..

omit [Fintype P] in
theorem setBuf_goto_self (x : Buffer P D) (pc : Pc) :
    ((s.setBuf b x).goto p pc).proc p = { s.proc p with pc := pc } :=
  update_self ..

omit [Fintype P] in
theorem setBuf_goto_ne (x : Buffer P D) (pc : Pc) {q : P} (ne : q ≠ p) :
    ((s.setBuf b x).goto p pc).proc q = s.proc q :=
  update_of_ne ne _ _

/-- `p` moved to `pc`, and `b` is now `x`: what has to be shown about `b`. -/
theorem At.set (at_b : At s b)
    (before : ∀ c, (s.proc p).pc.about = some c → c = b) (after : ∀ c, pc.about = some c → c = b)
    (refs : (x.refcnt : ℤ) - (if x.lock.isSome then 1 else 0) -
      (if pc.awaits = some b then 1 else 0) =
      (s.buf b).refcnt - (if (s.buf b).lock.isSome then 1 else 0) -
        (if (s.proc p).pc.awaits = some b then 1 else 0)) (used : x.dev = rootDev)
    (holds : pc.holds = some b → x.lock = some p)
    (kept : ∀ q, q ≠ p → ((s.buf b).lock = some q ↔ x.lock = some q))
    (mine : x.lock = some p → Stage pc b (b ∈ s.idequeue) x)
    (others : ∀ q, x.lock = some q → q ≠ p → x.valid = (s.buf b).valid ∧
      x.dirty = (s.buf b).dirty ∧ x.edited = (s.buf b).edited)
    (unlocked : x.lock = none → b ∉ s.idequeue ∧ x.edited = false)
    (dirty : x.dirty = true → x.valid = true)
    (data : x.valid = true → x.edited = false → x.data = s.last x.blockno) :
    At ((s.setBuf b x).goto p pc) b := by
  have moves := moves_set x before after
  refine ⟨?_, fun _ => ?_, fun q at_q => ?_, fun q lock => ?_, ?_, ?_, ?_⟩
  · rw [setBuf_goto_buf, moves.waits, setBuf_goto_self, waiting, waiting]
    have := at_b.refs
    linarith
  · rwa [setBuf_goto_buf]
  · rw [setBuf_goto_buf]
    rcases eq_or_ne q p with rfl | ne
    · rw [setBuf_goto_self] at at_q
      exact holds at_q
    · rw [setBuf_goto_ne _ _ ne] at at_q
      exact (kept q ne).mp (at_b.holds q at_q)
  · rw [setBuf_goto_buf] at lock ⊢
    rcases eq_or_ne q p with rfl | ne
    · rw [setBuf_goto_self]
      exact mine lock
    · rw [setBuf_goto_ne _ _ ne]
      have stage := at_b.locked q ((kept q ne).mpr lock)
      obtain ⟨valid, dirty, edited⟩ := others q lock ne
      refine ⟨fun at_q => ?_, fun r at_q => ?_, fun h h' => ?_⟩
      · rw [edited]
        exact stage.test at_q
      · rw [edited, valid, dirty]
        exact stage.request r at_q
      · rw [valid]
        exact stage.ready h h'
  · rw [setBuf_goto_buf]
    exact unlocked
  · rw [setBuf_goto_buf]
    exact dirty
  · rw [setBuf_goto_buf]
    exact data

theorem Inv.set (inv : Inv s) (before : ∀ c, (s.proc p).pc.about = some c → c = b)
    (after : ∀ c, pc.about = some c → c = b) (dev : x.dev = (s.buf b).dev)
    (blockno : x.blockno = (s.buf b).blockno) (dirty : (s.buf b).dirty = true → x.dirty = true)
    (request : b ∈ s.idequeue → x.dirty = (s.buf b).dirty ∧ x.data = (s.buf b).data)
    (at_b : At ((s.setBuf b x).goto p pc) b) : Inv ((s.setBuf b x).goto p pc) := by
  have moves := moves_set x before after
  refine ⟨.of_move inv.ring inv.unique inv.at_buf moves ?_ ?_ at_b inv.queue fun n => ?_,
    fun running c at_head => ?_⟩
  · rw [setBuf_goto_buf, dev]
  · rw [setBuf_goto_buf, blockno]
  · refine (inv.store n).imp id fun ⟨c, is_dirty, at_n⟩ => ⟨c, ?_⟩
    rcases eq_or_ne c b with rfl | ne
    · rw [setBuf_goto_buf, blockno]
      exact ⟨dirty is_dirty, at_n⟩
    · rw [moves.buf c ne]
      exact ⟨is_dirty, at_n⟩
  · have head := inv.head running c at_head
    rcases eq_or_ne c b with rfl | ne
    · obtain ⟨same, data⟩ := request (mem_of_mem_head? at_head)
      rw [setBuf_goto_buf, same, data, blockno]
      exact head
    · rw [moves.buf c ne]
      exact head

omit [Fintype P] in
theorem goto_self (s : Bcache P D) (p : P) : s.goto p (s.proc p).pc = s := by
  have same : update s.proc p { s.proc p with pc := (s.proc p).pc } = s.proc :=
    update_eq_self p s.proc
  rw [Bcache.goto, same]

omit [DecidableEq P] in
theorem At.ready (at_b : At s b) (lock : (s.buf b).lock = some p)
    (out : (s.proc p).pc = .out) : (s.buf b).valid = true ∧ b ∉ s.idequeue :=
  (at_b.locked p lock).valid fun c about => by simp [out, Pc.about] at about

section Keep

variable (inv : Inv s)
include inv

theorem Inv.hit (out : (s.proc p).pc = .out) (dev : (s.buf b).dev = rootDev) :
    Inv ((s.setBuf b { s.buf b with refcnt := (s.buf b).refcnt + 1 }).goto p (.sleep b)) := by
  have at_b := inv.at_buf b
  have before : ∀ c, (s.proc p).pc.about = some c → c = b := by simp [out, Pc.about]
  have after : ∀ c, (Pc.sleep b).about = some c → c = b := fun c eq => (Option.some.inj eq).symm
  refine inv.set before after rfl rfl id (fun _ => ⟨rfl, rfl⟩)
    (at_b.set before after ?_ dev (by intros; contradiction)
    (fun _ _ => Iff.rfl) (fun lock => ?_) (fun _ _ _ => ⟨rfl, rfl, rfl⟩) at_b.unlocked at_b.dirty
    at_b.data)
  · simp only [out, Pc.awaits, if_true, Nat.cast_add, Nat.cast_one, reduceCtorEq, if_false]
    linarith
  · obtain ⟨valid, free⟩ := at_b.ready lock out
    exact ⟨(by simp), (by simp), fun _ _ => ⟨valid, free⟩⟩

theorem Inv.acquire (at_p : (s.proc p).pc = .sleep b) (free : (s.buf b).lock = none) :
    Inv ((s.setBuf b { s.buf b with lock := some p }).goto p (.test b)) := by
  have at_b := inv.at_buf b
  have before : ∀ c, (s.proc p).pc.about = some c → c = b := by simp [at_p, Pc.about]
  have after : ∀ c, (Pc.test b).about = some c → c = b := fun c eq => (Option.some.inj eq).symm
  obtain ⟨not_queued, clean⟩ := at_b.unlocked free
  have dev := at_b.rootDev_of_ref (p := p) (.inr (by rw [at_p]; rfl))
  refine inv.set before after rfl rfl id (fun _ => ⟨rfl, rfl⟩) (at_b.set before after ?_
    dev (fun _ => rfl) (fun q ne => ?_) (fun _ => ?_)
    (fun _ _ _ => ⟨rfl, rfl, rfl⟩) (by simp) at_b.dirty at_b.data)
  · simp [at_p, free, Pc.awaits]
  · rw [free]
    simp [Ne.symm ne]
  · exact ⟨fun _ => ⟨not_queued, clean⟩, (by simp), fun h => absurd rfl h⟩

theorem Inv.walk (lock : (s.buf b).lock = some p)
    (before : ∀ c, (s.proc p).pc.about = some c → c = b) (after : ∀ c, pc.about = some c → c = b)
    (waits : (s.proc p).pc.awaits = none) (waits' : pc.awaits = none)
    (stage : Stage pc b (b ∈ s.idequeue) (s.buf b)) : Inv (s.goto p pc) := by
  have at_b := inv.at_buf b
  have same : s.goto p pc = (s.setBuf b (s.buf b)).goto p pc := by
    rw [Bcache.setBuf, update_eq_self]
  rw [same]
  refine inv.set before after rfl rfl id (fun _ => ⟨rfl, rfl⟩) (at_b.set before after ?_
    (at_b.rootDev_of_ref (.inl lock)) (fun _ => lock) (fun _ _ => Iff.rfl) (fun _ => stage)
    (fun _ _ _ => ⟨rfl, rfl, rfl⟩) at_b.unlocked at_b.dirty at_b.data)
  rw [waits, waits']

theorem Inv.edit (lock : (s.buf b).lock = some p) (out : (s.proc p).pc = .out) (d : D) :
    Inv (edit s b d) := by
  have at_b := inv.at_buf b
  obtain ⟨valid, free⟩ := at_b.ready lock out
  have before : ∀ c, (s.proc p).pc.about = some c → c = b := by simp [out, Pc.about]
  have same : Buf.edit s b d =
      (s.setBuf b { s.buf b with data := d, edited := true }).goto p (s.proc p).pc :=
    (goto_self (Buf.edit s b d) p).symm
  rw [same]
  refine inv.set before before rfl rfl id (fun queued => absurd queued free)
    (at_b.set before before rfl (at_b.rootDev_of_ref (.inl lock)) (fun _ => lock)
      (fun _ _ => Iff.rfl) (fun _ => ?_) (fun q lock' ne => ?_) (fun none => ?_) at_b.dirty
      (by simp))
  · rw [out]
    exact ⟨(by simp), (by simp), fun _ _ => ⟨valid, free⟩⟩
  · exact absurd (Option.some.inj (lock'.symm.trans lock)) ne
  · cases lock.symm.trans none

theorem Inv.release (lock : (s.buf b).lock = some p) (out : (s.proc p).pc = .out)
    (clean : (s.buf b).edited = false) :
    Inv ((s.setBuf b { s.buf b with lock := none }).goto p (.unref b)) := by
  have at_b := inv.at_buf b
  have before : ∀ c, (s.proc p).pc.about = some c → c = b := by simp [out, Pc.about]
  have after : ∀ c, (Pc.unref b).about = some c → c = b := fun c eq => (Option.some.inj eq).symm
  have free := (at_b.ready lock out).2
  refine inv.set before after rfl rfl id (fun _ => ⟨rfl, rfl⟩) (at_b.set before after ?_
    (at_b.rootDev_of_ref (.inl lock)) (by intros; contradiction) (fun q ne => ?_) (by simp)
    (by simp)
    (fun _ => ⟨free, clean⟩) at_b.dirty at_b.data)
  · simp [out, lock, Pc.awaits]
  · rw [lock]
    simp [Ne.symm ne]

omit [DecidableEq P] in
theorem Inv.relink (b : Ptr) :
    Inv { s with links := (s.links.unlink (some b)).push none (some b) } := by
  obtain ⟨xs, ring, all⟩ := inv.ring
  obtain ⟨ys, zs, rfl⟩ := append_of_mem (all b)
  have nodup : (ys ++ b :: zs).Nodup := List.Nodup.of_map some (nodup_cons.mp ring.nodup).2
  rw [map_append, map_cons] at ring
  have unlinked := ring.unlink
  rw [← map_append] at unlinked
  have pushed := unlinked.push (b := some b) (by
    simpa using (nodup_cons.mp (nodup_middle.mp nodup)).1)
  refine ⟨⟨⟨b :: (ys ++ zs), pushed, fun c => ?_⟩, inv.unique, fun c => ?_, inv.queue, inv.store⟩,
    inv.head⟩
  · have mem := all c
    simp only [mem_append, mem_cons] at mem ⊢
    tauto
  · exact (inv.at_buf c).same rfl rfl (fun _ => rfl) (inv.at_buf c).data

theorem Inv.unref (at_p : (s.proc p).pc = .unref b) {t : Bcache P D}
    (eq : brelseUnref s p = some t) : Inv t := by
  have at_b := inv.at_buf b
  have before : ∀ c, (s.proc p).pc.about = some c → c = b := by simp [at_p, Pc.about]
  have after : ∀ c, Pc.out.about = some c → c = b := (by intros; contradiction)
  have counted := at_b.counted (p := p) (.inr (by rw [at_p]; rfl))
  have dropped :
      Inv ((s.setBuf b { s.buf b with refcnt := (s.buf b).refcnt - 1 }).goto p .out) := by
    refine inv.set before after rfl rfl id (fun _ => ⟨rfl, rfl⟩) (at_b.set before after ?_
      (at_b.used (.inl counted)) (by intros; contradiction) (fun _ _ => Iff.rfl) (fun lock => ?_)
      (fun _ _ _ => ⟨rfl, rfl, rfl⟩) at_b.unlocked at_b.dirty at_b.data)
    · simp only [at_p, Pc.awaits, if_true, reduceCtorEq, if_false]
      have cast : (((s.buf b).refcnt - 1 : Nat) : ℤ) = (s.buf b).refcnt - 1 := by omega
      rw [cast]
      linarith
    · have stage := at_b.locked p lock
      rw [at_p] at stage
      exact ⟨(by simp), (by simp), fun _ _ => stage.ready (by simp) (by simp)⟩
  rw [brelseUnref, at_p] at eq
  simp only at eq
  split at eq
  · cases eq
    exact dropped.relink b
  · cases eq
    exact dropped

theorem Inv.recycle (out : (s.proc p).pc = .out) {n : Nat}
    (absent : ∀ c, ¬ ((s.buf c).dev = rootDev ∧ (s.buf c).blockno = n))
    (idle : (s.buf b).refcnt = 0) (clean : (s.buf b).dirty = false) :
    Inv ((s.setBuf b { s.buf b with
      dev := rootDev, blockno := n, valid := false, dirty := false, refcnt := 1 }).goto p
        (.sleep b)) := by
  have at_b := inv.at_buf b
  have before : ∀ c, (s.proc p).pc.about = some c → c = b := by simp [out, Pc.about]
  have after : ∀ c, (Pc.sleep b).about = some c → c = b := fun c eq => (Option.some.inj eq).symm
  have moves := moves_set { s.buf b with
    dev := rootDev, blockno := n, valid := false, dirty := false, refcnt := 1 } before after
  have lock : (s.buf b).lock = none := by
    cases lock : (s.buf b).lock with
    | none => rfl
    | some q =>
      have := at_b.counted (p := q) (.inl lock)
      omega
  have free := at_b.unlocked lock
  have new : At ((s.setBuf b { s.buf b with
      dev := rootDev, blockno := n, valid := false, dirty := false, refcnt := 1 }).goto p
        (.sleep b)) b := by
    refine at_b.set before after ?_ rfl (by intros; contradiction) (fun _ _ => Iff.rfl)
      (fun locked => ?_)
      (fun q locked => ?_) (fun _ => free) (by simp) (by simp)
    · simp [out, idle, Pc.awaits]
    · cases lock.symm.trans locked
    · cases lock.symm.trans locked
  refine ⟨⟨inv.ring, fun c d at_c at_d same => ?_, fun c => ?_, inv.queue, fun m => ?_⟩,
    fun running c at_head => ?_⟩
  · rcases eq_or_ne c b with eq_c | ne_c <;> rcases eq_or_ne d b with eq_d | ne_d
    · exact eq_c.trans eq_d.symm
    · rw [eq_c, setBuf_goto_buf, moves.buf d ne_d] at same
      rw [moves.buf d ne_d] at at_d
      exact absurd ⟨at_d, same.symm⟩ (absent d)
    · rw [eq_d, setBuf_goto_buf, moves.buf c ne_c] at same
      rw [moves.buf c ne_c] at at_c
      exact absurd ⟨at_c, same⟩ (absent c)
    · rw [moves.buf c ne_c] at at_c same
      rw [moves.buf d ne_d] at at_d same
      exact inv.unique c d at_c at_d same
  · rcases eq_or_ne c b with rfl | ne
    · exact new
    · exact (inv.at_buf c).frame moves ne
  · refine (inv.store m).imp id fun ⟨c, dirty, at_m⟩ => ⟨c, ?_⟩
    have ne : c ≠ b := by
      rintro rfl
      rw [clean] at dirty
      cases dirty
    rw [moves.buf c ne]
    exact ⟨dirty, at_m⟩
  · have ne : c ≠ b := by
      rintro rfl
      exact free.1 (mem_of_mem_head? at_head)
    rw [moves.buf c ne]
    exact inv.head running c at_head

/-- The holder of `b` makes its contents those of the block: they are the contents last logged
or written, and the buffer is dirty. -/
theorem Inv.publish (lock : (s.buf b).lock = some p)
    (before : ∀ c, (s.proc p).pc.about = some c → c = b) (waits : (s.proc p).pc.awaits = none)
    (valid : (s.buf b).valid = true) (free : b ∉ s.idequeue) (lh : List Nat) :
    Inv { s.setBuf b { s.buf b with dirty := true, edited := false } with
      lh := lh
      last := update s.last (s.buf b).blockno (s.buf b).data
      proc := update s.proc p { s.proc p with pc := .out } } := by
  let s1 := { s with lh := lh, last := update s.last (s.buf b).blockno (s.buf b).data }
  have after : ∀ c, Pc.out.about = some c → c = b := (by intros; contradiction)
  have dev := (inv.at_buf b).rootDev_of_ref (.inl lock)
  have at_all : ∀ c, At s1 c := by
    intro c
    refine (inv.at_buf c).same rfl rfl (fun _ => rfl) fun valid_c clean => ?_
    change _ = update s.last _ _ _
    rcases eq_or_ne c b with rfl | ne
    · rw [update_self]
    · have other : (s.buf c).blockno ≠ (s.buf b).blockno := fun same =>
        ne (inv.unique c b ((inv.at_buf c).used (.inr valid_c)) dev same)
      rw [update_of_ne other]
      exact (inv.at_buf c).data valid_c clean
  have moves : Moves p b s1 ((s1.setBuf b { s.buf b with dirty := true, edited := false }).goto p
    .out) := moves_set (s := s1) _ before after
  have new : At ((s1.setBuf b { s.buf b with dirty := true, edited := false }).goto p .out) b := by
    refine (at_all b).set before after ?_ dev (by intros; contradiction) (fun _ _ => Iff.rfl)
      (fun _ => ?_)
      (fun q lock' ne => ?_) (fun none => ?_) (fun _ => valid) fun _ _ => ?_
    · change _ = _ - _ - (if (s.proc p).pc.awaits = some b then 1 else 0)
      rw [waits]
      rfl
    · exact ⟨(by simp), (by simp), fun _ _ => ⟨valid, free⟩⟩
    · exact absurd (Option.some.inj (lock'.symm.trans lock)) ne
    · cases lock.symm.trans none
    · exact (update_self (β := fun _ => D) ..).symm
  have buf_b := setBuf_goto_buf (s := s1) (p := p) (b := b)
    { s.buf b with dirty := true, edited := false } .out
  change Inv ((s1.setBuf b _).goto p .out)
  refine ⟨.of_move (s := s1) inv.ring inv.unique at_all moves ?_ ?_ new inv.queue fun n => ?_,
    fun running c at_head => ?_⟩
  · rw [buf_b]
  · rw [buf_b]
  · rcases eq_or_ne n (s.buf b).blockno with rfl | other
    · exact .inr ⟨b, by rw [buf_b], by rw [buf_b]⟩
    · refine (inv.store n).imp (fun same => ?_) fun ⟨c, dirty, at_n⟩ => ⟨c, ?_⟩
      · exact same.trans (update_of_ne other _ _).symm
      · have ne : c ≠ b := by
          rintro rfl
          exact other at_n.symm
        rw [moves.buf c ne]
        exact ⟨dirty, at_n⟩
  · have ne : c ≠ b := by
      rintro rfl
      exact free (mem_of_mem_head? at_head)
    rw [moves.buf c ne]
    exact inv.head running c at_head

end Keep

omit [DecidableEq P] in
theorem Settled.idestart (settled : Settled s) (at_head : s.idequeue.head? = some b) :
    Inv (idestart s b) := by
  unfold Buf.idestart
  split
  · refine ⟨⟨settled.ring, settled.unique, fun c => ?_, settled.queue, settled.store⟩,
      (by intros; contradiction)⟩
    exact (settled.at_buf c).same rfl rfl (fun _ => rfl) (settled.at_buf c).data
  · split
    · rename_i dirty
      refine ⟨⟨settled.ring, settled.unique, fun c => ?_, settled.queue, fun n => ?_⟩,
        fun _ c at_head' _ => ?_⟩
      · exact (settled.at_buf c).same rfl rfl (fun _ => rfl) (settled.at_buf c).data
      · rcases eq_or_ne n (s.buf b).blockno with rfl | other
        · exact .inr ⟨b, dirty, rfl⟩
        · exact (settled.store n).imp (fun same => (update_of_ne other _ _).trans same) id
      · obtain rfl : b = c := Option.some.inj (at_head.symm.trans at_head')
        exact update_self (β := fun _ => D) ..
    · rename_i clean
      refine ⟨settled, fun _ c at_head' dirty => ?_⟩
      obtain rfl : b = c := Option.some.inj (at_head.symm.trans at_head')
      exact absurd dirty clean

theorem Inv.request (inv : Inv s) (lock : (s.buf b).lock = some p)
    (before : ∀ c, (s.proc p).pc.about = some c → c = b) (waits : (s.proc p).pc.awaits = none)
    (free : b ∉ s.idequeue) (clean : (s.buf b).edited = false) {r : Bool}
    (valid : (s.buf b).valid = !r) (dirty : (s.buf b).dirty = !r) : Inv (iderw s p b r) := by
  have at_b := inv.at_buf b
  let t := { s with idequeue := s.idequeue ++ [b] }.goto p (.iderw b r)
  have self : t.proc p = { s.proc p with pc := .iderw b r } := update_self ..
  have moves : Moves p b s t := by
    refine ⟨fun _ _ => rfl, fun q ne => update_of_ne ne _ _, before, fun c about => ?_,
      fun c ne => ?_, fun _ _ _ => rfl⟩
    · rw [self] at about
      exact (Option.some.inj about).symm
    · change c ∈ s.idequeue ++ [b] ↔ _
      simp [ne]
  have new : At t b := by
    refine ⟨?_, at_b.used, fun q holds => ?_, fun q lock' => ?_, fun none => ?_, at_b.dirty,
      at_b.data⟩
    · change ((s.buf b).refcnt : ℤ) = (if (s.buf b).lock.isSome then 1 else 0) + _
      rw [moves.waits, self, waiting, waiting, waits]
      simpa [Pc.awaits] using at_b.refs
    · rcases eq_or_ne q p with rfl | ne
      · exact lock
      · rw [moves.proc q ne] at holds
        exact at_b.holds q holds
    · obtain rfl : p = q := Option.some.inj (lock.symm.trans lock')
      rw [self]
      refine ⟨(by simp), fun r' at_r => ?_, fun _ other => absurd rfl (other r)⟩
      obtain rfl : r = r' := by
        cases at_r
        rfl
      exact ⟨clean, fun _ => ⟨valid, dirty⟩, fun out => absurd (by simp [t, Bcache.goto]) out⟩
    · cases lock.symm.trans none
  have settled : Settled t := by
    refine .of_move inv.ring inv.unique inv.at_buf moves rfl rfl new ?_ inv.store
    exact nodup_append.mpr ⟨inv.queue, nodup_singleton b, by
      rintro c at_c d at_d rfl
      rw [mem_singleton] at at_d
      exact free (at_d ▸ at_c)⟩
  have busy : ¬ ((s.buf b).valid = true ∧ (s.buf b).dirty = false) := by
    rw [valid, dirty]
    cases r <;> simp
  have queued : t.idequeue = s.idequeue ++ [b] := rfl
  have head : ∀ c, s.idequeue.head? = some c → t.panic = none → (t.buf c).dirty = true →
      t.disk (t.buf c).blockno = (t.buf c).data :=
        fun c at_head running => inv.head running c at_head
  rw [iderw_ite, if_neg (by simp [lock]), if_neg busy]
  change Inv (if s.idequeue = [] then idestart t b else t)
  generalize t = t at settled queued head ⊢
  split
  · rename_i empty
    refine settled.idestart ?_
    rw [queued, empty]
    rfl
  · rename_i some
    refine ⟨settled, fun running d at_head => head d ?_ running⟩
    rwa [queued, head?_append_of_ne_nil _ some] at at_head

theorem Inv.bwrite (inv : Inv s) (out : (s.proc p).pc = .out) : Inv (bwrite s p b) := by
  unfold Buf.bwrite
  split
  · exact inv.stop _
  · rename_i held
    have lock : (s.buf b).lock = some p := by simpa using held
    have before : ∀ c, (s.proc p).pc.about = some c → c = b := by simp [out, Pc.about]
    obtain ⟨valid, free⟩ := (inv.at_buf b).ready lock out
    have published := inv.publish lock before (by rw [out]; rfl) valid free s.lh
    have idle : update s.proc p { s.proc p with pc := .out } = s.proc := by
      rw [← out]
      exact update_eq_self p s.proc
    rw [idle] at published
    have buf_b : (s.setBuf b { s.buf b with dirty := true, edited := false }).buf b =
      { s.buf b with dirty := true, edited := false } := update_self ..
    refine published.request ?_ before (by rw [out]; rfl) free ?_ ?_ ?_
    · exact (congrArg Buffer.lock buf_b).trans lock
    · exact congrArg Buffer.edited buf_b
    · exact (congrArg Buffer.valid buf_b).trans valid
    · exact congrArg Buffer.dirty buf_b

omit [DecidableEq P] in
theorem At.queued (at_b : At s b) (mem : b ∈ s.idequeue) : ∃ p r, (s.buf b).lock = some p ∧
    (s.proc p).pc = .iderw b r ∧ (s.buf b).edited = false ∧
    (s.buf b).valid = !r ∧ (s.buf b).dirty = !r := by
  cases lock : (s.buf b).lock with
  | none => exact absurd mem (at_b.unlocked lock).1
  | some p =>
    have stage := at_b.locked p lock
    by_cases waits : ∃ r, (s.proc p).pc = .iderw b r
    · obtain ⟨r, at_p⟩ := waits
      obtain ⟨clean, request, _⟩ := stage.request r at_p
      exact ⟨p, r, rfl, at_p, clean, request mem⟩
    · have not_test : (s.proc p).pc ≠ .test b := fun at_p => (stage.test at_p).1 mem
      exact absurd mem (stage.ready not_test fun r at_p => waits ⟨r, at_p⟩).2

omit [DecidableEq P] in
theorem Settled.disk_eq (settled : Settled s) (dev : (s.buf b).dev = rootDev)
    (clean : (s.buf b).dirty = false) : s.disk (s.buf b).blockno = s.last (s.buf b).blockno := by
  refine (settled.store (s.buf b).blockno).resolve_right ?_
  rintro ⟨c, dirty, same⟩
  have at_c := settled.at_buf c
  obtain rfl := settled.unique c b (at_c.used (.inr (at_c.dirty dirty))) dev same
  rw [clean] at dirty
  cases dirty

omit [DecidableEq P] in
theorem Inv.served (inv : Inv s) (running : s.panic = none) {rest : List Ptr}
    (queue : s.idequeue = b :: rest) : Settled ({ s with idequeue := rest }.setBuf b { s.buf b with
      data := if (s.buf b).dirty then (s.buf b).data else s.disk (s.buf b).blockno
      valid := true
      dirty := false }) := by
  generalize new : ({ s.buf b with
      data := if (s.buf b).dirty then (s.buf b).data else s.disk (s.buf b).blockno
      valid := true
      dirty := false } : Buffer P D) = x
  have at_b := inv.at_buf b
  have nodup := inv.queue
  rw [queue, nodup_cons] at nodup
  obtain ⟨p, r, lock, at_p, clean, valid, dirty⟩ := at_b.queued (queue ▸ mem_cons_self)
  have dev := at_b.rootDev_of_ref (.inl lock)
  have current : x.data = s.last (s.buf b).blockno := by
    rw [← new]
    change (if (s.buf b).dirty then _ else _) = _
    split
    · rename_i is_dirty
      exact at_b.data (at_b.dirty is_dirty) clean
    · rename_i not_dirty
      exact inv.disk_eq dev (by simpa using not_dirty)
  have buf_b : ({ s with idequeue := rest }.setBuf b x).buf b = x := update_self ..
  have moves : Moves p b s ({ s with idequeue := rest }.setBuf b x) := by
    refine ⟨fun c ne => update_of_ne ne _ _, fun _ _ => rfl, fun c about => ?_,
      fun c about => ?_, fun c ne => ?_, fun _ _ _ => rfl⟩
    · rw [at_p] at about
      exact (Option.some.inj about).symm
    · change (s.proc p).pc.about = some c at about
      rw [at_p] at about
      exact (Option.some.inj about).symm
    · rw [queue, mem_cons]
      exact (or_iff_right ne).symm
  have at_new : At ({ s with idequeue := rest }.setBuf b x) b := by
    refine ⟨?_, fun _ => ?_, fun q => ?_, fun q lock' => ?_, fun none => ?_, fun h => ?_,
      fun _ _ => ?_⟩
    · rw [buf_b, ← new]
      exact at_b.refs
    · rw [buf_b, ← new]
      exact dev
    · rw [buf_b, ← new]
      exact at_b.holds q
    · rw [buf_b, ← new] at lock'
      obtain rfl : p = q := Option.some.inj (lock.symm.trans lock')
      rw [buf_b, ← new]
      change Stage (s.proc p).pc b (b ∈ rest) _
      rw [at_p]
      exact ⟨(by simp), fun _ _ => ⟨clean, fun mem => absurd mem nodup.1, fun _ => ⟨rfl, rfl⟩⟩,
        fun _ other => absurd rfl (other r)⟩
    · rw [buf_b, ← new] at none
      cases lock.symm.trans none
    · rw [buf_b, ← new]
    · rw [buf_b, current, ← new]
      rfl
  refine .of_move inv.ring inv.unique inv.at_buf moves (by rw [buf_b, ← new]) (by rw [buf_b, ← new])
    at_new nodup.2 fun n => ?_
  rcases inv.store n with same | ⟨c, is_dirty, at_n⟩
  · exact .inl same
  · rcases eq_or_ne c b with rfl | ne
    · refine .inl ?_
      change s.disk n = s.last n
      rw [← at_n, inv.head running c (by rw [queue]; rfl) is_dirty]
      exact at_b.data (at_b.dirty is_dirty) clean
    · refine .inr ⟨c, ?_⟩
      rw [moves.buf c ne]
      exact ⟨is_dirty, at_n⟩

omit [DecidableEq P] in
theorem Inv.intr (inv : Inv s) (running : s.panic = none) (eq : ideintr s = some t) : Inv t := by
  rw [ideintr] at eq
  cases queue : s.idequeue with
  | nil =>
    rw [queue] at eq
    cases eq
  | cons b rest =>
    have settled := inv.served running queue
    rw [queue] at eq
    simp only at eq
    cases rest with
    | nil =>
      cases eq
      exact ⟨settled, (by intros; contradiction)⟩
    | cons c rest =>
      cases eq
      exact settled.idestart rfl

/-! ## Every reachable state -/

omit [Fintype P] in
theorem Bcache.held_some {n : Nat} (held : s.held p n = some b) : (s.buf b).lock = some p ∧
    (s.buf b).dev = rootDev ∧ (s.buf b).blockno = n := by
  simpa using find?_some held

theorem Inv.bget (inv : Inv s) (out : (s.proc p).pc = .out) {n : Nat}
    (eq : bget s p rootDev n = some t) : Inv t := by
  have asks : Inv (s.ask p n) := inv.same rfl rfl rfl rfl rfl (fun _ => rfl) id
  rcases inv.toSettled.bget p rootDev n with ⟨b, ⟨dev, _⟩, hit⟩ |
    ⟨absent, ⟨b, idle, miss⟩ | ⟨_, full⟩⟩
  · rw [hit] at eq
    cases eq
    exact asks.hit out dev
  · rw [miss] at eq
    cases eq
    exact asks.recycle out absent idle.1 idle.2
  · rw [full] at eq
    cases eq
    exact asks.stop _

theorem Inv.setCode (inv : Inv s) (code : List Instr) : Inv (s.setCode p code) :=
  inv.same rfl rfl rfl rfl rfl (s.setCode_pc p code) id

end

end Xv6.Buf
