import Xv6.Buf.Commit

/-!
# The buffer cache is a block map

`blockMap` is the cache without buffers: one copy of every block, requests of the processes for
blocks, reads that return the block asked for and writes that replace one.  `Bcache.event` is what a
step of the cache means for its callers: `bread` is called with a block number, `bread` returns with
the contents of a buffer, or `log_write` or `bwrite` makes the contents of a buffer those of its
block; all other steps are silent.
-/

namespace Xv6.Buf

open Function

/-- What a caller of the cache sees of a step.  The numbers in `read` and `write` are those in the
buffer the caller has. -/
inductive Event (P D : Type)
  | request (p : P) (n : Nat)
  | read (p : P) (n : Nat) (d : D)
  | write (n : Nat) (d : D)
  | silent
  deriving DecidableEq, Repr

/-- The contents of all blocks, and the block each process asked for last. -/
structure BlockMap (P D : Type) where
  contents : Nat → D
  asked : P → Nat

/-- What an event means for the block map.  A read returns the block that was asked for. -/
def Event.Step {P D : Type} [DecidableEq P] (e : Event P D) (m m' : BlockMap P D) : Prop :=
  match e with
  | .request p n => m' = { m with asked := update m.asked p n }
  | .read p n d => m' = m ∧ n = m.asked p ∧ d = m.contents n
  | .write n d => m' = { m with contents := update m.contents n d }
  | .silent => m' = m

def blockMap (P : Type) [DecidableEq P] {D : Type} (disk : Nat → D) :
    Lts (BlockMap P D) (Event P D) :=
  ⟨(· = ⟨disk, fun _ => 0⟩), fun m e m' => e.Step m m'⟩

variable {P D : Type} [DecidableEq P]

def Buffer.read (x : Buffer P D) (p : P) : Event P D := .read p x.blockno x.data

def Buffer.write (x : Buffer P D) : Event P D := .write x.blockno x.data

def Bcache.event (s : Bcache P D) : Act P D → Event P D
  | .bread p n => .request p n
  | .test p =>
    match (s.proc p).pc with
    | .test b => if (s.buf b).valid then (s.buf b).read p else .silent
    | _ => .silent
  | .wake p =>
    match (s.proc p).pc with
    | .iderw b true => (s.buf b).read p
    | _ => .silent
  | .append p =>
    match (s.proc p).pc with
    | .logWrite b => (s.buf b).write
    | _ => .silent
  | .bwrite p b => if (s.buf b).lock = some p then (s.buf b).write else .silent
  | .commit p =>
    match (s.proc p).code with
    | some (.bread n :: _) => .request p n
    | some (.bwrite n :: _) =>
      match s.held p n with
      | some b => (s.buf b).write
      | none => .silent
    | _ => .silent
  | _ => .silent

/-- The block map a state of the cache stands for. -/
def Bcache.blocks (s : Bcache P D) : BlockMap P D := ⟨s.last, s.asked⟩

/-- The buffer every `bread` is going to return holds the block it was asked for. -/
def Fetched (s : Bcache P D) : Prop :=
  ∀ p b, (s.proc p).pc.fetches = some b →
    (s.buf b).dev = rootDev ∧ (s.buf b).blockno = s.asked p

/-- `b` holds the same block as before, or nobody used it. -/
def Kept (s t : Bcache P D) (b : Ptr) : Prop :=
  ((t.buf b).dev = (s.buf b).dev ∧ (t.buf b).blockno = (s.buf b).blockno) ∨
  ((s.buf b).refcnt = 0 ∧ (s.buf b).dirty = false)

/-- What a step does to the blocks: no buffer in use changes its block, a `bread` still fetches the
block it was asked for or has just found a buffer that holds it, and the block map changes as the
event says. -/
structure Effect (s t : Bcache P D) (e : Event P D) : Prop where
  kept : ∀ b, Kept s t b
  fetch : ∀ q b, (t.proc q).pc.fetches = some b →
    (s.proc q).pc.fetches = some b ∧ t.asked q = s.asked q ∨
    (t.buf b).dev = rootDev ∧ (t.buf b).blockno = t.asked q
  event : e.Step s.blocks t.blocks

/-- No process asked for a block or found a buffer. -/
structure Steady (s t : Bcache P D) : Prop where
  asked : t.asked = s.asked
  fetches : ∀ q, (t.proc q).pc.fetches = none ∨ (t.proc q).pc.fetches = (s.proc q).pc.fetches

section

variable {disk : Nat → D} {s t : Bcache P D} {p : P} {b : Ptr}

omit [DecidableEq P] in
theorem Steady.of_proc (proc : t.proc = s.proc) (asked : t.asked = s.asked) : Steady s t :=
  ⟨asked, fun q => .inr (by rw [proc])⟩

/-- Only `p` moved, and it did not find a buffer. -/
theorem Steady.of_update {pr : Process} (proc : t.proc = update s.proc p pr)
    (fetches : pr.pc.fetches = none ∨ pr.pc.fetches = (s.proc p).pc.fetches)
    (asked : t.asked = s.asked) : Steady s t := by
  refine ⟨asked, fun q => ?_⟩
  rw [proc]
  rcases eq_or_ne q p with rfl | ne
  · rw [update_self]
    exact fetches
  · rw [update_of_ne ne]
    exact .inr rfl

omit [DecidableEq P] in
theorem Steady.fetch (steady : Steady s t) (q : P) (b : Ptr)
    (fetches : (t.proc q).pc.fetches = some b) :
    (s.proc q).pc.fetches = some b ∧ t.asked q = s.asked q ∨
    (t.buf b).dev = rootDev ∧ (t.buf b).blockno = t.asked q := by
  rcases steady.fetches q with none | same
  · rw [none] at fetches
    cases fetches
  · exact .inl ⟨same.symm.trans fetches, congrFun steady.asked q⟩

theorem Effect.silent (buf : ∀ b, Kept s t b) (steady : Steady s t) (last : t.last = s.last) :
    Effect s t .silent :=
  ⟨buf, steady.fetch, congrArg₂ BlockMap.mk last steady.asked⟩

omit [DecidableEq P] in
theorem kept_of_buf (buf : t.buf = s.buf) (b : Ptr) : Kept s t b :=
  .inl ⟨by rw [buf], by rw [buf]⟩

omit [DecidableEq P] in
theorem kept_of_setBuf {x : Buffer P D} (buf : t.buf = update s.buf b x)
    (dev : x.dev = (s.buf b).dev) (blockno : x.blockno = (s.buf b).blockno) (c : Ptr) :
    Kept s t c := by
  left
  rw [buf]
  rcases eq_or_ne c b with rfl | ne
  · rw [update_self]
    exact ⟨dev, blockno⟩
  · rw [update_of_ne ne]
    exact ⟨rfl, rfl⟩

omit [DecidableEq P] in
theorem idestart_same (s : Bcache P D) (b : Ptr) :
    (idestart s b).buf = s.buf ∧ (idestart s b).last = s.last ∧ (idestart s b).proc = s.proc ∧
      (idestart s b).asked = s.asked := by
  unfold idestart
  split
  · exact ⟨rfl, rfl, rfl, rfl⟩
  · split <;> exact ⟨rfl, rfl, rfl, rfl⟩

theorem iderw_same {r : Bool}
    (fetches : (Pc.iderw b r).fetches = none ∨ (Pc.iderw b r).fetches = (s.proc p).pc.fetches) :
    (iderw s p b r).buf = s.buf ∧ (iderw s p b r).last = s.last ∧ Steady s (iderw s p b r) := by
  unfold iderw
  split
  · exact ⟨rfl, rfl, .of_proc rfl rfl⟩
  · split
    · exact ⟨rfl, rfl, .of_proc rfl rfl⟩
    · simp only
      split
      · obtain ⟨buf, last, proc, asked⟩ :=
          idestart_same ({ s with idequeue := s.idequeue ++ [b] }.goto p (.iderw b r)) b
        exact ⟨buf, last, .of_update proc fetches asked⟩
      · exact ⟨rfl, rfl, .of_update rfl fetches rfl⟩

theorem Effect.bwrite (lock : (s.buf b).lock = some p) :
    Effect s (bwrite s p b) (s.buf b).write := by
  rw [Buf.bwrite, if_neg (by simp [lock])]
  obtain ⟨buf, last, steady⟩ :=
    iderw_same (s := { s.setBuf b { s.buf b with dirty := true, edited := false } with
      last := update s.last (s.buf b).blockno (s.buf b).data }) (p := p) (b := b) (r := false)
      (.inl rfl)
  refine ⟨kept_of_setBuf buf rfl rfl, Steady.fetch ⟨steady.asked, steady.fetches⟩, ?_⟩
  exact congrArg₂ BlockMap.mk last steady.asked

theorem Effect.brelse (s : Bcache P D) (p : P) (b : Ptr) :
    Effect s (brelse s p b) .silent := by
  unfold Buf.brelse
  split
  · exact .silent (kept_of_buf rfl) (.of_proc rfl rfl) rfl
  · exact .silent (kept_of_setBuf rfl rfl rfl) (.of_update rfl (.inl rfl) rfl) rfl

/-- The process that runs `commit` has its code changed before it does the statement. -/
theorem Effect.of_setCode (code : List Instr) {e : Event P D}
    (effect : Effect (s.setCode p code) t e) : Effect s t e := by
  refine ⟨effect.kept, fun q b fetches => ?_, effect.event⟩
  refine (effect.fetch q b fetches).imp_left fun ⟨before, asked⟩ => ⟨?_, asked⟩
  rwa [s.setCode_pc] at before

/-- `p` asked for block `n`, and what it found, if anything, holds that block. -/
theorem fetch_of_ask {pr : Process} {n : Nat} (proc : t.proc = update s.proc p pr)
    (asked : t.asked = update s.asked p n)
    (found : ∀ b, pr.pc.fetches = some b → (t.buf b).dev = rootDev ∧ (t.buf b).blockno = n)
    (q : P) (b : Ptr) (fetches : (t.proc q).pc.fetches = some b) :
    (s.proc q).pc.fetches = some b ∧ t.asked q = s.asked q ∨
    (t.buf b).dev = rootDev ∧ (t.buf b).blockno = t.asked q := by
  rw [proc] at fetches
  rw [asked]
  rcases eq_or_ne q p with rfl | ne
  · rw [update_self] at fetches ⊢
    exact .inr (found b fetches)
  · rw [update_of_ne ne] at fetches ⊢
    exact .inl ⟨fetches, rfl⟩

variable [Fintype P] {g : Log.Geometry} {header : List Nat → D → D}

/-- `bget` asks for `n` and finds a buffer for it, or panics. -/
theorem Effect.bget (settled : Settled s) (out : (s.proc p).pc = .out) {n : Nat}
    (eq : bget s p rootDev n = some t) : Effect s t (.request p n) := by
  rcases settled.bget p rootDev n with ⟨b, holds, hit⟩ | ⟨_, ⟨b, idle, miss⟩ | ⟨_, full⟩⟩
  · rw [hit] at eq
    cases eq
    refine ⟨kept_of_setBuf rfl rfl rfl, fetch_of_ask rfl rfl fun c found => ?_, rfl⟩
    obtain rfl : b = c := Option.some.inj found
    rw [setBuf_goto_buf]
    exact holds
  · rw [miss] at eq
    cases eq
    refine ⟨fun c => ?_, fetch_of_ask rfl rfl fun c found => ?_, rfl⟩
    · rcases eq_or_ne c b with rfl | ne
      · exact .inr idle
      · refine .inl ?_
        change (update s.buf b _ c).dev = _ ∧ (update s.buf b _ c).blockno = _
        rw [update_of_ne ne]
        exact ⟨rfl, rfl⟩
    · obtain rfl : b = c := Option.some.inj found
      rw [setBuf_goto_buf]
      exact ⟨rfl, rfl⟩
  · rw [full] at eq
    cases eq
    refine ⟨kept_of_buf rfl, fetch_of_ask (update_eq_self p s.proc).symm rfl fun c found => ?_, rfl⟩
    rw [out] at found
    cases found

theorem Effect.execute (good : Good g s) (out : (s.proc p).pc = .out) {i : Instr}
    {rest : List Instr} (at_p : (s.proc p).code = some (i :: rest))
    (eq : execute g header s p i rest = some t) :
    Effect s t (s.event (.commit p)) := by
  rw [Bcache.event, at_p]
  cases i with
  | writeLog tail =>
    simp only [Buf.execute] at eq
    split at eq
    all_goals
      cases eq
      exact .silent (kept_of_buf rfl) (.of_update rfl (.inr rfl) rfl) rfl
  | writeHead =>
    cases eq
    exact .silent (kept_of_buf rfl) (.of_update rfl (.inr rfl) rfl) rfl
  | installTrans tail =>
    simp only [Buf.execute] at eq
    split at eq
    all_goals
      cases eq
      exact .silent (kept_of_buf rfl) (.of_update rfl (.inr rfl) rfl) rfl
  | reset =>
    cases eq
    exact .silent (kept_of_buf rfl) (.of_update rfl (.inr rfl) rfl) rfl
  | bread n =>
    refine .of_setCode (p := p) rest ?_
    exact .bget (good.inv.setCode rest).toSettled ((s.setCode_pc p rest p).trans out) eq
  | move dst src =>
    simp only [Buf.execute] at eq
    split at eq
    · cases eq
      exact .silent (kept_of_setBuf rfl rfl rfl) (.of_update rfl (.inr rfl) rfl) rfl
    · cases eq
  | fill =>
    simp only [Buf.execute] at eq
    split at eq
    · cases eq
      exact .silent (kept_of_setBuf rfl rfl rfl) (.of_update rfl (.inr rfl) rfl) rfl
    · cases eq
  | bwrite n =>
    simp only [Buf.execute] at eq
    cases held : s.held p n with
    | none =>
      rw [held] at eq
      cases eq
    | some b =>
      rw [held] at eq
      cases eq
      simp only [held]
      exact .of_setCode (p := p) rest (.bwrite (Bcache.held_some held).1)
  | brelse n =>
    simp only [Buf.execute] at eq
    split at eq
    · cases eq
      exact .of_setCode rest (.brelse (s.setCode p rest) p _)
    · cases eq

/-- `bread` returns to `p` with the buffer `b`. -/
theorem Good.read (good : Good g s) (fetched : Fetched s)
    (fetches : (s.proc p).pc.fetches = some b) (valid : (s.buf b).valid = true)
    (clean : (s.buf b).edited = false) : Effect s (s.goto p .out) ((s.buf b).read p) :=
  ⟨kept_of_buf rfl, Steady.fetch (.of_update rfl (.inl rfl) rfl), rfl, (fetched p b fetches).2,
    (good.inv.at_buf b).data valid clean⟩

/-- What each step does to the blocks. -/
theorem Good.effect (good : Good g s) (fetched : Fetched s) {a : Act P D}
    (eq : Buf.step g header s a = some t) :
    Effect s t (s.event a) := by
  have inv := good.inv
  unfold Buf.step at eq
  split at eq
  · cases eq
  cases a with
  | bread p n =>
    obtain ⟨client, eq⟩ := Option.ite_none_right_eq_some.mp eq
    exact .bget inv.toSettled client.1 eq
  | acquire p =>
    simp only [acquiresleep] at eq
    split at eq
    · rename_i b at_p
      split at eq
      · cases eq
        refine .silent (kept_of_setBuf rfl rfl rfl) (.of_update rfl (.inr ?_) rfl) rfl
        rw [at_p]
        rfl
      · cases eq
    · cases eq
  | test p =>
    simp only [breadTest] at eq
    split at eq
    · rename_i b at_p
      have lock := (inv.at_buf b).holds p (by rw [at_p]; rfl)
      obtain ⟨_, clean⟩ := ((inv.at_buf b).locked p lock).test at_p
      simp only [Bcache.event, at_p]
      split at eq
      · rename_i valid
        cases eq
        rw [if_pos valid]
        exact good.read fetched (by rw [at_p]; rfl) valid clean
      · rename_i invalid
        cases eq
        rw [if_neg invalid]
        obtain ⟨buf, last, steady⟩ := iderw_same (s := s) (p := p) (b := b) (r := true)
          (.inr (by rw [at_p]; rfl))
        exact .silent (kept_of_buf buf) steady last
    · cases eq
  | wake p =>
    simp only [iderwWait] at eq
    split at eq
    · rename_i b r at_p
      have lock := (inv.at_buf b).holds p (by rw [at_p]; rfl)
      obtain ⟨clean, _⟩ := ((inv.at_buf b).locked p lock).request r at_p
      obtain ⟨done, eq⟩ := Option.ite_none_right_eq_some.mp eq
      cases eq
      simp only [Bcache.event, at_p]
      cases r with
      | true => exact good.read fetched (by rw [at_p]; rfl) done.1 clean
      | false => exact .silent (kept_of_buf rfl) (.of_update rfl (.inl rfl) rfl) rfl
    · cases eq
  | edit p b d =>
    cases (Option.ite_none_right_eq_some.mp eq).2
    exact .silent (kept_of_setBuf rfl rfl rfl) (.of_proc rfl rfl) rfl
  | logWrite p b =>
    cases (Option.ite_none_right_eq_some.mp eq).2
    unfold logWriteTest
    split
    · exact .silent (kept_of_buf rfl) (.of_proc rfl rfl) rfl
    · split
      · exact .silent (kept_of_buf rfl) (.of_proc rfl rfl) rfl
      · exact .silent (kept_of_buf rfl) (.of_update rfl (.inl rfl) rfl) rfl
  | append p =>
    simp only [logWriteAppend] at eq
    split at eq
    · rename_i b at_p
      cases eq
      simp only [Bcache.event, at_p]
      exact ⟨kept_of_setBuf rfl rfl rfl, Steady.fetch (.of_update rfl (.inl rfl) rfl), rfl⟩
    · cases eq
  | bwrite p b =>
    cases (Option.ite_none_right_eq_some.mp eq).2
    simp only [Bcache.event]
    split
    · rename_i lock
      exact .bwrite lock
    · rename_i lock
      rw [Buf.bwrite, if_pos lock]
      exact .silent (kept_of_buf rfl) (.of_proc rfl rfl) rfl
  | brelse p b =>
    cases (Option.ite_none_right_eq_some.mp eq).2
    exact .brelse s p b
  | unref p =>
    simp only [brelseUnref] at eq
    split at eq
    · split at eq
      all_goals
        cases eq
        exact .silent (kept_of_setBuf rfl rfl rfl) (.of_update rfl (.inl rfl) rfl) rfl
    · cases eq
  | beginOp p =>
    have eq := (Option.ite_none_right_eq_some.mp eq).2
    unfold beginOp at eq
    split at eq
    · cases eq
    · split at eq
      · cases eq
      · cases eq
        exact .silent (kept_of_buf rfl) (.of_update rfl (.inr rfl) rfl) rfl
  | endOp p =>
    cases (Option.ite_none_right_eq_some.mp eq).2
    unfold endOp
    split
    · exact .silent (kept_of_buf rfl) (.of_update rfl (.inr rfl) rfl) rfl
    · split <;> exact .silent (kept_of_buf rfl) (.of_update rfl (.inr rfl) rfl) rfl
  | commit p =>
    obtain ⟨out, eq⟩ := Option.ite_none_right_eq_some.mp eq
    unfold commitStep at eq
    split at eq
    · rename_i i rest at_p
      exact .execute good out at_p eq
    · rename_i at_p
      cases eq
      simp only [Bcache.event, at_p]
      exact .silent (kept_of_buf rfl) (.of_update rfl (.inr rfl) rfl) rfl
    · cases eq
  | intr =>
    change ideintr s = some t at eq
    unfold ideintr at eq
    split at eq
    · cases eq
    · rename_i b rest _
      simp only at eq
      split at eq
      · cases eq
        exact .silent (kept_of_setBuf rfl rfl rfl) (.of_proc rfl rfl) rfl
      · rename_i c _ _
        cases eq
        obtain ⟨buf, last, proc, asked⟩ := idestart_same ({ s with idequeue := _ }.setBuf b _) c
        exact .silent (kept_of_setBuf buf rfl rfl) (.of_proc proc asked) last

/-- A step keeps the buffers of the processes inside `bread`: their reference counts are not 0. -/
theorem Good.keeps_fetched (good : Good g s) (fetched : Fetched s) {a : Act P D}
    (eq : Buf.step g header s a = some t) : Fetched t := by
  intro q b fetches
  have effect := good.effect fetched eq
  rcases effect.fetch q b fetches with ⟨before, asked⟩ | now
  · have used := (good.inv.at_buf b).used_of_fetches before
    obtain ⟨dev, blockno⟩ := (effect.kept b).resolve_right fun idle => by omega
    rw [dev, blockno, asked]
    exact fetched q b before
  · exact now

theorem reachable_fetched (reach : (bcache P g header disk).Reachable s) : Fetched s := by
  refine reach.invariant (fun s start => ?_) fun s a t before fetched step =>
    (reachable_good before).keeps_fetched fetched step
  obtain rfl : s = Bcache.initial P disk := start
  intro p b fetches
  cases fetches

/-- **The buffer cache refines a block map.** In every state any interleaving of the processes can
reach: no block is cached twice, the list is a ring through all buffers, the buffer a `bread` is
going to return holds the block it was called for, and each step leaves the block of every buffer in
use alone and is a step of the block map. -/
theorem bcache_refines_block_map (reach : (bcache P g header disk).Reachable s) :
    (∀ b c, (s.buf b).dev = rootDev → (s.buf c).dev = rootDev →
      (s.buf b).blockno = (s.buf c).blockno → b = c) ∧
    (∃ xs : List Ptr, s.links.Ring none (xs.map some) ∧ xs.Perm (List.finRange nbuf)) ∧
    (∀ p b, (s.proc p).pc.fetches = some b →
      (s.buf b).dev = rootDev ∧ (s.buf b).blockno = s.asked p) ∧
    ∀ a t, (bcache P g header disk).step s a t →
      (∀ b, 0 < (s.buf b).refcnt ∨ (s.buf b).dirty = true →
        (t.buf b).dev = (s.buf b).dev ∧ (t.buf b).blockno = (s.buf b).blockno) ∧
      (blockMap P disk).step s.blocks (s.event a) t.blocks := by
  have good := reachable_good reach
  have fetched := reachable_fetched reach
  refine ⟨good.inv.unique, ?_, fetched, fun a t step => ?_⟩
  · obtain ⟨xs, ring, nodup, all, _⟩ := good.inv.toSettled.buffers
    refine ⟨xs, ring, ?_⟩
    exact (List.perm_ext_iff_of_nodup nodup (List.nodup_finRange nbuf)).mpr fun b => by simp [all b]
  · have effect := good.effect fetched step
    refine ⟨fun b used => (effect.kept b).resolve_right ?_, effect.event⟩
    rintro ⟨idle, clean⟩
    rcases used with pos | dirty
    · omega
    · rw [clean] at dirty
      cases dirty

end

/-- The first process logs new contents for block 70; the second is about to read it. -/
def sharedRun : List (Act Bool Nat) :=
  [.beginOp false, .bread false 70, .acquire false, .test false, .intr, .wake false,
    .edit false 0 7, .logWrite false 0, .append false, .brelse false 0, .unref false,
    .bread true 70, .acquire true]

/-- It reads the block it asked for, with the contents the first one logged. -/
theorem bcache_refines_block_map_shared : ∃ s t,
    (bcache Bool ⟨2, 30⟩ (fun _ d => d) fun _ => 0).Reachable s ∧
    (bcache Bool ⟨2, 30⟩ (fun _ d => d) fun _ => 0).step s (.test true) t ∧
    s.event (.test true) = .read true 70 7 ∧ s.asked true = 70 ∧ s.last 70 = 7 := by
  let run := Lts.exec (step ⟨2, 30⟩ fun _ d => d) (fun _ => true)
    (Bcache.initial Bool fun _ => 0) sharedRun
  have done : (run.bind fun s => step ⟨2, 30⟩ (fun _ d => d) s (.test true)).isSome = true := by
    decide +kernel
  have event : run.map (fun s => s.event (.test true)) = some (.read true 70 7) := by
    decide +kernel
  obtain ⟨t, done⟩ := Option.isSome_iff_exists.mp done
  obtain ⟨s, reached, step⟩ := Option.bind_eq_some_iff.mp done
  rw [reached] at event
  have event : s.event (.test true) = .read true 70 7 := Option.some.inj event
  have reach : (bcache Bool ⟨2, 30⟩ (fun _ d => d) fun _ => 0).Reachable s :=
    Lts.Reachable.of_exec (.init rfl) (fun _ _ _ _ step _ => step) reached
  have read := ((bcache_refines_block_map reach).2.2.2 (.test true) t step).2
  rw [event] at read
  obtain ⟨_, asked, contents⟩ := read
  exact ⟨s, t, reach, step, event, asked.symm, contents.symm⟩

end Xv6.Buf
