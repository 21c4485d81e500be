import Xv6.Ide.Driver
import Mathlib.Data.Fintype.Card

/-!
# The interrupt-driven driver refines the one in memory

The state of `memide.c` is what is left to do: the requests in the queue, carried out on the
buffers and the disk as they are (`Sim`).  A request adds itself to the end of both, the disk's
write of the first request changes nothing that this request would not write again, and an
interrupt takes the first request away.
-/

namespace Xv6.Ide

open Function List

variable {P D : Type}

/-! ## Requests in memory -/

namespace Mem

variable (m : Mem D) {b c : Ptr} {q : List Ptr}

theorem transfer_buf (ne : b ≠ c) : (m.transfer c).buf b = m.buf b := by
  unfold transfer
  dsimp only
  split <;> exact update_of_ne ne ..

theorem foldl_buf (absent : b ∉ q) : (q.foldl transfer m).buf b = m.buf b := by
  induction q generalizing m with
  | nil => rfl
  | cons c q ih =>
    rw [mem_cons, not_or] at absent
    rw [foldl_cons, ih _ absent.2, transfer_buf m absent.1]

def edit (b : Ptr) (x : Buffer D) : Mem D := { m with buf := update m.buf b x }

theorem transfer_edit (ne : b ≠ c) (x : Buffer D) :
    (m.edit b x).transfer c = (m.transfer c).edit b x := by
  have same : (m.edit b x).buf c = m.buf c := update_of_ne (Ne.symm ne) ..
  unfold transfer
  rw [same]
  dsimp only
  split
  · unfold edit
    rw [update_comm ne]
  · unfold edit
    rw [update_comm ne]

theorem foldl_edit (absent : b ∉ q) (x : Buffer D) :
    q.foldl transfer (m.edit b x) = (q.foldl transfer m).edit b x := by
  induction q generalizing m with
  | nil => rfl
  | cons c q ih =>
    rw [mem_cons, not_or] at absent
    rw [foldl_cons, transfer_edit m absent.1, ih _ absent.2]
    rfl

theorem transfer_written (dirty : (m.buf b).dirty = true) :
    transfer ⟨m.buf, update m.disk (m.buf b).blockno (m.buf b).data⟩ b = m.transfer b := by
  unfold transfer
  dsimp only
  rw [if_pos dirty, if_pos dirty, update_idem]

theorem transfer_of_written (dirty : (m.buf b).dirty = true)
    (written : m.disk (m.buf b).blockno = (m.buf b).data) :
    m.transfer b = m.edit b { m.buf b with valid := true, dirty := false } := by
  unfold transfer
  dsimp only
  rw [if_pos dirty, ← written, update_eq_self]
  rfl

theorem transfer_of_read (clean : (m.buf b).dirty = false) :
    m.transfer b = m.edit b { m.buf b with
      data := m.disk (m.buf b).blockno, valid := true, dirty := false } := by
  unfold transfer
  dsimp only
  rw [if_neg (by rw [clean]; decide), ← clean]
  rfl

end Mem

/-! ## Registers -/

def Buffer.drive (x : Buffer D) : Bool := x.dev % 2 = 1

theorem regs_sector (dev : Nat) {n : Nat} (lt : n < 2 ^ 24) : (regs dev n).sector = n := by
  have top : n >>> 24 = 0 := Nat.shiftRight_eq_zero n 24 lt
  have low : dev &&& 1 = 0 ∨ dev &&& 1 = 1 := by
    rw [Nat.and_one_is_mod]
    omega
  have high :
      (BitVec.ofNat 8 (0xe0 ||| (dev &&& 1) <<< 4 ||| (n >>> 24 &&& 0x0f))).toNat % 16 = 0 := by
    rw [top]
    rcases low with eq | eq <;> rw [eq] <;> decide
  have mask : ∀ x : Nat, x &&& 0xff = x % 2 ^ 8 := fun x => Nat.and_two_pow_sub_one_eq_mod x 8
  unfold regs Regs.sector
  dsimp only
  rw [high, mask, mask, mask]
  simp only [BitVec.toNat_ofNat, Nat.mod_mod, Nat.shiftRight_eq_div_pow]
  omega

theorem regs_drive (dev : Nat) {n : Nat} (lt : n < 2 ^ 24) :
    (regs dev n).drive = (dev % 2 = 1 : Bool) := by
  have top : n >>> 24 = 0 := Nat.shiftRight_eq_zero n 24 lt
  unfold regs Regs.drive
  dsimp only
  rw [top, Nat.and_one_is_mod]
  rcases Nat.mod_two_eq_zero_or_one dev with eq | eq <;> rw [eq] <;> decide

/-! ## The queue and the controller -/

def Buffer.command (x : Buffer D) : Ctl D :=
  if x.dirty then .write x.drive x.blockno x.data else .read x.drive x.blockno

def Busy (s : State P D) (b : Ptr) : Prop :=
  s.ctl = (s.buf b).command ∨
  ((s.buf b).dirty = false ∧ s.ctl = .done (some (s.disk (s.buf b).drive (s.buf b).blockno))) ∨
  ((s.buf b).dirty = true ∧ s.ctl = .done none ∧
    s.disk (s.buf b).drive (s.buf b).blockno = (s.buf b).data)

/-- The requests `q` are in the queue and `fin` have been served. -/
structure Queued (s : State P D) (q fin : List Ptr) : Prop where
  linked : Queue.Linked s.queue.next s.queue.head q
  nodup : q.Nodup
  waits : ∀ b ∈ q, ¬ (s.buf b).Done ∧ ∃ p, s.lock b = some p ∧ s.call p = some b
  calls : ∀ p b, s.call p = some b → s.lock b = some p
  arrived : s.arrived = fin ++ q

structure Inv (s : State P D) (q fin : List Ptr) : Prop extends Queued s q fin where
  idle : q = [] → s.ctl = .idle
  busy : ∀ b ∈ q.head?, Busy s b
  started : s.started = fin ++ q.take 1

/-- What is left to do gives the state of `memide.c`. -/
def Sim (s : State P D) (q : List Ptr) : Prop :=
  ∀ m, s.mem = some m → m = q.foldl Mem.transfer ⟨s.buf, s.disk true⟩ ∧
    ∀ b ∈ q, (s.buf b).dev = 1 ∧ (s.buf b).blockno < fsSize

/-- All is well, or the driver has panicked, and `memide.c` would have. -/
def Good (s : State P D) : Prop :=
  (s.panic = none ∧ ∃ q fin, Inv s q fin ∧ Sim s q) ∨
    (s.panic ≠ none ∧ (s.havedisk1 = true → s.mem = none))

section

variable {s t : State P D} {q fin : List Ptr} {b : Ptr}

theorem Queued.length_lt (queued : Queued s q fin) : q.length < nbuf + 1 := by
  have := queued.nodup.length_le_card
  rw [Fintype.card_fin] at this
  omega

theorem Queued.head (queued : Queued s q fin) : s.queue.head = q.head? := by
  cases q with
  | nil => exact queued.linked
  | cons b q => exact queued.linked.1

theorem Queued.not_mem_of_free (queued : Queued s q fin) (free : s.free b = true) : b ∉ q := by
  intro mem
  obtain ⟨-, p, lock, call⟩ := queued.waits b mem
  rw [State.free, lock] at free
  simp [call] at free

theorem Busy.congr (busy : Busy s b) (buf : t.buf b = s.buf b) (ctl : t.ctl = s.ctl)
    (disk : t.disk = s.disk) : Busy t b := by
  unfold Busy
  rw [buf, ctl, disk]
  exact busy

theorem idestart_eq (idle : s.ctl = .idle) :
    idestart s b =
      some (if (s.buf b).blockno ≥ fsSize then { s with panic := some .incorrectBlockno }
      else { s with ctl := (s.buf b).command, started := s.started ++ [b] }) := by
  unfold idestart
  dsimp only
  rw [idle]
  by_cases big : (s.buf b).blockno ≥ fsSize
  · rw [if_pos big, if_pos big]
  · rw [if_neg big, if_neg big]
    have whole : (s.buf b).blockno * sectorPerBlock = (s.buf b).blockno := Nat.mul_one _
    have lt : (s.buf b).blockno < 2 ^ 24 := by
      have : ¬ (s.buf b).blockno ≥ 20000 := big
      omega
    dsimp only
    rw [whole, regs_sector _ lt, regs_drive _ lt]
    rfl

theorem idestart_good (queued : Queued s (b :: q) fin) (sim : Sim s (b :: q))
    (panic : s.panic = none) (idle : s.ctl = .idle) (started : s.started = fin) :
    ∃ t, idestart s b = some t ∧ Good t := by
  refine ⟨_, idestart_eq idle, ?_⟩
  split
  next big =>
    refine .inr ⟨Option.some_ne_none _, fun _ => ?_⟩
    change s.mem = none
    cases at_m : s.mem with
    | none => rfl
    | some m => exact absurd ((sim m at_m).2 b mem_cons_self).2 (Nat.not_lt.mpr big)
  next =>
    refine .inl ⟨panic, b :: q, fin, ⟨⟨queued.linked, queued.nodup, queued.waits, queued.calls,
      queued.arrived⟩, fun none => absurd none (cons_ne_nil b q), ?_, ?_⟩, sim⟩
    · rintro c ⟨⟩
      exact .inl rfl
    · change s.started ++ [b] = _
      rw [started]
      rfl

/-! ## The steps -/

variable {d : Option D}

theorem Busy.ne_command (ctl : s.ctl = .done d) : s.ctl ≠ (s.buf b).command := by
  rw [ctl, Buffer.command]
  split <;> simp

def State.served (s : State P D) (b : Ptr) : Buffer D :=
  { s.buf b with
    data := if (s.buf b).dirty then (s.buf b).data else s.ctl.insl (s.buf b).data
    valid := true
    dirty := false }

/-- The interrupt does to the buffer what `memide.c` did at once. -/
theorem Busy.served (busy : Busy s b) (ctl : s.ctl = .done d) (drive : (s.buf b).drive = true) :
    Mem.transfer ⟨s.buf, s.disk true⟩ b = Mem.edit ⟨s.buf, s.disk true⟩ b (s.served b) := by
  rcases busy with command | ⟨clean, read⟩ | ⟨dirty, -, written⟩
  · exact absurd command (Busy.ne_command ctl)
  · rw [Mem.transfer_of_read _ clean, State.served, read, clean, drive]
    rfl
  · rw [drive] at written
    rw [Mem.transfer_of_written _ dirty written, State.served, if_pos dirty]

theorem Inv.ideintr (inv : Inv s q fin) (sim : Sim s q) (panic : s.panic = none)
    (ctl : s.ctl = .done d) : ∃ t, ideintr s = some t ∧ Good t := by
  cases q with
  | nil =>
    have := inv.idle rfl
    rw [ctl] at this
    cases this
  | cons b q =>
    have fresh : b ∉ q := (nodup_cons.mp inv.nodup).1
    let s' : State P D := { s with
      queue := { s.queue with head := s.queue.next b }
      buf := update s.buf b (s.served b)
      ctl := .idle }
    have same : ∀ c ∈ q, s'.buf c = s.buf c := fun c mem =>
      update_of_ne (fun eq : c = b => fresh (eq ▸ mem)) ..
    have queued : Queued s' q (fin ++ [b]) := by
      refine ⟨inv.linked.2, (nodup_cons.mp inv.nodup).2, fun c mem => ?_, inv.calls, ?_⟩
      · rw [same c mem]
        exact inv.waits c (mem_cons_of_mem b mem)
      · rw [append_assoc]
        exact inv.arrived
    have sim' : Sim s' q := by
      intro m at_m
      obtain ⟨eq, small⟩ := sim m at_m
      have drive : (s.buf b).drive = true := by
        rw [Buffer.drive, (small b mem_cons_self).1]
        rfl
      rw [foldl_cons, (inv.busy b rfl).served ctl drive] at eq
      refine ⟨eq, fun c mem => ?_⟩
      rw [same c mem]
      exact small c (mem_cons_of_mem b mem)
    have started : s'.started = fin ++ [b] := inv.started
    have code : Ide.ideintr s = q.head?.elim (some s') (idestart s') := by
      have next : s.queue.next b = q.head? := queued.head
      rw [Ide.ideintr, inv.linked.1]
      dsimp only
      split <;> rename_i found
      · rw [next.symm.trans found]
        rfl
      · rw [next.symm.trans found]
        rfl
    rw [code]
    cases q with
    | nil =>
      refine ⟨s', rfl, .inl ⟨panic, [], fin ++ [b], ⟨queued, fun _ => rfl, ?_, ?_⟩, sim'⟩⟩
      · rintro c ⟨⟩
      · rw [started, take_nil, append_nil]
    | cons c q => exact idestart_good queued sim' panic rfl started

theorem ideintr_empty (idle : s.ctl = .idle) (none : s.queue.head = none) : ideintr s = some s := by
  rw [ideintr, none, ← idle]

theorem Inv.device (inv : Inv s q fin) (sim : Sim s q) (panic : s.panic = none)
    (eq : device s = some t) : Good t := by
  cases q with
  | nil =>
    rw [Ide.device, inv.idle rfl] at eq
    cases eq
  | cons b q =>
    have busy := inv.busy b rfl
    have queued := inv.toQueued
    rcases busy with command | ⟨-, ctl⟩ | ⟨-, ctl, -⟩
    · rw [Buffer.command] at command
      split at command
      next dirty =>
        rw [Ide.device, command] at eq
        cases eq
        refine .inl ⟨panic, b :: q, fin, ⟨⟨queued.linked, queued.nodup, queued.waits, queued.calls,
          queued.arrived⟩, fun none => absurd none (cons_ne_nil b q), ?_, inv.started⟩, ?_⟩
        · rintro c ⟨⟩
          refine .inr (.inr ⟨dirty, rfl, ?_⟩)
          change update s.disk _ _ _ _ = _
          rw [update_self, update_self]
        · intro m at_m
          obtain ⟨eq, small⟩ := sim m at_m
          have drive : (s.buf b).drive = true := by
            rw [Buffer.drive, (small b mem_cons_self).1]
            rfl
          refine ⟨?_, small⟩
          change m = foldl _ ⟨s.buf, update s.disk _ _ true⟩ _
          rw [drive, update_self, foldl_cons,
            Mem.transfer_written ⟨s.buf, s.disk true⟩ dirty]
          exact eq
      next clean =>
        rw [Ide.device, command] at eq
        cases eq
        refine .inl ⟨panic, b :: q, fin, ⟨⟨queued.linked, queued.nodup, queued.waits, queued.calls,
          queued.arrived⟩, fun none => absurd none (cons_ne_nil b q), ?_, inv.started⟩, sim⟩
        rintro c ⟨⟩
        exact .inr (.inl ⟨Bool.eq_false_iff.mpr clean, rfl⟩)
    · rw [Ide.device, ctl] at eq
      cases eq
    · rw [Ide.device, ctl] at eq
      cases eq

variable [DecidableEq P] {p : P}

/-- `memide.c` goes on with the request if it is for a block of disk 1. -/
theorem Sim.request (sim : Sim s q) (absent : b ∉ q) {m' : Mem D} (req : s.request p b = some m') :
    s.lock b = some p ∧ ¬ (s.buf b).Done ∧ (s.buf b).dev = 1 ∧ (s.buf b).blockno < fsSize ∧
      (∀ c ∈ q, (s.buf c).dev = 1 ∧ (s.buf c).blockno < fsSize) ∧
      m' = (q ++ [b]).foldl Mem.transfer ⟨s.buf, s.disk true⟩ := by
  unfold State.request at req
  split at req
  · cases req
  next m at_m =>
    obtain ⟨eq, small⟩ := sim m at_m
    have same : m.buf b = s.buf b := by rw [eq, Mem.foldl_buf _ absent]
    unfold Mem.iderw at req
    rw [same] at req
    split_ifs at req with locked done dev block
    · cases req
    · cases req
    · cases req
    · cases req
    · refine ⟨by simpa using locked, done, not_not.mp dev, Nat.lt_of_not_le block, small, ?_⟩
      rw [foldl_append, ← eq]
      exact (Option.some.inj req).symm

theorem Inv.iderw (inv : Inv s q fin) (sim : Sim s q) (panic : s.panic = none)
    (out : s.call p = none) : ∃ t, iderw s p b = some t ∧ Good t := by
  unfold Ide.iderw
  dsimp only
  by_cases lock : s.lock b = some p
  · have absent : b ∉ q := inv.not_mem_of_free (by simp [State.free, lock, out])
    rw [if_neg (not_not.mpr lock)]
    by_cases done : (s.buf b).Done
    · rw [if_pos done]
      refine ⟨_, rfl, .inr ⟨Option.some_ne_none _, fun _ => ?_⟩⟩
      change s.request p b = none
      cases req : s.request p b with
      | none => rfl
      | some m => exact absurd done (sim.request absent req).2.1
    rw [if_neg done]
    by_cases disk : (s.buf b).dev ≠ 0 ∧ s.havedisk1 = false
    · rw [if_pos disk]
      refine ⟨_, rfl, .inr ⟨Option.some_ne_none _, fun have1 => ?_⟩⟩
      rw [disk.2] at have1
      cases have1
    rw [if_neg disk]
    obtain ⟨queue, append, linked⟩ := Queue.append_linked inv.linked inv.nodup absent inv.length_lt
    rw [append]
    dsimp only
    let s' : State P D := { s with
      mem := s.request p b
      queue := queue
      call := update s.call p (some b)
      arrived := s.arrived ++ [b] }
    have queued : Queued s' (q ++ [b]) fin := by
      refine ⟨linked, ?_, fun c mem => ?_, fun p' c call => ?_, ?_⟩
      · rw [nodup_append_comm]
        exact nodup_cons.mpr ⟨absent, inv.nodup⟩
      · rcases mem_append.mp mem with mem | mem
        · obtain ⟨todo, p', lock', call⟩ := inv.waits c mem
          refine ⟨todo, p', lock', ?_⟩
          have ne : p' ≠ p := by
            rintro rfl
            rw [out] at call
            cases call
          exact (update_of_ne ne ..).trans call
        · obtain rfl := mem_singleton.mp mem
          exact ⟨done, p, lock, update_self ..⟩
      · change update s.call p (some b) p' = some c at call
        by_cases eq : p' = p
        · subst eq
          rw [update_self] at call
          cases call
          exact lock
        · rw [update_of_ne eq] at call
          exact inv.calls p' c call
      · change s.arrived ++ [b] = _
        rw [inv.arrived, append_assoc]
    have sim' : Sim s' (q ++ [b]) := by
      intro m' req
      obtain ⟨-, -, dev, block, small, eq⟩ := sim.request absent req
      refine ⟨eq, fun c mem => ?_⟩
      rcases mem_append.mp mem with mem | mem
      · exact small c mem
      · obtain rfl := mem_singleton.mp mem
        exact ⟨dev, block⟩
    have head : queue.head = (q ++ [b]).head? := queued.head
    rw [head]
    cases q with
    | nil =>
      have first : ([] ++ [b] : List Ptr).head? = some b := rfl
      rw [if_pos first]
      refine idestart_good queued sim' panic (inv.idle rfl) ?_
      exact inv.started.trans (append_nil fin)
    | cons c q =>
      have ne : c ≠ b := fun eq => absent (eq ▸ mem_cons_self)
      have other : (c :: q ++ [b]).head? ≠ some b := fun eq => ne (Option.some.inj eq)
      rw [if_neg other]
      refine ⟨s', rfl, .inl ⟨panic, _, fin, ⟨queued, fun none => (by cases none), ?_,
        inv.started⟩, sim'⟩⟩
      rintro _ ⟨⟩
      exact inv.busy c rfl
  · rw [if_pos lock]
    refine ⟨_, rfl, .inr ⟨Option.some_ne_none _, fun _ => ?_⟩⟩
    change s.request p b = none
    unfold State.request
    split
    · rfl
    · simp [Mem.iderw, lock, Except.toOption]

theorem Inv.step (inv : Inv s q fin) (sim : Sim s q) (panic : s.panic = none) {a : Act P D}
    (eq : step s a = some t) : Good t := by
  cases a with
  | lock p b =>
    rw [Ide.step] at eq
    split at eq
    next unlocked =>
      cases eq
      have keep : ∀ c p', s.lock c = some p' →
          update s.lock b (some p) c = some p' := by
        intro c p' lock
        rw [update_of_ne]
        · exact lock
        · rintro rfl
          rw [unlocked] at lock
          cases lock
      refine .inl ⟨panic, q, fin, ⟨⟨inv.linked, inv.nodup, fun c mem => ?_, fun p' c call => ?_,
        inv.arrived⟩, inv.idle, inv.busy, inv.started⟩, sim⟩
      · obtain ⟨todo, p', lock, call⟩ := inv.waits c mem
        exact ⟨todo, p', keep c p' lock, call⟩
      · exact keep c p' (inv.calls p' c call)
    · cases eq
  | unlock p b =>
    rw [Ide.step] at eq
    split at eq
    next held =>
      cases eq
      have keep : ∀ c p', s.lock c = some p' → s.call p' = some c →
          update s.lock b none c = some p' := by
        intro c p' lock call
        rw [update_of_ne]
        · exact lock
        · rintro rfl
          rw [held.1] at lock
          cases lock
          rw [held.2] at call
          cases call
      refine .inl ⟨panic, q, fin, ⟨⟨inv.linked, inv.nodup, fun c mem => ?_, fun p' c call => ?_,
        inv.arrived⟩, inv.idle, inv.busy, inv.started⟩, sim⟩
      · obtain ⟨todo, p', lock, call⟩ := inv.waits c mem
        exact ⟨todo, p', keep c p' lock call, call⟩
      · exact keep c p' (inv.calls p' c call) call
    · cases eq
  | edit b x =>
    rw [Ide.step] at eq
    split at eq
    next free =>
      cases eq
      have absent := inv.not_mem_of_free free
      have same : ∀ c ∈ q, update s.buf b x c = s.buf c := fun c mem =>
        update_of_ne (fun eq : c = b => absent (eq ▸ mem)) ..
      refine .inl ⟨panic, q, fin, ⟨⟨inv.linked, inv.nodup, fun c mem => ?_, inv.calls,
        inv.arrived⟩, inv.idle, fun c at_head => ?_, inv.started⟩, fun m at_m => ?_⟩
      · change ¬ (update s.buf b x c).Done ∧ _
        rw [same c mem]
        exact inv.waits c mem
      · exact (inv.busy c at_head).congr (same c (mem_of_mem_head? at_head)) rfl rfl
      · obtain ⟨m, before, rfl⟩ := Option.map_eq_some_iff.mp at_m
        obtain ⟨eq, small⟩ := sim m before
        refine ⟨?_, fun c mem => ?_⟩
        · rw [eq]
          exact (Mem.foldl_edit ⟨s.buf, s.disk true⟩ absent x).symm
        · change (update s.buf b x c).dev = 1 ∧ (update s.buf b x c).blockno < _
          rw [same c mem]
          exact small c mem
    · cases eq
  | iderw p b =>
    rw [Ide.step] at eq
    split at eq
    next out =>
      obtain ⟨t', eq', good⟩ := inv.iderw (b := b) sim panic out
      rw [eq'] at eq
      cases eq
      exact good
    · cases eq
  | wait p =>
    rw [Ide.step, iderwWait] at eq
    split at eq
    · cases eq
    next b call =>
      split at eq
      next done =>
        cases eq
        refine .inl ⟨panic, q, fin, ⟨⟨inv.linked, inv.nodup, fun c mem => ?_, fun p' c call' => ?_,
          inv.arrived⟩, inv.idle, inv.busy, inv.started⟩, sim⟩
        · obtain ⟨todo, p', lock, call'⟩ := inv.waits c mem
          refine ⟨todo, p', lock, ?_⟩
          have ne : p' ≠ p := by
            rintro rfl
            rw [call] at call'
            cases call'
            exact todo done
          exact (update_of_ne ne ..).trans call'
        · change update s.call p none p' = some c at call'
          by_cases eq : p' = p
          · subst eq
            rw [update_self] at call'
            cases call'
          · rw [update_of_ne eq] at call'
            exact inv.calls p' c call'
      · cases eq
  | device => exact inv.device sim panic eq
  | intr =>
    rw [Ide.step] at eq
    split at eq
    next ctl =>
      obtain ⟨t', eq', good⟩ := inv.ideintr sim panic ctl
      rw [eq'] at eq
      cases eq
      exact good
    next ctl none =>
      rw [ideintr_empty ctl none] at eq
      cases eq
      exact .inl ⟨panic, q, fin, inv, sim⟩
    · cases eq

omit [DecidableEq P] in
theorem Initial.good (start : Initial s) : Good s := by
  refine .inl ⟨start.panic, [], [], ⟨⟨start.queue, nodup_nil, fun b mem => (by cases mem),
    fun p b call => ?_, start.arrived⟩, fun _ => start.ctl, fun b at_head => (by cases at_head),
    start.started⟩, fun m at_m => ⟨?_, fun b mem => (by cases mem)⟩⟩
  · rw [start.call] at call
    cases call
  · rw [start.mem] at at_m
    exact (Option.some.inj at_m).symm

theorem reachable_good (reach : (ide P D).Reachable s) : Good s := by
  refine reach.invariant (P := Good) (fun s start => Initial.good start) fun s a t _ good step => ?_
  change stepLive s a = some t at step
  unfold stepLive at step
  split at step
  next panic =>
    rcases good with ⟨-, q, fin, inv, sim⟩ | ⟨stopped, -⟩
    · exact inv.step sim panic step
    · exact absurd panic stopped
  · cases step

/-- Requests are started once each, in the order in which they arrive, and no call of the driver
gets stuck before it sleeps. -/
structure Served (s : State P D) : Prop where
  order : ∃ q fin, Queue.Linked s.queue.next s.queue.head q ∧ s.arrived = fin ++ q ∧
    s.started = fin ++ q.take 1
  call : ∀ p b, s.call p = none → ∃ t, step s (.iderw p b) = some t
  intr : ∀ d, s.ctl = .done d → ∃ t, step s .intr = some t

/-- The driver with interrupts refines the one in memory.  `mem` is what `memide.c` makes of the
requests in the order of the queue, as long as it does not panic.  Then `ide.c` does not panic
either; a buffer is as in `mem` when `iderw` returns, with `B_VALID` and without `B_DIRTY`; and so
are all buffers and the disk when the queue is empty. -/
theorem ide_refines_memide {s : State P D} (reach : (ide P D).Reachable s) :
    (s.panic = none → Served s) ∧
    (∀ p t, (ide P D).step s (.wait p) t → ∃ b, s.call p = some b ∧ t.call p = none ∧
      (t.buf b).valid = true ∧ (t.buf b).dirty = false ∧ ∀ m, t.mem = some m → t.buf b = m.buf b) ∧
    ∀ m, s.havedisk1 = true → s.mem = some m → s.panic = none ∧
      (s.queue.head = none → s.buf = m.buf ∧ s.disk true = m.disk) := by
  rcases reachable_good reach with ⟨panic, q, fin, inv, sim⟩ | ⟨stopped, broken⟩
  · refine ⟨fun _ => ⟨⟨q, fin, inv.linked, inv.arrived, inv.started⟩, fun p b out => ?_,
      fun d ctl => ?_⟩, fun p t step => ?_, fun m _ at_m => ⟨panic, fun none => ?_⟩⟩
    · obtain ⟨t, eq, -⟩ := inv.iderw (b := b) sim panic out
      exact ⟨t, by rw [Ide.step, if_pos out, eq]⟩
    · obtain ⟨t, eq, -⟩ := inv.ideintr sim panic ctl
      exact ⟨t, by rw [Ide.step, ctl, ← eq]⟩
    · change stepLive s _ = some t at step
      rw [stepLive, if_pos panic, Ide.step, iderwWait] at step
      split at step
      · cases step
      next b call =>
        split at step
        next done =>
          cases step
          refine ⟨b, call, update_self .., done.1, done.2, fun m at_m => ?_⟩
          have absent : b ∉ q := fun mem => (inv.waits b mem).1 done
          rw [(sim m at_m).1, Mem.foldl_buf _ absent]
        · cases step
    · have empty : q = [] := head?_eq_none_iff.mp (inv.head.symm.trans none)
      have eq := (sim m at_m).1
      rw [empty] at eq
      rw [eq]
      exact ⟨rfl, rfl⟩
  · refine ⟨fun panic => absurd panic stopped, fun p t step => ?_, fun m have1 at_m => ?_⟩
    · change stepLive s _ = some t at step
      rw [stepLive, if_neg stopped] at step
      cases step
    · rw [broken have1] at at_m
      cases at_m

/-- A disk of zeros, buffer 0 to be written with 7 to block 3 and buffer 1 to be filled from it. -/
def twoRequests : State (Fin 2) Nat where
  buf b := if b = 0 then ⟨true, true, 1, 3, 7⟩ else ⟨false, false, 1, 3, 0⟩
  lock _ := none
  queue := ⟨none, fun _ => none⟩
  ctl := .idle
  disk _ _ := 0
  havedisk1 := true
  call _ := none
  panic := none
  mem :=
    some ⟨fun b => if b = 0 then ⟨true, true, 1, 3, 7⟩ else ⟨false, false, 1, 3, 0⟩, fun _ => 0⟩
  arrived := []
  started := []

theorem ide_refines_memide_two : ∃ s : State (Fin 2) Nat, (ide (Fin 2) Nat).Reachable s ∧
    s.started = [0, 1] ∧ s.buf 1 = ⟨true, false, 1, 3, 7⟩ ∧
    ∃ m, s.mem = some m ∧ s.buf = m.buf := by
  let acts : List (Act (Fin 2) Nat) :=
    [.lock 0 0, .lock 1 1, .iderw 0 0, .iderw 1 1, .device, .intr, .device, .wait 0, .intr, .wait 1]
  have start : (ide (Fin 2) Nat).Reachable twoRequests :=
    .init ⟨fun _ => rfl, rfl, rfl, fun _ => rfl, rfl, rfl, rfl, rfl⟩
  have runs : (Lts.exec stepLive (fun _ => true) twoRequests acts).isSome := by decide
  obtain ⟨s, run⟩ := Option.isSome_iff_exists.mp runs
  have reach : (ide (Fin 2) Nat).Reachable s :=
    start.of_exec (fun _ _ _ _ step _ => step) run
  have check : ((Lts.exec stepLive (fun _ => true) twoRequests acts).all fun s =>
      s.started = [0, 1] ∧ s.buf 1 = ⟨true, false, 1, 3, 7⟩ ∧ s.havedisk1 ∧ s.mem.isSome ∧
        s.queue.head = none) = true := by
    decide +kernel
  rw [run] at check
  obtain ⟨started, buf, disk1, mem, empty⟩ := of_decide_eq_true check
  obtain ⟨m, at_m⟩ := Option.isSome_iff_exists.mp mem
  have same := ((ide_refines_memide reach).2.2 m disk1 at_m).2 empty
  exact ⟨s, reach, started, buf, m, at_m, same.1⟩

end

end Xv6.Ide
