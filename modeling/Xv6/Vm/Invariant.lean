import Xv6.Vm.Calls

/-!
# The invariant of the system

In every state that processes can bring about, the frames of all processes, of the pipes and of
the free list are apart, and the page table of each process is as its history says (`Sound`).
`step_conserves` takes all the actions.  It tells at the same time how the kernel can stop, which
is how the panics of `vm.c` are seen to be out of reach.
-/

namespace Xv6.Vm

open List

variable {L : Layout} {m m' : Mem} {g g' : Ghost} {s : System} {i : Fin nproc} {p q : Proc}

/-! ## Processes in memory -/

/-- The kernel stack and the address space of a process are its own. -/
structure Proc.Alive (g : Ghost) (p : Proc) : Prop where
  stack : g.own p.kstack = .held
  space : ∃ sp, g.space p.pgdir = some sp ∧ p.Fits sp

theorem Proc.Alive.dir (alive : p.Alive g) (inv : Inv L m g) : g.own p.pgdir = .dir := by
  obtain ⟨sp, at_p, -⟩ := alive.space
  exact (inv.space _ sp at_p).dir

variable {X : Frame → Prop}

theorem Keeps.alive (keeps : Keeps X g g') (alive : p.Alive g) (dir : ¬ X p.pgdir)
    (stack : ¬ X p.kstack) : p.Alive g' where
  stack := keeps.held _ stack alive.stack
  space := by
    obtain ⟨sp, at_p, fits⟩ := alive.space
    exact ⟨sp, keeps.space _ sp dir at_p, fits⟩

structure Sound (L : Layout) (s : System) (g : Ghost) : Prop where
  inv : Inv L s.mem g
  alive : ∀ i p, s.proc i = some p → p.Alive g
  pipe : ∀ f ∈ s.pipes, g.own f = .held
  apart : ∀ i j p q, s.proc i = some p → s.proc j = some q → i ≠ j →
    p.pgdir ≠ q.pgdir ∧ p.kstack ≠ q.kstack
  stack : ∀ i p, s.proc i = some p → p.kstack ∉ s.pipes
  nodup : s.pipes.Nodup

section Sound

variable (sound : Sound L s g)
include sound

theorem Sound.dir_ne (at_i : s.proc i = some p) {f : Frame} (held : g.own f = .held) :
    f ≠ p.pgdir := by
  rintro rfl
  cases held.symm.trans ((sound.alive i p at_i).dir sound.inv)

theorem Sound.idle (inv' : Inv L m' g') (keeps : Keeps nobody g g') :
    Sound L { s with mem := m' } g' where
  inv := inv'
  alive i p at_i := keeps.alive (sound.alive i p at_i) id id
  pipe f member := keeps.held f id (sound.pipe f member)
  apart := sound.apart
  stack := sound.stack
  nodup := sound.nodup

theorem Sound.set (inv' : Inv L m' g') (keeps : Keeps X g g')
    (alive : p.Alive g') (others : ∀ j q, j ≠ i → s.proc j = some q →
      (¬ X q.pgdir ∧ q.pgdir ≠ p.pgdir) ∧ ¬ X q.kstack ∧ q.kstack ≠ p.kstack)
    (pipes : ∀ f ∈ s.pipes, ¬ X f ∧ f ≠ p.kstack) :
    Sound L (System.setProc { s with mem := m' } i (some p)) g' := by
  have slot : ∀ j q, (System.setProc { s with mem := m' } i (some p)).proc j = some q →
      j = i ∧ p = q ∨ j ≠ i ∧ s.proc j = some q := fun j q at_j =>
    (System.setProc_cases at_j).imp_left fun h => ⟨h.1, Option.some.inj h.2⟩
  constructor
  case inv => exact inv'
  case alive =>
    intro j q at_j
    rcases slot j q at_j with ⟨-, rfl⟩ | ⟨ne, at_j⟩
    · exact alive
    · obtain ⟨dir, stack⟩ := others j q ne at_j
      exact keeps.alive (sound.alive j q at_j) dir.1 stack.1
  case pipe => exact fun f member => keeps.held f (pipes f member).1 (sound.pipe f member)
  case apart =>
    intro j k q r at_j at_k ne
    rcases slot j q at_j with ⟨eq_j, rfl⟩ | ⟨ne_j, old_j⟩ <;>
      rcases slot k r at_k with ⟨eq_k, rfl⟩ | ⟨ne_k, old_k⟩
    · exact absurd (eq_j.trans eq_k.symm) ne
    · obtain ⟨dir, stack⟩ := others k r ne_k old_k
      exact ⟨dir.2.symm, stack.2.symm⟩
    · obtain ⟨dir, stack⟩ := others j q ne_j old_j
      exact ⟨dir.2, stack.2⟩
    · exact sound.apart j k q r old_j old_k ne
  case stack =>
    intro j q at_j member
    rcases slot j q at_j with ⟨-, rfl⟩ | ⟨-, at_j⟩
    · exact (pipes _ member).2 rfl
    · exact sound.stack j q at_j member
  case nodup => exact sound.nodup

theorem Sound.update (at_i : s.proc i = some p) (inv' : Inv L m' g')
    (keeps : Keeps (· = p.pgdir) g g') (kstack : q.kstack = p.kstack)
    (pgdir : q.pgdir = p.pgdir ∨ g.own q.pgdir = .free)
    (space : ∃ sp, g'.space q.pgdir = some sp ∧ q.Fits sp) :
    Sound L (System.setProc { s with mem := m' } i (some q)) g' := by
  have held := (sound.alive i p at_i).stack
  have stack := keeps.held _ (sound.dir_ne at_i held) held
  refine sound.set inv' keeps ⟨kstack ▸ stack, space⟩ (fun j r ne at_j => ?_) fun f member => ?_
  · obtain ⟨dirs, kstacks⟩ := sound.apart j i r p at_j at_i ne
    have alive := sound.alive j r at_j
    refine ⟨⟨dirs, ?_⟩, sound.dir_ne at_i alive.stack, kstack ▸ kstacks⟩
    rcases pgdir with same | free
    · rwa [same]
    · intro eq
      rw [← eq, alive.dir sound.inv] at free
      cases free
  · refine ⟨sound.dir_ne at_i (sound.pipe f member), ?_⟩
    rintro rfl
    exact sound.stack i p at_i (kstack ▸ member)

theorem Sound.add (inv' : Inv L m' g') (keeps : Keeps nobody g g') (pgdir : g.own q.pgdir = .free)
    (kstack : g.own q.kstack = .free) (alive : q.Alive g') :
    Sound L (System.setProc { s with mem := m' } i (some q)) g' := by
  have taken : ∀ {f x r}, g.own x = .free → g.own f = r → r ≠ .free → f ≠ x := by
    rintro f _ r free own busy rfl
    exact busy (own.symm.trans free)
  refine sound.set inv' keeps alive (fun j r ne at_j => ?_) fun f member => ?_
  · have alive := sound.alive j r at_j
    exact ⟨⟨id, taken pgdir (alive.dir sound.inv) (by simp)⟩,
      id, taken kstack alive.stack (by simp)⟩
  · exact ⟨id, taken kstack (sound.pipe f member) (by simp)⟩

theorem Sound.drop (at_i : s.proc i = some p) (inv' : Inv L m' g')
    (keeps : Keeps (fun f => f = p.kstack ∨ f = p.pgdir) g g') :
    Sound L (System.setProc { s with mem := m' } i none) g' := by
  have slot : ∀ j q, (System.setProc { s with mem := m' } i none).proc j = some q →
      j ≠ i ∧ s.proc j = some q := fun j q at_j =>
    (System.setProc_cases at_j).resolve_left (by simp)
  have held := (sound.alive i p at_i).stack
  constructor
  case inv => exact inv'
  case alive =>
    intro j q at_j
    obtain ⟨ne, at_j⟩ := slot j q at_j
    obtain ⟨dirs, kstacks⟩ := sound.apart j i q p at_j at_i ne
    have alive := sound.alive j q at_j
    exact keeps.alive alive (not_or.mpr ⟨(sound.dir_ne at_j held).symm, dirs⟩)
      (not_or.mpr ⟨kstacks, sound.dir_ne at_i alive.stack⟩)
  case pipe =>
    intro f member
    have held := sound.pipe f member
    refine keeps.held f (not_or.mpr ⟨?_, sound.dir_ne at_i held⟩) held
    rintro rfl
    exact sound.stack i p at_i member
  case apart =>
    exact fun j k q r at_j at_k => sound.apart j k q r (slot j q at_j).2 (slot k r at_k).2
  case stack => exact fun j q at_j => sound.stack j q (slot j q at_j).2
  case nodup => exact sound.nodup

/-! ## Pipes -/

theorem Sound.openPipe {f : Frame} {rest : List Frame} (free : s.mem.free = f :: rest) :
    Sound L { s with mem := { s.mem with free := rest }, pipes := f :: s.pipes }
      (g.setOwn f .held) := by
  obtain ⟨was_free, inv'⟩ := sound.inv.take free
  have keeps := (Keeps.setOwn g f .held).of_free sound.inv was_free
  constructor
  case inv => exact inv'
  case alive => exact fun i p at_i => keeps.alive (sound.alive i p at_i) id id
  case pipe =>
    intro x member
    rcases mem_cons.mp member with rfl | old
    · exact g.setOwn_self x .held
    · exact keeps.held x id (sound.pipe x old)
  case apart => exact sound.apart
  case stack =>
    intro i p at_i member
    rcases mem_cons.mp member with eq | old
    · have held := (sound.alive i p at_i).stack
      rw [eq, was_free] at held
      cases held
    · exact sound.stack i p at_i old
  case nodup =>
    refine nodup_cons.mpr ⟨fun member => ?_, sound.nodup⟩
    cases was_free.symm.trans (sound.pipe f member)

theorem Sound.closePipe {f : Frame} (member : f ∈ s.pipes) :
    Allocatable L f ∧ Sound L { s with mem := s.mem.freed f, pipes := s.pipes.erase f }
      (g.setOwn f .free) := by
  have held := sound.pipe f member
  obtain ⟨alloc, inv', -⟩ := sound.inv.dropHeld f held
  have keeps := Keeps.setOwn g f .free
  refine ⟨alloc, ?_⟩
  constructor
  case inv => exact inv'
  case alive =>
    intro i p at_i
    refine keeps.alive (sound.alive i p at_i) (sound.dir_ne at_i held).symm ?_
    rintro eq
    exact sound.stack i p at_i (eq ▸ member)
  case pipe =>
    intro x left
    obtain ⟨ne, old⟩ := (sound.nodup.mem_erase_iff).mp left
    exact keeps.held x ne (sound.pipe x old)
  case apart => exact sound.apart
  case stack => exact fun i p at_i left => sound.stack i p at_i (mem_of_mem_erase left)
  case nodup => exact sound.nodup.erase f

end Sound

/-! ## Frames that are known -/

/-- The frames that `struct proc` or an open pipe point at. -/
def System.Homes (s : System) (f : Frame) : Prop :=
  f ∈ s.pipes ∨ ∃ i p, s.proc i = some p ∧ (f = p.kstack ∨ f = p.pgdir)

variable {f : Frame}

theorem System.Homes.of_proc (at_i : s.proc i = some p) (mine : f = p.kstack ∨ f = p.pgdir) :
    s.Homes f := .inr ⟨i, p, at_i, mine⟩

theorem System.homes_of_set (home : (System.setProc { s with mem := m' } i (some q)).Homes f) :
    s.Homes f ∨ f = q.kstack ∨ f = q.pgdir := by
  rcases home with pipe | ⟨j, r, at_j, mine⟩
  · exact .inl (.inl pipe)
  · rcases System.setProc_cases at_j with ⟨-, new⟩ | ⟨-, old⟩
    · cases new
      exact .inr mine
    · exact .inl (.of_proc old mine)

theorem System.Homes.set (home : s.Homes f)
    (slot : ∀ p, s.proc i = some p → f = p.kstack ∨ f = p.pgdir → f = q.kstack ∨ f = q.pgdir) :
    (System.setProc { s with mem := m' } i (some q)).Homes f := by
  rcases home with pipe | ⟨j, r, at_j, mine⟩
  · exact .inl pipe
  · rcases eq_or_ne j i with rfl | ne
    · exact .of_proc (System.setProc_self ..) (slot r at_j mine)
    · exact .of_proc (i := j) ((Function.update_of_ne ne _ _).trans at_j) mine

/-- What a step does to frames that the processes do not know: they stay what they are, and a
frame joins them only if it is neither held nor a directory. -/
structure Conserves (s : System) (g : Ghost) (t : System) (g' : Ghost) : Prop where
  keeps : Keeps s.Homes g g'
  fresh : ∀ f, t.Homes f → s.Homes f ∨ g.own f = .free
  home : ∀ f, (g'.own f).Root → t.Homes f ∨ (g.own f).Root ∧ ¬ s.Homes f
  kernel : ∀ f, g'.own f = .kernel ↔ g.own f = .kernel
  refreed : t.mem.refreed = s.mem.refreed

theorem Settles.conserves {t : System} {Y Z : Frame → Prop}
    (settles : Settles X Y s.mem g t.mem g') (keeps : Keeps Z g g')
    (inside : ∀ f, Z f → s.Homes f) (stays : ∀ f, s.Homes f → ¬ Y f → t.Homes f)
    (new : ∀ f, X f → t.Homes f) (fresh : ∀ f, t.Homes f → s.Homes f ∨ g.own f = .free) :
    Conserves s g t g' where
  keeps := keeps.mono inside
  fresh := fresh
  home f root := by
    obtain ⟨left, old | added⟩ := settles.root f root
    · by_cases home : s.Homes f
      · exact .inl (stays f home left)
      · exact .inr ⟨old, home⟩
    · exact .inl (new f added)
  kernel := settles.kernel
  refreed := settles.refreed

theorem Settles.conserves_idle (settles : Settles nobody nobody s.mem g m' g')
    (keeps : Keeps nobody g g') : Conserves s g { s with mem := m' } g' :=
  settles.conserves (t := { s with mem := m' }) keeps (fun _ => False.elim) (fun _ home _ => home)
    (fun _ => False.elim) fun _ => .inl

theorem Settles.conserves_update {Y : Frame → Prop} (settles : Settles X Y s.mem g m' g')
    (at_i : s.proc i = some p) (keeps : Keeps (· = p.pgdir) g g') (kstack : q.kstack = p.kstack)
    (pgdir : q.pgdir = p.pgdir ∨ g.own q.pgdir = .free ∧ Y p.pgdir) (new : ∀ f, X f → f = q.pgdir) :
    Conserves s g (System.setProc { s with mem := m' } i (some q)) g' := by
  refine settles.conserves (t := System.setProc { s with mem := m' } i (some q)) keeps
    (fun f eq => .of_proc at_i (.inr eq)) (fun f home left => home.set ?_)
    (fun f added => .of_proc (System.setProc_self ..) (.inr (new f added))) fun f home => ?_
  · rintro p' at_i' mine
    cases at_i.symm.trans at_i'
    rcases mine with rfl | rfl
    · exact .inl kstack.symm
    · exact .inr (pgdir.resolve_right fun h => left h.2).symm
  · rcases System.homes_of_set home with old | rfl | rfl
    · exact .inl old
    · exact .inl (.of_proc at_i (.inl kstack))
    · rcases pgdir with same | ⟨free, -⟩
      · exact .inl (.of_proc at_i (.inr same))
      · exact .inr free

/-! ## Steps -/

/-- What may come of an action: a state in which `P` holds, or one of the stops `E`. -/
def Outcome (E : Stop → Prop) (P : System → Prop) : Except Stop System → Prop
  | .ok t => P t
  | .error e => E e

theorem run_outcome {α : Type} {E : Stop → Prop} {x : K α} {Q : α → Mem → Prop}
    {rest : α → System → System} {P : System → Prop} (within : Within E x s.mem Q)
    (next : ∀ a m', Q a m' → P (rest a { s with mem := m' })) : Outcome E P (s.run x rest) := by
  unfold Within at within
  unfold System.run
  cases result : x s.mem with
  | ok r =>
    rw [result] at within
    exact next r.1 r.2 within
  | error e =>
    rw [result] at within
    exact within

theorem caller_eq {lives : List Life} (caller : s.caller i lives = some p) :
    s.proc i = some p ∧ p.life ∈ lives := by
  obtain ⟨at_i, life⟩ := Option.filter_eq_some_iff.mp caller
  exact ⟨at_i, of_decide_eq_true life⟩

/-- The stops that an action may run into. -/
def Expected : Action → Stop → Prop
  | .exec _ file argv, e => ImageStop argv (execVerdict file) e
  | .store _ va _, e => e = .fault va
  | _, _ => False

def Follows (L : Layout) (s : System) (g : Ghost) (t : System) : Prop :=
  ∃ g', Sound L t g' ∧ Conserves s g t g'

variable {r : Except Stop System}

/-- The common case: a call of a `loaded` process that changes its own address space. -/
theorem call_conserves {α : Type} {x : Proc → K α} {after : Proc → α → Proc} {E : Stop → Prop}
    (kstack : ∀ p a, (after p a).kstack = p.kstack) (pgdir : ∀ p a, (after p a).pgdir = p.pgdir)
    (ends : ∀ (p : Proc) (m : Mem) (g : Ghost) (sp : Space), Inv L m g → g.space p.pgdir = some sp →
      p.Fits sp → p.life = .loaded → Ends (x p) m fun a m' => ∃ g' sp', Inv L m' g' ∧
        g'.space p.pgdir = some sp' ∧ Keeps (· = p.pgdir) g g' ∧
        Settles nobody nobody m g m' g' ∧ (after p a).Fits sp')
    (sound : Sound L s g)
    (step : (s.caller i [.loaded]).map (fun p => s.run (x p) fun a t =>
      t.setProc i (some (after p a))) = some r) : Outcome E (Follows L s g) r := by
  obtain ⟨p, caller, rfl⟩ := Option.map_eq_some_iff.mp step
  obtain ⟨at_i, life⟩ := caller_eq caller
  obtain ⟨sp, at_p, fits⟩ := (sound.alive i p at_i).space
  refine run_outcome (ends p s.mem g sp sound.inv at_p fits (mem_singleton.mp life)).within ?_
  rintro a m' ⟨g', sp', inv', at_p', keeps, settles, fits'⟩
  exact ⟨g', sound.update at_i inv' keeps (kstack p a) (.inl (pgdir p a))
    ⟨sp', by rwa [pgdir], fits'⟩, settles.conserves_update at_i keeps (kstack p a)
      (.inl (pgdir p a)) fun _ => False.elim⟩

theorem exec_conserves (sound : Sound L s g) {file : Option File} {argv : List CStr}
    (step : s.step L (.exec i file argv) = some r) :
    Outcome (Expected (.exec i file argv)) (Follows L s g) r := by
  obtain ⟨p, caller, rfl⟩ := Option.map_eq_some_iff.mp step
  obtain ⟨at_i, -⟩ := caller_eq caller
  obtain ⟨sp, at_p, -⟩ := (sound.alive i p at_i).space
  refine run_outcome (exec_within sound.inv at_p file argv) ?_
  intro r m' post
  cases r with
  | none =>
    obtain ⟨g', failed⟩ := post.failed rfl
    exact ⟨g', sound.idle failed.inv (.of_eq failed.own failed.space),
      (Settles.of_eq failed.own failed.refreed).conserves_idle (.of_eq failed.own failed.space)⟩
  | some img =>
    obtain ⟨-, g', sp', done⟩ := post.done img rfl
    have keeps : Keeps (· = p.pgdir) g g' := by
      refine ⟨fun e sp ne at_e => ?_, fun f _ => done.held f⟩
      have new : e ≠ img.pgdir := by
        rintro rfl
        cases done.fresh.symm.trans (sound.inv.space _ sp at_e).dir
      rwa [done.space e new ne]
    have some : img.sz ≠ 0 := by
      intro zero
      have three := done.three
      rw [zero] at three
      exact absurd three (by decide)
    exact ⟨g', sound.update at_i done.inv keeps rfl (.inr done.fresh)
      ⟨sp', done.at_new, .of_loaded rfl some done.limit done.shape⟩,
      done.settles.conserves_update at_i keeps rfl (.inr ⟨done.fresh, rfl⟩) fun _ => id⟩

theorem fork_conserves (sound : Sound L s g) {j : Fin nproc}
    (step : s.step L (.fork i j) = some r) :
    Outcome (Expected (.fork i j)) (Follows L s g) r := by
  rw [System.step] at step
  split at step
  · cases step
  · rename_i empty
    obtain ⟨p, caller, rfl⟩ := Option.map_eq_some_iff.mp step
    obtain ⟨at_i, life⟩ := caller_eq caller
    obtain ⟨sp, at_p, fits⟩ := (sound.alive i p at_i).space
    refine run_outcome (fork_ends sound.inv at_p fits (mem_singleton.mp life)).within ?_
    rintro r m' ⟨g', inv', keeps, settles, child⟩
    cases r with
    | none =>
      refine ⟨g', sound.idle inv' keeps, (settles.mono ?_).conserves_idle keeps⟩
      rintro _ ⟨_, _, ⟨⟩, _⟩
    | some frames =>
      obtain ⟨pgdir, kstack⟩ := frames
      obtain ⟨dir_free, stack_free, held, space⟩ := child pgdir kstack rfl
      refine ⟨g', sound.add inv' keeps dir_free stack_free ⟨held, space⟩, ?_⟩
      refine settles.conserves (t := System.setProc { s with mem := m' } j (some _)) keeps
        (fun _ => False.elim)
        (fun f home _ => home.set fun q at_j => by cases empty.symm.trans at_j)
        ?_ fun f home => ?_
      · rintro f ⟨_, _, ⟨⟩, mine⟩
        exact .of_proc (System.setProc_self ..) mine
      · rcases System.homes_of_set home with old | rfl | rfl
        · exact .inl old
        · exact .inr stack_free
        · exact .inr dir_free

theorem Proc.grown_frames (p : Proc) (n : Addr) (r : Option Addr) :
    (p.grown n r).kstack = p.kstack ∧ (p.grown n r).pgdir = p.pgdir := by
  cases r with
  | some sz => exact ⟨rfl, rfl⟩
  | none =>
    rw [Proc.grown]
    split <;> exact ⟨rfl, rfl⟩

theorem Proc.sysMarked_frames (p : Proc) (ro : Bool) (addr len : Addr) :
    (p.sysMarked ro addr len).kstack = p.kstack ∧ (p.sysMarked ro addr len).pgdir = p.pgdir := by
  rw [Proc.sysMarked]
  split <;> exact ⟨rfl, rfl⟩

theorem step_conserves (sound : Sound L s g) {a : Action} (step : s.step L a = some r) :
    Outcome (Expected a) (Follows L s g) r := by
  cases a with
  | exec i file argv => exact exec_conserves sound step
  | fork i j => exact fork_conserves sound step
  | sbrk i n =>
    exact call_conserves (fun p r => (p.grown_frames n r).1) (fun p r => (p.grown_frames n r).2)
      (fun p m g sp inv at_p fits loaded => growproc_ends inv at_p fits loaded n) sound step
  | mprotect i addr len =>
    exact call_conserves (fun p _ => (p.sysMarked_frames true addr len).1)
      (fun p _ => (p.sysMarked_frames true addr len).2) (fun p m g sp inv at_p fits loaded =>
        sysProtect_ends closed_marks inv at_p fits loaded addr len) sound step
  | munprotect i addr len =>
    exact call_conserves (fun p _ => (p.sysMarked_frames false addr len).1)
      (fun p _ => (p.sysMarked_frames false addr len).2) (fun p m g sp inv at_p fits loaded =>
        sysProtect_ends opened_marks inv at_p fits loaded addr len) sound step
  | store i va b =>
    rw [System.step] at step
    split at step
    · cases step
    · rename_i p at_i
      split at step
      · rename_i low
        cases step
        obtain ⟨sp, at_p, -⟩ := (sound.alive i p at_i).space
        refine run_outcome (storeByte_within sound.inv at_p low b) ?_
        rintro _ m' ⟨inv', refreed⟩
        exact ⟨g, sound.idle inv' (.refl ..), (Settles.of_eq rfl refreed).conserves_idle (.refl ..)⟩
      · cases step
  | exit i =>
    obtain ⟨p, at_i, rfl⟩ := Option.map_eq_some_iff.mp step
    have alive := sound.alive i p at_i
    obtain ⟨sp, at_p, -⟩ := alive.space
    refine run_outcome (reap_ends sound.inv at_p alive.stack).within ?_
    rintro _ m' ⟨g', inv', keeps, settles⟩
    refine ⟨g', sound.drop at_i inv' keeps, ?_⟩
    refine settles.conserves (t := System.setProc { s with mem := m' } i none) keeps
      (fun f mine => .of_proc at_i mine) ?_ (fun _ => False.elim) ?_
    · rintro f (pipe | ⟨j, q, at_j, mine⟩) left
      · exact .inl pipe
      · rcases eq_or_ne j i with rfl | ne
        · cases at_i.symm.trans at_j
          exact absurd mine left
        · exact .of_proc (i := j) ((Function.update_of_ne ne _ _).trans at_j) mine
    · rintro f (pipe | ⟨j, q, at_j, mine⟩)
      · exact .inl (.inl pipe)
      · exact .inl (.of_proc ((System.setProc_cases at_j).resolve_left (by simp)).2 mine)
  | pipe =>
    cases step
    have ends : Ends kalloc s.mem fun r m' =>
        r = none ∧ m' = s.mem ∨ ∃ f rest, r = some f ∧ s.mem.free = f :: rest ∧
          m' = { s.mem with free := rest } := by
      rw [ends_kalloc]
      cases free : s.mem.free with
      | nil => exact .inl ⟨rfl, rfl⟩
      | cons f rest => exact .inr ⟨f, rest, rfl, rfl, rfl⟩
    refine run_outcome ends.within ?_
    rintro _ _ (⟨rfl, rfl⟩ | ⟨f, rest, rfl, free, rfl⟩)
    · exact ⟨g, sound, (Settles.refl ..).conserves_idle (.refl ..)⟩
    · have was_free := (sound.inv.take free).1
      have settles :
          Settles (· = f) nobody s.mem g { s.mem with free := rest } (g.setOwn f .held) :=
        .take was_free rfl
      refine ⟨_, sound.openPipe free, settles.conserves
        (t := { s with mem := { s.mem with free := rest }, pipes := f :: s.pipes })
        ((Keeps.setOwn g f .held).of_free sound.inv was_free) (fun _ => False.elim)
        (fun x home _ => home.imp_left (mem_cons_of_mem f)) ?_ ?_⟩
      · rintro x rfl
        exact .inl mem_cons_self
      · rintro x (pipe | proc)
        · rcases mem_cons.mp pipe with rfl | old
          · exact .inr was_free
          · exact .inl (.inl old)
        · exact .inl (.inr proc)
  | close f =>
    rw [System.step] at step
    split at step
    · rename_i member
      cases step
      obtain ⟨alloc, closed⟩ := sound.closePipe member
      refine run_outcome (Q := fun _ m' => m' = s.mem.freed f) (Ends.within ?_) ?_
      · rw [ends_kfree alloc]
      · rintro _ _ rfl
        have held := sound.pipe f member
        have settles : Settles nobody (· = f) s.mem g (s.mem.freed f) (g.setOwn f .free) :=
          .give held (sound.inv.freed_refreed (by rw [held]; simp))
        refine ⟨_, closed, settles.conserves
          (t := { s with mem := s.mem.freed f, pipes := s.pipes.erase f }) (.setOwn g f .free) ?_ ?_
          (fun _ => False.elim) ?_⟩
        · rintro x rfl
          exact .inl member
        · exact fun x home ne => home.imp_left ((mem_erase_of_ne ne).mpr)
        · exact fun x home => .inl (home.imp_left mem_of_mem_erase)
    · cases step

theorem step_sound (sound : Sound L s g) {a : Action} (step : s.step L a = some r) :
    Outcome (Expected a) (fun t => ∃ g', Sound L t g') r := by
  have outcome := step_conserves sound step
  cases r with
  | ok t => exact outcome.imp fun g' => And.left
  | error e => exact outcome

/-! ## Runs -/

theorem Proc.Alive.sound (inv : Inv L m g) (alive : p.Alive g) :
    Sound L (System.setProc ⟨m, fun _ => none, []⟩ 0 (some p)) g := by
  have only : ∀ j q, (System.setProc ⟨m, fun _ => none, []⟩ 0 (some p)).proc j = some q →
      j = 0 ∧ p = q := by
    intro j q at_j
    rcases System.setProc_cases at_j with ⟨eq, new⟩ | ⟨-, none⟩
    · exact ⟨eq, Option.some.inj new⟩
    · cases none
  refine ⟨inv, fun j q at_j => ?_, (by intros; contradiction), fun j k q r at_j at_k ne => ?_,
    fun _ _ _ => not_mem_nil, .nil⟩
  · obtain ⟨-, rfl⟩ := only j q at_j
    exact alive
  · exact absurd ((only j q at_j).1.trans (only k r at_k).1.symm) ne

theorem Proc.Alive.of_init {sp : Space} (life : p.life = .initcode)
    (at_p : g.space p.pgdir = some sp)
    (held : g.own p.kstack = .held) : p.Alive g := by
  have young : ∀ {P : Prop}, p.life ≠ .initcode → P := fun past => absurd life past
  exact ⟨held, sp, at_p, young, young, young⟩

variable {init : List Byte}

theorem init_sound (start : (processes L init).init s) : ∃ g, Sound L s g := by
  obtain ⟨m, p, m', boot, booted, rfl⟩ := start
  have within := userinit_within (boot_inv boot.nodup boot.alloc m.page m.loaded m.refreed) init
  unfold Within at within
  rw [booted] at within
  obtain ⟨life, -, g, sp, inv, at_p, held, -⟩ := within
  exact ⟨g, (Proc.Alive.of_init life at_p held).sound inv⟩

theorem reachable_sound (reach : (processes L init).Reachable s) : ∃ g, Sound L s g := by
  refine reach.invariant (fun _ => init_sound) ?_
  rintro s a t - ⟨g, sound⟩ step
  exact step_sound sound step

/-! ## Address spaces -/

variable {va : Addr}

theorem lt_pgRoundUp {sz : Addr} (limit : sz.toNat < 2 ^ 31) :
    va < pgRoundUp sz ↔ vpn va < pages sz := by
  change va.toNat < (pgRoundUp sz).toNat ↔ _
  rw [pgRoundUp_toNat (by omega)]
  unfold vpn pages
  omega

theorem pgSize_le : pgSize ≤ va ↔ 1 ≤ vpn va := by
  change 4096 ≤ va.toNat ↔ _
  unfold vpn
  omega

/-- The user's half of the address space, by page numbers. -/
theorem low_iff (va : Addr) : va < kernBase ↔ vpn va < 2 ^ 19 := by
  have base : kernBase.toNat = 2 ^ 31 := rfl
  rw [BitVec.lt_def, base]
  unfold vpn
  omega

/-- **The shape of address spaces.**  In every reachable state, the pages that a process has since
its `exec` are those from `PGSIZE` up to its size, and all but the guard page are for the user.
The kernel never stops for a page that is missing, mapped twice or freed without being there. -/
theorem address_space_shape (reach : (processes L init).Reachable s) :
    (∀ i p, s.proc i = some p → p.life = .loaded → ∀ va, va < kernBase →
      (Has pteP (s.mem.pte p.pgdir va) ↔ pgSize ≤ va ∧ va < pgRoundUp p.sz) ∧
      (Has pteP (s.mem.pte p.pgdir va) → p.guard ≠ some (vpn va) →
        Has pteU (s.mem.pte p.pgdir va))) ∧
    ∀ a msg, s.step L a = some (.error (.panic msg)) →
      msg ≠ .copyuvmExist ∧ msg ≠ .copyuvmPresent ∧ msg ≠ .remap ∧ msg ≠ .kfree := by
  obtain ⟨g, sound⟩ := reachable_sound reach
  refine ⟨fun i p at_i loaded va low => ?_, fun a msg step => ?_⟩
  · obtain ⟨sp, at_p, fits⟩ := (sound.alive i p at_i).space
    obtain ⟨-, limit, shape⟩ := fits.loaded loaded
    have present := shape.present (vpn va) ((low_iff va).mp low)
    rw [(sound.inv.space _ sp at_p).pte_eq, pgSize_le, lt_pgRoundUp limit]
    refine ⟨present, fun here no_guard => ?_⟩
    obtain ⟨pos, below⟩ := present.mp here
    exact (shape.user _ ((low_iff va).mp low) pos below).mpr no_guard
  · have expected : Expected a (.panic msg) := step_sound sound step
    cases a with
    | exec i file argv =>
      change ImageStop _ (execVerdict file) _ at expected
      generalize execVerdict file = v at expected
      cases expected
      decide
    | store i va b => cases expected
    | _ => exact expected.elim

theorem exec_step {file : Option File} {argv : List CStr} {img : Image} (at_i : s.proc i = some p)
    (life : p.life ∈ [.initcode, .loaded])
    (executed : exec L file argv p.pgdir s.mem = .ok (some img, m')) :
    s.step L (.exec i file argv) =
      some (.ok (System.setProc { s with mem := m' } i (some (p.load img)))) := by
  have caller : s.caller i [.initcode, .loaded] = some p :=
    Option.filter_eq_some_iff.mpr ⟨at_i, decide_eq_true life⟩
  rw [System.step, caller, Option.map_some, System.run, executed]

theorem loaded_exists : ∃ s p img, (processes kernelLayout []).Reachable s ∧
    s.proc 0 = some (Proc.load p img) ∧ img.sz = 0x5000 ∧ 6000 < s.mem.free.length := by
  obtain ⟨free, nodup, alloc, length⟩ := frames_exist
  have started :=
    (userinit_within (boot_inv nodup alloc (fun _ _ => 0) [] []) []).ends fun _ few => by
    rcases few with few | large
    · change free.length ≤ 1027 at few
      omega
    · cases large
  obtain ⟨p, m, booted, life, cost, g, sp, inv, at_p, -⟩ := started.exists
  change free.length ≤ m.free.length + 1027 at cost
  have reach : (processes kernelLayout []).Reachable
      (System.setProc ⟨m, fun _ => none, []⟩ 0 (some p)) :=
    .init ⟨_, p, m, ⟨nodup, alloc⟩, booted, rfl⟩
  obtain ⟨img, m', -, -, ran, -, size, cost'⟩ := exec_small inv at_p (by omega)
  have step := exec_step (s := System.setProc ⟨m, fun _ => none, []⟩ 0 (some p))
    (System.setProc_self ..) (by rw [life]; exact mem_cons_self) ran
  refine ⟨_, p, img, reach.step step, System.setProc_self .., size, ?_⟩
  change 6000 < m'.free.length
  omega

theorem address_space_shape_loaded : ∃ s p, (processes kernelLayout []).Reachable s ∧
    s.proc 0 = some p ∧ p.life = .loaded ∧ Has pteP (s.mem.pte p.pgdir 0x1000) ∧
      ¬ Has pteP (s.mem.pte p.pgdir 0) := by
  obtain ⟨s, p, img, reach, at_0, size, -⟩ := loaded_exists
  have shape := (address_space_shape reach).1 0 _ at_0 rfl
  refine ⟨s, _, reach, at_0, rfl, (shape 0x1000 (by decide)).1.mpr ⟨by decide, ?_⟩, fun here => ?_⟩
  · change _ < pgRoundUp img.sz
    rw [size]
    decide
  · exact absurd ((shape 0 (by decide)).1.mp here).1 (by decide)

end Xv6.Vm
