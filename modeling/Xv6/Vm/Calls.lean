import Xv6.Vm.System
import Xv6.Vm.Robust

/-!
# What a call does to a process, and to the others

For each function that a step of the system runs: it ends, and the page table of the process is
again as its history says.  `Keeps` is what all of them have in common: they leave the address
spaces, the kernel stacks and the pipes of everybody else alone.
-/

namespace Xv6.Vm

variable {L : Layout} {m m' : Mem} {g g' : Ghost} {d : Frame} {sp sp' : Space} {p : Proc}

/-! ## Everybody else -/

/-- Address spaces and held frames other than `X` stay as they are. -/
structure Keeps (X : Frame → Prop) (g g' : Ghost) : Prop where
  space : ∀ e sp, ¬ X e → g.space e = some sp → g'.space e = some sp
  held : ∀ f, ¬ X f → g.own f = .held → g'.own f = .held

theorem Keeps.refl (X : Frame → Prop) (g : Ghost) : Keeps X g g :=
  ⟨fun _ _ _ => id, fun _ _ => id⟩

variable {X : Frame → Prop}

theorem Keeps.mono {Y : Frame → Prop} (keeps : Keeps X g g') (sub : ∀ f, X f → Y f) :
    Keeps Y g g' :=
  ⟨fun e sp out => keeps.space e sp (mt (sub e) out), fun f out => keeps.held f (mt (sub f) out)⟩

theorem Keeps.trans {Y Z : Frame → Prop} {g1 g2 : Ghost} (first : Keeps X g g1)
    (second : Keeps Y g1 g2)
    (sub : ∀ f, g.own f = .held ∨ (∃ sp, g.space f = some sp) → X f ∨ Y f → Z f) :
    Keeps Z g g2 where
  space e sp out at_e := by
    have out' := not_or.mp (mt (sub e (.inr ⟨sp, at_e⟩)) out)
    exact second.space e sp out'.2 (first.space e sp out'.1 at_e)
  held f out held := by
    have out' := not_or.mp (mt (sub f (.inl held)) out)
    exact second.held f out'.2 (first.held f out'.1 held)

theorem Keeps.of_eq (own : g'.own = g.own) (space : g'.space = g.space) : Keeps X g g' :=
  ⟨fun _ _ _ at_e => by rwa [space], fun _ _ held => by rwa [own]⟩

theorem Grows.keeps (grows : Grows d nobody m g m' g') : Keeps (· = d) g g' where
  space e sp ne at_e := by rwa [grows.space e ne]
  held f _ held := by rw [grows.own f id (by rw [held]; simp), held]

theorem Shrinks.keeps {F : Frame → Prop} (shrinks : Shrinks d F m g m' g')
    (others : ∀ f, f ≠ d → F f → g.own f ≠ .held) : Keeps (· = d) g g' where
  space e sp ne at_e := by rwa [shrinks.space e ne]
  held f ne held := by rw [shrinks.own f fun gone => others f ne gone held, held]

theorem Fresh.keeps (inv : Inv L m g) (fresh : Fresh d m g m' g') : Keeps nobody g g' where
  space e sp _ at_e := by
    have ne : e ≠ d := by
      rintro rfl
      cases fresh.free.symm.trans (inv.space e sp at_e).dir
    rwa [fresh.grows.space e ne]
  held f _ held := by
    have ne : f ≠ d := by
      rintro rfl
      cases fresh.free.symm.trans held
    rw [fresh.grows.own f ne (by rw [held]; simp), held]

theorem Keeps.setOwn (g : Ghost) (f : Frame) (r : Role) : Keeps (· = f) g (g.setOwn f r) :=
  ⟨fun _ _ _ at_e => at_e, fun x ne held => by rw [g.setOwn_ne ne, held]⟩

theorem Keeps.of_free (inv : Inv L m g) {f : Frame} (keeps : Keeps (· = f) g g')
    (free : g.own f = .free) : Keeps nobody g g' := by
  refine keeps.trans (.refl (fun _ => False) g') ?_
  rintro _ used (rfl | none)
  · rcases used with held | ⟨sp, at_f⟩
    · cases free.symm.trans held
    · cases free.symm.trans (inv.space _ sp at_f).dir
  · exact none

/-! ## The process itself -/

def Proc.top (p : Proc) : Nat := if p.life = .loaded then pages p.sz else 0

/-- The page table of a process that has been through `exec` is as its history says. -/
structure Proc.Fits (p : Proc) (sp : Space) : Prop where
  some : p.life ≠ .initcode → p.sz ≠ 0
  limit : p.life ≠ .initcode → p.sz.toNat < 2 ^ 31
  shape : p.life ≠ .initcode → Shape sp p.top p.guard p.ro

theorem Proc.top_loaded (loaded : p.life = .loaded) : p.top = pages p.sz := if_pos loaded

theorem Proc.Fits.loaded (fits : p.Fits sp) (loaded : p.life = .loaded) :
    p.sz ≠ 0 ∧ p.sz.toNat < 2 ^ 31 ∧ Shape sp (pages p.sz) p.guard p.ro := by
  have past : p.life ≠ .initcode := by
    rw [loaded]
    simp
  exact ⟨fits.some past, fits.limit past, p.top_loaded loaded ▸ fits.shape past⟩

theorem Proc.Fits.of_loaded (loaded : p.life = .loaded) (some : p.sz ≠ 0)
    (limit : p.sz.toNat < 2 ^ 31) (shape : Shape sp (pages p.sz) p.guard p.ro) : p.Fits sp :=
  ⟨fun _ => some, fun _ => limit, fun _ => by rwa [p.top_loaded loaded]⟩

theorem toInt_cases (n : Addr) :
    n.toNat < 2 ^ 31 ∧ n.toInt = n.toNat ∨ 2 ^ 31 ≤ n.toNat ∧ n.toInt = n.toNat - 2 ^ 32 := by
  rw [BitVec.toInt_eq_toNat_cond]
  split <;> omega

/-! ## `growproc` -/

def GrowPost (L : Layout) (m : Mem) (g : Ghost) (p : Proc) (n : Addr) (r : Option Addr)
    (m' : Mem) : Prop :=
  ∃ g' sp', Inv L m' g' ∧ g'.space p.pgdir = some sp' ∧ Keeps (· = p.pgdir) g g' ∧
    Settles nobody nobody m g m' g' ∧ (p.grown n r).Fits sp'

section Grow

variable (inv : Inv L m g) (at_p : g.space p.pgdir = some sp) (fits : p.Fits sp)
  (loaded : p.life = .loaded)
include inv at_p fits loaded

theorem grow_more {n : Addr} (more : 0 < n.toInt) :
    Ends (do
      let sz ← allocuvm L p.pgdir p.sz (p.sz + n)
      if sz = 0 then pure none else pure (some sz)) m (GrowPost L m g p n) := by
  obtain ⟨some, limit, shape⟩ := fits.loaded loaded
  have unchanged : p.grown n none = p := if_neg (by omega)
  have one : 1 ≤ pages p.sz := by
    have : p.sz.toNat ≠ 0 := fun zero => some (BitVec.eq_of_toNat_eq zero)
    unfold pages
    omega
  have sum : (p.sz + n).toNat = p.sz.toNat + n.toNat := by
    rw [BitVec.toNat_add]
    have := toInt_cases n
    omega
  rw [ends_bind]
  refine (allocuvm_ends inv at_p shape.absent).mono ?_
  rintro r m' (⟨-, rfl, rfl⟩ | ⟨-, shrink, -⟩ | ⟨low, le, grown | failed⟩)
  · rw [if_pos rfl, ends_pure]
    exact ⟨g, sp, inv, at_p, .refl .., .refl .., by rwa [unchanged]⟩
  · have : (p.sz + n).toNat < p.sz.toNat := shrink
    omega
  · obtain ⟨rfl, g', sp', growing⟩ := grown
    have pos : p.sz + n ≠ 0 := by
      intro zero
      have none : (p.sz + n).toNat = 0 := congrArg BitVec.toNat zero
      have := toInt_cases n
      omega
    rw [if_neg pos, ends_pure]
    refine ⟨g', sp', growing.inv, growing.at_d, growing.grows.keeps, growing.grows.settles,
      .of_loaded loaded pos low ?_⟩
    exact (shape.grow growing.filled one (pages_mono le) (pages_le low)).cut
  · obtain ⟨rfl, -, g', sp', unfilled⟩ := failed
    rw [if_pos rfl, ends_pure, GrowPost, unchanged]
    exact ⟨g', sp', unfilled.inv, unfilled.at_d, unfilled.grows.keeps, unfilled.grows.settles,
      .of_loaded loaded some limit (shape.unfilled unfilled (pages_le low))⟩

theorem grow_less {n : Addr} (less : n.toInt < 0) :
    Ends (do
      let sz ← deallocuvm L p.pgdir p.sz (p.sz + n)
      if sz = 0 then pure none else pure (some sz)) m (GrowPost L m g p n) := by
  obtain ⟨some, limit, shape⟩ := fits.loaded loaded
  rw [ends_bind]
  refine (deallocuvm_ends inv at_p _ _ (Nat.le_of_lt limit)).mono ?_
  rintro r m' ⟨size, g', sp', inv', at_p', unmapped, shrinks⟩
  have keeps : Keeps (· = p.pgdir) g g' := by
    refine shrinks.keeps ?_
    rintro f - ⟨u, -, -, user⟩ held
    cases user.symm.trans held
  have settles : Settles nobody nobody m g m' g' := by
    refine (shrinks.settles ?_).trans (.refl ..) (fun f => Or.rec And.left id) fun _ => False.elim
    rintro f ⟨u, -, -, user⟩ kernel
    cases user.symm.trans kernel
  by_cases grow : p.sz + n ≥ p.sz
  · rw [if_pos grow] at size
    subst size
    have le : p.sz.toNat ≤ (p.sz + n).toNat := grow
    rw [if_neg some, ends_pure]
    refine ⟨g', sp', inv', at_p', keeps, settles, .of_loaded loaded some limit (shape.congr ?_).cut⟩
    intro v _
    have := lt_pages (p.sz + n) v
    exact unmapped.stays v (by omega)
  · rw [if_neg grow] at size
    subst size
    have lt : (p.sz + n).toNat < p.sz.toNat := BitVec.not_le.mp grow
    have shrunk := shape.shrink (Nat.le_of_lt limit) unmapped (pages_mono (Nat.le_of_lt lt))
    by_cases zero : p.sz + n = 0
    · rw [if_pos zero, ends_pure]
      have gone : p.grown n none = p.empty := if_pos less
      rw [GrowPost, gone]
      rw [zero] at shrunk
      refine ⟨g', sp', inv', at_p', keeps, settles, fun _ => some, fun _ => limit, fun _ => ?_⟩
      have guard : cutGuard p.guard (pages 0) = none := by
        simp [cutGuard, pages]
      have ro : cutRo p.ro (pages 0) = fun _ => false := by
        funext v
        simp [cutRo, pages]
      rw [guard, ro] at shrunk
      exact shrunk
    · rw [if_neg zero, ends_pure]
      exact ⟨g', sp', inv', at_p', keeps, settles, .of_loaded loaded zero (by
        change (p.sz + n).toNat < _
        omega) shrunk⟩

theorem growproc_ends (n : Addr) : Ends (growproc L p n) m (GrowPost L m g p n) := by
  rw [growproc]
  by_cases more : 0 < n.toInt
  · rw [if_pos more]
    exact grow_more inv at_p fits loaded more
  · rw [if_neg more]
    by_cases less : n.toInt < 0
    · rw [if_pos less]
      exact grow_less inv at_p fits loaded less
    · rw [if_neg less, ends_pure]
      obtain ⟨some, limit, shape⟩ := fits.loaded loaded
      exact ⟨g, sp, inv, at_p, .refl .., .refl .., .of_loaded loaded some limit shape.cut⟩

end Grow

/-! ## `mprotect` and `munprotect` -/

/-- The pointers that `uva2ka` returns are aligned, so that the first loop never objects. -/
theorem kernelPtr_aligned (f : Option Frame) : (kernelPtr f).srem pgSize = 0 := by
  apply BitVec.eq_of_toInt_eq
  rw [BitVec.toInt_srem]
  cases f with
  | none => decide
  | some f =>
    refine Int.tmod_eq_zero_of_dvd ?_
    have nat : (kernelPtr (some f)).toNat = (f.toNat * 4096 + 2 ^ 31) % 2 ^ 32 := by
      rw [kernelPtr, BitVec.toNat_add, frameAddr_toNat]
      rfl
    have page : pgSize.toInt = 4096 := by decide
    have := toInt_cases (kernelPtr (some f))
    rw [page]
    omega

theorem alignLoop_tabled {addr : Addr} (tab : m.Tabled d addr) (n : Nat) :
    alignLoop d addr n m = .ok (true, m) := by
  induction n with
  | zero => rfl
  | succ n ih =>
    rw [alignLoop, Prog.bind_ok ((uva2ka_eq m d addr).trans (if_pos tab)), kernelPtr_aligned]
    exact ih

variable {v : Nat}

theorem stretch_ok {ok : Nat → Bool} {n u : Nat} (le : v ≤ u) (lt : u < v + stretch ok n v) :
    ok u = true := by
  induction n generalizing v with
  | zero => exact absurd lt (by simp [stretch]; omega)
  | succ n ih =>
    rw [stretch] at lt
    split at lt
    · rename_i here
      rcases eq_or_ne u v with rfl | ne
      · exact here
      · exact ih (v := v + 1) (by omega) (by omega)
    · omega

/-- `change` makes an entry read-only (`ro` is `true`) or writable, and leaves the rest of it. -/
structure Marks (change : Addr → Addr) (ro : Bool) : Prop where
  present : ∀ x, Has pteP (change x) ↔ Has pteP x
  user : ∀ x, Has pteU (change x) ↔ Has pteU x
  write : ∀ x, Has pteW (change x) ↔ ro = false
  frame : ∀ x, pteFrame (change x) = pteFrame x

theorem closed_marks : Marks closed true where
  present := has_and_not _ _ (by decide)
  user := has_and_not _ _ (by decide)
  write x := iff_of_false (not_has_and_not _ x) (by simp)
  frame := pteFrame_clear _ (by decide)

theorem opened_marks : Marks opened false where
  present x := by
    rw [opened, has_or]
    exact or_iff_left (by decide)
  user x := by
    rw [opened, has_or]
    exact or_iff_left (by decide)
  write x := by
    rw [opened, has_or]
    exact iff_of_true (.inr (by decide)) rfl
  frame := pteFrame_set (by decide)

/-- The entries of the `k` pages from page `v` on are changed. -/
structure Changed (change : Addr → Addr) (sp sp' : Space) (v k : Nat) : Prop where
  tab : sp'.tab = sp.tab
  pte : ∀ u, sp'.pte u = if v ≤ u ∧ u < v + k then change (sp.pte u) else sp.pte u

theorem Changed.refl (change : Addr → Addr) (sp : Space) (v : Nat) : Changed change sp sp v 0 :=
  ⟨rfl, fun u => by rw [if_neg (by omega)]⟩

variable {change : Addr → Addr}

theorem Changed.cons {k : Nat}
    (rest : Changed change (sp.setPte v (change (sp.pte v))) sp' (v + 1) k) :
    Changed change sp sp' v (k + 1) where
  tab := rest.tab
  pte u := by
    rw [rest.pte]
    rcases eq_or_ne u v with rfl | ne
    · rw [if_neg (by omega), if_pos (by omega), Space.setPte_self]
    · rw [sp.setPte_ne ne]
      by_cases later : v + 1 ≤ u ∧ u < v + 1 + k
      · rw [if_pos later, if_pos (by omega)]
      · rw [if_neg later, if_neg (by omega)]

/-- What the second loop of `mprotect` leaves behind, when it gets through `k` of `n` pages. -/
def ProtectPost (L : Layout) (m : Mem) (g : Ghost) (d : Frame) (sp : Space) (change : Addr → Addr)
    (v n k : Nat) (r : Bool) (m' : Mem) : Prop :=
  r = decide (k = n) ∧ ∃ g' sp', Inv L m' g' ∧ g'.space d = some sp' ∧ Changed change sp sp' v k ∧
    Grows d nobody m g m' g'

variable {ro : Bool}

theorem protectLoop_ends (marks : Marks change ro) {ok : Nat → Bool}
    (high : ∀ u, 2 ^ 19 ≤ u → ok u = false) (n : Nat) (m : Mem) (g : Ghost) (sp : Space)
    (a : Addr) (inv : Inv L m g) (at_d : g.space d = some sp)
    (access : ∀ u, u < 2 ^ 20 → (ok u = true ↔ Accessible sp u)) :
    Ends (protectLoop d change n a) m
      (ProtectPost L m g d sp change (vpn a) n (stretch ok n (vpn a))) := by
  induction n generalizing m g sp a with
  | zero => exact ⟨rfl, g, sp, inv, at_d, .refl .., .refl ..⟩
  | succ n ih =>
    have lt := vpn_lt a
    have ok_d := inv.space d sp at_d
    have stop : ¬ Accessible sp (vpn a) →
        ProtectPost L m g d sp change (vpn a) (n + 1) (stretch ok (n + 1) (vpn a)) false m := by
      intro closed
      have none : stretch ok (n + 1) (vpn a) = 0 := by
        rw [stretch, if_neg (mt (access _ lt).mp closed)]
      rw [none]
      exact ⟨by simp, g, sp, inv, at_d, .refl .., .refl ..⟩
    rw [protectLoop, ends_bind, ends_walk inv at_d]
    cases tab : sp.tab (vpn a / 1024) with
    | none =>
      refine stop fun here => not_has_zero pteP ?_
      rw [← ok_d.zero _ lt tab]
      exact here.1
    | some f =>
      simp only [Option.map_some, ends_bind, ends_getWord, ok_d.entry _ f lt tab]
      by_cases here : Has pteP (sp.pte (vpn a)) ∧ Has pteU (sp.pte (vpn a))
      · have yes := (access _ lt).mpr here
        have low : vpn a < 2 ^ 19 := by
          refine Nat.lt_of_not_le fun le => ?_
          rw [high _ le] at yes
          cases yes
        have next : vpn (a + pgSize) = vpn a + 1 := by
          unfold vpn at low ⊢
          have sum : (a + pgSize).toNat = a.toNat + 4096 := by
            simp only [pgSize]
            bv_omega
          omega
        have table := (ok_d.table _ f).mpr ⟨by omega, tab⟩
        have count : stretch ok (n + 1) (vpn a) = stretch ok n (vpn a + 1) + 1 := by
          rw [stretch, if_pos yes]
        rw [if_pos here, ends_bind, ends_setWord, count]
        refine (ih _ _ _ (a + pgSize) (inv.remap at_d lt tab fun _ =>
          ⟨marks.present _, marks.frame _⟩) (Ghost.setSpace_self ..) fun u lt' => ?_).mono ?_
        · rw [access u lt', Accessible, Accessible]
          rcases eq_or_ne u (vpn a) with rfl | ne
          · rw [Space.setPte_self, marks.present, marks.user]
          · rw [sp.setPte_ne ne]
        · rw [next]
          rintro r m' ⟨result, g', sp', inv', at_d', changed, grows⟩
          refine ⟨by rw [result]; simp, g', sp', inv', at_d', changed.cons, ?_⟩
          exact (Grows.entry table _ _).trans grows
      · rw [if_neg here]
        exact stop here

theorem Shape.changed {hi : Nat} {guard : Option Nat} {ro : Nat → Bool} {b : Bool} {k : Nat}
    (shape : Shape sp hi guard ro) (marks : Marks change b) (changed : Changed change sp sp' v k)
    (inside : ∀ u, v ≤ u → u < v + k → 1 ≤ u ∧ u < hi) (low : hi ≤ 2 ^ 19) :
    Shape sp' hi guard fun u => if v ≤ u ∧ u < v + k then b else ro u where
  present u lt := by
    rw [changed.pte]
    split
    · rw [marks.present]
      exact shape.present u lt
    · exact shape.present u lt
  user u lt pos below := by
    rw [changed.pte]
    split
    · rw [marks.user]
      exact shape.user u lt pos below
    · exact shape.user u lt pos below
  write u lt pos below := by
    rw [changed.pte]
    split
    · exact marks.write _
    · exact shape.write u lt pos below
  kernel u high lt := by
    have out : ¬ (v ≤ u ∧ u < v + k) := fun h => by
      have := inside u h.1 h.2
      omega
    rw [changed.pte, if_neg out]
    exact shape.kernel u high lt
  marks u above := by
    have out : ¬ (v ≤ u ∧ u < v + k) := fun h => by
      have := inside u h.1 h.2
      omega
    rw [if_neg out]
    exact shape.marks u above

theorem Proc.accessible_iff (u : Nat) :
    p.accessible u = true ↔ 1 ≤ u ∧ u < pages p.sz ∧ p.guard ≠ some u := by
  simp [Proc.accessible, and_assoc]

theorem Shape.accessible (shape : Shape sp (pages p.sz) p.guard p.ro) (limit : p.sz.toNat < 2 ^ 31)
    {u : Nat} (lt : u < 2 ^ 20) : p.accessible u = true ↔ Accessible sp u := by
  rw [p.accessible_iff, Accessible]
  rcases Nat.lt_or_ge u (2 ^ 19) with low | high
  · constructor
    · rintro ⟨pos, below, no_guard⟩
      exact ⟨(shape.present u low).mpr ⟨pos, below⟩, (shape.user u low pos below).mpr no_guard⟩
    · rintro ⟨here, user⟩
      obtain ⟨pos, below⟩ := (shape.present u low).mp here
      exact ⟨pos, below, (shape.user u low pos below).mp user⟩
  · have := lt_pages p.sz u
    exact iff_of_false (fun h => by omega) fun h => shape.kernel u high lt h.2

theorem blockOk_iff {sz i size : Addr} (limit : sz.toNat < 2 ^ 31) :
    blockOk sz i size = true ↔ 4096 ≤ i.toNat ∧ i.toNat < sz.toNat ∧ size.toNat < 2 ^ 31 ∧
      i.toNat + size.toNat ≤ sz.toNat := by
  have first := toInt_cases i
  have second := toInt_cases size
  have sum : (i + size).toNat = (i.toNat + size.toNat) % 2 ^ 32 := BitVec.toNat_add ..
  simp only [blockOk, Bool.and_eq_true, Bool.not_eq_true', decide_eq_false_iff_not,
    Bool.or_eq_false_iff, ge_iff_le, gt_iff_lt, BitVec.le_def, BitVec.lt_def]
  omega

theorem sysProtect_grows (marks : Marks change ro) (inv : Inv L m g)
    (at_p : g.space p.pgdir = some sp) (fits : p.Fits sp) (loaded : p.life = .loaded)
    (addr len : Addr) :
    Ends (sysProtect change p addr len) m fun _ m' =>
      ∃ g' sp', Inv L m' g' ∧ g'.space p.pgdir = some sp' ∧ Grows p.pgdir nobody m g m' g' ∧
        (∀ u, pteFrame (sp'.pte u) = pteFrame (sp.pte u)) ∧
        (p.sysMarked ro addr len).Fits sp' := by
  obtain ⟨some, limit, shape⟩ := fits.loaded loaded
  rw [sysProtect, Proc.sysMarked]
  by_cases accepted : blockOk p.sz addr 1
  · have range := (blockOk_iff limit).mp accepted
    by_cases short : len.toInt < 1
    · rw [if_pos accepted, if_neg (by omega), protect, if_pos short, ends_pure]
      exact ⟨g, sp, inv, at_p, .refl .., fun _ => rfl, fits⟩
    · have below : vpn addr < pages p.sz := by
        rw [lt_pages]
        unfold vpn
        omega
      have here : Has pteP (sp.pte (vpn addr)) := by
        unfold vpn at below ⊢
        exact (shape.present _ (by omega)).mpr ⟨by omega, below⟩
      have tab : m.Tabled p.pgdir addr := tabled_of_present (by
        rwa [(inv.space _ _ at_p).pte_eq])
      have high : ∀ u, 2 ^ 19 ≤ u → p.accessible u = false := by
        intro u le
        rw [Bool.eq_false_iff, ne_eq, p.accessible_iff, lt_pages]
        omega
      rw [if_pos accepted, if_pos ⟨accepted, by omega⟩, protect, if_neg short, ends_bind,
        ends_of_eq (alignLoop_tabled tab _), if_pos rfl]
      refine (protectLoop_ends marks high _ _ _ _ addr inv at_p fun u lt =>
        shape.accessible limit lt).mono ?_
      rintro r m' ⟨-, g', sp', inv', at_p', changed, grows⟩
      refine ⟨g', sp', inv', at_p', grows, fun u => ?_, .of_loaded loaded some limit ?_⟩
      · rw [changed.pte]
        split
        · exact marks.frame _
        · rfl
      · refine shape.changed marks changed (fun u le lt => ?_) (pages_le limit)
        obtain ⟨pos, inside, -⟩ := (p.accessible_iff u).mp (stretch_ok le lt)
        exact ⟨pos, inside⟩
  · rw [if_neg accepted, if_neg fun h => accepted h.1, ends_pure]
    exact ⟨g, sp, inv, at_p, .refl .., fun _ => rfl, fits⟩

theorem sysProtect_ends (marks : Marks change ro) (inv : Inv L m g)
    (at_p : g.space p.pgdir = some sp) (fits : p.Fits sp) (loaded : p.life = .loaded)
    (addr len : Addr) :
    Ends (sysProtect change p addr len) m fun _ m' =>
      ∃ g' sp', Inv L m' g' ∧ g'.space p.pgdir = some sp' ∧ Keeps (· = p.pgdir) g g' ∧
        Settles nobody nobody m g m' g' ∧ (p.sysMarked ro addr len).Fits sp' := by
  refine (sysProtect_grows marks inv at_p fits loaded addr len).mono ?_
  rintro _ m' ⟨g', sp', inv', at_p', grows, -, fits'⟩
  exact ⟨g', sp', inv', at_p', grows.keeps, grows.settles, fits'⟩

/-! ## `fork` -/

def ForkPost (L : Layout) (m : Mem) (g : Ghost) (p : Proc) (r : Option (Frame × Frame))
    (m' : Mem) : Prop :=
  ∃ g', Inv L m' g' ∧ Keeps nobody g g' ∧
    Settles (fun f => ∃ pgdir kstack, r = some (pgdir, kstack) ∧ (f = kstack ∨ f = pgdir)) nobody
      m g m' g' ∧
    ∀ pgdir kstack, r = some (pgdir, kstack) →
      g.own pgdir = .free ∧ g.own kstack = .free ∧ g'.own kstack = .held ∧
        ∃ sp, g'.space pgdir = some sp ∧
          Proc.Fits { p with pgdir := pgdir, kstack := kstack } sp

theorem fork_ends (inv : Inv L m g) (at_p : g.space p.pgdir = some sp) (fits : p.Fits sp)
    (loaded : p.life = .loaded) : Ends (fork L p) m (ForkPost L m g p) := by
  obtain ⟨some, limit, shape⟩ := fits.loaded loaded
  have low := pages_le limit
  rw [fork, ends_bind, ends_kalloc]
  cases free : m.free with
  | nil => exact ⟨g, inv, .refl .., (Settles.refl m g).mono fun _ => False.elim, (by simp)⟩
  | cons kstack rest =>
    obtain ⟨was_free, inv1⟩ := inv.take free
    have held := g.setOwn_self kstack .held
    have keeps1 := (Keeps.setOwn g kstack .held).of_free inv was_free
    have settles1 :
        Settles (· = kstack) nobody m g { m with free := rest } (g.setOwn kstack .held) :=
      .take was_free rfl
    have present : ∀ u, 1 ≤ u → u < pages p.sz → Has pteP (sp.pte u) := fun u pos below =>
      (shape.present u (by omega)).mpr ⟨pos, below⟩
    simp only [ends_bind]
    refine (copyuvm_ends inv1 at_p (Nat.le_of_lt limit) present).mono ?_
    rintro r m2 ⟨g2, inv2, ⟨rfl, restores, -⟩ | ⟨d, sp0, sp2, rfl, fresh, at_d, kernel, filled, -⟩⟩
    · have held2 : g2.own kstack = .held := by rw [restores.own, held]
      obtain ⟨alloc, inv3, dropped⟩ := inv2.dropHeld kstack held2
      rw [ends_bind, ends_kfree alloc, ends_pure]
      refine ⟨_, inv3, ?_, ?_, (by simp)⟩
      · have keeps2 : Keeps (· = kstack) g g2 :=
          keeps1.trans (.of_eq restores.own restores.space) fun _ _ none => none.elim False.elim id
        refine Keeps.of_free inv (keeps2.trans (.setOwn g2 kstack .free) ?_) was_free
        exact fun _ _ => Or.rec id id
      · have settles2 := settles1.trans (.of_eq restores.own restores.refreed)
          (fun f new => new.elim And.left False.elim) fun _ => False.elim
        exact settles2.trans (.give held2 dropped.refreed)
          (fun f new => new.elim (fun h => absurd h.1 h.2) False.elim) fun _ => False.elim
    · rw [ends_pure]
      have ne : d ≠ kstack := by
        rintro rfl
        cases fresh.free.symm.trans held
      refine ⟨g2, inv2, keeps1.trans (fresh.keeps inv1) fun _ _ => Or.rec id id, ?_, ?_⟩
      · refine settles1.trans (fresh.settles inv1 inv2 at_d) ?_ fun _ => False.elim
        exact fun f new => ⟨d, kstack, rfl, new.imp_left And.left⟩
      rintro pgdir _ ⟨⟩
      refine ⟨(g.setOwn_ne ne _).symm.trans fresh.free, was_free, ?_, sp2, at_d, ?_⟩
      · exact (fresh.keeps inv1).held kstack id held
      · exact .of_loaded loaded some limit (shape.copy kernel filled low)

/-! ## `wait` -/

theorem reap_ends (inv : Inv L m g) (at_p : g.space p.pgdir = some sp)
    (held : g.own p.kstack = .held) :
    Ends (reap L p) m fun _ m' =>
      ∃ g', Inv L m' g' ∧ Keeps (fun f => f = p.kstack ∨ f = p.pgdir) g g' ∧
        Settles nobody (fun f => f = p.kstack ∨ f = p.pgdir) m g m' g' := by
  obtain ⟨alloc, inv1, dropped⟩ := inv.dropHeld p.kstack held
  rw [reap, ends_bind, ends_kfree alloc]
  refine (freevm_ends inv1 at_p).mono ?_
  rintro _ m' ⟨g', inv', -, shrinks⟩
  refine ⟨g', inv', (Keeps.setOwn g p.kstack .free).trans (shrinks.keeps ?_) fun _ _ => id, ?_⟩
  · rintro f ne (eq | inside) held'
    · exact ne eq
    · rw [held'] at inside
      exact inside
  · exact (Settles.give held dropped.refreed).trans (shrinks.settles_dir inv1 at_p)
      (fun _ => Or.rec And.left id) fun f => Or.rec (fun eq => .inr ⟨eq, id⟩) .inl

/-! ## `userinit` -/

/-- What `inituvm` leaves behind; when the page could not be mapped there is no memory left. -/
def InitPost (L : Layout) (m : Mem) (g : Ghost) (d : Frame) (m' : Mem) : Prop :=
  ∃ g' sp', Inv L m' g' ∧ g'.space d = some sp' ∧ Keeps (· = d) g g' ∧
    (m.free.length ≤ 1 ∨ Grows d nobody m g m' g' ∧ ∀ v, v < 2 ^ 19 → Has pteP (sp'.pte v) → v < 1)

theorem inituvm_within (inv : Inv L m g) (at_d : g.space d = some sp)
    (absent : ∀ v, v < 2 ^ 19 → ¬ Has pteP (sp.pte v)) (init : List Byte) :
    Within (fun _ => m.free = [] ∨ 4096 ≤ init.length) (inituvm d init) m
      fun _ m' => InitPost L m g d m' := by
  rw [inituvm]
  by_cases large : init.length ≥ 4096
  · rw [if_pos large]
    exact .inr large
  · rw [if_neg large, within_bind, Within, kalloc]
    cases free : m.free with
    | nil => exact .inl rfl
    | cons y rest =>
      obtain ⟨was_free, inv1, taken⟩ := inv.takePage free d fun _ => 0
      have held := g.setOwn_self y .held
      refine Ends.bind_within ?_
      rw [ends_zeroPage]
      refine Ends.bind_within ((mappages_user (v := 0) inv1 at_d rfl (by decide)
        (absent 0 (by decide)) held pteFrame_userFlags).mono ?_)
      rintro r m2 (⟨rfl, rfl, empty⟩ | ⟨g2, sp2, rfl, inv2, at_d2, grows, user, -, mapped⟩)
      · have last : m.free.length ≤ 1 := by
          have : rest = [] := empty
          rw [free, this]
          exact Nat.le_refl 1
        refine ⟨_, sp, inv1.fill _ ?_, at_d, ?_, .inl last⟩
        · exact fun e sp' live =>
            ⟨(inv1.loose_of_held held e sp' live).1, fun i => by rw [held]; simp⟩
        · exact ((Keeps.setOwn g y .held).of_free inv was_free).trans (.refl nobody _)
            fun _ _ none => none.elim False.elim False.elim
      · have stored : ∀ page, Grows d (· = y) m2 g2 (m2.setPage y page) g2 := fun page =>
          ⟨fun _ _ _ => rfl, fun _ _ => .inl, fun _ _ => rfl,
            fun f ne _ _ _ => Mem.setPage_ne _ ne _, rfl, rfl⟩
        have grown := ((taken.trans grows).trans (stored (writeBytes (m2.page y) 0 init))).close
          was_free (.inr (by rw [user]; exact rfl))
        refine ⟨g2, sp2, inv2.of_stores (.page _ (.inr ⟨0, user⟩)), at_d2, grown.keeps,
          .inr ⟨grown, fun v low here => ?_⟩⟩
        refine Nat.lt_of_not_le fun pos => absent v low ?_
        rwa [mapped.pte, if_neg (by omega)] at here

/-- `userinit` makes the first process, or there is not enough memory for it.  With just enough
memory a page may be lost. -/
theorem userinit_within (inv : Inv L m g) (init : List Byte) :
    Within (fun _ => m.free.length ≤ 1027 ∨ 4096 ≤ init.length) (userinit L init) m fun p m' =>
      p.life = .initcode ∧ m.free.length ≤ m'.free.length + 1027 ∧
        ∃ g' sp, Inv L m' g' ∧ g'.space p.pgdir = some sp ∧ g'.own p.kstack = .held ∧
          Keeps nobody g g' ∧ g.own p.pgdir = .free ∧ g.own p.kstack = .free ∧
          (m.free.length ≤ 1027 ∨
            Settles (fun f => f = p.kstack ∨ f = p.pgdir) nobody m g m' g') := by
  rw [userinit, within_bind, Within, kalloc]
  cases free : m.free with
  | nil => exact .inl (Nat.zero_le _)
  | cons kstack rest =>
    obtain ⟨was_free, inv1⟩ := inv.take free
    have held := g.setOwn_self kstack .held
    have keeps1 := (Keeps.setOwn g kstack .held).of_free inv was_free
    have settles1 :
        Settles (· = kstack) nobody m g { m with free := rest } (g.setOwn kstack .held) :=
      .take was_free rfl
    refine Ends.bind_within ((setupkvm_ends inv1).mono ?_)
    rintro r m2 ⟨g2, inv2, ⟨rfl, -, few⟩ | ⟨d, sp, rfl, fresh, at_d, kernel⟩⟩
    · refine .inl ?_
      change rest.length ≤ 65 at few
      rw [List.length_cons]
      omega
    · have absent : ∀ v, v < 2 ^ 19 → ¬ Has pteP (sp.pte v) := by
        intro v low
        rw [kernel.rest v (by unfold kernelPages; omega)]
        exact not_has_zero _
      have cost : rest.length ≤ m2.free.length + 1025 :=
        inv1.cost inv2 at_d fresh.grows.new (n := 0) fun v low here => absurd here (absent v low)
      have held2 := (fresh.keeps inv1).held kstack id held
      rw [within_bind]
      refine (inituvm_within inv2 at_d absent init).mono ?_ ?_
      · rintro _ (empty | large)
        · rw [empty] at cost
          exact .inl (Nat.succ_le_succ (Nat.le_succ_of_le cost))
        · exact .inr large
      · rintro _ m3 ⟨g3, sp3, inv3, at_d3, keeps, outcome⟩
        have ne : kstack ≠ d := (inv2.loose_of_held held2 d sp at_d).1
        rw [within_pure]
        have dir_free : g.own d = .free := by
          rw [← g.setOwn_ne ne.symm]
          exact fresh.free
        refine ⟨rfl, ?_, g3, sp3, inv3, at_d3, keeps.held kstack ne held2, ?_, dir_free, was_free,
          ?_⟩
        · rw [List.length_cons]
          rcases outcome with few | ⟨grows, users⟩
          · omega
          · have := inv1.cost inv3 at_d3 (fresh.grow grows).grows.new users
            simp only at this
            omega
        · have keeps2 : Keeps nobody g g2 := keeps1.trans (fresh.keeps inv1) fun _ _ => Or.rec id id
          exact (keeps2.trans keeps fun _ _ => Or.rec False.elim id).of_free inv dir_free
        · rcases outcome with few | ⟨grows, -⟩
          · left
            rw [List.length_cons]
            omega
          · refine .inr (settles1.trans ((fresh.grow grows).settles inv1 inv3 at_d3) ?_
              fun _ => False.elim)
            exact fun f new => new.imp_left And.left

/-! ## The MMU -/

theorem storeByte_within (inv : Inv L m g) (at_d : g.space d = some sp) {va : Addr}
    (low : va < kernBase) (b : Byte) :
    Within (· = .fault va) (storeByte d va b) m fun _ m' =>
      Inv L m' g ∧ m'.refreed = m.refreed := by
  have ok := inv.space d sp at_d
  have below : vpn va < 2 ^ 19 := by
    have : va.toNat < 2 ^ 31 := low
    unfold vpn
    omega
  unfold Within storeByte
  rw [ok.pte_eq]
  by_cases here : Has pteP (sp.pte (vpn va)) ∧ Has pteW (sp.pte (vpn va))
  · rw [if_pos here]
    exact ⟨inv.of_stores (.page _ (.inr ⟨vpn va, (ok.user _ _).mpr ⟨below, here.1, rfl⟩⟩)), rfl⟩
  · rw [if_neg here]

end Xv6.Vm
