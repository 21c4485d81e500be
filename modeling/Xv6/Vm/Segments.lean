import Xv6.Vm.Load

/-!
# The program headers

`plan` tells what the program headers of a file ask for, without looking at memory: they are
refused, or the image gets a certain size, or they have `loaduvm` store bytes in page 0.
`loadSegments_within` says that `exec`, as long as memory lasts, does what the headers ask for.
-/

namespace Xv6.Vm

inductive Verdict
  /-- `exec` refuses them. -/
  | bad
  /-- A segment starts in page 0, and `loaduvm` is asked to fill it. -/
  | low (sz : Addr)
  /-- The image ends at `sz`. -/
  | size (sz : Addr)
  deriving DecidableEq

def grown (sz : Addr) (ph : ProgHdr) : Addr :=
  if ph.vaddr + ph.memsz < sz then sz else ph.vaddr + ph.memsz

/-- `loaduvm` will panic, or store bytes through the zero entry of page 0. -/
def HitsPageZero (ip : File) (sz : Addr) (ph : ProgHdr) : Prop :=
  ph.vaddr = 0 ∧ ph.filesz ≠ 0 ∧ (sz ≤ pgSize ∨ ph.off.toNat < ip.bytes.length)

instance (ip : File) (sz : Addr) (ph : ProgHdr) : Decidable (HitsPageZero ip sz ph) :=
  inferInstanceAs (Decidable (_ ∧ _))

/-- The verdict on `k` program headers from offset `off` on, for an image of size `sz`. -/
def plan (ip : File) : Nat → Addr → Addr → Verdict
  | 0, _, sz => .size sz
  | k + 1, off, sz =>
    match readi ip off 32 with
    | none => .bad
    | some b =>
      let ph := ProgHdr.ofBytes b
      if b.length ≠ 32 then .bad
      else if ph.type ≠ elfProgLoad then plan ip k (off + 32) sz
      else if ph.memsz < ph.filesz ∨ ph.vaddr + ph.memsz < ph.vaddr then .bad
      else if ph.vaddr + ph.memsz ≥ kernBase ∨ ph.vaddr % pgSize ≠ 0 then .bad
      else if HitsPageZero ip (grown sz ph) ph then .low (grown sz ph)
      else if ip.HasSegment ph.off ph.filesz then plan ip k (off + 32) (grown sz ph)
      else .bad

/-- The size of the image at the end, or where page 0 is hit. -/
def Verdict.top : Verdict → Nat
  | .bad => 0
  | .low sz | .size sz => sz.toNat

theorem le_grown (sz : Addr) (ph : ProgHdr) : sz.toNat ≤ (grown sz ph).toNat := by
  unfold grown
  split
  · exact Nat.le_refl _
  · rename_i ge
    exact Nat.le_of_not_lt ge

theorem end_le_grown (sz : Addr) (ph : ProgHdr) :
    (ph.vaddr + ph.memsz).toNat ≤ (grown sz ph).toNat := by
  unfold grown
  split
  · rename_i lt
    exact Nat.le_of_lt lt
  · exact Nat.le_refl _

theorem plan_top (ip : File) (k : Nat) (off sz : Addr) :
    plan ip k off sz = .bad ∨ sz.toNat ≤ (plan ip k off sz).top := by
  induction k generalizing off sz with
  | zero => exact .inr (Nat.le_refl _)
  | succ k ih =>
    unfold plan
    cases readi ip off 32 with
    | none => exact .inl rfl
    | some b =>
      dsimp only
      have le := le_grown sz (ProgHdr.ofBytes b)
      split
      · exact .inl rfl
      split
      · exact ih _ _
      split
      · exact .inl rfl
      split
      · exact .inl rfl
      split
      · exact .inr le
      split
      · rcases ih (off + 32) (grown sz (ProgHdr.ofBytes b)) with bad | more
        · exact .inl bad
        · exact .inr (le.trans more)
      · exact .inl rfl

variable {L : Layout} {m m' : Mem} {g g' : Ghost} {d : Frame} {sp sp' : Space} {ip : File}

/-! ## The image being built -/

variable {m1 : Mem} {g1 : Ghost}

theorem Builds.grow (inv : Inv L m g) (builds : Builds d m g m1 g1)
    (grows : Grows d nobody m1 g1 m' g') : Builds d m g m' g' where
  free := builds.free
  own f ne taken := by
    have same := builds.own f ne taken
    rw [grows.own f id (by rwa [same]), same]
  new f ne free := by
    rcases builds.new f ne free with still | inside
    · exact grows.new f id still
    · refine .inr ?_
      rwa [grows.own f id (fun free => by rw [free] at inside; exact inside)]
  space e ne := (grows.space e ne).trans (builds.space e ne)
  kept f ne taken managed := by
    have same := builds.own f ne taken
    rw [grows.kept f id (by rwa [same]) ne ?_, builds.kept f ne taken managed]
    intro i table
    rw [same] at table
    exact inv.not_in_of_free builds.free f (by rw [table]; exact rfl)
  refreed := grows.refreed.trans builds.refreed

theorem Builds.store (inv : Inv L m g) (builds : Builds d m g m1 g1) (stores : Stores d g1 m1 m') :
    Builds d m g m' g1 where
  free := builds.free
  own := builds.own
  new := builds.new
  space := builds.space
  kept f ne taken managed := by
    rw [stores.kept f ?_ ?_, builds.kept f ne taken managed]
    · rintro rfl
      exact managed inv.zero_kernel
    · intro v user
      rw [builds.own f ne taken] at user
      exact inv.not_in_of_free builds.free f (by rw [user]; exact rfl)
  refreed := stores.refreed.trans builds.refreed

structure Loading (L : Layout) (m : Mem) (g : Ghost) (d : Frame) (sz : Addr) (m' : Mem)
    (g' : Ghost) (sp : Space) : Prop where
  inv : Inv L m' g'
  at_d : g'.space d = some sp
  builds : Builds d m g m' g'
  shape : Shape sp (pages sz) none fun _ => false
  tables : Tables sp (pages sz)
  zero : sp.pte 0 = 0
  from_page : 4096 ≤ sz.toNat
  limit : sz.toNat < 2 ^ 31

variable {sz : Addr}

theorem Loading.store (inv : Inv L m g) (loading : Loading L m g d sz m1 g' sp)
    (stores : Stores d g' m1 m') : Loading L m g d sz m' g' sp :=
  ⟨loading.inv.of_stores stores, loading.at_d, loading.builds.store inv stores, loading.shape,
    loading.tables, loading.zero, loading.from_page, loading.limit⟩

def Abandoned (L : Layout) (m : Mem) (g : Ghost) (d : Frame) (m' : Mem) : Prop :=
  ∃ g' sp, Inv L m' g' ∧ g'.space d = some sp ∧ Builds d m g m' g'

theorem Loading.abandoned (loading : Loading L m g d sz m' g' sp) :
    Abandoned L m g d m' := ⟨g', sp, loading.inv, loading.at_d, loading.builds⟩

theorem pages_le (limit : sz.toNat < 2 ^ 31) : pages sz ≤ 2 ^ 19 := by
  unfold pages
  omega

theorem pages_pos (from_page : 4096 ≤ sz.toNat) : 1 ≤ pages sz := by
  unfold pages
  omega

theorem Loading.alloc {newsz : Addr} {sp1 : Space} (inv : Inv L m g)
    (loading : Loading L m g d sz m1 g1 sp1) (low : newsz < kernBase) :
    Ends (allocuvm L d sz newsz) m1 fun r m' =>
      m'.loaded = m1.loaded ∧
      (r = (if newsz < sz then sz else newsz) ∧ (∃ g' sp', Loading L m g d r m' g' sp') ∨
        r = 0 ∧ Abandoned L m g d m' ∧ m.free.length ≤ 2050 + pages sz + pages newsz) := by
  have limit := loading.limit
  refine (allocuvm_ends loading.inv loading.at_d loading.shape.absent).mono ?_
  rintro r m' (⟨high, -, -⟩ | ⟨-, shrink, rfl, rfl⟩ | ⟨-, le, grown | failed⟩)
  · exact absurd low (BitVec.not_lt.mpr high)
  · exact ⟨rfl, .inl ⟨(if_pos shrink).symm, g1, sp1, loading⟩⟩
  · obtain ⟨rfl, g', sp', growing⟩ := grown
    have mono : pages sz ≤ pages r := pages_mono le
    have pos := pages_pos loading.from_page
    refine ⟨growing.grows.loaded, .inl ⟨(if_neg (BitVec.not_lt.mpr le)).symm, g', sp', ?_⟩⟩
    refine ⟨growing.inv, growing.at_d, loading.builds.grow inv growing.grows,
      loading.shape.grow growing.filled pos mono (pages_le low),
      loading.tables.grow growing.filled pos mono, ?_, loading.from_page.trans le, low⟩
    rw [growing.filled.old 0 (.inl pos), loading.zero]
  · obtain ⟨rfl, few, g', sp', unfilled⟩ := failed
    refine ⟨unfilled.grows.loaded, .inr ⟨rfl, ⟨g', sp', unfilled.inv, unfilled.at_d,
      loading.builds.grow inv unfilled.grows⟩, ?_⟩⟩
    have cost := inv.cost loading.inv loading.at_d loading.builds.new (n := pages sz)
      fun v lt present => ((loading.shape.present v lt).mp present).2
    omega

/-! ## The loop over the headers -/

/-- There was not enough memory for an image of size `sz`. -/
def Few (m : Mem) (sz : Addr) : Prop := m.free.length ≤ 2050 + 2 * pages sz

/-- The verdict has been carried out, from the memory `m1` on. -/
def Carried (m m1 : Mem) (r : Option Addr) (m' : Mem) : Verdict → Prop
  | .bad => r = none ∧ Clean m1 m'
  | .low s => pgSize < s ∧ 0 ∈ m'.loaded ∨ r = none ∧ Few m s
  | .size s => Clean m1 m' ∧ (r = some s ∨ r = none ∧ Few m s)

structure SegPost (L : Layout) (m : Mem) (g : Ghost) (d : Frame) (m1 : Mem) (v : Verdict)
    (r : Option Addr) (m' : Mem) : Prop where
  suffix : m1.loaded <:+ m'.loaded
  state : match r with
    | none => Abandoned L m g d m'
    | some s => ∃ g' sp, Loading L m g d s m' g' sp
  carried : Carried m m1 r m' v

def LowStop (v : Verdict) (e : Stop) : Prop := e = .panic .loaduvmExist ∧ ∃ s, v = .low s

theorem SegPost.bad (abandoned : Abandoned L m g d m') (loaded : m1.loaded <:+ m'.loaded)
    (clean : Clean m1 m') : SegPost L m g d m1 .bad none m' :=
  ⟨loaded, abandoned, rfl, clean⟩

theorem Clean.of_eq (same : m'.loaded = m.loaded) : Clean m m' := by
  intro pte member
  rw [same] at member
  exact .inl member

variable {v : Verdict}

/-- Memory has run out before the verdict was carried out. -/
theorem SegPost.few {newsz : Addr} (abandoned : Abandoned L m g d m')
    (same : m'.loaded = m1.loaded) (few : m.free.length ≤ 2050 + pages sz + pages newsz)
    (le : v = .bad ∨ sz.toNat ≤ v.top ∧ newsz.toNat ≤ v.top) : SegPost L m g d m1 v none m' := by
  refine ⟨same ▸ List.suffix_rfl, abandoned, ?_⟩
  have bound : ∀ s : Addr, sz.toNat ≤ s.toNat ∧ newsz.toNat ≤ s.toNat → Few m s := by
    intro s ⟨le, le'⟩
    have := pages_mono le
    have := pages_mono le'
    unfold Few
    omega
  cases v with
  | bad => exact ⟨rfl, .of_eq same⟩
  | low s => exact .inr ⟨rfl, bound s (le.resolve_left (by simp))⟩
  | size s => exact ⟨.of_eq same, .inr ⟨rfl, bound s (le.resolve_left (by simp))⟩⟩

theorem SegPost.of_rest {m2 : Mem} {r : Option Addr} (clean : Clean m1 m2)
    (loaded : m1.loaded <:+ m2.loaded) (post : SegPost L m g d m2 v r m') :
    SegPost L m g d m1 v r m' := by
  refine ⟨loaded.trans post.suffix, post.state, ?_⟩
  have carried := post.carried
  cases v with
  | bad => exact ⟨carried.1, clean.trans carried.2⟩
  | low s => exact carried
  | size s => exact ⟨clean.trans carried.1, carried.2⟩

/-- Page 0 has been written: whatever follows, the verdict is carried out. -/
theorem SegPost.of_zero {m2 : Mem} {s : Addr} {r : Option Addr} (large : pgSize < s)
    (loaded : m1.loaded <:+ m2.loaded) (zero : 0 ∈ m2.loaded) (post : SegPost L m g d m2 v r m') :
    SegPost L m g d m1 (.low s) r m' :=
  ⟨loaded.trans post.suffix, post.state, .inl ⟨large, post.suffix.subset zero⟩⟩

theorem Tables.zero {hi : Nat} (tables : Tables sp hi) : sp.tab 0 ≠ none ↔ 1 < hi := by
  rw [← Option.isSome_iff_ne_none, tables 0]
  constructor
  · rintro (⟨u, kernel, eq⟩ | ⟨u, pos, below, _⟩)
    · unfold kernelPages at kernel
      omega
    · omega
  · exact fun lt => .inr ⟨1, Nat.le_refl 1, lt, by omega⟩

theorem load_segment {sp1 : Space} {ph : ProgHdr} (inv : Inv L m g)
    (loading : Loading L m g d sz m1 g1 sp1) (aligned : ph.vaddr % pgSize = 0)
    (fits : ph.vaddr.toNat + ph.filesz.toNat ≤ sz.toNat) {rest : K (Option Addr)}
    (next : ∀ m2, Loading L m g d sz m2 g1 sp1 → ip.HasSegment ph.off ph.filesz →
      Within (LowStop v) rest m2 (SegPost L m g d m2 v)) :
    let verdict := if HitsPageZero ip sz ph then .low sz
      else if ip.HasSegment ph.off ph.filesz then v else .bad
    Within (LowStop verdict)
      (do if ← loaduvm d ph.vaddr ip ph.off ph.filesz then rest else pure none) m1
      (SegPost L m g d m1 verdict) := by
  intro verdict
  have limit := Nat.le_of_lt loading.limit
  rw [within_bind]
  by_cases low : ph.vaddr = 0 ∧ ph.filesz ≠ 0
  · rw [low.1]
    rw [low.1] at fits
    have table := loading.tables.zero
    have one_page : 1 < pages sz ↔ ¬ sz ≤ pgSize := by
      rw [lt_pages, BitVec.not_le]
      exact Iff.rfl
    refine (loaduvm_low loading.inv loading.at_d loading.shape limit loading.zero
      (by simpa using fits) low.2).mono ?_ ?_
    · rintro e ⟨rfl, none⟩
      have small : sz ≤ pgSize := by
        by_contra large
        exact table.mpr (one_page.mpr large) none
      exact ⟨rfl, sz, if_pos ⟨low.1, low.2, .inl small⟩⟩
    · rintro r m2 ⟨post, some, dirty, clean, result⟩
      have large : pgSize < sz := BitVec.not_le.mp (one_page.mp (table.mp some))
      have loading2 := loading.store inv post
      rcases Nat.lt_or_ge ph.off.toNat ip.bytes.length with inside | outside
      · have hits : HitsPageZero ip sz ph := ⟨low.1, low.2, .inr inside⟩
        have is_low : verdict = .low sz := if_pos hits
        rw [is_low]
        by_cases all : r = true
        · rw [if_pos all]
          refine (next m2 loading2 (result.mp all)).mono (fun e stop => ⟨stop.1, sz, rfl⟩) ?_
          exact fun r m' carried => .of_zero large post.loaded (dirty inside) carried
        · rw [if_neg all, within_pure]
          exact ⟨post.loaded, loading2.abandoned, .inl ⟨large, dirty inside⟩⟩
      · have missing : ¬ ip.HasSegment ph.off ph.filesz := by
          rintro (zero | le)
          · exact low.2 zero
          · have : 0 < ph.filesz.toNat := by
              have := low.2
              bv_omega
            omega
        have is_bad : verdict = .bad := by
          refine (if_neg ?_).trans (if_neg missing)
          rintro ⟨_, _, small | inside⟩
          · exact absurd large (BitVec.not_lt.mpr small)
          · omega
        rw [is_bad, if_neg (fun all => missing (result.mp all)), within_pure]
        exact .bad loading2.abandoned post.loaded (clean outside)
  · have misses : ¬ HitsPageZero ip sz ph := fun hits => low ⟨hits.1, hits.2.1⟩
    have pos : ph.vaddr ≠ 0 ∨ ph.filesz = 0 := by
      by_contra both
      push Not at both
      exact low both
    refine ((loaduvm_ends loading.inv loading.at_d loading.shape limit aligned fits pos).mono
      ?_).within
    rintro r m2 ⟨post, clean, result⟩
    have loading2 := loading.store inv post
    by_cases all : ip.HasSegment ph.off ph.filesz
    · have is_rest : verdict = v := (if_neg misses).trans (if_pos all)
      rw [is_rest, if_pos (result.mpr all)]
      refine (next m2 loading2 all).mono (fun _ => id) ?_
      exact fun r m' carried => carried.of_rest clean post.loaded
    · have is_bad : verdict = .bad := (if_neg misses).trans (if_neg all)
      rw [is_bad, if_neg (fun yes => all (result.mp yes)), within_pure]
      exact .bad loading2.abandoned post.loaded clean

theorem loadSegments_within (ip : File) (inv : Inv L m g) (k : Nat) (off sz : Addr) (m1 : Mem)
    (g1 : Ghost)
    (sp1 : Space) (loading : Loading L m g d sz m1 g1 sp1) :
    Within (LowStop (plan ip k off sz)) (loadSegments L ip d k off sz) m1
      (SegPost L m g d m1 (plan ip k off sz)) := by
  induction k generalizing off sz m1 g1 sp1 with
  | zero => exact ⟨List.suffix_rfl, ⟨g1, sp1, loading⟩, .refl m1, .inl rfl⟩
  | succ k ih =>
    have refused : SegPost L m g d m1 .bad none m1 :=
      .bad loading.abandoned List.suffix_rfl (.refl m1)
    unfold loadSegments plan
    cases readi ip off 32 with
    | none => exact refused
    | some b =>
      dsimp only
      have top := plan_top ip k (off + 32) (grown sz (ProgHdr.ofBytes b))
      have le_grown := le_grown sz (ProgHdr.ofBytes b)
      have end_le := end_le_grown sz (ProgHdr.ofBytes b)
      generalize ProgHdr.ofBytes b = ph at *
      by_cases short : b.length ≠ 32
      · rw [if_pos short, if_pos short]
        exact refused
      rw [if_neg short, if_neg short]
      by_cases other : ph.type ≠ elfProgLoad
      · rw [if_pos other, if_pos other]
        exact ih _ _ m1 g1 sp1 loading
      rw [if_neg other, if_neg other]
      by_cases sizes : ph.memsz < ph.filesz
      · rw [if_pos sizes, if_pos (.inl sizes)]
        exact refused
      rw [if_neg sizes]
      by_cases wrap : ph.vaddr + ph.memsz < ph.vaddr
      · rw [if_pos wrap, if_pos (.inr wrap)]
        exact refused
      rw [if_neg wrap, if_neg (not_or.mpr ⟨sizes, wrap⟩)]
      by_cases high : ph.vaddr + ph.memsz ≥ kernBase
      · rw [if_pos (.inl high)]
        refine Ends.bind_within ?_
        rw [allocuvm, if_pos high, ends_pure, if_pos rfl]
        exact refused
      refine Ends.bind_within ((loading.alloc inv (BitVec.not_le.mp high)).mono ?_)
      rintro r m2 ⟨same, ⟨is_grown, g2, sp2, loading2⟩ | ⟨rfl, abandoned, few⟩⟩
      · have is_grown : r = grown sz ph := is_grown
        have some : r ≠ 0 := by
          rintro rfl
          exact absurd loading2.from_page (by decide)
        rw [if_neg some]
        by_cases skew : ph.vaddr % pgSize ≠ 0
        · rw [if_pos skew, if_pos (.inr skew), within_pure]
          exact .bad loading2.abandoned (same ▸ List.suffix_rfl) (.of_eq same)
        · rw [if_neg skew, if_neg (not_or.mpr ⟨high, skew⟩), ← is_grown]
          have fits : ph.vaddr.toNat + ph.filesz.toNat ≤ r.toNat := by
            have small : ph.filesz.toNat ≤ ph.memsz.toNat := Nat.le_of_not_lt sizes
            have sum : (ph.vaddr + ph.memsz).toNat = ph.vaddr.toNat + ph.memsz.toNat := by
              bv_omega
            rw [is_grown]
            omega
          refine (load_segment inv loading2 (not_not.mp skew) fits fun m3 loading3 _ =>
            ih (off + 32) r m3 g2 sp2 loading3).mono (fun _ => id) ?_
          exact fun r m' post => post.of_rest (.of_eq same) (same ▸ List.suffix_rfl)
      · rw [if_pos rfl, within_pure]
        refine .few abandoned same few ?_
        split
        · exact .inl rfl
        split
        · exact .inr ⟨le_grown, end_le⟩
        split
        · exact top.imp_right fun more => ⟨le_grown.trans more, end_le.trans more⟩
        · exact .inl rfl

end Xv6.Vm
