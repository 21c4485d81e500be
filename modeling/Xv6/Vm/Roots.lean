import Xv6.Vm.Setup

/-!
# Frames that nothing leads to

Page-table pages and user pages are found from their directory.  Directories and held frames are
not found from anywhere in memory: a kernel variable has to know them, or they are lost.  `Settles`
counts them over a piece of kernel code.
-/

namespace Xv6.Vm

variable {L : Layout} {m m' : Mem} {g g' : Ghost} {d f : Frame} {X Y : Frame → Prop}

/-- No frame leads to one in this role. -/
def Role.Root : Role → Prop
  | .held | .dir => True
  | _ => False

/-- The roots afterwards are those from before without `Y`, and some of `X`.  The allocator has
the same frames, and got none of them back twice. -/
structure Settles (X Y : Frame → Prop) (m : Mem) (g : Ghost) (m' : Mem) (g' : Ghost) : Prop where
  root : ∀ f, (g'.own f).Root → ¬ Y f ∧ ((g.own f).Root ∨ X f)
  kernel : ∀ f, g'.own f = .kernel ↔ g.own f = .kernel
  refreed : m'.refreed = m.refreed

theorem Settles.refl (m : Mem) (g : Ghost) : Settles nobody nobody m g m g :=
  ⟨fun _ root => ⟨id, .inl root⟩, fun _ => Iff.rfl, rfl⟩

theorem Settles.of_eq (own : g'.own = g.own) (refreed : m'.refreed = m.refreed) :
    Settles nobody nobody m g m' g' :=
  ⟨fun f root => ⟨id, .inl (own ▸ root)⟩, fun f => by rw [own], refreed⟩

theorem Settles.mono {X' : Frame → Prop} (settles : Settles X Y m g m' g')
    (sub : ∀ f, X f → X' f) : Settles X' Y m g m' g' :=
  ⟨fun f root => (settles.root f root).imp_right (Or.imp_right (sub f)), settles.kernel,
    settles.refreed⟩

/-- Of the roots that the first part adds, the second may take some away again. -/
theorem Settles.trans {X' Y' Z W : Frame → Prop} {m1 : Mem} {g1 : Ghost}
    (first : Settles X Y m g m1 g1) (second : Settles X' Y' m1 g1 m' g')
    (added : ∀ f, X f ∧ ¬ Y' f ∨ X' f → Z f) (gone : ∀ f, W f → Y' f ∨ Y f ∧ ¬ X' f) :
    Settles Z W m g m' g' where
  root f root := by
    obtain ⟨stays, from_first | new⟩ := second.root f root
    · obtain ⟨stays', old | new⟩ := first.root f from_first
      · exact ⟨fun w => (gone f w).elim stays fun h => stays' h.1, .inl old⟩
      · exact ⟨fun w => (gone f w).elim stays fun h => stays' h.1,
          .inr (added f (.inl ⟨new, stays⟩))⟩
    · exact ⟨fun w => (gone f w).elim stays fun h => h.2 new, .inr (added f (.inr new))⟩
  kernel f := (second.kernel f).trans (first.kernel f)
  refreed := second.refreed.trans first.refreed

theorem Settles.take (free : g.own f = .free) (refreed : m'.refreed = m.refreed) :
    Settles (· = f) nobody m g m' (g.setOwn f .held) where
  root x root := by
    refine ⟨id, ?_⟩
    rcases eq_or_ne x f with eq | ne
    · exact .inr eq
    · rw [g.setOwn_ne ne] at root
      exact .inl root
  kernel x := by
    rcases eq_or_ne x f with rfl | ne
    · rw [g.setOwn_self, free]
      simp
    · rw [g.setOwn_ne ne]
  refreed := refreed

theorem Settles.give (held : g.own f = .held) (refreed : m'.refreed = m.refreed) :
    Settles nobody (· = f) m g m' (g.setOwn f .free) where
  root x root := by
    rcases eq_or_ne x f with rfl | ne
    · rw [g.setOwn_self] at root
      exact root.elim
    · rw [g.setOwn_ne ne] at root
      exact ⟨ne, .inl root⟩
  kernel x := by
    rcases eq_or_ne x f with rfl | ne
    · rw [g.setOwn_self, held]
      simp
    · rw [g.setOwn_ne ne]
  refreed := refreed

theorem Role.not_root_of_in {r : Role} (inside : r.In d) : ¬ r.Root ∧ r ≠ .kernel := by
  cases r with
  | table | user => exact ⟨id, by simp⟩
  | _ => exact inside.elim

theorem settles_of_new (own : ∀ f, ¬ X f → g.own f ≠ .free → g'.own f = g.own f)
    (new : ∀ f, ¬ X f → g.own f = .free → g'.own f = .free ∨ (g'.own f).In d)
    (managed : ∀ f, X f → g.own f ≠ .kernel ∧ g'.own f ≠ .kernel)
    (refreed : m'.refreed = m.refreed) : Settles X nobody m g m' g' := by
  have fresh : ∀ f, ¬ X f → g.own f = .free → ¬ (g'.own f).Root ∧ g'.own f ≠ .kernel := by
    intro f out free
    rcases new f out free with still | inside
    · rw [still]
      exact ⟨id, by simp⟩
    · exact Role.not_root_of_in inside
  refine ⟨fun f root => ⟨id, ?_⟩, fun f => ?_, refreed⟩
  · by_cases mine : X f
    · exact .inr mine
    · by_cases free : g.own f = .free
      · exact absurd root (fresh f mine free).1
      · rw [own f mine free] at root
        exact .inl root
  · by_cases mine : X f
    · exact iff_of_false (managed f mine).2 (managed f mine).1
    · by_cases free : g.own f = .free
      · exact iff_of_false (fresh f mine free).2 (by rw [free]; simp)
      · rw [own f mine free]

theorem Grows.settles (grows : Grows d nobody m g m' g') : Settles nobody nobody m g m' g' :=
  settles_of_new grows.own grows.new (fun _ => False.elim) grows.refreed

variable {sp : Space}

theorem Builds.settles (builds : Builds d m g m' g') (inv' : Inv L m' g')
    (at_d : g'.space d = some sp) : Settles (· = d) nobody m g m' g' := by
  refine settles_of_new builds.own builds.new ?_ builds.refreed
  rintro f rfl
  rw [builds.free, (inv'.space f sp at_d).dir]
  simp

theorem Fresh.settles (inv : Inv L m g) (fresh : Fresh d m g m' g') (inv' : Inv L m' g')
    (at_d : g'.space d = some sp) : Settles (· = d) nobody m g m' g' :=
  (fresh.builds inv).settles inv' at_d

theorem Shrinks.settles {F : Frame → Prop} (shrinks : Shrinks d F m g m' g')
    (managed : ∀ f, F f → g.own f ≠ .kernel) : Settles nobody F m g m' g' where
  root f root := by
    have stays : ¬ F f := by
      intro gone
      rw [shrinks.freed f gone] at root
      exact root
    rw [shrinks.own f stays] at root
    exact ⟨stays, .inl root⟩
  kernel f := by
    by_cases gone : F f
    · exact iff_of_false (by rw [shrinks.freed f gone]; simp) (managed f gone)
    · rw [shrinks.own f gone]
  refreed := shrinks.refreed

theorem Shrinks.settles_dir (inv : Inv L m g) (at_d : g.space d = some sp)
    (shrinks : Shrinks d (partOf g d) m g m' g') : Settles nobody (· = d) m g m' g' := by
  have all := shrinks.settles fun f part => ?_
  · exact ⟨fun f root => ⟨fun eq => (all.root f root).1 (.inl eq), (all.root f root).2⟩,
      all.kernel, all.refreed⟩
  · rcases part with rfl | inside
    · rw [(inv.space f sp at_d).dir]
      simp
    · exact (Role.not_root_of_in inside).2

end Xv6.Vm
