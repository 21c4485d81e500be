import Xv6.Sched.Monitor

/-!
# Proof outlines

A program whose processes share one spin lock is verified by assertions at its control points, one
instruction at a time.  `inv` holds of the data while the lock is free; `asn` holds at the control
points where the lock is held, of the data and of the history of the section; `own` holds at every
control point and may not be broken by the other processes.  `via` says where a process goes on that
sleeps on a channel.  `allow` restricts the runs to those in which a process with the given `killed`
flag may take the instruction at a control point.
-/

namespace Xv6.Sleep

open Function

open Sched (Slot ProcState)

variable {C K D : Type} [DecidableEq C]

structure Assertions (C K D : Type) where
  held : K → Bool
  inv : D → Prop
  asn : Slot → K → D → Section → Prop
  own : Slot → K → D → Prop
  via : C → K → Prop

def Monitor.tell (M : Monitor Unit C D) (c : C) (o : Section) : Section :=
  if c = M.chan then { o with told := true } else o

def Monitor.change (M : Monitor Unit C D) (d d' : D) (o : Section) : Section :=
  if M.cond d = false ∧ M.cond d' = true then { o with changed := true } else o

section Change

variable {M : Monitor Unit C D} {d d' : D} {o : Section}

omit [DecidableEq C]

@[simp] theorem Monitor.change_told : (M.change d d' o).told = o.told := by
  unfold Monitor.change
  split <;> rfl

theorem Monitor.of_change (changed : (M.change d d' o).changed = true) :
    o.changed = true ∨ M.cond d = false ∧ M.cond d' = true := by
  unfold Monitor.change at changed
  split at changed
  · rename_i made
    exact .inr made
  · exact .inl changed

end Change

namespace Assertions

variable (Ω : Assertions C K D) (M : Monitor Unit C D) (allow : Slot → K → Bool → Prop)

/-- An access to the data without the lock. -/
structure Stable (d d' : D) : Prop where
  inv : Ω.inv d → Ω.inv d'
  asn : ∀ q k o, Ω.asn q k d o → Ω.asn q k d' o
  cond : M.cond d' = M.cond d

def Fits (p : Slot) (k : K) : Instr Unit C K D → Prop
  | .acquire _ k' => Ω.held k = false ∧ Ω.held k' = true ∧
      ∀ d, Ω.inv d → Ω.own p k d → Ω.asn p k' d .fresh ∧ Ω.own p k' d
  | .release _ k' => Ω.held k = true ∧ Ω.held k' = false ∧
      ∀ d o, Ω.asn p k d o → Ω.own p k d → Ω.inv d ∧ M.Settled d o ∧ Ω.own p k' d
  | .sleep c _ k' => Ω.held k = true ∧ Ω.held k' = true ∧ Ω.via c k' ∧
      (∀ d o, Ω.asn p k d o → Ω.own p k d →
        Ω.inv d ∧ M.Settled d o ∧ (c = M.chan → M.cond d = false) ∧ Ω.own p k' d) ∧
      ∀ d, Ω.inv d → Ω.own p k' d → Ω.asn p k' d .fresh
  | .wakeup c k' => Ω.held k' = Ω.held k ∧ (∀ d, Ω.own p k d → Ω.own p k' d) ∧
      ∀ d o, Ω.held k = true → Ω.asn p k d o → Ω.own p k d → Ω.asn p k' d (M.tell c o)
  | .kill _ k' => Ω.held k' = Ω.held k ∧ (∀ d, Ω.own p k d → Ω.own p k' d) ∧
      ∀ d o, Ω.held k = true → Ω.asn p k d o → Ω.own p k d → Ω.asn p k' d o
  | .act f => ∀ d b o, allow p k b → Ω.own p k d → (Ω.held k = true → Ω.asn p k d o) →
      Ω.held (f d b).2 = Ω.held k ∧ Ω.own p (f d b).2 (f d b).1 ∧
        (∀ q k', q ≠ p → Ω.own q k' d → Ω.own q k' (f d b).1) ∧
        (Ω.held k = true → Ω.asn p (f d b).2 (f d b).1 (M.change d (f d b).1 o)) ∧
        (Ω.held k = false → Ω.Stable M d (f d b).1)
  | .pick ok => Ω.held k = false ∧
      ∀ d k', ok d k' = true → Ω.held k' = false ∧ (Ω.own p k d → Ω.own p k' d)

variable {k : K}

theorem fits_test {Ω : Assertions C K D} {M : Monitor Unit C D} {allow : Slot → K → Bool → Prop}
    {p : Slot} {g : D → Bool → K} (inside : Ω.held k = true)
    (next : ∀ d b o, allow p k b → Ω.own p k d → Ω.asn p k d o →
      Ω.held (g d b) = true ∧ Ω.own p (g d b) d ∧ Ω.asn p (g d b) d o) :
    Ω.Fits M allow p k (.act fun d b => (d, g d b)) := by
  intro d b o allowed own asn
  obtain ⟨held, own', asn'⟩ := next d b o allowed own (asn inside)
  refine ⟨held.trans inside.symm, own', fun q k' _ other => other, fun _ => ?_, fun out => ?_⟩
  · simpa [Monitor.change] using asn'
  · simp [inside] at out

def Allowed (s : State Unit C K D) (a : Act K) : Prop :=
  ∀ p k, a = .run p → s.point p = .code k → allow p k (s.killed p)

/-! ## The invariant -/

def holds : Point Unit C K → Bool
  | .code k | .wakeup _ _ k | .kill _ _ k => Ω.held k
  | .sleep pc _ _ _ => pc = .acquire ∨ pc = .release

def Here (p : Slot) (d : D) (o : Section) : Point Unit C K → Prop
  | .code k | .kill _ _ k => Ω.held k = true → Ω.asn p k d o
  | .wakeup _ c k => Ω.held k = true → Ω.asn p k d (M.tell c o)
  | .sleep pc c _ k =>
    (pc = .acquire ∨ pc = .release →
      Ω.inv d ∧ M.Settled d o ∧ (c = M.chan → M.cond d = false)) ∧
    Ω.held k = true ∧ Ω.via c k ∧ ∀ d, Ω.inv d → Ω.own p k d → Ω.asn p k d .fresh

structure Inv (s : State Unit C K D) (o : Section) : Prop where
  lock : ∀ p, s.lock () = some p ↔ Ω.holds (s.point p) = true
  free : s.lock () = none → Ω.inv s.data
  here : ∀ p, Ω.Here M p s.data o (s.point p)
  own : ∀ p, Ω.own p (s.point p).next s.data

variable {Ω M allow} {p q : Slot} {s t : State Unit C K D} {o o' : Section} {x : Point Unit C K}

theorem Here.outside {d d' : D} (out : Ω.holds x = false) (here : Ω.Here M q d o x) :
    Ω.Here M q d' o' x := by
  cases x with
  | code k => exact fun held => absurd held (by simpa [holds] using out)
  | sleep pc c l k =>
    refine ⟨fun inside => ?_, here.2⟩
    simp only [holds, decide_eq_false_iff_not] at out
    exact absurd inside out
  | wakeup pc c k => exact fun held => absurd held (by simpa [holds] using out)
  | kill pc r k => exact fun held => absurd held (by simpa [holds] using out)

theorem Here.stable {d d' : D} (stable : Ω.Stable M d d') (here : Ω.Here M q d o x) :
    Ω.Here M q d' o x := by
  cases x with
  | code k => exact fun held => stable.asn _ _ _ (here held)
  | sleep pc c l k =>
    refine ⟨fun inside => ?_, here.2⟩
    obtain ⟨inv, settled, cond⟩ := here.1 inside
    refine ⟨stable.inv inv, ?_, ?_⟩
    · unfold Monitor.Settled
      rwa [stable.cond]
    · rwa [stable.cond]
  | wakeup pc c k => exact fun held => stable.asn _ _ _ (here held)
  | kill pc r k => exact fun held => stable.asn _ _ _ (here held)

section Step

variable (inv : Ω.Inv M s o)
include inv

theorem Inv.outside (held : s.lock () = some p) (ne : q ≠ p) : Ω.holds (s.point q) = false := by
  by_contra holds
  have held' := (inv.lock q).mpr (by simpa using holds)
  exact ne (Option.some.inj (held'.symm.trans held))

theorem Inv.outside_of_free (free : s.lock () = none) (q : Slot) : Ω.holds (s.point q) = false := by
  by_contra holds
  have held' := (inv.lock q).mpr (by simpa using holds)
  simp [free] at held'

theorem Inv.move (point : t.point = update s.point p x) (lock : t.lock = s.lock)
    (data : t.data = s.data) (same : Ω.holds x = Ω.holds (s.point p))
    (here : Ω.Here M p s.data o' x) (own : Ω.own p x.next s.data)
    (seen : o' = o ∨ s.lock () = some p) : Ω.Inv M t o' := by
  refine ⟨fun q => ?_, fun free => ?_, fun q => ?_, fun q => ?_⟩
  · rw [lock, inv.lock, point]
    rcases eq_or_ne q p with rfl | ne
    · rw [update_self, same]
    · rw [update_of_ne ne]
  · rw [data]
    exact inv.free (by rw [← lock, free])
  · rw [point, data]
    rcases eq_or_ne q p with rfl | ne
    · rwa [update_self]
    · rw [update_of_ne ne]
      rcases seen with rfl | held
      · exact inv.here q
      · exact (inv.here q).outside (inv.outside held ne)
  · rw [point, data]
    rcases eq_or_ne q p with rfl | ne
    · rwa [update_self]
    · rw [update_of_ne ne]
      exact inv.own q

theorem Inv.acquire (free : s.lock () = none) (point : t.point = update s.point p x)
    (lock : t.lock = update s.lock () (some p)) (data : t.data = s.data) (inside : Ω.holds x = true)
    (here : Ω.Here M p s.data o' x) (own : Ω.own p x.next s.data) : Ω.Inv M t o' := by
  refine ⟨fun q => ?_, fun none => ?_, fun q => ?_, fun q => ?_⟩
  · rw [lock, point, update_self]
    rcases eq_or_ne q p with rfl | ne
    · simp [inside]
    · rw [update_of_ne ne, inv.outside_of_free free q]
      simp [ne.symm]
  · simp [lock] at none
  · rw [point, data]
    rcases eq_or_ne q p with rfl | ne
    · rwa [update_self]
    · rw [update_of_ne ne]
      exact (inv.here q).outside (inv.outside_of_free free q)
  · rw [point, data]
    rcases eq_or_ne q p with rfl | ne
    · rwa [update_self]
    · rw [update_of_ne ne]
      exact inv.own q

theorem Inv.release (held : s.lock () = some p) (point : t.point = update s.point p x)
    (lock : t.lock = update s.lock () none) (data : t.data = s.data) (out : Ω.holds x = false)
    (here : Ω.Here M p s.data o x) (own : Ω.own p x.next s.data) (good : Ω.inv s.data) :
    Ω.Inv M t o := by
  refine ⟨fun q => ?_, fun _ => by rwa [data], fun q => ?_, fun q => ?_⟩
  · rw [lock, point, update_self]
    rcases eq_or_ne q p with rfl | ne
    · simp [out]
    · rw [update_of_ne ne, inv.outside held ne]
      simp
  · rw [point, data]
    rcases eq_or_ne q p with rfl | ne
    · rwa [update_self]
    · rw [update_of_ne ne]
      exact inv.here q
  · rw [point, data]
    rcases eq_or_ne q p with rfl | ne
    · rwa [update_self]
    · rw [update_of_ne ne]
      exact inv.own q

theorem Inv.act {f : D → Bool → D × K} {b : Bool} (point₀ : s.point p = .code k)
    (fits : Ω.Fits M allow p k (.act f)) (allowed : allow p k b)
    (point : t.point = update s.point p (.code (f s.data b).2)) (lock : t.lock = s.lock)
    (data : t.data = (f s.data b).1) : Ω.Inv M t (M.change s.data t.data o) := by
  have here := inv.here p
  have own := inv.own p
  rw [point₀] at here own
  obtain ⟨same, own', others, inside, out⟩ := fits s.data b o allowed own here
  have held := inv.lock p
  rw [point₀] at held
  refine ⟨fun q => ?_, fun free => ?_, fun q => ?_, fun q => ?_⟩
  · rw [lock, point]
    rcases eq_or_ne q p with rfl | ne
    · rw [update_self, held]
      simp [holds, same]
    · rw [update_of_ne ne, inv.lock]
  · rw [lock] at free
    have notHeld : Ω.held k = false := by
      have := inv.outside_of_free free p
      rwa [point₀] at this
    rw [data]
    exact (out notHeld).inv (inv.free free)
  · rw [point, data]
    rcases eq_or_ne q p with rfl | ne
    · rw [update_self]
      exact fun yes => inside (same ▸ yes)
    · rw [update_of_ne ne]
      cases yes : Ω.held k with
      | true => exact (inv.here q).outside (inv.outside (held.mpr yes) ne)
      | false =>
        have stays : M.change s.data (f s.data b).1 o = o := by
          rw [Monitor.change, (out yes).cond, if_neg (by simp)]
        rw [stays]
        exact (inv.here q).stable (out yes)
  · rw [point, data]
    rcases eq_or_ne q p with rfl | ne
    · rwa [update_self]
    · rw [update_of_ne ne]
      exact others q _ ne (inv.own q)

theorem Inv.keeps {i : Instr Unit C K D} (point₀ : s.point p = .code k)
    (fits : Ω.Fits M allow p k i) (allowed : allow p k (s.killed p)) : M.Keeps s o p i := by
  have here := inv.here p
  have own := inv.own p
  have held := inv.lock p
  rw [point₀] at here own held
  cases i with
  | release l k' =>
    intro _
    exact (fits.2.2 _ _ (here fits.1) own).2.1
  | sleep c l k' =>
    obtain ⟨_, settled, cond, _⟩ := fits.2.2.2.1 _ _ (here fits.1) own
    exact ⟨fun _ => settled, fun eq => ⟨rfl, held.mpr fits.1, cond eq⟩⟩
  | act f =>
    intro changed
    refine held.mpr ?_
    by_contra out
    have out : Ω.held k = false := by simpa [holds] using out
    exact changed ((fits s.data _ o allowed own here).2.2.2.2 out).cond
  | _ => trivial

theorem Inv.instr {i : Instr Unit C K D} (point₀ : s.point p = .code k)
    (fits : Ω.Fits M allow p k i) (allowed : allow p k (s.killed p)) (step : instr s p i = some t) :
    Ω.Inv M t (M.note s o p i) := by
  have here := inv.here p
  have own := inv.own p
  rw [point₀] at here own
  cases i with
  | acquire l k' =>
    simp only [Sleep.instr] at step
    split at step
    · rename_i free
      cases step
      obtain ⟨_, inside, entry⟩ := fits
      obtain ⟨asn, own'⟩ := entry _ (inv.free free) own
      simp only [Monitor.note, if_true]
      exact inv.acquire (x := .code k') free rfl rfl rfl inside (fun _ => asn) own'
    · cases step
  | release l k' =>
    simp only [Sleep.instr] at step
    split at step
    · rename_i held
      cases step
      obtain ⟨inside, out, leave⟩ := fits
      obtain ⟨good, _, own'⟩ := leave _ _ (here inside) own
      exact inv.release (x := .code k') held rfl rfl rfl out
        (fun yes => by simp [out] at yes) own' good
    · cases step
  | sleep c l k' =>
    cases step
    obtain ⟨inside, again, via, leave, wakes⟩ := fits
    obtain ⟨good, settled, cond, own'⟩ := leave _ _ (here inside) own
    refine inv.move (x := .sleep .acquire c l k') rfl rfl rfl ?_ ?_ own' (.inl rfl)
    · simp [point₀, holds, inside]
    · exact ⟨fun _ => ⟨good, settled, cond⟩, again, via, wakes⟩
  | wakeup c k' =>
    cases step
    obtain ⟨same, own', tells⟩ := fits
    refine inv.move (x := .wakeup .acquire c k') rfl rfl rfl ?_ ?_ (own' _ own) (.inl rfl)
    · simp [point₀, holds, same]
    · exact fun yes => tells _ _ (same ▸ yes) (here (same ▸ yes)) own
  | kill r k' =>
    cases step
    obtain ⟨same, own', kept⟩ := fits
    refine inv.move (x := .kill .acquire r k') rfl rfl rfl ?_ ?_ (own' _ own) (.inl rfl)
    · simp [point₀, holds, same]
    · exact fun yes => kept _ _ (same ▸ yes) (here (same ▸ yes)) own
  | act f =>
    cases step
    exact inv.act point₀ fits allowed rfl rfl rfl
  | pick ok => cases step

theorem Inv.sleep {pc : SleepPc} {c : C} (point₀ : s.point p = .sleep pc c () k)
    (step : sleep s p c () k pc = some t) : Ω.Inv M t (if pc = .relock then .fresh else o) := by
  have here := inv.here p
  have own := inv.own p
  rw [point₀] at here own
  obtain ⟨entering, again, via, wakes⟩ := here
  have outside : ∀ pc', pc' ≠ .acquire → pc' ≠ .release →
      Ω.Here M p s.data o (.sleep pc' c () k) := by
    intro pc' ne ne'
    exact ⟨fun inside => absurd inside (by simp [ne, ne']), again, via, wakes⟩
  cases pc with
  | acquire =>
    simp only [Sleep.sleep] at step
    split at step
    · cases step
      refine inv.move (x := .sleep .release c () k) rfl rfl rfl ?_ ?_ own (.inl rfl)
      · simp [point₀, holds]
      · exact ⟨fun _ => entering (.inl rfl), again, via, wakes⟩
    · cases step
  | release =>
    simp only [Sleep.sleep] at step
    split at step
    · rename_i held
      cases step
      refine inv.release (x := .sleep .chan c () k) held rfl rfl rfl (by simp [holds]) ?_ own
        (entering (.inr rfl)).1
      exact outside .chan (by simp) (by simp)
    · cases step
  | chan =>
    cases step
    exact inv.move (x := .sleep .state c () k) rfl rfl rfl (by simp [point₀, holds])
      (outside .state (by simp) (by simp)) own (.inl rfl)
  | state =>
    cases step
    exact inv.move (x := .sleep .sched c () k) rfl rfl rfl (by simp [point₀, holds])
      (outside .sched (by simp) (by simp)) own (.inl rfl)
  | sched =>
    cases step
    exact inv.move (x := .sleep .parked c () k) rfl rfl rfl (by simp [point₀, holds])
      (outside .parked (by simp) (by simp)) own (.inl rfl)
  | parked => cases step
  | clear =>
    cases step
    exact inv.move (x := .sleep .unlock c () k) rfl rfl rfl (by simp [point₀, holds])
      (outside .unlock (by simp) (by simp)) own (.inl rfl)
  | unlock =>
    cases step
    exact inv.move (x := .sleep .relock c () k) rfl rfl rfl (by simp [point₀, holds])
      (outside .relock (by simp) (by simp)) own (.inl rfl)
  | relock =>
    simp only [Sleep.sleep] at step
    split at step
    · rename_i free
      cases step
      exact inv.acquire (x := .code k) free rfl rfl rfl again
        (fun _ => wakes _ (inv.free free) own) own
    · cases step

variable {prog : Program Unit C K D}

theorem Inv.wakeup {pc : WakePc} {c : C} (point₀ : s.point p = .wakeup pc c k)
    (step : wakeup s p c k pc = some t) : Ω.Inv M t (M.observe prog s o (.run p)) := by
  have here := inv.here p
  have own := inv.own p
  have held := inv.lock p
  rw [point₀] at here own held
  have same : ∀ pc', Ω.holds (.wakeup pc' c k) = Ω.holds (s.point p) := by
    intro pc'
    rw [point₀]
    rfl
  simp only [Monitor.observe, point₀]
  cases pc with
  | acquire =>
    simp only [Sleep.wakeup] at step
    split at step
    · cases step
      exact inv.move (x := .wakeup (.scan 0) c k) rfl rfl rfl (same _) here own (.inl rfl)
    · cases step
  | scan i =>
    simp only [Sleep.wakeup] at step
    split at step
    · rename_i lt
      simp only [lt, not_true_eq_false, false_and, if_false]
      split at step
      · cases step
        exact inv.move (x := .wakeup (.scan (i + 1)) c k) rfl rfl rfl (same _) here own (.inl rfl)
      · cases step
        exact inv.move (x := .wakeup (.scan (i + 1)) c k) rfl rfl rfl (same _) here own (.inl rfl)
    · rename_i finished
      cases step
      simp only [finished, not_false_eq_true, true_and]
      refine inv.move (x := .code k) rfl rfl rfl (by rw [point₀]; rfl) (fun yes => ?_) own ?_
      · have asn := here yes
        unfold Monitor.tell at asn
        simpa [held.mpr yes] using asn
      · by_cases mine : s.lock () = some p
        · exact .inr mine
        · exact .inl (if_neg fun both => mine both.2)

theorem Inv.kill {pc : KillPc} {r : Slot} (point₀ : s.point p = .kill pc r k)
    (step : kill s p r k pc = some t) : Ω.Inv M t o := by
  have here := inv.here p
  have own := inv.own p
  rw [point₀] at here own
  have same : ∀ pc', Ω.holds (.kill pc' r k : Point Unit C K) = Ω.holds (s.point p) := by
    intro pc'
    rw [point₀]
    rfl
  cases pc with
  | acquire =>
    simp only [Sleep.kill] at step
    split at step
    · cases step
      exact inv.move (x := .kill .mark r k) rfl rfl rfl (same _) here own (.inl rfl)
    · cases step
  | mark =>
    cases step
    exact inv.move (x := .kill .wake r k) rfl rfl rfl (same _) here own (.inl rfl)
  | wake =>
    simp only [Sleep.kill] at step
    split at step
    · cases step
      exact inv.move (x := .kill .release r k) rfl rfl rfl (same _) here own (.inl rfl)
    · cases step
      exact inv.move (x := .kill .release r k) rfl rfl rfl (same _) here own (.inl rfl)
  | release =>
    cases step
    exact inv.move (x := .code k) rfl rfl rfl (by rw [point₀]; rfl) here own (.inl rfl)

theorem Inv.step {a : Act K} (fits : ∀ p k, Ω.Fits M allow p k (prog p k))
    (allowed : Allowed allow s a) (step : step prog s a = some t) :
    Ω.Inv M t (M.observe prog s o a) := by
  cases a with
  | run p =>
    simp only [Sleep.step, run] at step
    cases point₀ : s.point p with
    | code k =>
      rw [point₀] at step
      simp only [Monitor.observe, point₀]
      exact inv.instr point₀ (fits p k) (allowed p k rfl point₀) step
    | sleep pc c l k =>
      rw [point₀] at step
      have := inv.sleep point₀ step
      cases pc <;> simpa [Monitor.observe, point₀] using this
    | wakeup pc c k =>
      rw [point₀] at step
      exact inv.wakeup point₀ step
    | kill pc r k =>
      rw [point₀] at step
      simp only [Monitor.observe, point₀]
      exact inv.kill point₀ step
  | pick p k =>
    simp only [Sleep.step, pick] at step
    split at step
    · rename_i k₀ point₀
      have own := inv.own p
      have fit := fits p k₀
      rw [point₀] at own
      split at step
      · rename_i ok eq
        rw [eq] at fit
        obtain ⟨out, next⟩ := fit
        split at step
        · rename_i chosen
          cases step
          obtain ⟨out', own'⟩ := next _ _ chosen
          refine inv.move (x := .code k) rfl rfl rfl ?_ (fun yes => ?_) (own' own) (.inl rfl)
          · rw [point₀]
            exact out'.trans out.symm
          · simp [out'] at yes
        · cases step
      · cases step
    · cases step
  | schedule =>
    simp only [Sleep.step] at step
    split at step
    · cases step
      exact ⟨inv.lock, inv.free, inv.here, inv.own⟩
    · cases step
  | dispatch p =>
    simp only [Sleep.step, dispatch] at step
    split at step
    · rename_i c l k point₀
      have here := inv.here p
      have own := inv.own p
      rw [point₀] at here own
      split at step
      · cases step
        refine inv.move (x := .sleep .clear c l k) rfl rfl rfl (by simp [point₀, holds]) ?_ own
          (.inl rfl)
        exact ⟨fun inside => absurd inside (by simp), here.2⟩
      · cases step
    · cases step
  | unschedule =>
    simp only [Sleep.step] at step
    split at step
    · cases step
      exact ⟨inv.lock, inv.free, inv.here, inv.own⟩
    · cases step

end Step

/-- The assertions hold along every run that `allow` admits, and the promises of the monitor are
kept. -/
theorem reachable {d : D} {entry : K} (fits : ∀ p k, Ω.Fits M allow p k (prog p k))
    (out : Ω.held entry = false) (good : Ω.inv d) (own : ∀ p, Ω.own p entry d)
    (reach : ((system prog d entry).guard (Allowed allow)).Reachable s) :
    ∃ o, (M.observed prog d entry).Reachable (s, o) ∧ Ω.Inv M s o := by
  refine reach.invariant (P := fun s => ∃ o, (M.observed prog d entry).Reachable (s, o) ∧
    Ω.Inv M s o) (fun s start => ?_) fun s a t _ ih step => ?_
  · cases start
    refine ⟨.fresh, .init rfl, fun p => ?_, fun _ => good, fun p yes => ?_, own⟩
    · simp [State.start, holds, out]
    · simp [out] at yes
  · obtain ⟨o, seen, inv⟩ := ih
    obtain ⟨step, allowed⟩ := step
    refine ⟨M.observe prog s o a, .step seen ⟨step, rfl, fun p k eq point₀ => ?_⟩,
      inv.step fits allowed step⟩
    exact inv.keeps point₀ (fits p k) (allowed p k eq point₀)

theorem Inv.always {P : D → Prop} (inv : Ω.Inv M s o) (free : ∀ d, Ω.inv d → P d)
    (held : ∀ p k d o, Ω.asn p k d o → P d) : P s.data := by
  cases lock : s.lock () with
  | none => exact free _ (inv.free lock)
  | some p =>
    have here := inv.here p
    have holds := (inv.lock p).mp lock
    cases x : s.point p with
    | code k =>
      rw [x] at here holds
      exact held _ _ _ _ (here holds)
    | sleep pc c l k =>
      rw [x] at here holds
      exact free _ (here.1 (by simpa [Assertions.holds] using holds)).1
    | wakeup pc c k =>
      rw [x] at here holds
      exact held _ _ _ _ (here holds)
    | kill pc r k =>
      rw [x] at here holds
      exact held _ _ _ _ (here holds)

theorem Inv.asleep (inv : Ω.Inv M s o) (loc : M.Local s o p) (asleep : s.Asleep p M.chan) :
    Ω.via M.chan (s.point p).next := by
  obtain ⟨pc, l, k, point₀⟩ := loc.asleep asleep
  have here := inv.here p
  rw [point₀] at here ⊢
  exact here.2.2.1

end Assertions

end Xv6.Sleep
