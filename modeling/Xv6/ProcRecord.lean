import Mathlib.Data.Fintype.Basic
import Xv6.ProcInvariant

set_option autoImplicit false

namespace Xv6.ProcInvariant
open ProcCode
open LogCode (Proc)
open Function (update update_eq_self update_of_ne update_self)

variable {n : ℕ} {st : Proc → ProcState} {par : Proc → Option Proc} {job : Proc → Job}
  {chan : Proc → Option Chan} {cond : ℕ → Bool} {waking : Thread n → Option (ℕ × Finset Proc)}
variable {t : Thread n}
variable {p q : Proc} {j : Job} {χ k : ℕ} {H : Finset Lock}

section

variable (h : Wakes st chan cond job waking)
include h

theorem Wakes.setJob (hj : ∀ χ, j = .drowsy χ → Covered cond waking χ p) :
    Wakes st chan cond (update job p j) waking := by
  refine ⟨h.asleep, fun u χ hu => ?_⟩
  grind [h.drowsy]

theorem Wakes.state {s : ProcState} (hs : s = .sleeping → st q = .sleeping) :
    Wakes (update st q s) chan cond job waking := by
  refine ⟨fun p χ hp hc => ?_, h.drowsy⟩
  grind [h.asleep]

theorem Wakes.sleepOn {ch : Chan} (hc : ∀ χ, ch = .other χ → Covered cond waking χ p) :
    Wakes (update st p .sleeping) (update chan p (some ch)) cond job waking := by
  refine ⟨fun q χ hq hch => ?_, h.drowsy⟩
  grind [h.asleep]

theorem Wakes.clearChan : Wakes st (update chan p none) cond job waking := by
  refine ⟨fun q χ hq hch => ?_, h.drowsy⟩
  grind [h.asleep]

theorem Wakes.cover {cond' : ℕ → Bool} {waking' : Thread n → Option (ℕ × Finset Proc)}
    (hc : ∀ χ p, Covered cond waking χ p →
      (st p = .sleeping ∧ chan p = some (.other χ) ∨ job p = .drowsy χ) →
      Covered cond' waking' χ p) : Wakes st chan cond' job waking' := by
  constructor
  · intro p χ hp hch
    exact hc χ p (h.asleep p χ hp hch) (.inl ⟨hp, hch⟩)
  · intro u χ hu
    exact hc χ u (h.drowsy u χ hu) (.inr hu)

theorem Wakes.setFalse : Wakes st chan (update cond χ false) job waking := by
  apply h.cover
  intro χ' p hc _
  by_cases hχ : χ' = χ
  · exact .inl (by rw [hχ, update_self])
  · exact hc.imp_left fun hf => by rw [update_of_ne hχ, hf]

theorem Wakes.setTrue (ht : waking t = none) :
    Wakes st chan (update cond χ true) job
      (update waking t (some (χ, ∅))) := by
  apply h.cover
  intro χ' p hc _
  by_cases hχ : χ' = χ
  · refine .inr ⟨t, ∅, ?_, Finset.notMem_empty p⟩
    rw [hχ, update_self]
  rcases hc with hf | ⟨u, P, hu, hP⟩
  · exact .inl (by rw [update_of_ne hχ, hf])
  · have hut : u ≠ t := by
      intro hut
      rw [hut, ht] at hu
      cases hu
    exact .inr ⟨u, P, by rw [update_of_ne hut, hu], hP⟩

theorem Wakes.advance {P : Finset Proc} (ht : waking t = some (χ, P))
    (hq : ¬ (st q = .sleeping ∧ chan q = some (.other χ))) (hjob : job q ≠ .drowsy χ) :
    Wakes st chan cond job (update waking t (some (χ, insert q P))) := by
  apply h.cover
  intro χ' p hc hneed
  rcases hc with hf | ⟨u, P', hu, hP⟩
  · exact .inl hf
  by_cases hut : u = t
  · rw [hut, ht] at hu
    cases hu
    refine .inr ⟨t, insert q P, by rw [update_self], ?_⟩
    intro hp
    rcases Finset.mem_insert.1 hp with hpq | hp
    · rw [hpq] at hneed
      exact hneed.elim hq hjob
    · exact hP hp
  · exact .inr ⟨u, P', by rw [update_of_ne hut, hu], hP⟩

theorem Wakes.finish (ht : waking t = some (χ, Finset.univ)) :
    Wakes st chan cond job (update waking t none) := by
  apply h.cover
  intro χ' p hc _
  rcases hc with hf | ⟨u, P, hu, hP⟩
  · exact .inl hf
  · have hut : u ≠ t := by
      intro hut
      rw [hut, ht] at hu
      cases hu
      exact hP (Finset.mem_univ p)
    exact .inr ⟨u, P, by rw [update_of_ne hut, hu], hP⟩

end

variable {ordered : Prop} {pid : Proc → ℕ} {nextpid : ℕ} {held : Proc → Finset Lock}

section

variable (h : Pids ordered st par pid nextpid job held)
include h

theorem Pids.setJob (hj : PidsJob ordered pid nextpid p H j)
    (hdist : ∀ q s k, j = .making q s → s.id = some k → ∀ u q' s', u ≠ p →
      job u = .making q' s' → s'.id ≠ some k) :
    Pids ordered st par pid nextpid (update job p j) (update held p H) := by
  refine ⟨h.lt, h.inj, h.live, h.first, h.order, ?_, fun u => ?_⟩
  · grind [h.distinct]
  · grind [h.job]

theorem Pids.state {s : ProcState} (hu : s = .unused → st q = .unused)
    (hq : st q ≠ .unused ∨ s = .unused) :
    Pids ordered (update st q s) par pid nextpid job held := by
  refine ⟨h.lt, h.inj, ?_, h.first, ?_, h.distinct, h.job⟩
  · have hlive := h.live
    grind
  · have horder := h.order
    grind

theorem Pids.start (hjob : job p = .making q (.parented k)) (hpar : par q = some p) :
    Pids ordered (update st q .runnable) par pid nextpid job held := by
  have hj := h.job p
  rw [hjob] at hj
  have hk : pid q = k := hj.2.1 k rfl
  have hlt : pid p < k := (hj.1 k rfl).1
  refine ⟨h.lt, h.inj, ?_, h.first, ?_, h.distinct, h.job⟩
  · have hlive := h.live
    grind
  · have horder := h.order
    grind

theorem Pids.adopt {o : Option Proc} (hq : st q = .unused) :
    Pids ordered st (update par q o) pid nextpid job held := by
  refine ⟨h.lt, h.inj, h.live, h.first, ?_, h.distinct, h.job⟩
  have horder := h.order
  grind

theorem Pids.first_lt (hq : st q ≠ .unused) (hne : q ≠ initproc) : pid initproc < pid q := by
  have hlive := h.live q hq
  have hone : pid q ≠ 1 := by
    intro hone
    exact hne (h.inj q initproc (hone.trans h.first.symm) (by omega))
  rw [h.first]
  omega

theorem Pids.disown (hne : q ≠ initproc) :
    Pids ordered st (update par q (some initproc)) pid nextpid job held := by
  refine ⟨h.lt, h.inj, h.live, h.first, ?_, h.distinct, h.job⟩
  intro x u hx hu
  by_cases hxq : x = q
  · rw [hxq, update_self] at hu
    cases hu
    rw [hxq] at hx ⊢
    exact h.first_lt hx hne
  · rw [update_of_ne hxq] at hu
    exact h.order x u hx hu

end

theorem PidsJob.lt_mono {u : Proc} (h : PidsJob ordered pid nextpid u H j) (hk : nextpid ≤ k) :
    PidsJob ordered pid k u H j := by
  cases j with
  | making q s =>
    refine ⟨fun m hm => ?_, h.2⟩
    exact ⟨(h.1 m hm).1, Nat.lt_of_lt_of_le (h.1 m hm).2 hk⟩
  | leaving o a G c =>
    cases o with
    | none => trivial
    | some v => exact h
  | idle => trivial
  | waiting S c d => trivial
  | drowsy χ => trivial

theorem Pids.take (h : Pids ordered st par pid nextpid job held) :
    Pids ordered st par pid (nextpid + 1)
      (update job p (.making q (.reserved nextpid))) held := by
  have hless : Pids ordered st par pid (nextpid + 1) job held :=
    ⟨fun x => Nat.lt_succ_of_lt (h.lt x), h.inj, h.live, h.first, h.order, h.distinct,
      fun u => (h.job u).lt_mono (Nat.le_succ _)⟩
  have := hless.setJob (p := p) (j := .making q (.reserved nextpid)) (H := held p) ?_ ?_
  · rwa [update_eq_self] at this
  · refine ⟨?_, nofun, ?_⟩
    · intro k hk
      cases hk
      exact ⟨h.lt p, Nat.lt_succ_self _⟩
    · intro k hk x hx
      cases hk
      exact absurd (h.lt x) (by omega)
  · intro q' s k hj hk u q2 s2 hu hj2 hk2
    cases hj
    cases hk
    have := h.job u
    rw [hj2] at this
    exact absurd (this.1 nextpid hk2).2 (Nat.lt_irrefl _)

theorem PidsJob.congr {pid' : Proc → ℕ} {u : Proc} (h : PidsJob ordered pid nextpid u H j)
    (hother : ∀ x, x ≠ q → pid' x = pid x) (hu : j ≠ .idle → u ≠ q)
    (hlock : j ≠ .idle → .proc q ∉ H) (hmake : ∀ s, j ≠ .making q s)
    (hres : ∀ x k, j = .making x (.reserved k) → pid' q ≠ k) :
    PidsJob ordered pid' nextpid u H j := by
  cases j with
  | making x s =>
    obtain ⟨hid, hnum, hfree⟩ := h
    rw [PidsJob, hother u (hu nofun)]
    refine ⟨hid, fun k hk => ?_, fun k hk y => ?_⟩
    · rw [hother x fun hx => hmake s (by rw [hx])]
      exact hnum k hk
    · by_cases hy : y = q
      · rw [hy]
        exact hres x k (by rw [hk])
      · rw [hother y hy]
        exact hfree k hk y
  | leaving o a G c =>
    cases o with
    | none => trivial
    | some v =>
      intro ho hv hno
      have hvq : v ≠ q := by
        intro hvq
        rw [hvq] at hv
        exact hlock nofun hv
      rw [hother v hvq, hother u (hu nofun)]
      exact h ho hv hno
  | idle => trivial
  | waiting S c d => trivial
  | drowsy χ => trivial

theorem Pids.setPid (h : Pids ordered st par pid nextpid job held)
    (hjob : job p = .making q (.reserved k)) (hq : st q = .unused) (hkids : ∀ x, par x ≠ some q)
    (hinit : q ≠ initproc) (hbusy : ∀ u, job u ≠ .idle → u ≠ q)
    (hone : ∀ u s, job u = .making q s → u = p)
    (hlock : ∀ u, u ≠ p → job u ≠ .idle → .proc q ∉ held u) :
    Pids ordered st par (update pid q k) nextpid
      (update job p (.making q (.numbered k))) held := by
  have hj := h.job p
  rw [hjob] at hj
  obtain ⟨hid, -, hfree⟩ := hj
  obtain ⟨hlt, hnext⟩ := hid k rfl
  have hnew (x : Proc) : pid x ≠ k := hfree k rfl x
  have hpq : p ≠ q := hbusy p (hjob.trans_ne nofun)
  constructor
  · have hbound := h.lt
    grind
  · grind [h.inj]
  · have hlive := h.live
    grind
  · grind [h.first]
  · have horder := h.order
    grind
  · intro u x s u' x' s' m hu hs hu' hs'
    have hback (y : Proc) (z : Proc) (r : Stage)
        (hy : update job p (.making q (.numbered k)) y = .making z r)
        (hr : r.id = some m) : ∃ z' r', job y = .making z' r' ∧ r'.id = some m := by
      by_cases hyp : y = p
      · rw [hyp, update_self] at hy
        cases hy
        exact ⟨q, .reserved k, by rw [hyp, hjob], hr⟩
      · rw [update_of_ne hyp] at hy
        exact ⟨z, r, hy, hr⟩
    obtain ⟨z, r, hz, hr⟩ := hback u x s hu hs
    obtain ⟨z', r', hz', hr'⟩ := hback u' x' s' hu' hs'
    exact h.distinct u z r u' z' r' m hz hr hz' hr'
  · intro u
    by_cases hup : u = p
    · rw [hup, update_self]
      refine ⟨?_, ?_, nofun⟩
      · intro m hm
        rw [update_of_ne hpq]
        exact hid m hm
      · intro m hm
        rw [update_self]
        exact Option.some.inj hm
    · rw [update_of_ne hup]
      apply (h.job u).congr (q := q)
      · intro x hx
        rw [update_of_ne hx]
      · exact hbusy u
      · exact hlock u hup
      · intro s hs
        exact hup (hone u s hs)
      · intro x m hm hkm
        rw [update_self] at hkm
        subst hkm
        exact hup (h.distinct u x _ p q _ k hm rfl hjob rfl)

theorem Pids.freed (h : Pids ordered st par pid nextpid job held)
    (hinit : q ≠ initproc) (hbusy : ∀ u, job u ≠ .idle → u ≠ q)
    (hone : ∀ u s, job u = .making q s → u = p)
    (hlock : ∀ u, u ≠ p → job u ≠ .idle → .proc q ∉ held u) :
    Pids ordered (update st q .unused) (update par q none)
      (update pid q 0) nextpid (update job p .idle) held := by
  constructor
  · intro x
    by_cases hx : x = q
    · rw [hx, update_self]
      exact Nat.lt_of_le_of_lt (Nat.zero_le _) (h.lt q)
    · rw [update_of_ne hx]
      exact h.lt x
  · grind [h.inj]
  · have hlive := h.live
    grind
  · grind [h.first]
  · have hold := h.order
    grind
  · grind [h.distinct]
  · intro u
    by_cases hup : u = p
    · rw [hup, update_self]
      trivial
    rw [update_of_ne hup]
    apply (h.job u).congr (q := q)
    · intro x hx
      rw [update_of_ne hx]
    · exact hbusy u
    · exact hlock u hup
    · intro s hs
      exact hup (hone u s hs)
    · intro x m hm hkm
      rw [update_self] at hkm
      have := h.job u
      rw [hm] at this
      have := (this.1 m rfl).1
      omega

end Xv6.ProcInvariant
