import Xv6.ProcInvariant

set_option autoImplicit false

namespace Xv6.ProcInvariant
open Resumption ProcCode
open LogCode (Proc)
open Function (update update_of_ne update_self)

variable {n : ℕ} {hart : Thread n → Option (Fin n)} {lock : Lock → Option (Fin n)}
  {noff : Fin n → ℕ} {held : Thread n → Finset Lock} {proc : Fin n → Option Proc}
  {st : Proc → ProcState} {phase : Thread n → Phase}
variable {l : Lock} {q p : Proc} {s : ProcState}
variable {t : Thread n} {c : Fin n}

section

variable (h : Harts hart lock noff held)
include h

theorem Harts.lock_iff (ht : hart t = some c) (l : Lock) : lock l = some c ↔ l ∈ held t := by
  rw [h.lock l c]
  constructor
  · rintro ⟨u, hu, hl⟩
    rw [h.one t u c ht hu]
    exact hl
  · intro hl
    exact ⟨t, ht, hl⟩

theorem Harts.excl {u : Thread n} (ht : hart t ≠ none) (hu : hart u ≠ none) (hl : l ∈ held t)
    (hl' : l ∈ held u) : t = u := by
  obtain ⟨c, hc⟩ := Option.ne_none_iff_exists'.1 ht
  obtain ⟨d, hd⟩ := Option.ne_none_iff_exists'.1 hu
  have hlc := (h.lock_iff hc l).2 hl
  have hld := (h.lock_iff hd l).2 hl'
  rw [hlc] at hld
  cases hld
  exact h.one t u c hc hd

theorem Harts.acquire (ht : hart t = some c) (hfree : lock l = none) :
    Harts hart (update lock l (some c)) (update noff c (noff c + 1))
      (update held t (insert l (held t))) := by
  have hnot (u : Thread n) (d : Fin n) (hu : hart u = some d) : l ∉ held u := by
    intro hl
    have := (h.lock_iff hu l).2 hl
    rw [hfree] at this
    cases this
  constructor
  · exact h.one
  · intro l' d
    by_cases hl : l' = l
    · grind
    · rw [update_of_ne hl, h.lock l' d]
      refine exists_congr fun u => and_congr_right fun _ => ?_
      by_cases hut : u = t
      · rw [hut, update_self, Finset.mem_insert]
        exact ⟨Or.inr, fun h => h.resolve_left hl⟩
      · rw [update_of_ne hut]
  · intro u d hu
    -- two threads do not run on one hart
    have hdc : u ≠ t → d ≠ c := fun hut hdc => hut (h.one u t c (hdc ▸ hu) ht)
    grind [h.noff]

theorem Harts.release (ht : hart t = some c) (hl : l ∈ held t) :
    Harts hart (update lock l none) (update noff c (noff c - 1))
      (update held t ((held t).erase l)) := by
  constructor
  · exact h.one
  · intro l' d
    by_cases hl' : l' = l
    · subst hl'
      rw [update_self]
      refine iff_of_false nofun ?_
      rintro ⟨u, hu, hmem⟩
      by_cases hut : u = t
      · rw [hut, update_self] at hmem
        exact absurd rfl (Finset.ne_of_mem_erase hmem)
      · rw [update_of_ne hut] at hmem
        have hne : hart u ≠ none := by simp [hu]
        have hne' : hart t ≠ none := by simp [ht]
        exact hut (h.excl hne hne' hmem hl)
    · grind [h.lock]
  · intro u d hu
    -- two threads do not run on one hart
    have hdc : u ≠ t → d ≠ c := fun hut hdc => hut (h.one u t c (hdc ▸ hu) ht)
    grind [h.noff]

theorem Harts.switch {u : Thread n} (ht : hart t = some c) (hu : hart u = none)
    (hheld : held u = held t) :
    Harts (update (update hart t none) u (some c)) lock noff held := by
  have hut : u ≠ t := by
    intro hut
    rw [hut, ht] at hu
    cases hu
  have hwho (x : Thread n) (d : Fin n) :
      update (update hart t none) u (some c) x = some d ↔
        x = u ∧ d = c ∨ x ≠ t ∧ hart x = some d := by
    grind
  constructor
  · intro x y d hx hy
    rw [hwho] at hx hy
    rcases hx with ⟨hx, hd⟩ | ⟨hx, hxd⟩ <;> rcases hy with ⟨hy, hd'⟩ | ⟨hy, hyd⟩
    · rw [hx, hy]
    · rw [hd] at hyd
      exact absurd (h.one y t c hyd ht) hy
    · rw [hd'] at hxd
      exact absurd (h.one x t c hxd ht) hx
    · exact h.one x y d hxd hyd
  · intro l d
    rw [h.lock l d]
    constructor
    · rintro ⟨x, hx, hl⟩
      by_cases hxt : x = t
      · rw [hxt, ht] at hx
        cases hx
        exact ⟨u, (hwho u c).2 (.inl ⟨rfl, rfl⟩), by rw [hheld, ← hxt]; exact hl⟩
      · exact ⟨x, (hwho x d).2 (.inr ⟨hxt, hx⟩), hl⟩
    · rintro ⟨x, hx, hl⟩
      rcases (hwho x d).1 hx with ⟨hx, hd⟩ | ⟨-, hxd⟩
      · refine ⟨t, by rw [ht, hd], ?_⟩
        rw [← hheld, ← hx]
        exact hl
      · exact ⟨x, hxd, hl⟩
  · intro x d hx
    rcases (hwho x d).1 hx with ⟨hx, hd⟩ | ⟨-, hxd⟩
    · rw [hx, hd, hheld]
      exact h.noff t c ht
    · exact h.noff x d hxd

end

section

variable (h : Sched hart proc st phase)
include h

theorem Sched.state (hold : st q ≠ .running) (hnew : s ≠ .running)
    (hpart : ∀ s', phase (.proc q) ≠ .parting s') :
    Sched hart proc (update st q s) phase := by
  have hrun (p : Proc) : update st q s p = .running ↔ st p = .running := by
    grind
  constructor
  · exact h.off
  · exact h.on
  · intro p hp hpp
    exact (hrun p).2 (h.running p hp hpp)
  · intro p s' hp
    grind [h.parting]
  · exact h.here
  · exact h.free
  · intro c x hx
    obtain ⟨hc, hx', hs, hp⟩ := h.picked c x hx
    exact ⟨hc, hx', (hrun x).2 hs, hp⟩
  · intro c x hx
    obtain ⟨hc, hx', hs, hp⟩ := h.assigned c x hx
    exact ⟨hc, hx', (hrun x).2 hs, hp⟩
  · intro c x hx
    obtain ⟨hp, hl | ⟨hc, hx', hs⟩⟩ := h.lent c x hx
    · exact ⟨hp, .inl hl⟩
    · exact ⟨hp, .inr ⟨hc, hx', fun h => hs ((hrun x).1 h)⟩⟩

theorem Sched.resume (hp : hart (.proc p) ≠ none) (hoff : phase (.proc p) = .off) :
    Sched hart proc st (update phase (.proc p) .run) := by
  constructor <;> grind [Sched]

theorem Sched.part (hrun : phase (.proc p) = .run) (hs : s ≠ .running) :
    Sched hart proc (update st p s) (update phase (.proc p) (.parting s)) := by
  have hon : hart (.proc p) ≠ none := by
    intro hnone
    rw [h.off p hnone] at hrun
    cases hrun
  constructor <;> grind [Sched]

theorem Sched.leave (hp : hart (.proc p) = some c) (hpart : phase (.proc p) = .parting s)
    (hs : s ≠ .running) :
    Sched (update (update hart (.proc p) none) (.cpu c) (some c)) proc st
      (update phase (.proc p) .off) := by
  have hlent := h.on p c hp
  constructor <;> grind [Sched]

theorem Sched.pick (hfree : phase (.cpu c) = .free) (hq : hart (.proc q) = none)
    (hother : ∀ d, phase (.cpu d) = .lent q → hart (.cpu d) = none) :
    Sched hart proc (update st q .running)
      (update phase (.cpu c) (.picked q)) := by
  have hoff := h.off q hq
  constructor <;> grind [Sched]

theorem Sched.assign (hpick : phase (.cpu c) = .picked q) :
    Sched hart (update proc c (some q)) st
      (update phase (.cpu c) (.assigned q)) := by
  constructor <;> grind [Sched]

theorem Sched.switch (hpick : phase (.cpu c) = .assigned q)
    (hother : ∀ d, d ≠ c → phase (.cpu d) ≠ .picked q ∧ phase (.cpu d) ≠ .assigned q) :
    Sched (update (update hart (.cpu c) none) (.proc q) (some c)) proc st
      (update phase (.cpu c) (.lent q)) := by
  constructor <;> grind [Sched]

theorem Sched.unassign (hlent : phase (.cpu c) = .lent q) (hc : hart (.cpu c) = some c) :
    Sched hart (update proc c none) st (update phase (.cpu c) .free) := by
  constructor <;> grind [Sched]

end

end Xv6.ProcInvariant
