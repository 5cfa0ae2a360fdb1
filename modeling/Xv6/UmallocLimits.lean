import Xv6.UmallocBlocks

set_option autoImplicit false

namespace Xv6.UmallocLimits
open Xv6.Sequential UmallocCode UmallocInvariant UmallocBlocks
open Function (update update_self)

/-- `malloc` returns 0 or a block all of whose bytes lie in memory that `sbrk` has added. -/
def Serves (base : ℕ) (gap : Option ℕ) (nbytes : UInt32) (s : Heap) : Prop :=
  ∃ r s', malloc base gap nbytes s = .done r s' ∧
    (r ≠ 0 → ∀ b < nbytes.toNat, Obtained s' ((r + b) / 16))

theorem serves_of_small {base : ℕ} {w : World} {gap : Option ℕ} {nbytes : UInt32}
    (hbase : 0 < base) (h : Kept base w) (hgap : Answers w.heap gap)
    (hsmall : units nbytes.toNat * 16 < 2 ^ 31) : Serves base gap nbytes w.heap := by
  obtain ⟨r, s', hrun, hpost⟩ := malloc_spec hbase h.low h.fits h.list hgap hsmall
  refine ⟨r, s', hrun, fun hr b hb => ?_⟩
  rcases hpost with ⟨hzero, -⟩ | ⟨a, l', rfl, -, h'⟩
  · exact absurd hzero hr
  · have hunit : a ≤ ((a + 1) * 16 + b) / 16 ∧
        ((a + 1) * 16 + b) / 16 < a + units nbytes.toNat := by
      unfold units
      omega
    exact (h'.cover _).2 (.inr ⟨a, _, update_self .., hunit⟩)

variable {nu : ℕ}

/-- The heap after `sbrk` was called for `nu` headers, and after the new block was entered. -/
def extended (b : ℕ) : Heap := { begun with brk := b, got := [(2, b - 2)] }

def entered (b nu : ℕ) : Heap :=
  { extended b with
    ptr := update (update begun.ptr 2 1) 1 2
    size := update begun.size 2 nu }

theorem sbrk_narrowed (hlow : 2 ^ 27 ≤ nu) (hhigh : nu ≤ 2 ^ 28 + 1) :
    ∃ b ≤ 3, sbrk (some 0) (Int.bmod (nu * 16) (2 ^ 32)) begun = .done (some 2) (extended b) := by
  have hint : Int.bmod (nu * 16) (2 ^ 32) / 16 = nu - 2 ^ 28 := by
    rw [← Int.sub_bmod_right, Int.bmod_eq_of_le (by omega) (by omega)]
    omega
  unfold sbrk
  dsimp only
  rw [hint]
  split
  next htop => exact ⟨_, by simp [begun] at htop ⊢; omega, rfl⟩
  next => exact ⟨2, by decide, rfl⟩

theorem free_extended (b : ℕ) (hnu : 0 < nu) :
    free 48 { extended b with size := update begun.size 2 nu } = .done () (entered b nu) := by
  let s : Heap := { extended b with size := update begun.size 2 nu }
  have hsearch : freeSearch s (48 / 16 - 1) (s.brk + 2) s.freep = some 1 :=
    freeSearch_stops (.inr ⟨le_rfl, .inl (by decide : 1 < 2)⟩)
  have hupper : 2 + s.size 2 ≠ s.ptr 1 := by
    change 2 + nu ≠ 1
    omega
  have hlower : 1 + { s with ptr := update s.ptr 2 (s.ptr 1) }.size 1 ≠ 2 := by
    change 1 + 0 ≠ 2
    decide
  rw [free, bind_of_done (rfl : Code.get s = _)]
  rw [hsearch]
  refine (bind_of_done (joinUpper_apart hupper)).trans ?_
  exact (bind_of_done (joinLower_apart hlower)).trans rfl

theorem malloc_narrowed {nbytes : UInt32} (hlarge : 2 ^ 31 ≤ units nbytes.toNat * 16) :
    ∃ s' b, malloc 1 (some 0) nbytes fresh.heap = .done 48 s' ∧ s'.got = [(2, b - 2)] ∧ b ≤ 3 := by
  have hbytes : nbytes.toNat < 2 ^ 32 := nbytes.toNat_lt
  obtain ⟨nu, hnu⟩ : ∃ nu, nu = units nbytes.toNat := ⟨_, rfl⟩
  have hbounds : 2 ^ 27 ≤ nu ∧ nu ≤ 2 ^ 28 + 1 := by
    rw [← hnu] at hlarge
    unfold units at hnu
    omega
  obtain ⟨b, hb, hsbrk⟩ := sbrk_narrowed hbounds.1 hbounds.2
  have hmore : morecore (some 0) nu begun = .done 1 (entered b nu) := by
    rw [morecore, if_neg (by omega), bind_of_done hsbrk]
    dsimp only
    rw [bind_of_done (rfl : setSize 2 nu _ = _)]
    refine (bind_of_done (free_extended b (by omega))).trans rfl
  have hfirst : ¬ nu ≤ begun.size 1 := by
    change ¬ nu ≤ 0
    omega
  have hfound : nu ≤ (entered b nu).size 2 := le_rfl
  have hready : ready 1 fresh.heap = .done () begun := rfl
  have hsearch : mallocSearch (some 0) nu 8 1 1 begun = _ := mallocSearch_more hfirst rfl hmore
  rw [if_neg (by decide)] at hsearch
  have hrun := hsearch.trans ((mallocSearch_found hfound).trans (takeUnits_whole rfl))
  rw [malloc_of_ready hready, ← hnu]
  exact ⟨_, b, hrun, rfl, hb⟩

/-- From every heap, `malloc` serves a request as it should exactly if the request fits an `int`. -/
theorem malloc_serves_iff (nbytes : UInt32) :
    (∀ base w gap, 0 < base → Kept base w → Answers w.heap gap →
      Serves base gap nbytes w.heap) ↔ units nbytes.toNat * 16 < 2 ^ 31 := by
  constructor
  · intro h
    by_contra hlarge
    obtain ⟨s', b, hrun, hgot, hb⟩ := malloc_narrowed (Nat.le_of_not_lt hlarge)
    have hkept : Kept 1 fresh := ⟨by decide, by decide, .inl ⟨rfl, rfl, rfl⟩⟩
    obtain ⟨r, s'', hrun', hserved⟩ := h 1 fresh (some 0) (by decide) hkept (by
      intro g hg
      cases hg
      decide)
    rw [hrun] at hrun'
    cases hrun'
    have hpos : 0 < nbytes.toNat := by
      unfold units at hlarge
      omega
    obtain ⟨x, hx, hlow, hhigh⟩ := hserved (by decide) 0 hpos
    rw [hgot, List.mem_singleton] at hx
    subst hx
    dsimp only at hhigh
    omega
  · exact fun hsmall base w gap hbase h hgap => serves_of_small hbase h hgap hsmall

theorem malloc_serves_first :
    Kept 1 fresh ∧ Answers fresh.heap (some 0) ∧ Serves 1 (some 0) 24 fresh.heap := by
  have hkept : Kept 1 fresh := ⟨by decide, by decide, .inl ⟨rfl, rfl, rfl⟩⟩
  have hanswers : Answers fresh.heap (some 0) := by
    intro g hg
    cases hg
    decide
  exact ⟨hkept, hanswers, (malloc_serves_iff 24).2 (by decide) 1 fresh (some 0) (by decide) hkept
    hanswers⟩

/-- The first call of `malloc`, for 2^32 - 1 bytes, gets the 16 bytes of the header. -/
theorem malloc_too_small :
    ∃ s', malloc 1 (some 0) 0xffffffff fresh.heap = .done 48 s' ∧ ¬ Obtained s' 3 := by
  obtain ⟨s', b, hrun, hgot, hb⟩ := malloc_narrowed (by decide : 2 ^ 31 ≤
    units (0xffffffff : UInt32).toNat * 16)
  refine ⟨s', hrun, ?_⟩
  rintro ⟨x, hx, hlow, hhigh⟩
  rw [hgot, List.mem_singleton] at hx
  subst hx
  dsimp only at hhigh
  omega

end Xv6.UmallocLimits
