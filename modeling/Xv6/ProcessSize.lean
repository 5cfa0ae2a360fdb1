import Mathlib.Algebra.Group.Int.Defs
import Xv6.UserGrowth

set_option autoImplicit false

namespace Xv6.PageOwners
open Xv6.Sequential Paging VmCode

variable {K : Image} {G G' : Ghost} {m m' : Memory} {r v n sz : ℕ}

/-- `sz + n` as a `uint`, for a `uint` and an `int`. -/
def addInt (sz : ℕ) (n : ℤ) : ℕ := ((sz + n) % 2 ^ 32).toNat

/-- `growproc` for a process with a table and a size; it answers its result and the size that the
    process then has. -/
def growproc (K : Image) (pagetable p_sz : ℕ) (n : ℤ) : Code Memory (ℤ × ℕ) := do
  let sz := u32 p_sz
  if n > 0 then
    let sz' := u32 (← uvmalloc K pagetable sz (addInt sz n))
    if sz' = 0 then return (-1, p_sz) else return (0, sz')
  else if n < 0 then
    let sz' := u32 (← uvmdealloc K pagetable sz (addInt sz n))
    return (0, sz')
  else return (0, sz)

/-- Exactly the pages below the size are mapped below the trapframe, each to a page of its own. -/
structure Sized (G : Ghost) (r sz : ℕ) : Prop where
  root : G.own r = .node r 2 0
  user : ∀ u < pages sz, G.leaf r u ≠ 0 ∧ G.own (PTE2PA (G.leaf r u)) = .user r u
  none : ∀ u, pages sz ≤ u → u * PGSIZE < TRAPFRAME → G.leaf r u = 0

theorem Sized.lt (h : Sized G r sz) (hI : Inv K G m) : sz ≤ 2 ^ 27 := by
  have hcount : pages sz ≤ 32768 := hI.count_le fun u hu => ⟨_, (h.user u hu).2⟩
  unfold pages at hcount
  omega

/-- Only pages from `v` on have changed, and the new ones are zero. -/
structure Resized (G : Ghost) (m : Memory) (r old new : ℕ) (G' : Ghost) (m' : Memory) : Prop where
  sized : Sized G' r new
  same : ∀ u < pages (min old new), G'.leaf r u = G.leaf r u ∧
    m'.page (PTE2PA (G.leaf r u)) = m.page (PTE2PA (G.leaf r u))
  zero : ∀ u, pages old ≤ u → u < pages new → m'.page (PTE2PA (G'.leaf r u)) = fun _ => 0

theorem Sized.keep {new : ℕ} (h : Sized G r sz) (hpages : pages new = pages sz)
    (hleaf : G'.leaf r = G.leaf r)
    (hold : ∀ q, G.own q ≠ .free → G'.own q = G.own q)
    (hpage : ∀ u < pages sz, m'.page (PTE2PA (G.leaf r u)) = m.page (PTE2PA (G.leaf r u))) :
    Resized G m r sz new G' m' := by
  refine ⟨⟨?_, ?_, ?_⟩, ?_, ?_⟩
  · rw [hold r (h.root.trans_ne nofun), h.root]
  · intro u hu
    rw [hpages] at hu
    obtain ⟨hne, hown⟩ := h.user u hu
    rw [hleaf, hold _ (hown.trans_ne nofun)]
    exact ⟨hne, hown⟩
  · intro u hu
    rw [hleaf]
    rw [hpages] at hu
    exact h.none u hu
  · intro u hu
    have hmin : pages (min sz new) = pages sz := by
      rcases le_total sz new with hle | hle
      · rw [min_eq_left hle]
      · rw [min_eq_right hle, hpages]
    rw [hmin] at hu
    exact ⟨by rw [hleaf], hpage u hu⟩
  · intro u hle hlt
    omega

theorem pages_mono {a b : ℕ} (h : a ≤ b) : pages a ≤ pages b := by
  unfold pages
  omega

theorem Sized.page (h : Sized G r sz) (hF : Frame (G.Nodes r) G m G' m') {u : ℕ}
    (hu : u < pages sz) : m'.page (PTE2PA (G.leaf r u)) = m.page (PTE2PA (G.leaf r u)) := by
  have hown := (h.user u hu).2
  apply hF.page
  · rintro ⟨ℓ, k, hnode⟩
    rw [hown] at hnode
    cases hnode
  · rw [hown]
    exact nofun

theorem ok_grow {newsz : ℕ} (h : Sized G r sz) (hle : sz ≤ newsz) (hnew : newsz ≤ TRAPFRAME) :
    Spec K (G.Nodes r) (uvmalloc K r sz newsz) (fun a G' m' =>
      a = newsz ∧ Resized G m r sz newsz G' m' ∨ a = 0 ∧ Resized G m r sz sz G' m') G m := by
  have hzero : ∀ u, pages sz ≤ u → u < pages newsz → G.leaf r u = 0 := by
    intro u hge hlt
    exact h.none u hge ((lt_pages.1 hlt).trans_le hnew)
  refine (ok_uvmalloc h.root hle hnew hzero).mono ?_
  rintro a G' m' hI' hF ⟨hfits, hshort⟩
  by_cases hroom : need G r (pages sz) (pages newsz - pages sz) ≤ room G m
  · obtain ⟨ha, hadded⟩ := hfits hroom
    have hmono := pages_mono hle
    have hleaf : ∀ u, u < pages sz ∨ pages newsz ≤ u → G'.leaf r u = G.leaf r u :=
      fun u hu => hadded.leaf r u (by omega)
    have hnewpage : ∀ u, pages sz ≤ u → u < pages newsz → ∃ c, G'.own c = .user r u ∧
        G'.leaf r u ≠ 0 ∧ PTE2PA (G'.leaf r u) = c ∧ m'.page c = zeroPage := by
      intro u hge hlt
      obtain ⟨c, -, hown, -, hfill⟩ := hadded.page u hge (by omega)
      exact ⟨c, hown, (hI'.user c r u hown).1.ne_zero, (hI'.user c r u hown).2, hfill⟩
    refine .inl ⟨ha, ⟨?_, ?_, ?_⟩, ?_, ?_⟩
    · rw [hadded.old r (h.root.trans_ne nofun), h.root]
    · intro u hu
      rcases Nat.lt_or_ge u (pages sz) with hlow | hhigh
      · obtain ⟨hne, hown⟩ := h.user u hlow
        rw [hleaf u (.inl hlow), hadded.old _ (hown.trans_ne nofun)]
        exact ⟨hne, hown⟩
      · obtain ⟨c, hown, hne, hpa, -⟩ := hnewpage u hhigh hu
        rw [hpa]
        exact ⟨hne, hown⟩
    · intro u hu hlow
      rw [hleaf u (.inr hu)]
      exact h.none u (by omega) hlow
    · intro u hu
      rw [min_eq_left hle] at hu
      exact ⟨hleaf u (.inl hu), h.page hF hu⟩
    · intro u hge hlt
      obtain ⟨c, -, -, hpa, hfill⟩ := hnewpage u hge hlt
      rw [hpa, hfill]
      rfl
  · obtain ⟨ha, hundone⟩ := hshort hroom
    exact .inr ⟨ha, h.keep rfl (by rw [hundone.leaf]) hundone.old fun u hu => h.page hF hu⟩

theorem ok_shrink (newsz : ℕ) (h : Sized G r sz) :
    Spec K (fun q => G.Unmaps r (pages newsz) (pages sz - pages newsz) q)
      (uvmdealloc K r sz newsz)
      (fun a G' m' => a = min sz newsz ∧ Resized G m r sz (min sz newsz) G' m') G m := by
  intro hI
  have hlt := h.lt hI
  have hpte := fun u hu => (hI.user _ r u (h.user u hu).2).1
  revert hI
  apply Run.spec
  unfold uvmdealloc
  by_cases hle : sz ≤ newsz
  · rw [if_pos hle, min_eq_left hle]
    exact run_pure fun _ _ => ⟨rfl, h.keep rfl rfl (fun _ _ => rfl) fun _ _ => rfl⟩
  have hmono : pages newsz ≤ pages sz := pages_mono (by omega)
  have hbound : pages sz ≤ 2 ^ 26 := by
    unfold pages
    omega
  have hround : PGROUNDUP sz = pages sz * PGSIZE := PGROUNDUP_eq (by omega)
  have hround' : PGROUNDUP newsz = pages newsz * PGSIZE := PGROUNDUP_eq (by omega)
  rw [if_neg hle, hround, hround', min_eq_right (by omega)]
  dsimp only
  split_ifs with hless
  · have hfewer : pages newsz < pages sz := Nat.lt_of_mul_lt_mul_right hless
    have hcount : s32 ((pages sz * PGSIZE - pages newsz * PGSIZE) / PGSIZE) =
        pages sz - pages newsz := by
      rw [← Nat.sub_mul, Nat.mul_div_cancel _ (by decide)]
      unfold s32 u32
      rw [Nat.mod_eq_of_lt (by omega), if_pos (by omega)]
    have hfreeable : Freeable G r (pages newsz) (pages sz - pages newsz) true := by
      intro i hi
      rw [if_pos rfl]
      exact (h.user _ (by omega)).2
    rw [hcount]
    apply (ok_uvmunmap h.root rfl (by omega) (fun i hi => hpte _ (by omega))
      hfreeable).call fun _ => .inl
    intro _ G' m' _ _ hF hU
    apply run_pure
    intro _ _
    have hleaf : ∀ u, u < pages newsz ∨ pages sz ≤ u → G'.leaf r u = G.leaf r u := by
      intro u hu
      rw [hU.leaf]
      exact if_neg (by omega)
    have hown : ∀ q, (∀ i < pages sz - pages newsz, G.own q ≠ .user r (pages newsz + i)) →
        G'.own q = G.own q := hU.own
    refine ⟨rfl, ⟨?_, ?_, ?_⟩, ?_, ?_⟩
    · rw [hown r (by rw [h.root]; exact nofun), h.root]
    · intro u hu
      obtain ⟨hne, hq⟩ := h.user u (by omega)
      rw [hleaf u (.inl hu), hown _ ?_]
      · exact ⟨hne, hq⟩
      · intro i _ he
        rw [hq] at he
        cases he
        omega
    · intro u hu hlow
      rcases Nat.lt_or_ge u (pages sz) with hin | hout
      · rw [hU.leaf]
        exact if_pos (by omega)
      · rw [hleaf u (.inr hout)]
        exact h.none u hout hlow
    · intro u hu
      rw [min_eq_right (by omega)] at hu
      obtain ⟨-, hq⟩ := h.user u (by omega)
      refine ⟨hleaf u (.inl hu), hF.page _ ?_ (hq.trans_ne nofun)⟩
      rintro (⟨ℓ, k, he⟩ | ⟨i, -, he⟩)
      · rw [hq] at he
        cases he
      · rw [hq] at he
        cases he
        omega
    · intro u hge hlt
      omega
  · have hsame : pages newsz = pages sz :=
      Nat.le_antisymm hmono (Nat.le_of_not_lt fun hfewer =>
        hless (Nat.mul_lt_mul_of_pos_right hfewer (by decide)))
    exact run_pure fun _ _ => ⟨rfl, h.keep hsame rfl (fun _ _ => rfl) fun _ _ => rfl⟩

theorem addInt_of_nonneg {n : ℤ} (h : 0 ≤ sz + n) (hlt : sz + n < 2 ^ 32) :
    (addInt sz n : ℤ) = sz + n := by
  unfold addInt
  rw [Int.emod_eq_of_lt h hlt]
  exact Int.toNat_of_nonneg h

theorem addInt_of_neg {n : ℤ} (h : sz + n < 0) (hn : -2 ^ 31 ≤ n) : sz < addInt sz n := by
  unfold addInt
  omega

/-- `growproc` gives the process the size it asks for exactly if that is not below 0; if it fails,
    nothing has changed, and it never fails to shrink. -/
theorem growproc_size_iff (hI : Inv K G m) (h : Sized G r sz) (n : ℤ) (hmin : -2 ^ 31 ≤ n)
    (hmax : n < 2 ^ 31) :
    ∃ a new m' G', growproc K r sz n m = .done (a, new) m' ∧ Inv K G' m' ∧
      (a = 0 → Resized G m r sz new G' m' ∧ ((new : ℤ) = sz + n ↔ 0 ≤ sz + n)) ∧
      (n ≤ 0 → a = 0) ∧ (a ≠ 0 → a = -1 ∧ new = sz ∧ Resized G m r sz sz G' m') := by
  have hlt := h.lt hI
  have hu32 : u32 sz = sz := Nat.mod_eq_of_lt (by omega)
  unfold growproc
  rw [hu32]
  dsimp only
  rcases lt_trichotomy n 0 with hneg | rfl | hpos
  · rw [if_neg (by omega), if_pos hneg]
    obtain ⟨new, m', hrun, G', hI', -, hnew, hresized⟩ :=
      ok_shrink (K := K) (m := m) (addInt sz n) h hI
    have hsmall : u32 new = new := Nat.mod_eq_of_lt (by omega)
    rw [bind_of_done hrun, hsmall]
    rw [← hnew] at hresized
    refine ⟨0, new, m', G', rfl, hI', fun _ => ⟨hresized, ?_⟩, fun _ => rfl, fun h => absurd rfl h⟩
    rcases lt_or_ge ((sz : ℤ) + n) 0 with hwrap | hnonneg
    · have hlarge := addInt_of_neg hwrap hmin
      omega
    · have hsum := addInt_of_nonneg hnonneg (by omega)
      omega
  · rw [if_neg (by decide), if_neg (by decide)]
    exact ⟨0, sz, m, G, rfl, hI, fun _ => ⟨h.keep rfl rfl (fun _ _ => rfl) fun _ _ => rfl,
      by omega⟩, fun _ => rfl, fun h => absurd rfl h⟩
  · rw [if_pos hpos]
    have hsum : (addInt sz n : ℤ) = sz + n := addInt_of_nonneg (by omega) (by omega)
    have htop : addInt sz n ≤ TRAPFRAME := by
      unfold TRAPFRAME TRAMPOLINE MAXVA PGSIZE
      omega
    obtain ⟨a, m', hrun, G', hI', -, hgrown⟩ := ok_grow (K := K) (m := m) h (by omega) htop hI
    rw [bind_of_done hrun]
    rcases hgrown with ⟨rfl, hresized⟩ | ⟨rfl, hresized⟩
    · have hsmall : u32 (addInt sz n) = addInt sz n := Nat.mod_eq_of_lt (by omega)
      rw [hsmall, if_neg (by omega)]
      exact ⟨0, addInt sz n, m', G', rfl, hI', fun _ => ⟨hresized, by omega⟩, fun _ => rfl,
        fun h => absurd rfl h⟩
    · have hzero : u32 0 = 0 := rfl
      rw [hzero, if_pos rfl]
      exact ⟨-1, sz, m', G', rfl, hI', nofun, fun hn => absurd hpos (not_lt.2 hn),
        fun _ => ⟨rfl, rfl, hresized⟩⟩

theorem sized_eight : Sized eightGhost (lastPage 8) 0 :=
  ⟨by decide, fun _ hu => absurd hu (Nat.not_lt_zero _), fun _ _ _ => rfl⟩

theorem growproc_size_iff_eight :
    ∃ m' G', growproc eight (lastPage 8) 0 4096 eightMemory = .done (0, 4096) m' ∧
      Resized eightGhost eightMemory (lastPage 8) 0 4096 G' m' := by
  obtain ⟨a, new, m', G', hrun, -, hok, -⟩ :=
    growproc_size_iff inv_eight sized_eight 4096 (by decide) (by decide)
  have hgrows : (growproc eight (lastPage 8) 0 4096 eightMemory).any
      (fun x _ => x == (0, 4096)) = true := by decide +kernel
  rw [hrun] at hgrows
  obtain ⟨rfl, rfl⟩ := Prod.mk.inj (beq_iff_eq.1 hgrows)
  exact ⟨m', G', hrun, (hok rfl).1⟩

/-- A process of size 0 that asks for a size below 0 is told that it has it. -/
theorem growproc_below_zero :
    ∃ G, Inv eight G eightMemory ∧ Sized G (lastPage 8) 0 ∧
      growproc eight (lastPage 8) 0 (-1) eightMemory = .done (0, 0) eightMemory :=
  ⟨eightGhost, inv_eight, sized_eight, rfl⟩

end Xv6.PageOwners
