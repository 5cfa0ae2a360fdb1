import Mathlib.Data.Fintype.Card
import Mathlib.Logic.Relation
import Xv6.UmallocInvariant

set_option autoImplicit false

namespace Xv6.UmallocBlocks
open Xv6.Sequential CircularList UmallocCode UmallocInvariant
open Function (update update_eq_self update_idem update_of_ne update_self)

section
variable {base : ℕ} {s s' : Heap} {l : List ℕ} {used : Used} {a n : ℕ}

theorem taken_hold {u : ℕ} (ha : used a = none) :
    Taken (update used a (some n)) u ↔ Taken used u ∨ (a ≤ u ∧ u < a + n) := by
  have hrelease : Taken (update used a (some n)) u ↔
      Taken (update (update used a (some n)) a none) u ∨ (a ≤ u ∧ u < a + n) :=
    taken_release (update_self a (some n) used)
  rw [update_idem, ← ha, update_eq_self] at hrelease
  exact hrelease

theorem held_of_hold {b i : ℕ} (hb : update used a (some n) b = some i) :
    b = a ∧ i = n ∨ b ≠ a ∧ used b = some i := by
  grind

theorem apart_hold (ha : ∀ b i, used b = some i → a + n ≤ b ∨ b + i ≤ a)
    (hold : ∀ b i c j, used b = some i → used c = some j → b ≠ c → b + i ≤ c ∨ c + j ≤ b)
    (b i c j : ℕ) (hb : update used a (some n) b = some i)
    (hc : update used a (some n) c = some j) (hne : b ≠ c) : b + i ≤ c ∨ c + j ≤ b := by
  rcases held_of_hold hb with ⟨rfl, rfl⟩ | ⟨-, hb'⟩
  · rcases held_of_hold hc with ⟨rfl, -⟩ | ⟨-, hc'⟩
    · exact absurd rfl hne
    · exact ha c j hc'
  · rcases held_of_hold hc with ⟨rfl, rfl⟩ | ⟨-, hc'⟩
    · exact (ha b i hb').symm
    · exact hold b i c j hb' hc' hne

theorem sound_held (h : Sound base s l used) (hn : 0 < n) {l' : List ℕ}
    (hring : Path s'.ptr base l' base)
    (hgaps : (base :: l').Pairwise fun a b => a + s'.size a < b) (hbottom : s'.size base = 0)
    (hpos : ∀ a ∈ l', 0 < s'.size a) (hroving : s'.freep ∈ base :: l')
    (hheader : ∀ b i, used b = some i → s'.size b = s.size b) (hsize : s'.size a = n)
    (hcover : ∀ u, Covered s.size (base :: l) u ↔
      Covered s'.size (base :: l') u ∨ (a ≤ u ∧ u < a + n))
    (hoff : ∀ u, a ≤ u → u < a + n → ¬ Covered s'.size (base :: l') u)
    (hbrk : s'.brk = s.brk) (hgot : s'.got = s.got) :
    used a = none ∧ Sound base s' l' (update used a (some n)) := by
  have hfree : ∀ u, a ≤ u → u < a + n → ¬ Taken used u := fun u hle hlt htaken =>
    h.off u htaken ((hcover u).2 (.inr ⟨hle, hlt⟩))
  have hnone : used a = none := by
    cases hu : used a with
    | none => rfl
    | some i =>
      have hi := (h.header a i hu).2
      exact absurd ⟨a, i, hu, le_rfl, by omega⟩ (hfree a le_rfl (by omega))
  have hapart : ∀ b i, used b = some i → a + n ≤ b ∨ b + i ≤ a := by
    intro b i hb
    have hi := (h.header b i hb).2
    -- otherwise the larger of the two headers lies in both blocks
    by_contra hover
    refine hfree (max a b) (by omega) (by omega) ⟨b, i, hb, by omega, by omega⟩
  have hobtained : ∀ u, Obtained s' u ↔ Obtained s u := by
    intro u
    unfold Obtained
    rw [hgot]
  refine ⟨hnone, hring, hgaps, hbottom, hpos, hroving, ?_, apart_hold hapart h.apart, ?_, ?_, ?_,
    ?_, ?_⟩
  · intro b i hb
    rcases held_of_hold hb with ⟨rfl, rfl⟩ | ⟨-, hb'⟩
    · exact ⟨hsize, hn⟩
    · rw [hheader b i hb']
      exact h.header b i hb'
  · intro u hu hcovered
    rcases (taken_hold hnone).1 hu with hu | ⟨hle, hlt⟩
    · exact h.off u hu ((hcover u).2 (.inl hcovered))
    · exact hoff u hle hlt hcovered
  · intro u
    rw [hobtained, h.cover, hcover, taken_hold hnone, or_assoc, or_comm (a := _ ∧ _)]
  · intro u hu
    rw [hbrk]
    exact h.above u ((hobtained u).1 hu)
  · rw [hbrk]
    exact h.low
  · rw [hbrk]
    exact h.fits

theorem gap_between (h : Sound base s l used) {x y : ℕ} (hx : x ∈ base :: l) (hy : y ∈ base :: l)
    (hne : x ≠ y) : x + s.size x < y ∨ y + s.size y < x := by
  let Gap (a b : ℕ) : Prop := a + s.size a < b ∨ b + s.size b < a
  have : Std.Symm Gap := ⟨fun _ _ hab => Or.symm hab⟩
  have hall : (base :: l).Pairwise Gap := h.gaps.imp fun hab => .inl hab
  exact hall.forall hx hy hne

section
variable {prevp p nunits : ℕ}

theorem takeUnits_whole (h : s.size p = nunits) :
    takeUnits nunits prevp p s = .done ((p + 1) * 16)
      { s with ptr := update s.ptr prevp (s.ptr p), freep := prevp } := by
  rw [takeUnits, bind_of_done (rfl : Code.get s = _), if_pos h]
  rfl

theorem takeUnits_part (h : s.size p ≠ nunits) :
    takeUnits nunits prevp p s = .done ((p + (s.size p - nunits) + 1) * 16)
      { s with
        size := update (update s.size p (s.size p - nunits))
          (p + (s.size p - nunits)) nunits
        freep := prevp } := by
  rw [takeUnits, bind_of_done (rfl : Code.get s = _), if_neg h]
  rfl

def Allotted (base : ℕ) (used : Used) (nunits r : ℕ) (s' : Heap) : Prop :=
  ∃ a l', r = (a + 1) * 16 ∧ used a = none ∧
    Sound base s' l' (update used a (some nunits))

theorem whole_allotted (h : Sound base s l used) (hprev : prevp ∈ base :: l)
    (hp : s.ptr prevp = p) (hn : 0 < nunits) (hsize : s.size p = nunits) :
    Allotted base used nunits ((p + 1) * 16)
      { s with ptr := update s.ptr prevp (s.ptr p), freep := prevp } := by
  obtain ⟨k, m, hsplit⟩ := List.append_of_mem hprev
  have hpath : Path s.ptr prevp m base := h.ring.behind hsplit
  cases m with
  | nil =>
    have hbase : p = base := hp.symm.trans hpath
    rw [hbase, h.bottom] at hsize
    omega
  | cons y m =>
    have hy : y = p := hpath.1.symm.trans hp
    subst hy
    have hgaps := h.gaps
    have hnodup := h.nodup
    rw [hsplit] at hgaps hnodup
    obtain ⟨hnodupk, hnodupm, hdisjoint⟩ := List.nodup_append.1 hnodup
    have hne : prevp ∉ y :: m := (List.nodup_cons.1 hnodupm).1
    have hrest : Path (update s.ptr prevp (s.ptr y)) prevp m base := by
      refine hpath.2.enter (update_self ..) fun x hx => ?_
      refine update_of_ne (fun heq => hne ?_) _ _
      rw [← heq]
      exact List.mem_cons_of_mem y hx
    obtain ⟨l', hsplit', hring⟩ := h.ring.splice hsplit
      (fun x hx => update_of_ne (hdisjoint x hx prevp List.mem_cons_self) _ _) hrest
    have hsub : (base :: l').Sublist (base :: l) := by
      rw [hsplit, hsplit']
      exact (List.Sublist.refl k).append ((List.sublist_cons_self y m).cons_cons prevp)
    have hsubl : l'.Sublist l := List.cons_sublist_cons.1 hsub
    have hroving : prevp ∈ base :: l' := by
      rw [hsplit']
      exact List.mem_append_right k List.mem_cons_self
    have hyl : y ∈ base :: l := by
      rw [hsplit]
      exact List.mem_append_right k (List.mem_cons_of_mem prevp List.mem_cons_self)
    have hout : y ∉ base :: l' := by
      rw [hsplit']
      intro hin
      rcases List.mem_append.1 hin with hin | hin
      · exact hdisjoint y hin y (List.mem_cons_of_mem prevp List.mem_cons_self) rfl
      · rcases List.mem_cons.1 hin with rfl | hin
        · exact hne List.mem_cons_self
        · exact (List.nodup_cons.1 (List.nodup_cons.1 hnodupm).2).1 hin
    refine ⟨y, l', rfl, sound_held h hn hring (h.gaps.sublist hsub) h.bottom
      (fun x hx => h.pos x (hsubl.subset hx)) hroving (fun b i hb => rfl) hsize ?_ ?_ rfl rfl⟩
    · intro u
      rw [hsplit, hsplit', covered_append, covered_append, covered_cons, covered_cons,
        covered_cons, hsize]
      tauto
    · rintro u hle hlt ⟨x, hx, hxu⟩
      have hxy : x ≠ y := fun heq => hout (heq ▸ hx)
      have hgap := gap_between h (hsub.subset hx) hyl hxy
      dsimp only at hxu
      omega

theorem covered_split {size size' : ℕ → ℕ} {d u : ℕ} (hp : p ∈ l) (hsizep : size' p = d)
    (hd : size p = d + n) (hsame : ∀ x ∈ l, x ≠ p → size' x = size x) :
    Covered size l u ↔ Covered size' l u ∨ (p + d ≤ u ∧ u < p + d + n) := by
  constructor
  · rintro ⟨x, hx, hu⟩
    by_cases hxp : x = p
    · subst hxp
      rcases Nat.lt_or_ge u (x + d) with hlow | hhigh
      · exact .inl ⟨x, hx, hu.1, by omega⟩
      · exact .inr ⟨hhigh, by omega⟩
    · rw [← hsame x hx hxp] at hu
      exact .inl ⟨x, hx, hu⟩
  · rintro (⟨x, hx, hu⟩ | hu)
    · by_cases hxp : x = p
      · subst hxp
        exact ⟨x, hx, hu.1, by omega⟩
      · rw [hsame x hx hxp] at hu
        exact ⟨x, hx, hu⟩
    · exact ⟨p, hp, by omega, by omega⟩

theorem part_allotted (h : Sound base s l used) (hprev : prevp ∈ base :: l)
    (hp : p ∈ base :: l) (hn : 0 < nunits) (hsize : nunits < s.size p) :
    Allotted base used nunits ((p + (s.size p - nunits) + 1) * 16)
      { s with
        size := update (update s.size p (s.size p - nunits))
          (p + (s.size p - nunits)) nunits
        freep := prevp } := by
  generalize hd : s.size p - nunits = d
  have hbase : p ≠ base := by
    intro heq
    rw [heq, h.bottom] at hsize
    omega
  have hother : ∀ x ∈ base :: l, x ≠ p → x + s.size x < p ∨ p + s.size p < x :=
    fun x hx hne => gap_between h hx hp hne
  have hnew : ∀ x ∈ base :: l, x ≠ p + d := by
    intro x hx heq
    have hother := hother x hx
    omega
  have hsame : ∀ x, x ≠ p → x ≠ p + d →
      update (update s.size p d) (p + d) nunits x = s.size x := by
    intro x hxp hxd
    rw [update_of_ne hxd, update_of_ne hxp]
  have hsizep : update (update s.size p d) (p + d) nunits p = d := by
    rw [update_of_ne (hnew p hp), update_self]
  have hsizea : update (update s.size p d) (p + d) nunits (p + d) = nunits :=
    update_self ..
  have hle : ∀ x ∈ base :: l,
      update (update s.size p d) (p + d) nunits x ≤ s.size x := by
    intro x hx
    by_cases hxp : x = p
    · rw [hxp, hsizep]
      omega
    · rw [hsame x hxp (hnew x hx)]
  generalize update (update s.size p d) (p + d) nunits = size at *
  refine ⟨p + d, l, rfl, sound_held h hn h.ring ?_ ?_ ?_ hprev ?_ hsizea ?_ ?_ rfl rfl⟩
  · refine h.gaps.imp_of_mem fun {x y} hx _ hxy => ?_
    have hlex := hle x hx
    dsimp only
    omega
  · have hlebase := hle base List.mem_cons_self
    rw [h.bottom] at hlebase
    exact Nat.le_zero.1 hlebase
  · intro x hx
    by_cases hxp : x = p
    · change 0 < size x
      rw [hxp, hsizep]
      omega
    · change 0 < size x
      rw [hsame x hxp (hnew x (List.mem_cons_of_mem base hx))]
      exact h.pos x hx
  · intro b i hb
    have hbeside := h.beside hp hb
    have hi := (h.header b i hb).2
    exact hsame b (by omega) (by omega)
  · exact fun u => covered_split hp hsizep (by omega) fun x hx hxp => hsame x hxp (hnew x hx)
  · rintro u hleu hltu ⟨x, hx, hxu⟩
    have hlex := hle x hx
    dsimp only at hxu
    by_cases hxp : x = p
    · subst hxp
      omega
    · have hother := hother x hx hxp
      omega

theorem takeUnits_spec (h : Sound base s l used) (hprev : prevp ∈ base :: l)
    (hp : s.ptr prevp = p) (hn : 0 < nunits) (hsize : nunits ≤ s.size p) :
    Returns (takeUnits nunits prevp p) (Allotted base used nunits) s := by
  by_cases hwhole : s.size p = nunits
  · exact ⟨_, _, takeUnits_whole hwhole, whole_allotted h hprev hp hn hwhole⟩
  have hmem : p ∈ base :: l := by
    rw [← hp]
    rcases h.ring.next_mem hprev with heq | hin
    · rw [heq]
      exact List.mem_cons_self
    · exact List.mem_cons_of_mem base hin
  exact ⟨_, _, takeUnits_part hwhole, part_allotted h hprev hmem hn (by omega)⟩

end

/-- The address that `sbrk` answers fits an `int`, as the kernel returns it. -/
def Answers (s : Heap) (gap : Option ℕ) : Prop := ∀ g, gap = some g → (s.brk + g) * 16 < 2 ^ 31

theorem sound_grown (h : Sound base s l used) {hp nu : ℕ} (hle : s.brk ≤ hp) (hnu : 0 < nu)
    (hfits : hp + nu ≤ 2 ^ 28) :
    used hp = none ∧ Sound base
      { s with
        size := update s.size hp nu
        brk := hp + nu
        got := s.got ++ [(hp, nu)] } l (update used hp (some nu)) := by
  have hheld : ∀ b i, used b = some i → b + i ≤ hp ∧ b ≠ hp := by
    intro b i hb
    have hend := (h.held_within hb).2
    have hi := (h.header b i hb).2
    omega
  have hnone : used hp = none := by
    cases hu : used hp with
    | none => rfl
    | some i => exact absurd rfl (hheld hp i hu).2
  have hlist : ∀ x ∈ base :: l, x ≠ hp := by
    intro x hx
    have hend := h.end_le hx
    have hlow := h.low
    rcases List.mem_cons.1 hx with rfl | hin
    · omega
    · have hpos := h.pos x hin
      omega
  have hsame : ∀ x ∈ base :: l, update s.size hp nu x = s.size x :=
    fun x hx => update_of_ne (hlist x hx) _ _
  have hobtained : ∀ u, (∃ r ∈ s.got ++ [(hp, nu)], r.1 ≤ u ∧ u < r.1 + r.2) ↔
      Obtained s u ∨ (hp ≤ u ∧ u < hp + nu) := by
    intro u
    unfold Obtained
    simp only [List.mem_append, List.mem_singleton, or_and_right, exists_or, exists_eq_left]
  have hlow := h.low
  refine ⟨hnone, h.ring, gaps_congr hsame h.gaps, (hsame base List.mem_cons_self).trans h.bottom,
    ?_, h.roving, ?_, apart_hold (fun b i hb => .inr (hheld b i hb).1) h.apart, ?_, ?_, ?_, ?_,
    hfits⟩
  · intro x hx
    change 0 < update s.size hp nu x
    rw [hsame x (List.mem_cons_of_mem base hx)]
    exact h.pos x hx
  · have hold := h.header
    grind
  · intro u hu hcovered
    have hcovered := (covered_congr hsame).1 hcovered
    rcases (taken_hold hnone).1 hu with hu | hu
    · exact h.off u hu hcovered
    · obtain ⟨x, hx, hxu⟩ := hcovered
      have hend := h.end_le hx
      omega
  · intro u
    change (∃ r ∈ s.got ++ [(hp, nu)], r.1 ≤ u ∧ u < r.1 + r.2) ↔
      Covered (update s.size hp nu) (base :: l) u ∨ _
    rw [hobtained, h.cover, covered_congr hsame, taken_hold hnone, or_assoc]
  · intro u hu
    change base < u ∧ u < hp + nu
    rcases (hobtained u).1 hu with hu | hu
    · have hu := h.above u hu
      omega
    · omega
  · change base < hp + nu
    omega

theorem sbrk_some {g nu : ℕ} (hnu : nu * 16 < 2 ^ 31) (hg : (s.brk + g) * 16 < 2 ^ 31) :
    sbrk (some g) (Int.bmod (nu * 16) (2 ^ 32)) s = .done (some (s.brk + g))
      { s with brk := s.brk + g + nu, got := s.got ++ [(s.brk + g, nu)] } := by
  have hint : Int.bmod (nu * 16) (2 ^ 32) = nu * 16 := by
    apply Int.bmod_eq_of_le <;> omega
  have hunits : (nu * 16 : ℤ) / 16 = nu := Int.mul_ediv_cancel _ (by decide)
  have htop : 0 ≤ ((s.brk + g : ℕ) : ℤ) + nu ∧ ((s.brk + g : ℕ) : ℤ) + nu < 2 ^ 28 := by omega
  have hbrk : (((s.brk + g : ℕ) : ℤ) + nu).toNat = s.brk + g + nu := by omega
  rw [hint]
  unfold sbrk
  dsimp only
  rw [hunits, if_pos htop, hbrk, Nat.add_sub_cancel_left]

def Enlarged (base : ℕ) (used : Used) (nunits : ℕ) (s : Heap) (l : List ℕ) (r : ℕ) (s' : Heap) :
    Prop :=
  (r = 0 ∧ s' = s) ∨ (r = s'.freep ∧ ∃ l', Sound base s' l' used ∧ l'.length ≤ l.length + 1 ∧
    ∃ a ∈ base :: l', nunits ≤ s'.size a)

theorem morecore_some {g nunits nu : ℕ} (hnu : (if nunits < 4096 then 4096 else nunits) = nu)
    (hsmall : nu * 16 < 2 ^ 31) (hg : (s.brk + g) * 16 < 2 ^ 31)
    (hrun : free ((s.brk + g + 1) * 16) { s with
      size := update s.size (s.brk + g) nu
      brk := s.brk + g + nu
      got := s.got ++ [(s.brk + g, nu)] } = .done () s') :
    morecore (some g) nunits s = .done s'.freep s' := by
  rw [morecore, hnu, bind_of_done (sbrk_some hsmall hg)]
  dsimp only
  rw [bind_of_done (rfl : setSize (s.brk + g) nu _ = .done () _), bind_of_done hrun]
  rfl

theorem morecore_spec (h : Sound base s l used) {gap : Option ℕ} {nunits : ℕ}
    (hgap : Answers s gap) (hnunits : nunits * 16 < 2 ^ 31) :
    Returns (morecore gap nunits) (Enlarged base used nunits s l) s := by
  cases gap with
  | none => exact ⟨0, s, rfl, .inl ⟨rfl, rfl⟩⟩
  | some g =>
    have hg : (s.brk + g) * 16 < 2 ^ 31 := hgap g rfl
    generalize hnu : (if nunits < 4096 then 4096 else nunits) = nu
    have hlarge : nunits ≤ nu ∧ 0 < nu ∧ nu * 16 < 2 ^ 31 := by
      rw [← hnu]
      split <;> omega
    obtain ⟨hnone, hgrown⟩ := sound_grown h (Nat.le_add_right s.brk g) hlarge.2.1 (by omega)
    obtain ⟨_, s', hrun, -, -, l', hsound, hlength, a, ha, hsize⟩ :=
      free_spec hgrown (update_self (s.brk + g) (some nu) used)
    rw [update_idem, ← hnone, update_eq_self] at hsound
    exact ⟨s'.freep, s', morecore_some hnu hlarge.2.2 hg hrun,
      .inr ⟨rfl, l', hsound, hlength, a, ha, hlarge.1.trans hsize⟩⟩

section
variable {gap : Option ℕ} {nunits prevp p rounds : ℕ} {k : List ℕ}

theorem mallocSearch_found (h : nunits ≤ s.size p) :
    mallocSearch gap nunits (rounds + 1) prevp p s = takeUnits nunits prevp p s := by
  rw [mallocSearch, bind_of_done (rfl : Code.get s = _), if_pos h]

theorem mallocSearch_next (h : ¬ nunits ≤ s.size p) (hp : p ≠ s.freep) :
    mallocSearch gap nunits (rounds + 1) prevp p s =
      mallocSearch gap nunits rounds p (s.ptr p) s := by
  rw [mallocSearch, bind_of_done (rfl : Code.get s = _), if_neg h, if_neg hp]

theorem mallocSearch_succeeds (h : Sound base s l used) (hn : 0 < nunits)
    (hprev : prevp ∈ base :: l) (hpath : Path s.ptr prevp k s.freep) (hout : s.freep ∉ k)
    (hk : ∀ x ∈ k, x ∈ base :: l) (hlarge : ∃ a ∈ k ++ [s.freep], nunits ≤ s.size a)
    (hrounds : k.length < rounds) :
    Returns (mallocSearch gap nunits rounds prevp (s.ptr prevp)) (Allotted base used nunits) s := by
  induction k generalizing prevp rounds with
  | nil =>
    obtain ⟨rounds, rfl⟩ := Nat.exists_eq_succ_of_ne_zero (Nat.ne_of_gt hrounds)
    obtain ⟨a, ha, hsize⟩ := hlarge
    have hnext : s.ptr prevp = s.freep := hpath
    have hfound : nunits ≤ s.size (s.ptr prevp) := by
      rw [hnext, ← List.mem_singleton.1 ha]
      exact hsize
    obtain ⟨r, s', hrun, hpost⟩ := takeUnits_spec h hprev rfl hn hfound
    exact ⟨r, s', (mallocSearch_found hfound).trans hrun, hpost⟩
  | cons x k ih =>
    obtain ⟨rounds, rfl⟩ := Nat.exists_eq_succ_of_ne_zero (Nat.ne_of_gt (Nat.zero_lt_of_lt hrounds))
    by_cases hfound : nunits ≤ s.size (s.ptr prevp)
    · obtain ⟨r, s', hrun, hpost⟩ := takeUnits_spec h hprev rfl hn hfound
      exact ⟨r, s', (mallocSearch_found hfound).trans hrun, hpost⟩
    obtain ⟨hnext, hrest⟩ := hpath
    have hx : s.ptr prevp ≠ s.freep := by
      rw [hnext]
      exact fun heq => hout (heq ▸ List.mem_cons_self)
    have hlarge : ∃ a ∈ k ++ [s.freep], nunits ≤ s.size a := by
      obtain ⟨a, ha, hsize⟩ := hlarge
      refine ⟨a, (List.mem_cons.1 ha).resolve_left fun heq => hfound ?_, hsize⟩
      rw [hnext, ← heq]
      exact hsize
    unfold Returns
    rw [mallocSearch_next hfound hx, hnext]
    exact ih (hk x List.mem_cons_self) hrest (fun hin => hout (List.mem_cons_of_mem x hin))
      (fun y hy => hk y (List.mem_cons_of_mem x hy)) hlarge (Nat.lt_of_succ_lt_succ hrounds)

theorem mallocSearch_round (h : Sound base s l used) (hn : 0 < nunits)
    (hlarge : ∃ a ∈ base :: l, nunits ≤ s.size a) (hrounds : l.length < rounds) :
    Returns (mallocSearch gap nunits rounds s.freep (s.ptr s.freep))
      (Allotted base used nunits) s := by
  obtain ⟨k, hpath, hperm⟩ := h.ring.rotate h.roving
  have hlength : k.length = l.length := Nat.succ.inj hperm.length_eq
  refine mallocSearch_succeeds h hn h.roving hpath ?_ ?_ ?_ (by omega)
  · exact (List.nodup_cons.1 (hperm.nodup_iff.2 h.nodup)).1
  · exact fun x hx => hperm.mem_iff.1 (List.mem_cons_of_mem _ hx)
  · obtain ⟨a, ha, hsize⟩ := hlarge
    refine ⟨a, ?_, hsize⟩
    rcases List.mem_cons.1 (hperm.mem_iff.2 ha) with rfl | hin
    · exact List.mem_append_right k List.mem_cons_self
    · exact List.mem_append_left _ hin

theorem mallocSearch_more (h : ¬ nunits ≤ s.size p) (hp : p = s.freep) {r : ℕ}
    (hrun : morecore gap nunits s = .done r s') :
    mallocSearch gap nunits (rounds + 1) prevp p s =
      if r = 0 then .done 0 s' else mallocSearch gap nunits rounds r (s'.ptr r) s' := by
  rw [mallocSearch, bind_of_done (rfl : Code.get s = _), if_neg h, if_pos hp, bind_of_done hrun]
  split
  · rfl
  · rw [bind_of_done (rfl : Code.get s' = _)]

theorem sound_freep (hbase : 0 < base) (h : Sound base s l used) : s.freep ≠ 0 := by
  rcases List.mem_cons.1 h.roving with heq | hin
  · omega
  · have hlt := (List.pairwise_cons.1 h.ascending).1 s.freep hin
    omega

def Answered (base : ℕ) (used : Used) (nunits r : ℕ) (s' : Heap) : Prop :=
  (r = 0 ∧ ∃ l', Sound base s' l' used) ∨ Allotted base used nunits r s'

theorem mallocSearch_ends (hbase : 0 < base) (h : Sound base s l used) (hn : 0 < nunits)
    (hgap : Answers s gap) (hnunits : nunits * 16 < 2 ^ 31) (hprev : prevp ∈ base :: l)
    (hpath : Path s.ptr prevp k s.freep) (hout : s.freep ∉ k) (hk : ∀ x ∈ k, x ∈ base :: l)
    (hrounds : k.length + l.length + 3 ≤ rounds) :
    Returns (mallocSearch gap nunits rounds prevp (s.ptr prevp)) (Answered base used nunits) s := by
  induction k generalizing prevp rounds with
  | nil =>
    obtain ⟨rounds, rfl⟩ := Nat.exists_eq_succ_of_ne_zero (by omega : rounds ≠ 0)
    by_cases hfound : nunits ≤ s.size (s.ptr prevp)
    · obtain ⟨r, s', hrun, hpost⟩ := takeUnits_spec h hprev rfl hn hfound
      exact ⟨r, s', (mallocSearch_found hfound).trans hrun, .inr hpost⟩
    obtain ⟨r, s', hrun, hmore⟩ := morecore_spec h hgap hnunits
    unfold Returns
    rw [mallocSearch_more hfound hpath hrun]
    rcases hmore with ⟨rfl, rfl⟩ | ⟨rfl, l', h', hlength, hlarge⟩
    · exact ⟨0, s', rfl, .inl ⟨rfl, l, h⟩⟩
    · rw [if_neg (sound_freep hbase h')]
      refine (mallocSearch_round h' hn hlarge ?_).mono fun _ _ hpost => .inr hpost
      rw [List.length_nil] at hrounds
      omega
  | cons x k ih =>
    obtain ⟨rounds, rfl⟩ := Nat.exists_eq_succ_of_ne_zero (by omega : rounds ≠ 0)
    by_cases hfound : nunits ≤ s.size (s.ptr prevp)
    · obtain ⟨r, s', hrun, hpost⟩ := takeUnits_spec h hprev rfl hn hfound
      exact ⟨r, s', (mallocSearch_found hfound).trans hrun, .inr hpost⟩
    obtain ⟨hnext, hrest⟩ := hpath
    have hx : s.ptr prevp ≠ s.freep := by
      rw [hnext]
      exact fun heq => hout (heq ▸ List.mem_cons_self)
    unfold Returns
    rw [mallocSearch_next hfound hx, hnext]
    refine ih (hk x List.mem_cons_self) hrest (fun hin => hout (List.mem_cons_of_mem x hin))
      (fun y hy => hk y (List.mem_cons_of_mem x hy)) ?_
    rw [List.length_cons] at hrounds
    omega

theorem ready_spec (hlow : base < s.brk) (hfits : s.brk ≤ 2 ^ 28)
    (h : (s.freep = 0 ∧ s.got = [] ∧ used = fun _ => none) ∨ ∃ l, Sound base s l used)
    (hbase : 0 < base) :
    Returns (ready base) (fun _ s' => s'.brk = s.brk ∧ ∃ l, Sound base s' l used) s := by
  rcases h with ⟨hfreep, hgot, hused⟩ | ⟨l, h⟩
  · refine ⟨(), { s with
      ptr := update s.ptr base base
      freep := base
      size := update s.size base 0 }, ?_, rfl, [], ?_⟩
    · rw [ready, bind_of_done (rfl : Code.get s = _), if_pos hfreep]
      rfl
    · have hempty : ∀ u, ¬ Covered (update s.size base 0) [base] u := by
        rintro u ⟨x, hx, hu⟩
        rw [List.mem_singleton.1 hx, update_self] at hu
        omega
      have hnone : ∀ u, ¬ Taken used u := by
        rintro u ⟨a, n, ha, -⟩
        rw [hused] at ha
        cases ha
      have hgot : ∀ u, ¬ Obtained s u := by
        rintro u ⟨r, hr, -⟩
        rw [hgot] at hr
        exact absurd hr List.not_mem_nil
      refine ⟨update_self .., List.pairwise_singleton _ _, update_self .., ?_,
        List.mem_cons_self, ?_, ?_, fun u hu => absurd hu (hnone u), ?_, ?_, hlow, hfits⟩
      · exact fun a ha => absurd ha List.not_mem_nil
      · intro a n ha
        rw [hused] at ha
        cases ha
      · intro a n b m ha
        rw [hused] at ha
        cases ha
      · exact fun u => iff_of_false (hgot u) fun hor => hor.elim (hempty u) (hnone u)
      · exact fun u hu => absurd hu (hgot u)
  · have hne : s.freep ≠ 0 := sound_freep hbase h
    refine ⟨(), s, ?_, rfl, l, h⟩
    rw [ready, bind_of_done (rfl : Code.get s = _), if_neg hne]
    rfl

theorem units_pos (n : ℕ) : 0 < units n := Nat.succ_pos _

theorem malloc_of_ready {nbytes : UInt32} (h : ready base s = .done () s') :
    malloc base gap nbytes s =
      mallocSearch gap (units nbytes.toNat) (2 * s'.brk + 4) s'.freep (s'.ptr s'.freep) s' := by
  rw [malloc, bind_of_done h, bind_of_done (rfl : Code.get s' = _)]

theorem malloc_spec (hbase : 0 < base) (hlow : base < s.brk) (hfits : s.brk ≤ 2 ^ 28)
    (h : (s.freep = 0 ∧ s.got = [] ∧ used = fun _ => none) ∨ ∃ l, Sound base s l used)
    (hgap : Answers s gap) {nbytes : UInt32} (hsmall : units nbytes.toNat * 16 < 2 ^ 31) :
    Returns (malloc base gap nbytes) (Answered base used (units nbytes.toNat)) s := by
  obtain ⟨_, s', hready, hbrk, l, h'⟩ := ready_spec hlow hfits h hbase
  obtain ⟨k, hpath, hperm⟩ := h'.ring.rotate h'.roving
  have hlength : k.length = l.length := Nat.succ.inj hperm.length_eq
  have hle := h'.length_le
  unfold Returns
  rw [malloc_of_ready hready]
  refine mallocSearch_ends hbase h' (units_pos _) ?_ hsmall h'.roving hpath ?_ ?_ ?_
  · intro g hg
    rw [hbrk]
    exact hgap g hg
  · exact (List.nodup_cons.1 (hperm.nodup_iff.2 h'.nodup)).1
  · exact fun x hx => hperm.mem_iff.1 (List.mem_cons_of_mem _ hx)
  · omega

end

end

structure World where
  heap : Heap
  used : Used

/-- The header `u` is memory of the program. -/
def Inside (used : Used) (u : ℕ) : Prop := ∃ a n, used a = some n ∧ a < u ∧ u < a + n

inductive Step (base : ℕ) : World → World → Prop
  | malloc {w : World} {gap : Option ℕ} {nbytes : UInt32} {r : ℕ} {heap : Heap}
      (small : units nbytes.toNat * 16 < 2 ^ 31) (answers : Answers w.heap gap)
      (run : malloc base gap nbytes w.heap = .done r heap) :
      Step base w ⟨heap, if r = 0 then w.used
        else update w.used (r / 16 - 1) (some (units nbytes.toNat))⟩
  | free {w : World} {a n : ℕ} {heap : Heap} (held : w.used a = some n)
      (run : free ((a + 1) * 16) w.heap = .done () heap) :
      Step base w ⟨heap, update w.used a none⟩
  | write {w : World} {ptr size : ℕ → ℕ}
      (same : ∀ u, ¬ Inside w.used u → ptr u = w.heap.ptr u ∧ size u = w.heap.size u) :
      Step base w ⟨{ w.heap with ptr := ptr, size := size }, w.used⟩

abbrev Reach (base : ℕ) : World → World → Prop := Relation.ReflTransGen (Step base)

/-- A program that has not called `malloc`, with `base` among its data. -/
structure Start (base : ℕ) (w : World) : Prop where
  base_pos : 0 < base
  low : base < w.heap.brk
  fits : w.heap.brk ≤ 2 ^ 28
  freep : w.heap.freep = 0
  got : w.heap.got = []
  used : w.used = fun _ => none

structure Kept (base : ℕ) (w : World) : Prop where
  low : base < w.heap.brk
  fits : w.heap.brk ≤ 2 ^ 28
  list : (w.heap.freep = 0 ∧ w.heap.got = [] ∧ w.used = fun _ => none) ∨
    ∃ l, Sound base w.heap l w.used

section
variable {base : ℕ} {w w' : World}

theorem kept_of_sound {l : List ℕ} (h : Sound base w.heap l w.used) : Kept base w :=
  ⟨h.low, h.fits, .inr ⟨l, h⟩⟩

theorem sound_write {s : Heap} {l : List ℕ} {used : Used} (h : Sound base s l used)
    {ptr size : ℕ → ℕ}
    (same : ∀ u, ¬ Inside used u → ptr u = s.ptr u ∧ size u = s.size u) :
    Sound base { s with ptr := ptr, size := size } l used := by
  have hlist : ∀ x ∈ base :: l, ¬ Inside used x := by
    rintro x hx ⟨a, n, ha, hlow, hhigh⟩
    have hbeside := h.beside hx ha
    omega
  have hheld : ∀ b i, used b = some i → ¬ Inside used b := by
    rintro b i hb ⟨a, n, ha, hlow, hhigh⟩
    have hi := (h.header b i hb).2
    have hapart := h.apart a n b i ha hb hlow.ne
    omega
  have hsize : ∀ x ∈ base :: l, size x = s.size x := fun x hx => (same x (hlist x hx)).2
  refine ⟨h.ring.congr fun x hx => (same x (hlist x hx)).1, gaps_congr hsize h.gaps,
    (hsize base List.mem_cons_self).trans h.bottom, ?_, h.roving, ?_, h.apart, ?_, ?_, h.above,
    h.low, h.fits⟩
  · intro x hx
    change 0 < size x
    rw [hsize x (List.mem_cons_of_mem base hx)]
    exact h.pos x hx
  · intro b i hb
    change size b = i ∧ 0 < i
    rw [(same b (hheld b i hb)).2]
    exact h.header b i hb
  · intro u hu hcovered
    exact h.off u hu ((covered_congr hsize).1 hcovered)
  · intro u
    change Obtained s u ↔ Covered size (base :: l) u ∨ _
    rw [covered_congr hsize]
    exact h.cover u

theorem Kept.step (hbase : 0 < base) (h : Kept base w) (hstep : Step base w w') : Kept base w' := by
  cases hstep with
  | malloc small answers run =>
    obtain ⟨r', heap', hrun, hpost⟩ := malloc_spec hbase h.low h.fits h.list answers small
    rw [run] at hrun
    cases hrun
    rcases hpost with ⟨hr, l', h'⟩ | ⟨a, l', hr, -, h'⟩
    · rw [if_pos hr]
      exact kept_of_sound h'
    · have hheader : (a + 1) * 16 / 16 - 1 = a := by omega
      rw [if_neg (by omega), hr, hheader]
      exact kept_of_sound h'
  | free held run =>
    rcases h.list with ⟨-, -, hused⟩ | ⟨l, hsound⟩
    · rw [hused] at held
      cases held
    · obtain ⟨_, heap', hrun, -, -, l', h', -⟩ := free_spec hsound held
      rw [run] at hrun
      cases hrun
      exact kept_of_sound h'
  | write same =>
    rcases h.list with hfresh | ⟨l, hsound⟩
    · exact ⟨h.low, h.fits, .inl hfresh⟩
    · exact kept_of_sound (sound_write hsound same)

theorem Start.kept {w₀ : World} (h : Start base w₀) (hreach : Reach base w₀ w) : Kept base w := by
  induction hreach with
  | refl => exact ⟨h.low, h.fits, .inl ⟨h.freep, h.got, h.used⟩⟩
  | tail _ hstep ih => exact ih.step h.base_pos hstep

/-- After any calls the list is as it should be, every call returns, and `malloc` returns 0 or
    a block of its own. -/
theorem blocks_partition {w₀ : World} (hstart : Start base w₀) (hreach : Reach base w₀ w) :
    ((w.heap.freep = 0 ∧ w.heap.got = [] ∧ w.used = fun _ => none) ∨
      ∃ l, Sound base w.heap l w.used ∧ ∃! x, x ∈ base :: l ∧ w.heap.ptr x ≤ x) ∧
    (∀ gap (nbytes : UInt32), units nbytes.toNat * 16 < 2 ^ 31 → Answers w.heap gap →
      ∃ r heap, malloc base gap nbytes w.heap = .done r heap ∧
        (r ≠ 0 → 16 ∣ r ∧ nbytes.toNat ≤ (units nbytes.toNat - 1) * 16 ∧
          ∀ u, r / 16 - 1 ≤ u → u < r / 16 - 1 + units nbytes.toNat →
            Obtained heap u ∧ ¬ Taken w.used u)) ∧
    (∀ a n, w.used a = some n → ∃ heap, free ((a + 1) * 16) w.heap = .done () heap) := by
  have hkept := hstart.kept hreach
  refine ⟨hkept.list.imp_right ?_, ?_, ?_⟩
  · rintro ⟨l, h⟩
    exact ⟨l, h, h.ring.descends_once h.ascending⟩
  · intro gap nbytes hsmall hgap
    obtain ⟨r, heap, hrun, hpost⟩ :=
      malloc_spec hstart.base_pos hkept.low hkept.fits hkept.list hgap hsmall
    refine ⟨r, heap, hrun, fun hr => ?_⟩
    rcases hpost with ⟨hzero, -⟩ | ⟨a, l', rfl, hnone, h'⟩
    · exact absurd hzero hr
    have hheader : (a + 1) * 16 / 16 - 1 = a := by omega
    rw [hheader]
    refine ⟨⟨a + 1, Nat.mul_comm _ _⟩, ?_, fun u hlow hhigh => ⟨?_, ?_⟩⟩
    · unfold units
      omega
    · exact (h'.cover u).2 (.inr ⟨a, _, update_self .., hlow, hhigh⟩)
    · rintro ⟨b, i, hb, hu⟩
      have hne : b ≠ a := by
        rintro rfl
        rw [hnone] at hb
        cases hb
      have hb' : update w.used a (some (units nbytes.toNat)) b = some i := by
        rw [update_of_ne hne]
        exact hb
      have hapart := h'.apart b i a _ hb' (update_self ..) hne
      omega
  · intro a n ha
    rcases hkept.list with ⟨-, -, hused⟩ | ⟨l, hsound⟩
    · rw [hused] at ha
      cases ha
    · obtain ⟨_, heap, hrun, -⟩ := free_spec hsound ha
      exact ⟨heap, hrun⟩

/-- A program with one header of data, and its memory in the first call of `malloc`. -/
def fresh : World := ⟨⟨fun _ => 0, fun _ => 0, 0, 2, []⟩, fun _ => none⟩

def begun : Heap :=
  ⟨update fresh.heap.ptr 1 1, update fresh.heap.size 1 0, 1, 2, []⟩

theorem blocks_partition_freed :
    ∃ w l, Reach 1 fresh w ∧ w.used 4095 = none ∧ w.used 4087 = some 8 ∧
      Sound 1 w.heap l w.used ∧ ∃ heap, free 65408 w.heap = .done () heap := by
  -- two calls of `malloc`, and the first block is freed
  obtain ⟨r1, heap1, hrun1, hrest⟩ := Resumption.Outcome.exists_of_any
    (f := fun r heap => r == 65536 && (malloc 1 none 100 heap).any fun r heap =>
      r == 65408 && (free 65536 heap).any fun _ heap => heap.freep != 0)
    (show (malloc 1 (some 0) 24 fresh.heap).any _ = true by decide +kernel)
  rw [Bool.and_eq_true, beq_iff_eq] at hrest
  obtain ⟨rfl, hrest⟩ := hrest
  obtain ⟨r2, heap2, hrun2, hrest⟩ := Resumption.Outcome.exists_of_any hrest
  rw [Bool.and_eq_true, beq_iff_eq] at hrest
  obtain ⟨rfl, hrest⟩ := hrest
  obtain ⟨u, heap3, hrun3, hfreep⟩ := Resumption.Outcome.exists_of_any hrest
  have hanswers : Answers fresh.heap (some 0) := by
    intro g hg
    cases hg
    decide
  have hrefuses : Answers heap1 none := by
    intro g hg
    cases hg
  have hstart : Start 1 fresh := ⟨by decide, by decide, by decide, rfl, rfl, rfl⟩
  have hreach : Reach 1 fresh ⟨heap3, update (update (update fresh.used 4095 (some 3)) 4087
      (some 8)) 4095 none⟩ :=
    ((Relation.ReflTransGen.single (.malloc (by decide) hanswers hrun1)).tail
      (.malloc (by decide) hrefuses hrun2)).tail (.free (a := 4095) (n := 3) rfl hrun3)
  obtain ⟨hlist, -, hfree⟩ := blocks_partition hstart hreach
  rcases hlist with ⟨hzero, -⟩ | ⟨l, hsound, -⟩
  · exact absurd hzero (bne_iff_ne.1 hfreep)
  · exact ⟨_, l, hreach, rfl, rfl, hsound, hfree 4087 8 rfl⟩

end

end Xv6.UmallocBlocks
