import Mathlib.Data.List.Range
import Mathlib.Data.List.Perm.Subperm
import Xv6.CircularList
import Xv6.UmallocCode

set_option autoImplicit false

namespace Xv6.UmallocInvariant
open Xv6.Sequential CircularList UmallocCode
open Function (update update_of_ne update_self)

variable {size : ℕ → ℕ} {a u x p rounds : ℕ}

def Covered (size : ℕ → ℕ) (l : List ℕ) (u : ℕ) : Prop := ∃ a ∈ l, a ≤ u ∧ u < a + size a

abbrev Used := ℕ → Option ℕ

def Taken (used : Used) (u : ℕ) : Prop := ∃ a n, used a = some n ∧ a ≤ u ∧ u < a + n

def Obtained (s : Heap) (u : ℕ) : Prop := ∃ r ∈ s.got, r.1 ≤ u ∧ u < r.1 + r.2

structure Sound (base : ℕ) (s : Heap) (l : List ℕ) (used : Used) : Prop where
  ring : Path s.ptr base l base
  gaps : (base :: l).Pairwise fun a b => a + s.size a < b
  bottom : s.size base = 0
  pos : ∀ a ∈ l, 0 < s.size a
  roving : s.freep ∈ base :: l
  header : ∀ a n, used a = some n → s.size a = n ∧ 0 < n
  apart : ∀ a n b m, used a = some n → used b = some m → a ≠ b → a + n ≤ b ∨ b + m ≤ a
  off : ∀ u, Taken used u → ¬ Covered s.size (base :: l) u
  cover : ∀ u, Obtained s u ↔ Covered s.size (base :: l) u ∨ Taken used u
  above : ∀ u, Obtained s u → base < u ∧ u < s.brk
  low : base < s.brk
  fits : s.brk ≤ 2 ^ 28

theorem covered_cons {l : List ℕ} :
    Covered size (a :: l) u ↔ (a ≤ u ∧ u < a + size a) ∨ Covered size l u :=
  List.exists_mem_cons_iff _ a l

theorem covered_append {l1 l2 : List ℕ} :
    Covered size (l1 ++ l2) u ↔ Covered size l1 u ∨ Covered size l2 u := by
  unfold Covered
  simp only [List.mem_append, or_and_right, exists_or]

theorem covered_congr {size' : ℕ → ℕ} {l : List ℕ} (h : ∀ a ∈ l, size' a = size a) :
    Covered size' l u ↔ Covered size l u := by
  unfold Covered
  refine exists_congr fun a => and_congr_right fun ha => ?_
  rw [h a ha]

theorem gaps_congr {size' : ℕ → ℕ} {l : List ℕ} (h : ∀ a ∈ l, size' a = size a)
    (hgaps : l.Pairwise fun a b => a + size a < b) : l.Pairwise fun a b => a + size' a < b := by
  refine hgaps.imp_of_mem fun {a b} ha _ hab => ?_
  rw [h a ha]
  exact hab

section
variable {base : ℕ} {s : Heap} {l : List ℕ} {used : Used} (h : Sound base s l used)
include h

namespace Sound

theorem ascending : (base :: l).Pairwise (· < ·) :=
  h.gaps.imp fun hab => Nat.lt_of_le_of_lt (Nat.le_add_right _ _) hab

theorem nodup : (base :: l).Nodup := h.ascending.imp fun hab => Nat.ne_of_lt hab

theorem end_le (ha : a ∈ base :: l) : a + s.size a ≤ s.brk := by
  rcases List.mem_cons.1 ha with rfl | hin
  · rw [h.bottom]
    exact h.low.le
  · have hpos : 0 < s.size a := h.pos a hin
    have hcovered : Covered s.size (base :: l) (a + s.size a - 1) :=
      ⟨a, ha, by omega, by omega⟩
    have hbelow := (h.above _ ((h.cover _).2 (.inl hcovered))).2
    omega

theorem held_within {n : ℕ} (ha : used a = some n) : base < a ∧ a + n ≤ s.brk := by
  have hpos : 0 < n := (h.header a n ha).2
  have hfirst := h.above a ((h.cover a).2 (.inr ⟨a, n, ha, le_rfl, by omega⟩))
  have hlast := h.above (a + n - 1) ((h.cover _).2 (.inr ⟨a, n, ha, by omega, by omega⟩))
  exact ⟨hfirst.1, by omega⟩

theorem beside {n : ℕ} (hx : x ∈ base :: l) (ha : used a = some n) :
    x < a ∧ x + s.size x ≤ a ∨ a + n ≤ x := by
  have hpos : 0 < n := (h.header a n ha).2
  rcases List.mem_cons.1 hx with rfl | hin
  · have hbelow := (h.held_within ha).1
    have hbottom := h.bottom
    omega
  · have hposx : 0 < s.size x := h.pos x hin
    rcases Nat.lt_or_ge x a with hlt | hge
    · refine .inl ⟨hlt, Nat.le_of_not_lt fun hover => ?_⟩
      exact h.off a ⟨a, n, ha, le_rfl, by omega⟩ ⟨x, hx, hlt.le, hover⟩
    · refine .inr (Nat.le_of_not_lt fun hover => ?_)
      exact h.off x ⟨a, n, ha, hge, hover⟩ ⟨x, hx, le_rfl, by omega⟩

theorem not_held (hx : x ∈ base :: l) : used x = none := by
  cases hu : used x with
  | none => rfl
  | some n =>
    have hpos := (h.header x n hu).2
    have := h.beside hx hu
    omega

theorem length_le : l.length ≤ s.brk := by
  have hsub : l ⊆ List.range s.brk := by
    intro a ha
    have hend := h.end_le (List.mem_cons_of_mem base ha)
    have hpos := h.pos a ha
    exact List.mem_range.2 (by omega)
  have hle := (List.subperm_of_subset (List.nodup_cons.1 h.nodup).2 hsub).length_le
  rwa [List.length_range] at hle

end Sound

end

def Stops (s : Heap) (bp p : ℕ) : Prop :=
  (p < bp ∧ bp < s.ptr p) ∨ (s.ptr p ≤ p ∧ (p < bp ∨ bp < s.ptr p))

theorem freeSearch_stops {s : Heap} {bp : ℕ} (h : Stops s bp p) :
    freeSearch s bp (rounds + 1) p = some p := by
  by_cases hfirst : p < bp ∧ bp < s.ptr p
  · rw [freeSearch, if_pos hfirst]
  · rw [freeSearch, if_neg hfirst, if_pos (h.resolve_left hfirst)]

theorem freeSearch_step {s : Heap} {bp : ℕ} (h : ¬ Stops s bp p) :
    freeSearch s bp (rounds + 1) p = freeSearch s bp rounds (s.ptr p) := by
  rw [freeSearch, if_neg fun h' => h (.inl h'), if_neg fun h' => h (.inr h')]

theorem freeSearch_path {s : Heap} {bp q : ℕ} {k : List ℕ} (h : Path s.ptr p k q)
    (hk : ∀ x ∈ p :: k, ¬ Stops s bp x) (hq : Stops s bp q) (hrounds : k.length + 2 ≤ rounds) :
    freeSearch s bp rounds p = some q := by
  induction k generalizing p rounds with
  | nil =>
    obtain ⟨rounds, rfl⟩ := Nat.exists_eq_add_of_le' hrounds
    have hnext : s.ptr p = q := h
    rw [List.length_nil, freeSearch_step (hk p List.mem_cons_self), hnext, freeSearch_stops hq]
  | cons x k ih =>
    obtain ⟨rounds, rfl⟩ := Nat.exists_eq_succ_of_ne_zero (by omega : rounds ≠ 0)
    rw [freeSearch_step (hk p List.mem_cons_self), h.1]
    refine ih h.2 (fun y hy => hk y (List.mem_cons_of_mem p hy)) ?_
    rw [List.length_cons] at hrounds
    omega

theorem stops_iff {base : ℕ} {s : Heap} {l : List ℕ} {used : Used} (h : Sound base s l used)
    {bp q : ℕ} (hbp : base < bp) (hq : q ∈ base :: l) (hqbp : q < bp)
    (hplace : ∀ z ∈ base :: l, z ≤ q ∨ bp < z) (hx : x ∈ base :: l) :
    Stops s bp x ↔ x = q := by
  unfold Stops
  rcases h.ring.ascends h.ascending hx with ⟨hnext, hall⟩ | ⟨hlt, hnext, hall⟩
  · rw [hnext]
    have hqx := hall q hq
    have hbx := hall base List.mem_cons_self
    rcases hplace x hx with hle | hgt
    · omega
    · omega
  · have hsucc := hplace _ (List.mem_cons_of_mem base hnext)
    have hqx := hall q hq
    rcases hplace x hx with hle | hgt
    · omega
    · omega

theorem freeSearch_finds {base : ℕ} {s : Heap} {l : List ℕ} {used : Used}
    (h : Sound base s l used) {bp n : ℕ} (hbp : used bp = some n) :
    ∃ k q m, base :: l = k ++ q :: m ∧ q < bp ∧ (∀ y ∈ m, bp < y) ∧
      freeSearch s bp (s.brk + 2) s.freep = some q := by
  have hbase : base < bp := (h.held_within hbp).1
  have hout : bp ∉ l := by
    intro hin
    have hnone := h.not_held (List.mem_cons_of_mem base hin)
    rw [hbp] at hnone
    cases hnone
  obtain ⟨k, q, m, hsplit, hq, hm⟩ := exists_place h.ascending hbase hout
  have hmem : q ∈ base :: l := by
    rw [hsplit]
    exact List.mem_append_right k List.mem_cons_self
  have hplace : ∀ z ∈ base :: l, z ≤ q ∨ bp < z := by
    have hsorted := h.ascending
    rw [hsplit] at hsorted ⊢
    intro z hz
    rcases List.mem_append.1 hz with hz | hz
    · exact .inl ((List.pairwise_append.1 hsorted).2.2 z hz q List.mem_cons_self).le
    · rcases List.mem_cons.1 hz with rfl | hz
      · exact .inl le_rfl
      · exact .inr (hm z hz)
  have hstops {x : ℕ} (hx : x ∈ base :: l) := stops_iff h hbase hmem hq hplace hx
  refine ⟨k, q, m, hsplit, hq, hm, ?_⟩
  by_cases heq : s.freep = q
  · rw [heq]
    exact freeSearch_stops ((hstops hmem).2 rfl)
  · obtain ⟨path, hpath, hnot, hin, hlength⟩ := h.ring.leads h.nodup h.roving hmem heq
    have hle := h.length_le
    refine freeSearch_path hpath (fun x hx hstop => ?_) ((hstops hmem).2 rfl) (by omega)
    rw [(hstops (hin x hx)).1 hstop] at hx
    exact hnot hx

section
variable {base : ℕ} {s s' s'' : Heap} {l k m m' : List ℕ} {used : Used} {bp q n : ℕ}

structure Only (p : ℕ) (s s' : Heap) : Prop where
  ptr : ∀ x, x ≠ p → s'.ptr x = s.ptr x
  size : ∀ x, x ≠ p → s'.size x = s.size x
  brk : s'.brk = s.brk
  got : s'.got = s.got

/-- The block at `bp` has taken in the one above it if they were adjacent, and it leads to the
    blocks that are left above it. -/
structure Upper (base bp n : ℕ) (s s' : Heap) (m m' : List ℕ) : Prop where
  only : Only bp s s'
  path : Path s'.ptr bp m' base
  gaps : (bp :: m').Pairwise fun a b => a + s'.size a < b
  large : n ≤ s'.size bp
  top : bp + s'.size bp ≤ s.brk
  left : ∀ y ∈ m', y ∈ m
  count : m'.length ≤ m.length
  cover : ∀ u, Covered s'.size (bp :: m') u ↔ (bp ≤ u ∧ u < bp + n) ∨ Covered s.size m u

theorem joinUpper_adjacent (h : bp + s.size bp = s.ptr p) :
    joinUpper bp p s = .done () { s with
      size := update s.size bp ((s.size bp + s.size (s.ptr p)) % 2 ^ 32)
      ptr := update s.ptr bp (s.ptr (s.ptr p)) } := by
  rw [joinUpper, bind_of_done (rfl : Code.get s = _), if_pos h]
  rfl

theorem joinUpper_apart (h : bp + s.size bp ≠ s.ptr p) :
    joinUpper bp p s = .done () { s with ptr := update s.ptr bp (s.ptr p) } := by
  rw [joinUpper, bind_of_done (rfl : Code.get s = _), if_neg h]
  rfl

theorem joinUpper_spec (h : Sound base s l used) (hbp : used bp = some n)
    (hsplit : base :: l = k ++ q :: m) (hm : ∀ y ∈ m, bp < y) :
    Returns (joinUpper bp q) (fun _ s' => ∃ m', Upper base bp n s s' m m') s := by
  have hsize : s.size bp = n := (h.header bp n hbp).1
  have hpath : Path s.ptr q m base := h.ring.behind hsplit
  have hgaps : (q :: m).Pairwise fun a b => a + s.size a < b := by
    have hall := h.gaps
    rw [hsplit] at hall
    exact (List.pairwise_append.1 hall).2.1
  have hon : ∀ y ∈ m, y ∈ base :: l := by
    intro y hy
    rw [hsplit]
    exact List.mem_append_right k (List.mem_cons_of_mem q hy)
  have hne : ∀ y ∈ m, y ≠ bp := fun y hy => (hm y hy).ne'
  have hbefore : ∀ y ∈ m, bp + n ≤ y := by
    intro y hy
    have hlt := hm y hy
    have hbeside := h.beside (hon y hy) hbp
    omega
  have hend := (h.held_within hbp).2
  have hbase := (h.held_within hbp).1
  have hfits := h.fits
  by_cases hjoin : bp + s.size bp = s.ptr q
  · refine ⟨(), _, joinUpper_adjacent hjoin, ?_⟩
    cases m with
    | nil =>
      have hlast : s.ptr q = base := hpath
      omega
    | cons y m =>
      obtain ⟨hnext, hrest⟩ := hpath
      obtain ⟨hbelow, hgapsm⟩ := List.pairwise_cons.1 (List.pairwise_cons.1 hgaps).2
      have hy : y = bp + n := by omega
      have htop := h.end_le (hon y List.mem_cons_self)
      have hsum : (s.size bp + s.size (s.ptr q)) % 2 ^ 32 = n + s.size y := by
        rw [hnext, hsize]
        exact Nat.mod_eq_of_lt (by omega)
      have hsame : ∀ x ∈ m, update s.size bp (n + s.size y) x = s.size x :=
        fun x hx => update_of_ne (hne x (List.mem_cons_of_mem y hx)) _ _
      rw [hsum]
      refine ⟨m, ⟨?_, ?_, rfl, rfl⟩, ?_, ?_, ?_, ?_, ?_, Nat.le_succ _, ?_⟩
      · exact fun x hx => update_of_ne hx _ _
      · exact fun x hx => update_of_ne hx _ _
      · refine hrest.enter ?_ fun x hx => ?_
        · rw [← hnext]
          exact update_self ..
        · exact update_of_ne (hne x (List.mem_cons_of_mem y hx)) _ _
      · refine List.pairwise_cons.2 ⟨fun z hz => ?_, gaps_congr hsame hgapsm⟩
        have hz := hbelow z hz
        dsimp only
        rw [update_self]
        omega
      · dsimp only
        rw [update_self]
        omega
      · dsimp only
        rw [update_self]
        omega
      · exact fun z hz => List.mem_cons_of_mem y hz
      · intro u
        have hjoined : bp ≤ u ∧ u < bp + (n + s.size y) ↔
            (bp ≤ u ∧ u < bp + n) ∨ (y ≤ u ∧ u < y + s.size y) := by omega
        change Covered (update s.size bp (n + s.size y)) (bp :: m) u ↔ _
        rw [covered_cons, covered_cons, covered_congr hsame, update_self, hjoined, or_assoc]
  · refine ⟨(), _, joinUpper_apart hjoin, m, ⟨?_, fun x hx => rfl, rfl, rfl⟩, ?_, ?_, ?_, ?_, ?_,
      le_rfl, ?_⟩
    · exact fun x hx => update_of_ne hx _ _
    · refine hpath.enter ?_ fun x hx => ?_
      · exact update_self ..
      · exact update_of_ne (hne x hx) _ _
    · refine List.pairwise_cons.2 ⟨fun z hz => ?_, (List.pairwise_cons.1 hgaps).2⟩
      have hz' := hbefore z hz
      cases m with
      | nil => exact absurd hz List.not_mem_nil
      | cons y m =>
        have hy := hbefore y List.mem_cons_self
        have hnext : s.ptr q = y := hpath.1
        dsimp only
        rcases List.mem_cons.1 hz with rfl | hz
        · omega
        · have hyz := (List.pairwise_cons.1 (List.pairwise_cons.1 hgaps).2).1 z hz
          omega
    · exact hsize.ge
    · change bp + s.size bp ≤ s.brk
      omega
    · exact fun y hy => hy
    · intro u
      rw [covered_cons, hsize]

theorem joinLower_adjacent (h : p + s.size p = bp) :
    joinLower bp p s = .done () { s with
      size := update s.size p ((s.size p + s.size bp) % 2 ^ 32)
      ptr := update s.ptr p (s.ptr bp) } := by
  rw [joinLower, bind_of_done (rfl : Code.get s = _), if_pos h]
  rfl

theorem joinLower_apart (h : p + s.size p ≠ bp) :
    joinLower bp p s = .done () { s with ptr := update s.ptr p bp } := by
  rw [joinLower, bind_of_done (rfl : Code.get s = _), if_neg h]
  rfl

/-- The block at `q` has taken in the one at `bp` if they were adjacent, and it leads to the
    blocks that are left above it. -/
structure Lower (base q bp : ℕ) (s s' : Heap) (m m' : List ℕ) : Prop where
  only : Only q s s'
  path : Path s'.ptr q m' base
  gaps : (q :: m').Pairwise fun a b => a + s'.size a < b
  grown : s.size q ≤ s'.size q
  empty : s.size q = 0 → s'.size q = 0
  large : ∃ a ∈ q :: m', s.size bp ≤ s'.size a
  left : ∀ y ∈ m', y ∈ bp :: m
  count : m'.length ≤ m.length + 1
  cover : ∀ u, Covered s'.size (q :: m') u ↔
    (q ≤ u ∧ u < q + s.size q) ∨ Covered s.size (bp :: m) u

theorem joinLower_spec (hpath : Path s.ptr bp m base)
    (hgaps : (bp :: m).Pairwise fun a b => a + s.size a < b) (hq : q < bp)
    (hqbp : q + s.size q ≤ bp) (htop : bp + s.size bp < 2 ^ 32) :
    Returns (joinLower bp q) (fun _ s' => ∃ m', Lower base q bp s s' m m') s := by
  obtain ⟨hbelow, hgapsm⟩ := List.pairwise_cons.1 hgaps
  have hne : ∀ y ∈ bp :: m, y ≠ q := by
    intro y hy
    rcases List.mem_cons.1 hy with rfl | hy
    · exact hq.ne'
    · have hy := hbelow y hy
      omega
  by_cases hjoin : q + s.size q = bp
  · refine ⟨(), _, joinLower_adjacent hjoin, m, ?_⟩
    have hsum : (s.size q + s.size bp) % 2 ^ 32 = s.size q + s.size bp :=
      Nat.mod_eq_of_lt (by omega)
    have hsame : ∀ x ∈ m, update s.size q (s.size q + s.size bp) x = s.size x :=
      fun x hx => update_of_ne (hne x (List.mem_cons_of_mem bp hx)) _ _
    have hnew : update s.size q (s.size q + s.size bp) q = s.size q + s.size bp :=
      update_self ..
    rw [hsum]
    refine ⟨⟨?_, ?_, rfl, rfl⟩, ?_, ?_, ?_, ?_, ?_, ?_, Nat.le_succ _, ?_⟩
    · exact fun x hx => update_of_ne hx _ _
    · exact fun x hx => update_of_ne hx _ _
    · refine hpath.enter (update_self ..) fun x hx => ?_
      exact update_of_ne (hne x (List.mem_cons_of_mem bp hx)) _ _
    · refine List.pairwise_cons.2 ⟨fun z hz => ?_, gaps_congr hsame hgapsm⟩
      have hz := hbelow z hz
      dsimp only
      omega
    · exact (Nat.le_add_right _ _).trans hnew.ge
    · intro hempty
      omega
    · exact ⟨q, List.mem_cons_self, (Nat.le_add_left _ _).trans hnew.ge⟩
    · exact fun y hy => List.mem_cons_of_mem bp hy
    · intro u
      have hjoined : q ≤ u ∧ u < q + (s.size q + s.size bp) ↔
          (q ≤ u ∧ u < q + s.size q) ∨ (bp ≤ u ∧ u < bp + s.size bp) := by omega
      change Covered (update s.size q (s.size q + s.size bp)) (q :: m) u ↔ _
      rw [covered_cons, covered_cons, covered_congr hsame, hnew, hjoined, or_assoc]
  · refine ⟨(), _, joinLower_apart hjoin, bp :: m, ⟨?_, fun x hx => rfl, rfl, rfl⟩, ?_, ?_, le_rfl,
      fun hempty => hempty, ?_, fun y hy => hy, le_rfl, fun u => covered_cons⟩
    · exact fun x hx => update_of_ne hx _ _
    · refine ⟨update_self .., hpath.congr fun x hx => ?_⟩
      exact update_of_ne (hne x hx) _ _
    · refine List.pairwise_cons.2 ⟨fun z hz => ?_, hgaps⟩
      dsimp only
      rcases List.mem_cons.1 hz with rfl | hz
      · omega
      · have hz := hbelow z hz
        omega
    · exact ⟨bp, List.mem_cons_of_mem q List.mem_cons_self, le_rfl⟩

theorem taken_release (hbp : used bp = some n) :
    Taken used u ↔ Taken (update used bp none) u ∨ (bp ≤ u ∧ u < bp + n) := by
  constructor
  · rintro ⟨a, m, ha, hu⟩
    by_cases heq : a = bp
    · subst heq
      rw [hbp] at ha
      cases ha
      exact .inr hu
    · refine .inl ⟨a, m, ?_, hu⟩
      rw [update_of_ne heq]
      exact ha
  · rintro (⟨a, m, ha, hu⟩ | hu)
    · refine ⟨a, m, ?_, hu⟩
      grind
    · exact ⟨bp, n, hbp, hu⟩

theorem held_of_release {i : ℕ} (ha : update used bp none a = some i) :
    a ≠ bp ∧ used a = some i := by
  grind

theorem Sound.released (h : Sound base s l used) (hbp : used bp = some n) {l' : List ℕ}
    (hring : Path s'.ptr base l' base)
    (hgaps : (base :: l').Pairwise fun a b => a + s'.size a < b) (hbottom : s'.size base = 0)
    (hpos : ∀ a ∈ l', 0 < s'.size a) (hroving : s'.freep ∈ base :: l')
    (hheader : ∀ a i, used a = some i → a ≠ bp → s'.size a = s.size a)
    (hcover : ∀ u, Covered s'.size (base :: l') u ↔
      Covered s.size (base :: l) u ∨ (bp ≤ u ∧ u < bp + n))
    (hbrk : s'.brk = s.brk) (hgot : s'.got = s.got) :
    Sound base s' l' (update used bp none) := by
  have hobtained : ∀ u, Obtained s' u ↔ Obtained s u := by
    intro u
    unfold Obtained
    rw [hgot]
  refine ⟨hring, hgaps, hbottom, hpos, hroving, ?_, ?_, ?_, ?_, ?_, ?_, ?_⟩
  · intro a i ha
    obtain ⟨hne, hheld⟩ := held_of_release ha
    rw [hheader a i hheld hne]
    exact h.header a i hheld
  · intro a i b j ha hb hab
    exact h.apart a i b j (held_of_release ha).2 (held_of_release hb).2 hab
  · rintro u ⟨a, i, ha, hu⟩ hcovered
    obtain ⟨hne, hheld⟩ := held_of_release ha
    rcases (hcover u).1 hcovered with hold | hnew
    · exact h.off u ⟨a, i, hheld, hu⟩ hold
    · have hapart := h.apart a i bp n hheld hbp hne
      omega
  · intro u
    rw [hobtained, h.cover, hcover, taken_release hbp, or_assoc, or_comm (a := Taken _ _)]
  · intro u hu
    rw [hbrk]
    exact h.above u ((hobtained u).1 hu)
  · rw [hbrk]
    exact h.low
  · rw [hbrk]
    exact h.fits

theorem Sound.joined (h : Sound base s l used) (hbp : used bp = some n)
    (hsplit : base :: l = k ++ q :: m) (hq : q < bp) (hm : ∀ y ∈ m, bp < y)
    (hupper : Upper base bp n s s' m m') {m'' : List ℕ} (hlower : Lower base q bp s' s'' m' m'') :
    ∃ l', Sound base { s'' with freep := q } l' (update used bp none) ∧
      l'.length ≤ l.length + 1 ∧ ∃ a ∈ base :: l', n ≤ s''.size a := by
  have hgaps := h.gaps
  have hn : 0 < n := (h.header bp n hbp).2
  have hon : ∀ x ∈ k ++ q :: m, x ∈ base :: l := fun x hx => by rwa [hsplit]
  have hmemq : q ∈ base :: l := hon q (List.mem_append_right k List.mem_cons_self)
  rw [hsplit] at hgaps
  obtain ⟨hgapsk, -, hcross⟩ := List.pairwise_append.1 hgaps
  have hkq : ∀ x ∈ k, x < q := by
    intro x hx
    have hlt := hcross x hx q List.mem_cons_self
    omega
  have hsamek : ∀ x ∈ k, x ≠ q ∧ x ≠ bp := by
    intro x hx
    have hlt := hkq x hx
    omega
  have hptr : ∀ x, x ≠ q ∧ x ≠ bp → s''.ptr x = s.ptr x := fun x hx =>
    (hlower.only.ptr x hx.1).trans (hupper.only.ptr x hx.2)
  have hsize : ∀ x, x ≠ q ∧ x ≠ bp → s''.size x = s.size x := fun x hx =>
    (hlower.only.size x hx.1).trans (hupper.only.size x hx.2)
  have hsizeq : s'.size q = s.size q := hupper.only.size q hq.ne
  obtain ⟨l', hsplit', hring⟩ :=
    h.ring.splice hsplit (fun x hx => hptr x (hsamek x hx)) hlower.path
  have hgaps' : (base :: l').Pairwise fun a b => a + s''.size a < b := by
    rw [hsplit']
    refine List.pairwise_append.2 ⟨gaps_congr (fun x hx => hsize x (hsamek x hx)) hgapsk,
      hlower.gaps, fun x hx y hy => ?_⟩
    rw [hsize x (hsamek x hx)]
    have hxq := hcross x hx q List.mem_cons_self
    rcases List.mem_cons.1 hy with rfl | hy
    · exact hxq
    · have hqy := (List.pairwise_cons.1 hlower.gaps).1 y hy
      omega
  have hbottom : s''.size base = 0 := by
    by_cases hbase : base = q
    · rw [hbase]
      apply hlower.empty
      rw [hsizeq, ← hbase]
      exact h.bottom
    · have hlow := (h.held_within hbp).1
      rw [hsize base ⟨hbase, hlow.ne⟩]
      exact h.bottom
  refine ⟨l', h.released hbp hring hgaps' hbottom ?_ ?_ ?_ ?_ ?_ ?_, ?_, ?_⟩
  · intro a ha
    have hbase : base ≠ a := by
      have hlt := (List.pairwise_cons.1 hgaps').1 a ha
      omega
    have hold : ∀ x ∈ base :: l, base ≠ x → 0 < s.size x := by
      intro x hx hne
      exact h.pos x ((List.mem_cons.1 hx).resolve_left fun heq => hne heq.symm)
    have hin : a ∈ k ++ q :: m'' := by
      rw [← hsplit']
      exact List.mem_cons_of_mem base ha
    change 0 < s''.size a
    rcases List.mem_append.1 hin with hin | hin
    · rw [hsize a (hsamek a hin)]
      exact hold a (hon a (List.mem_append_left _ hin)) hbase
    rcases List.mem_cons.1 hin with rfl | hin
    · have hqpos := hold a hmemq hbase
      have hgrown := hlower.grown
      omega
    have hqa := (List.pairwise_cons.1 hlower.gaps).1 a hin
    rw [hlower.only.size a (by omega)]
    rcases List.mem_cons.1 (hlower.left a hin) with rfl | hin
    · have hlarge := hupper.large
      omega
    · have hbpa := hm a (hupper.left a hin)
      rw [hupper.only.size a hbpa.ne']
      refine hold a (hon a (List.mem_append_right k ?_)) hbase
      exact List.mem_cons_of_mem q (hupper.left a hin)
  · change q ∈ base :: l'
    rw [hsplit']
    exact List.mem_append_right k List.mem_cons_self
  · intro a i ha hne
    refine hsize a ⟨fun heq => ?_, hne⟩
    rw [heq, h.not_held hmemq] at ha
    cases ha
  · intro u
    change Covered s''.size (base :: l') u ↔ _
    rw [hsplit', hsplit, covered_append, covered_append, hlower.cover, hupper.cover,
      covered_cons, hsizeq, covered_congr fun x hx => hsize x (hsamek x hx)]
    tauto
  · exact hlower.only.brk.trans hupper.only.brk
  · exact hlower.only.got.trans hupper.only.got
  · have hold := congrArg List.length hsplit
    have hnew := congrArg List.length hsplit'
    have hcount := hupper.count
    have hcount' := hlower.count
    simp only [List.length_cons, List.length_append] at hold hnew
    omega
  · obtain ⟨a, ha, hlarge⟩ := hlower.large
    refine ⟨a, ?_, hupper.large.trans hlarge⟩
    rw [hsplit']
    exact List.mem_append_right k ha

theorem free_spec (h : Sound base s l used) (hbp : used bp = some n) :
    Returns (free ((bp + 1) * 16)) (fun _ s' => s'.brk = s.brk ∧ s'.got = s.got ∧
      ∃ l', Sound base s' l' (update used bp none) ∧ l'.length ≤ l.length + 1 ∧
        ∃ a ∈ base :: l', n ≤ s'.size a) s := by
  obtain ⟨k, q, m, hsplit, hq, hm, hsearch⟩ := freeSearch_finds h hbp
  have hheader : (bp + 1) * 16 / 16 - 1 = bp := by omega
  have hmemq : q ∈ base :: l := by
    rw [hsplit]
    exact List.mem_append_right k List.mem_cons_self
  obtain ⟨_, s', hrun, m', hupper⟩ := joinUpper_spec h hbp hsplit hm
  have hqbp : q + s'.size q ≤ bp := by
    rw [hupper.only.size q hq.ne]
    have hbeside := h.beside hmemq hbp
    omega
  have htop : bp + s'.size bp < 2 ^ 32 := by
    have htop := hupper.top
    have hfits := h.fits
    omega
  obtain ⟨_, s'', hrun', m'', hlower⟩ := joinLower_spec hupper.path hupper.gaps hq hqbp htop
  refine ⟨(), { s'' with freep := q }, ?_, hlower.only.brk.trans hupper.only.brk,
    hlower.only.got.trans hupper.only.got, h.joined hbp hsplit hq hm hupper hlower⟩
  rw [free, hheader, bind_of_done (rfl : Code.get s = _), hsearch]
  change (do joinUpper bp q; joinLower bp q; setFreep q) s = _
  rw [bind_of_done hrun, bind_of_done hrun']
  rfl

end

end Xv6.UmallocInvariant
