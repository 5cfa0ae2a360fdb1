import Mathlib.Data.List.Basic
import Mathlib.Order.Lattice

set_option autoImplicit false

namespace Xv6.CircularList

variable {α : Type}

/-- From `a` the addresses lead through the cells of the list to `b`. -/
def Path (next : α → α) : α → List α → α → Prop
  | a, [], b => next a = b
  | a, x :: l, b => next a = x ∧ Path next x l b

variable {next next' : α → α} {a b x : α} {l l₁ l₂ : List α}

theorem path_append : Path next a (l₁ ++ x :: l₂) b ↔ Path next a l₁ x ∧ Path next x l₂ b := by
  induction l₁ generalizing a with
  | nil => exact Iff.rfl
  | cons y l₁ ih =>
    change next a = y ∧ Path next y (l₁ ++ x :: l₂) b ↔ (next a = y ∧ Path next y l₁ x) ∧ _
    rw [ih, and_assoc]

theorem Path.congr (h : Path next a l b) (same : ∀ y ∈ a :: l, next' y = next y) :
    Path next' a l b := by
  induction l generalizing a with
  | nil => exact (same a List.mem_cons_self).trans h
  | cons y l ih =>
    refine ⟨(same a List.mem_cons_self).trans h.1, ?_⟩
    exact ih h.2 fun z hz => same z (List.mem_cons_of_mem a hz)

theorem Path.behind (h : Path next a l b) (hsplit : a :: l = l₁ ++ x :: l₂) : Path next x l₂ b := by
  cases l₁ with
  | nil =>
    obtain ⟨rfl, rfl⟩ := List.cons_eq_cons.1 hsplit
    exact h
  | cons y l₁ =>
    obtain ⟨rfl, rfl⟩ := List.cons_eq_cons.1 hsplit
    exact (path_append.1 h).2

theorem Path.next_mem (h : Path next a l b) (hx : x ∈ a :: l) : next x = b ∨ next x ∈ l := by
  induction l generalizing a with
  | nil =>
    rw [List.mem_singleton.1 hx]
    exact .inl h
  | cons y l ih =>
    rcases List.mem_cons.1 hx with rfl | hx
    · rw [h.1]
      exact .inr List.mem_cons_self
    · exact (ih h.2 hx).imp_right (List.mem_cons_of_mem y)

theorem Path.rotate (h : Path next a l a) (hx : x ∈ a :: l) :
    ∃ k, Path next x k x ∧ (x :: k).Perm (a :: l) := by
  rcases List.mem_cons.1 hx with rfl | hx
  · exact ⟨l, h, .refl _⟩
  · obtain ⟨l₁, l₂, rfl⟩ := List.append_of_mem hx
    obtain ⟨hfirst, hsecond⟩ := path_append.1 h
    refine ⟨l₂ ++ a :: l₁, path_append.2 ⟨hsecond, hfirst⟩, ?_⟩
    exact (List.perm_append_comm : (x :: l₂ ++ a :: l₁).Perm (a :: l₁ ++ x :: l₂))

theorem Path.leads (h : Path next a l a) (hnodup : (a :: l).Nodup) {y : α} (hx : x ∈ a :: l)
    (hy : y ∈ a :: l) (hne : x ≠ y) :
    ∃ k, Path next x k y ∧ y ∉ x :: k ∧ (∀ z ∈ x :: k, z ∈ a :: l) ∧ k.length < l.length := by
  obtain ⟨k, hpath, hperm⟩ := h.rotate hx
  have hmem : y ∈ k := by
    rcases List.mem_cons.1 (hperm.mem_iff.2 hy) with heq | hmem
    · exact absurd heq.symm hne
    · exact hmem
  obtain ⟨k1, k2, rfl⟩ := List.append_of_mem hmem
  have hk : (x :: k1 ++ y :: k2).Nodup := hperm.nodup_iff.2 hnodup
  refine ⟨k1, (path_append.1 hpath).1, ?_, ?_, ?_⟩
  · exact fun hin => (List.nodup_append.1 hk).2.2 y hin y List.mem_cons_self rfl
  · exact fun z hz => hperm.mem_iff.1 (List.mem_append_left (y :: k2) hz)
  · have hlength := hperm.length_eq
    simp only [List.length_cons, List.length_append] at hlength
    omega

theorem Path.enter (h : Path next x l b) (ha : next' a = next x)
    (same : ∀ y ∈ l, next' y = next y) : Path next' a l b := by
  cases l with
  | nil => exact ha.trans h
  | cons y l => exact ⟨ha.trans h.1, h.2.congr same⟩

theorem Path.splice (h : Path next a l b) (hsplit : a :: l = l₁ ++ x :: l₂) {m : List α}
    (same : ∀ y ∈ l₁, next' y = next y) (hm : Path next' x m b) :
    ∃ l', a :: l' = l₁ ++ x :: m ∧ Path next' a l' b := by
  cases l₁ with
  | nil =>
    obtain ⟨rfl, rfl⟩ := List.cons_eq_cons.1 hsplit
    exact ⟨m, rfl, hm⟩
  | cons y l₁ =>
    obtain ⟨rfl, rfl⟩ := List.cons_eq_cons.1 hsplit
    exact ⟨l₁ ++ x :: m, rfl, path_append.2 ⟨(path_append.1 h).1.congr same, hm⟩⟩

section
variable [LinearOrder α]

theorem exists_place (h : (a :: l).Pairwise (· < ·)) (hab : a < b) (hb : b ∉ l) :
    ∃ k q m, a :: l = k ++ q :: m ∧ q < b ∧ ∀ y ∈ m, b < y := by
  induction l generalizing a with
  | nil => exact ⟨[], a, [], rfl, hab, fun y hy => absurd hy List.not_mem_nil⟩
  | cons c l ih =>
    have htail : (c :: l).Pairwise (· < ·) := (List.pairwise_cons.1 h).2
    have hne : b ≠ c := fun heq => hb (heq ▸ List.mem_cons_self)
    rcases lt_or_gt_of_ne hne with hbc | hcb
    · refine ⟨[], a, c :: l, rfl, hab, fun y hy => ?_⟩
      rcases List.mem_cons.1 hy with rfl | hy
      · exact hbc
      · exact hbc.trans ((List.pairwise_cons.1 htail).1 y hy)
    · obtain ⟨k, q, m, hsplit, hq, hm⟩ := ih htail hcb fun hin => hb (List.mem_cons_of_mem c hin)
      exact ⟨a :: k, q, m, by rw [hsplit, List.cons_append], hq, hm⟩

theorem Path.ascends (h : Path next a l a) (hsorted : (a :: l).Pairwise (· < ·))
    (hx : x ∈ a :: l) :
    (next x = a ∧ ∀ z ∈ a :: l, z ≤ x) ∨
      (x < next x ∧ next x ∈ l ∧ ∀ z ∈ a :: l, z ≤ x ∨ next x ≤ z) := by
  obtain ⟨k, m, hsplit⟩ := List.append_of_mem hx
  have hpath : Path next x m a := h.behind hsplit
  have hfirst : ∀ z ∈ l, a < z := (List.pairwise_cons.1 hsorted).1
  rw [hsplit] at hsorted
  obtain ⟨-, hright, hcross⟩ := List.pairwise_append.1 hsorted
  have hleft : ∀ z ∈ k, z ≤ x := fun z hz => (hcross z hz x List.mem_cons_self).le
  cases m with
  | nil =>
    refine .inl ⟨hpath, fun z hz => ?_⟩
    rw [hsplit] at hz
    rcases List.mem_append.1 hz with hz | hz
    · exact hleft z hz
    · exact (List.mem_singleton.1 hz).le
  | cons y m =>
    obtain ⟨hbelow, habove⟩ := List.pairwise_cons.1 hright
    have hxy : x < y := hbelow y List.mem_cons_self
    rw [hpath.1]
    refine .inr ⟨hxy, ?_, fun z hz => ?_⟩
    · rcases h.next_mem hx with heq | hin
      · -- the first cell is not above `x`
        rw [← hpath.1, heq] at hxy
        rcases List.mem_cons.1 hx with rfl | hx
        · exact absurd hxy (lt_irrefl x)
        · exact absurd hxy (lt_asymm (hfirst x hx))
      · rwa [hpath.1] at hin
    · rw [hsplit] at hz
      rcases List.mem_append.1 hz with hz | hz
      · exact .inl (hleft z hz)
      · rcases List.mem_cons.1 hz with rfl | hz
        · exact .inl le_rfl
        · rcases List.mem_cons.1 hz with rfl | hz
          · exact .inr le_rfl
          · exact .inr ((List.pairwise_cons.1 habove).1 z hz).le

theorem Path.descends_once (h : Path next a l a) (hsorted : (a :: l).Pairwise (· < ·)) :
    ∃! x, x ∈ a :: l ∧ next x ≤ x := by
  have hlast : ∀ x ∈ a :: l, next x ≤ x → ∀ z ∈ a :: l, z ≤ x := by
    intro x hx hdown
    rcases h.ascends hsorted hx with ⟨-, hall⟩ | ⟨hup, -, -⟩
    · exact hall
    · exact absurd hdown (not_le_of_gt hup)
  obtain ⟨k, x, hsplit⟩ : ∃ k x, a :: l = k ++ [x] :=
    ⟨_, _, (List.dropLast_append_getLast (List.cons_ne_nil a l)).symm⟩
  have hx : x ∈ a :: l := by
    rw [hsplit]
    exact List.mem_append_right k List.mem_cons_self
  have hback : next x = a := h.behind hsplit
  have hdown : next x ≤ x := by
    rw [hback]
    rcases List.mem_cons.1 hx with rfl | hin
    · exact le_rfl
    · exact ((List.pairwise_cons.1 hsorted).1 x hin).le
  refine ⟨x, ⟨hx, hdown⟩, ?_⟩
  rintro y ⟨hy, hdowny⟩
  exact le_antisymm (hlast x hx hdown y hy) (hlast y hy hdowny x hx)

end

end Xv6.CircularList
