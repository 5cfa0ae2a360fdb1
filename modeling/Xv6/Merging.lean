import Mathlib.Algebra.BigOperators.Fin
import Mathlib.Data.Fintype.BigOperators

set_option autoImplicit false

namespace Xv6.Merging

variable {T α : Type} [DecidableEq T]

def merged (h : List (T × List α)) : List α := (h.map Prod.snd).flatten

def part (t : T) (h : List (T × List α)) : List α :=
  ((h.filter fun x => x.1 = t).map Prod.snd).flatten

omit [DecidableEq T] in
@[simp] theorem merged_nil : merged ([] : List (T × List α)) = [] := rfl

@[simp] theorem part_nil (t : T) : part t ([] : List (T × List α)) = [] := rfl

omit [DecidableEq T] in
theorem merged_append (h : List (T × List α)) (t : T) (l : List α) :
    merged (h ++ [(t, l)]) = merged h ++ l := by
  unfold merged
  rw [List.map_append, List.flatten_append]
  simp

theorem part_append_self (h : List (T × List α)) (t : T) (l : List α) :
    part t (h ++ [(t, l)]) = part t h ++ l := by
  unfold part
  rw [List.filter_append, List.map_append, List.flatten_append]
  simp

theorem part_append_of_ne (h : List (T × List α)) {t u : T} (hu : u ≠ t) (l : List α) :
    part u (h ++ [(t, l)]) = part u h := by
  unfold part
  rw [List.filter_append, List.map_append, List.flatten_append]
  simp [hu.symm]

theorem length_merged [Fintype T] (h : List (T × List α)) :
    (merged h).length = ∑ t, (part t h).length := by
  induction h using List.reverseRecOn with
  | nil => simp
  | append_singleton h x ih =>
    obtain ⟨u, l⟩ := x
    have hstep : ∀ t, (part t (h ++ [(u, l)])).length =
        (part t h).length + if t = u then l.length else 0 := by
      intro t
      by_cases ht : t = u
      · subst ht
        rw [part_append_self, List.length_append, if_pos rfl]
      · rw [part_append_of_ne h ht, if_neg ht, Nat.add_zero]
    rw [merged_append, List.length_append, ih, Finset.sum_congr rfl fun t _ => hstep t,
      Finset.sum_add_distrib, Finset.sum_ite_eq' Finset.univ u, if_pos (Finset.mem_univ u)]

end Xv6.Merging
