import Mathlib.Algebra.BigOperators.Group.Finset.Basic
import Mathlib.Algebra.Order.BigOperators.Group.Finset

set_option autoImplicit false

namespace Xv6.Counting

variable {ι α : Type}

theorem sum_update [DecidableEq ι] {S : Finset ι} {i : ι} (hi : i ∈ S) (f : ι → α → ℕ)
    (s : ι → α) (a : α) :
    ∑ j ∈ S, f j (Function.update s i a j) + f i (s i) = ∑ j ∈ S, f j (s j) + f i a := by
  have split (u : ι → α) : ∑ j ∈ S, f j (u j) = f i (u i) + ∑ j ∈ S.erase i, f j (u j) :=
    (Finset.add_sum_erase S (fun j => f j (u j)) hi).symm
  have others : ∑ j ∈ S.erase i, f j (Function.update s i a j) = ∑ j ∈ S.erase i, f j (s j) := by
    apply Finset.sum_congr rfl
    intro j hj
    rw [Function.update_of_ne (Finset.mem_erase.1 hj).1]
  rw [split (Function.update s i a), split s, others, Function.update_self]
  omega

theorem le_sum {S : Finset ι} {i : ι} (hi : i ∈ S) (f : ι → ℕ) :
    f i ≤ ∑ j ∈ S, f j :=
  Finset.single_le_sum (fun _ _ => Nat.zero_le _) hi

end Xv6.Counting
