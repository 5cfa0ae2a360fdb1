import Mathlib.Data.List.Basic

set_option autoImplicit false

namespace Xv6.LinkedList

def Chain (next : ℕ → ℕ) : ℕ → List ℕ → Prop
  | head, [] => head = 0
  | head, a :: l => head = a ∧ a ≠ 0 ∧ Chain next (next a) l

variable {next next' : ℕ → ℕ} {head : ℕ} {l : List ℕ}

theorem Chain.congr (h : Chain next head l) (same : ∀ a ∈ l, next' a = next a) :
    Chain next' head l := by
  induction l generalizing head with
  | nil => exact h
  | cons a l ih =>
    obtain ⟨hhead, hne, htail⟩ := h
    refine ⟨hhead, hne, ?_⟩
    rw [same a List.mem_cons_self]
    exact ih htail fun b hb => same b (List.mem_cons_of_mem a hb)

end Xv6.LinkedList
