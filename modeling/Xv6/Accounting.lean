import Mathlib.Data.List.Basic

set_option autoImplicit false

namespace Xv6.Accounting

variable {E : Type} {Right : List E → E → Prop}

def Accounted (Right : List E → E → Prop) (l : List E) : Prop :=
  ∀ before e after, l = before ++ e :: after → Right before e

theorem Accounted.nil : Accounted Right [] := by
  intro before e after h
  cases before <;> cases h

theorem Accounted.snoc {l : List E} {e : E} (h : Accounted Right l) (he : Right l e) :
    Accounted Right (l ++ [e]) := by
  intro before e' after heq
  rcases List.eq_nil_or_concat after with hnil | ⟨rest, last, hlast⟩
  · subst hnil
    obtain ⟨hl, hx⟩ := List.append_inj' heq rfl
    cases hx
    rw [← hl]
    exact he
  · subst hlast
    rw [List.concat_eq_append, ← List.cons_append, ← List.append_assoc] at heq
    exact h before e' rest (List.append_inj' heq rfl).1

end Xv6.Accounting
