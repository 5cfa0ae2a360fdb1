import Mathlib.Logic.Relation
import Xv6.Resumption

set_option autoImplicit false

namespace Xv6.CrashLogic
open Resumption

variable {T : Type} {A : Type → Type} {G α β : Type}
variable {p : Prog A α} {Q : α → G → Prop} {g : G}

/-- `C` holds at every point of the program, and `Q` at its return if it returns. -/
def CrashSafe (M : Machine T A G) (t : T) (C : G → Prop) :
    Prog A α → (α → G → Prop) → G → Prop
  | .ret a, Q, g => C g ∧ Q a g
  | .act a k, Q, g => C g ∧ ∀ b g', M.exec t a g = .done b g' → CrashSafe M t C (k b) Q g'

variable {M : Machine T A G} {t : T} {C : G → Prop}

theorem CrashSafe.here (h : CrashSafe M t C p Q g) : C g := by
  cases p with
  | ret a => exact h.1
  | act a k => exact h.1

theorem CrashSafe.bind {k : α → Prog A β} {Q : β → G → Prop}
    (h : CrashSafe M t C p (fun a => CrashSafe M t C (k a) Q) g) :
    CrashSafe M t C (p >>= k) Q g := by
  induction p generalizing g with
  | ret a => exact h.2
  | act a r ih => exact ⟨h.1, fun b g' hb => ih b (h.2 b g' hb)⟩

theorem CrashSafe.act {a : A β} {k : β → Prog A α} (here : C g)
    (h : ∀ b g', M.exec t a g = .done b g' → CrashSafe M t C (k b) Q g') :
    CrashSafe M t C (Prog.perform a >>= k) Q g := ⟨here, h⟩

theorem CrashSafe.mono {R : α → G → Prop} (h : CrashSafe M t C p Q g)
    (weaker : ∀ a g', C g' → Q a g' → R a g') :
    CrashSafe M t C p R g := by
  induction p generalizing g with
  | ret a => exact ⟨h.1, weaker a g h.1 h.2⟩
  | act a r ih => exact ⟨h.1, fun b g' hb => ih b (h.2 b g' hb)⟩

theorem CrashSafe.weaken {D : G → Prop} (h : CrashSafe M t C p Q g) (weaker : ∀ g', C g' → D g') :
    CrashSafe M t D p Q g := by
  induction p generalizing g with
  | ret a => exact ⟨weaker g h.1, h.2⟩
  | act a r ih => exact ⟨weaker g h.1, fun b g' hb => ih b (h.2 b g' hb)⟩

theorem CrashSafe.steps {q : Prog A α} {g' : G} (h : CrashSafe M t C p Q g)
    (steps : Steps M t p g q g') : CrashSafe M t C q Q g' := by
  induction steps with
  | refl p g => exact h
  | next done _ ih => exact ih (h.2 _ _ done)

theorem CrashSafe.returned {g' : G} {a : α} (h : CrashSafe M t C p Q g)
    (hr : run M t p g = .done a g') : Q a g' :=
  (h.steps (steps_of_run hr)).2

section Restart

variable {D : Type} (M t) (boot : D → G) (durable : G → D) (recovery : Prog A α)

/-- A recovery started from `d` was stopped at some point and left `d'`. -/
def Crashed (d d' : D) : Prop :=
  ∃ q g', Steps M t recovery (boot d) q g' ∧ d' = durable g'

/-- A recovery started from `d` finished and left `d'`. -/
def Recovered (d d' : D) : Prop :=
  ∃ a g', run M t recovery (boot d) = .done a g' ∧ d' = durable g'

variable {M t boot durable recovery}

theorem crash_invariant {K R : D → Prop}
    (keeps : ∀ d, K d → CrashSafe M t (fun g => K (durable g)) recovery
      (fun _ g => R (durable g)) (boot d))
    {d d' : D} (hd : K d)
    (crashes : Relation.ReflTransGen (Crashed M t boot durable recovery) d d') : K d' := by
  induction crashes with
  | refl => exact hd
  | tail _ last ih =>
    obtain ⟨q, g', steps, rfl⟩ := last
    exact ((keeps _ ih).steps steps).here

theorem recovered_of_crash_invariant {K R : D → Prop}
    (keeps : ∀ d, K d → CrashSafe M t (fun g => K (durable g)) recovery
      (fun _ g => R (durable g)) (boot d))
    {d d' d'' : D} (hd : K d)
    (crashes : Relation.ReflTransGen (Crashed M t boot durable recovery) d d')
    (finish : Recovered M t boot durable recovery d' d'') : R d'' := by
  obtain ⟨a, g', hr, rfl⟩ := finish
  exact (keeps _ (crash_invariant keeps hd crashes)).returned hr

end Restart

end Xv6.CrashLogic
