import Mathlib.Logic.Function.Basic

set_option autoImplicit false

/-! Imperative code over a shared state is a finite tree of atomic actions. The same tree is run to
its end (`run`), stopped at any of its points (`Steps`) or interleaved with other trees. -/
namespace Xv6.Resumption

/-- What one atomic action does in one state. A blocked action waits until the
    state lets it go on; `undefined` is behaviour the language leaves open. -/
inductive Outcome (β G : Type) where
  | blocked
  | panic (msg : String)
  | undefined
  | done (b : β) (g : G)

def Outcome.any {β G : Type} (f : β → G → Bool) : Outcome β G → Bool
  | .done b g => f b g
  | _ => false

theorem Outcome.exists_of_any {β G : Type} {f : β → G → Bool} {o : Outcome β G}
    (h : o.any f = true) : ∃ b g, o = .done b g ∧ f b g = true := by
  cases o with
  | done b g => exact ⟨b, g, rfl, h⟩
  | blocked | panic msg | undefined => cases h

inductive Prog (A : Type → Type) (α : Type) : Type 1 where
  | ret (a : α) : Prog A α
  | act {β : Type} (a : A β) (k : β → Prog A α) : Prog A α

namespace Prog

variable {A : Type → Type} {α β γ : Type}

def bind : Prog A α → (α → Prog A β) → Prog A β
  | .ret a, k => k a
  | .act a r, k => .act a fun b => (r b).bind k

instance : Monad (Prog A) where
  pure := .ret
  bind := bind

def perform (a : A β) : Prog A β := .act a .ret

@[simp] theorem ret_bind (a : α) (k : α → Prog A β) : (Prog.ret a >>= k) = k a := rfl

@[simp] theorem act_bind (a : A γ) (r : γ → Prog A α) (k : α → Prog A β) :
    (Prog.act a r >>= k) = .act a fun b => r b >>= k := rfl

@[simp] theorem perform_bind (a : A γ) (k : γ → Prog A β) : (perform a >>= k) = .act a k := rfl

end Prog

structure Machine (T : Type) (A : Type → Type) (G : Type) where
  exec : T → ∀ {β : Type}, A β → G → Outcome β G

variable {T : Type} {A : Type → Type} {G α β : Type} (M : Machine T A G) (t : T)

def run : Prog A α → G → Outcome α G
  | .ret a, g => .done a g
  | .act a k, g =>
    match M.exec t a g with
    | .blocked => .blocked
    | .panic msg => .panic msg
    | .undefined => .undefined
    | .done b g' => run (k b) g'

/-- The points one thread passes on its own: the rest of its program and the state. -/
inductive Steps : Prog A α → G → Prog A α → G → Prop where
  | refl (p : Prog A α) (g : G) : Steps p g p g
  | next {β : Type} {a : A β} {k : β → Prog A α} {g g' h : G} {b : β} {q : Prog A α}
      (done : M.exec t a g = .done b g') (tail : Steps (k b) g' q h) : Steps (.act a k) g q h

/-- The program returns, and its answer and last state satisfy `Q`. -/
def Total : Prog A α → (α → G → Prop) → G → Prop
  | .ret a, Q, g => Q a g
  | .act a k, Q, g => ∃ b g', M.exec t a g = .done b g' ∧ Total (k b) Q g'

variable {M t}

@[simp] theorem total_ret (a : α) (Q : α → G → Prop) (g : G) :
    Total M t (.ret a) Q g ↔ Q a g := Iff.rfl

theorem total_act {a : A β} {k : β → Prog A α} {Q : α → G → Prop} {g h : G} {b : β}
    (step : M.exec t a g = .done b h) (tail : Total M t (k b) Q h) :
    Total M t (Prog.perform a >>= k) Q g := ⟨b, h, step, tail⟩

theorem total_bind {p : Prog A α} {k : α → Prog A β} {Q : β → G → Prop} {g : G}
    (h : Total M t p (fun a => Total M t (k a) Q) g) : Total M t (p >>= k) Q g := by
  induction p generalizing g with
  | ret a => exact h
  | act a r ih =>
    obtain ⟨b, g', hb, tail⟩ := h
    exact ⟨b, g', hb, ih b tail⟩

theorem total_mono {p : Prog A α} {Q R : α → G → Prop} {g : G}
    (h : Total M t p Q g) (weaker : ∀ a g', Q a g' → R a g') : Total M t p R g := by
  induction p generalizing g with
  | ret a => exact weaker a g h
  | act a r ih =>
    obtain ⟨b, g', hb, tail⟩ := h
    exact ⟨b, g', hb, ih b tail⟩

theorem total_iff_run {p : Prog A α} {Q : α → G → Prop} {g : G} :
    Total M t p Q g ↔ ∃ a g', run M t p g = .done a g' ∧ Q a g' := by
  induction p generalizing g with
  | ret a =>
    constructor
    · intro h
      exact ⟨a, g, rfl, h⟩
    · rintro ⟨b, g', he, hq⟩
      cases he
      exact hq
  | act a k ih =>
    constructor
    · rintro ⟨b, g', hb, tail⟩
      obtain ⟨c, g'', hr, hq⟩ := (ih b).1 tail
      exact ⟨c, g'', by simp only [run, hb, hr], hq⟩
    · rintro ⟨c, g'', hr, hq⟩
      cases hb : M.exec t a g with
      | blocked => simp [run, hb] at hr
      | panic msg => simp [run, hb] at hr
      | undefined => simp [run, hb] at hr
      | done b g' =>
        simp only [run, hb] at hr
        exact ⟨b, g', hb, (ih b).2 ⟨c, g'', hr, hq⟩⟩

theorem Steps.bind {p q : Prog A α} {g g' : G} (h : Steps M t p g q g') (k : α → Prog A β) :
    Steps M t (p >>= k) g (q >>= k) g' := by
  induction h with
  | refl p g => exact .refl _ _
  | next done _ ih => exact .next done ih

theorem steps_of_run {p : Prog A α} {g g' : G} {a : α} (h : run M t p g = .done a g') :
    Steps M t p g (.ret a) g' := by
  induction p generalizing g with
  | ret b =>
    cases h
    exact .refl _ _
  | act c k ih =>
    cases hb : M.exec t c g with
    | blocked => simp [run, hb] at h
    | panic msg => simp [run, hb] at h
    | undefined => simp [run, hb] at h
    | done b g1 =>
      simp only [run, hb] at h
      exact .next hb (ih b h)

end Xv6.Resumption
