import Mathlib.Data.Nat.Notation
import Xv6.Interleaving

set_option autoImplicit false

namespace Xv6.Interleaving
open Resumption

variable {T : Type} [DecidableEq T] {A : Type → Type} {Loc G : Type} [DecidableEq Loc]

def answer : Prog A Loc → Option Loc
  | .ret l => some l
  | .act _ _ => none

omit [DecidableEq Loc] in
theorem eq_ret_of_answer {p : Prog A Loc} {l : Loc} (h : answer p = some l) : p = .ret l := by
  cases p with
  | ret l' => exact congrArg _ (Option.some.inj h)
  | act a k => cases h

inductive Move (S : Setting T A Loc G) where
  | start (t : T) (l : Loc) (p : Prog A Loc) (ok : S.starts t l p)
  | acts (t : T) (k : ℕ)

variable (M : Machine T A G) (S : Setting T A Loc G) (ok : T → ∀ {β : Type}, A β → G → Bool)

/-- The next `k` actions of a thread, each of which passes the test `ok`. -/
def advance (t : T) : ℕ → Prog A Loc → G → Option (Prog A Loc × G)
  | 0, p, g => some (p, g)
  | _ + 1, .ret _, _ => none
  | k + 1, .act a r, g =>
    if ok t a g then
      match M.exec t a g with
      | .done b g' => advance t k (r b) g'
      | _ => none
    else none

def play : List (Move S) → Sys T A Loc G → Option (Sys T A Loc G)
  | [], s => some s
  | .start t l p _ :: ms, s =>
    match s.thr t with
    | .ret l' => if l' = l then play ms ⟨s.g, Function.update s.thr t p⟩ else none
    | .act _ _ => none
  | .acts t k :: ms, s =>
    match advance S.toMachine ok t k (s.thr t) s.g with
    | some (p, g) => play ms ⟨g, Function.update s.thr t p⟩
    | none => none

def freely : T → ∀ {β : Type}, A β → G → Bool := fun _ _ _ _ => true

variable {M S ok} {cond : T → ∀ {β : Type}, A β → G → Prop}

omit [DecidableEq Loc] in
theorem reach_of_advance (hok : ∀ t β (a : A β) g, ok t a g = true → cond t a g) {t : T} {k : ℕ}
    {s : Sys T A Loc G} {p : Prog A Loc} {g : G}
    (h : advance S.toMachine ok t k (s.thr t) s.g = some (p, g)) :
    Reach S cond s ⟨g, Function.update s.thr t p⟩ := by
  induction k generalizing s with
  | zero =>
    cases h
    rw [Function.update_eq_self]
    exact .refl
  | succ k ih =>
    cases hp : s.thr t with
    | ret l =>
      rw [hp] at h
      cases h
    | act a r =>
      rw [hp, advance] at h
      split at h
      · rename_i htest
        split at h
        · rename_i b g' hdone
          have first : Step S cond s ⟨g', Function.update s.thr t (r b)⟩ :=
            .act hp (hok t _ a s.g htest) hdone
          have here : advance S.toMachine ok t k (Function.update s.thr t (r b) t) g' = some (p, g) := by
            rw [Function.update_self]
            exact h
          have rest := ih (s := ⟨g', Function.update s.thr t (r b)⟩) here
          rw [Function.update_idem] at rest
          exact .head first rest
        · cases h
      · cases h

omit [DecidableEq T] [DecidableEq Loc] in
theorem steps_of_advance {t : T} {k : ℕ} {p q : Prog A Loc} {g g' : G}
    (h : advance M ok t k p g = some (q, g')) : Steps M t p g q g' := by
  induction k generalizing p g with
  | zero =>
    cases h
    exact .refl _ _
  | succ k ih =>
    cases p with
    | ret l => cases h
    | act a r =>
      rw [advance] at h
      split at h
      · split at h
        · rename_i b g1 hdone
          exact .next hdone (ih h)
        · cases h
      · cases h

omit [DecidableEq T] [DecidableEq Loc] in
theorem exists_of_advance (t : T) (k : ℕ) (p : Prog A Loc) (g : G) (f : G → Bool)
    (h : (advance M freely t k p g).any (f ·.2) = true) :
    ∃ q g', Steps M t p g q g' ∧ f g' = true := by
  obtain ⟨⟨q, g'⟩, ha, hf⟩ := (Option.any_eq_true ..).1 h
  exact ⟨q, g', steps_of_advance ha, hf⟩

theorem reach_of_play (hok : ∀ t β (a : A β) g, ok t a g = true → cond t a g)
    {ms : List (Move S)} {s s' : Sys T A Loc G} (h : play S ok ms s = some s') :
    Reach S cond s s' := by
  induction ms generalizing s with
  | nil =>
    cases h
    exact .refl
  | cons m ms ih =>
    cases m with
    | start t l p starts =>
      rw [play] at h
      split at h
      · rename_i l' hl
        split at h
        · rename_i heq
          subst heq
          exact .head (.start hl starts) (ih h)
        · cases h
      · cases h
    | acts t k =>
      rw [play] at h
      split at h
      · rename_i p g hadv
        exact (reach_of_advance hok hadv).trans (ih h)
      · cases h

theorem exists_of_play (hok : ∀ t β (a : A β) g, ok t a g = true → cond t a g)
    (ms : List (Move S)) (s : Sys T A Loc G) (test : Sys T A Loc G → Bool)
    (h : (play S ok ms s).any test = true) : ∃ s', Reach S cond s s' ∧ test s' = true := by
  obtain ⟨s', hp, ht⟩ := (Option.any_eq_true ..).1 h
  exact ⟨s', reach_of_play hok hp, ht⟩

theorem exists_of_freely (ms : List (Move S)) (s : Sys T A Loc G) (test : Sys T A Loc G → Bool)
    (h : (play S freely ms s).any test = true) : ∃ s', Reach S always s s' ∧ test s' = true :=
  exists_of_play (fun _ _ _ _ _ => trivial) ms s test h

end Xv6.Interleaving
