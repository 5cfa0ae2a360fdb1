import Mathlib.Logic.Relation
import Xv6.Resumption

set_option autoImplicit false

/-! Any number of threads run resumptions over one shared state. A thread whose program has returned
is at a location and may start any program its location allows; every other step is one atomic
action of one thread, or an interrupt that puts a handler in front of its program. A program is
`Valid` when each of its actions, in any state that satisfies the invariant, re-establishes it by
changing the ghost value of its own thread only. -/
namespace Xv6.Interleaving
open Resumption
open Function (update update_eq_self update_idem update_of_ne update_self)

/-- The threads' common setting: what actions do, which programs a thread may
    start at a location, and which handlers may interrupt it in a state. -/
structure Setting (T : Type) (A : Type → Type) (Loc G : Type) extends Machine T A G where
  starts : T → Loc → Prog A Loc → Prop
  interrupts : T → G → Prog A Unit → Prop

structure Sys (T : Type) (A : Type → Type) (Loc G : Type) where
  g : G
  thr : T → Prog A Loc

variable {T : Type} [DecidableEq T] {A : Type → Type} {Loc G α β : Type}
variable {t : T} {S : Setting T A Loc G} {s : Sys T A Loc G} {p : Prog A α} {a : A β}
  {k : α → Prog A β}

/-- One step of the system, in a run all of whose actions satisfy `cond` in the
    state in which they are performed. -/
inductive Step (S : Setting T A Loc G) (cond : T → ∀ {β : Type}, A β → G → Prop) :
    Sys T A Loc G → Sys T A Loc G → Prop where
  | start {s : Sys T A Loc G} {t : T} {l : Loc} {p : Prog A Loc}
      (at_ : s.thr t = .ret l) (ok : S.starts t l p) :
      Step S cond s ⟨s.g, update s.thr t p⟩
  | act {s : Sys T A Loc G} {t : T} {β : Type} {a : A β} {k : β → Prog A Loc} {b : β} {g' : G}
      (next : s.thr t = .act a k) (ok : cond t a s.g) (done : S.exec t a s.g = .done b g') :
      Step S cond s ⟨g', update s.thr t (k b)⟩
  | interrupt {s : Sys T A Loc G} {t : T} {h : Prog A Unit} (ok : S.interrupts t s.g h) :
      Step S cond s ⟨s.g, update s.thr t (h >>= fun _ => s.thr t)⟩

def always : T → ∀ {β : Type}, A β → G → Prop := fun _ _ _ _ => True

def Reach (S : Setting T A Loc G) (cond : T → ∀ {β : Type}, A β → G → Prop) :
    Sys T A Loc G → Sys T A Loc G → Prop :=
  Relation.ReflTransGen (Step S cond)

section Weaken

variable {S : Setting T A Loc G} {cond cond' : T → ∀ {β : Type}, A β → G → Prop}
  {s s' : Sys T A Loc G}

theorem Step.mono (step : Step S cond s s')
    (weaker : ∀ t β (a : A β) g, cond t a g → cond' t a g) : Step S cond' s s' := by
  cases step with
  | start at_ ok => exact .start at_ ok
  | act next ok done => exact .act next (weaker _ _ _ _ ok) done
  | interrupt ok => exact .interrupt ok

theorem Reach.mono (h : Reach S cond s s')
    (weaker : ∀ t β (a : A β) g, cond t a g → cond' t a g) : Reach S cond' s s' := by
  induction h with
  | refl => exact .refl
  | tail _ last ih => exact ih.tail (last.mono weaker)

end Weaken

def Panics (S : Setting T A Loc G) (s : Sys T A Loc G) (msg : String) : Prop :=
  ∃ (t : T) (β : Type) (a : A β) (k : β → Prog A Loc),
    s.thr t = .act a k ∧ S.exec t a s.g = .panic msg

theorem proj_update {L M : Type} (f : L → M) {Λ : T → L} {ℓ : L} (h : f ℓ = f (Λ t)) (u : T) :
    f (update Λ t ℓ u) = f (Λ u) := by
  grind

theorem proj_same {L M : Type} (f : L → M) {Λ : T → L} {ℓ : L} (h : f ℓ = f (Λ t)) :
    (fun u => f (update Λ t ℓ u)) = fun u => f (Λ u) := funext (proj_update f h)

theorem proj_new {L M : Type} (f : L → M) (Λ : T → L) (t : T) (ℓ : L) :
    (fun u => f (update Λ t ℓ u)) = update (fun u => f (Λ u)) t (f ℓ) :=
  Function.comp_update f Λ t ℓ

theorem reach_of_steps {p q : Prog A Loc} {g g' : G} (steps : Steps S.toMachine t p g q g')
    (hp : s.thr t = p) (hg : s.g = g) :
    Reach S always s ⟨g', update s.thr t q⟩ := by
  induction steps generalizing s with
  | refl p g =>
    subst hp hg
    rw [update_eq_self]
    exact .refl
  | @next β a k g g1 h b q done tail ih =>
    subst hg
    have first : Step S always s ⟨g1, update s.thr t (k b)⟩ := .act hp trivial done
    have rest := ih (s := ⟨g1, update s.thr t (k b)⟩) (update_self ..) rfl
    rw [update_idem] at rest
    exact .head first rest

theorem reach_call {l : Loc} {f : α → Loc} {Q : α → G → Prop} (at_ : s.thr t = .ret l)
    (ok : S.starts t l (p >>= fun a => .ret (f a))) (h : Total S.toMachine t p Q s.g) :
    ∃ a g', Q a g' ∧ Reach S always s ⟨g', update s.thr t (.ret (f a))⟩ := by
  obtain ⟨a, g', hrun, hQ⟩ := total_iff_run.1 h
  have first : Step S always s ⟨s.g, update s.thr t (p >>= fun a => .ret (f a))⟩ :=
    .start at_ ok
  have rest := reach_of_steps (s := ⟨s.g, update s.thr t (p >>= fun a => .ret (f a))⟩)
    ((steps_of_run hrun).bind fun a => .ret (f a)) (update_self ..) rfl
  rw [update_idem] at rest
  exact ⟨a, g', hQ, .head first rest⟩

theorem reach_panic {l : Loc} {k : β → Prog A Loc} {msg : String} (at_ : s.thr t = .ret l)
    (ok : S.starts t l (.act a k)) (h : S.exec t a s.g = .panic msg) :
    ∃ s', Reach S always s s' ∧ Panics S s' msg :=
  ⟨_, .single (.start at_ ok), t, β, a, k, update_self .., h⟩

section Logic

/-- An invariant with the threads' ghost values, the safety assertion each action
    must meet when it is next, and the ghost values a thread may have at a location. -/
structure Outline (T : Type) (A : Type → Type) (Loc G L : Type) where
  I : G → (T → L) → Prop
  safe : T → ∀ {β : Type}, A β → G → (T → L) → Prop
  rest : T → Loc → L → Prop

variable {L : Type} (S : Setting T A Loc G) (cond : T → ∀ {β : Type}, A β → G → Prop)
  (O : Outline T A Loc G L)

def Valid (t : T) : Prog A α → L → (α → L → Prop) → Prop
  | .ret a, ℓ, Q => Q a ℓ
  | .act a k, ℓ, Q => ∀ g Λ, Λ t = ℓ → O.I g Λ → O.safe t a g Λ ∧
      (cond t a g → ∀ b g', S.exec t a g = .done b g' →
        ∃ ℓ', O.I g' (update Λ t ℓ') ∧ Valid t (k b) ℓ' Q)

variable {S cond O} {t : T}

theorem Valid.bind {ℓ : L} {Q : β → L → Prop}
    (h : Valid S cond O t p ℓ fun a ℓ' => Valid S cond O t (k a) ℓ' Q) :
    Valid S cond O t (p >>= k) ℓ Q := by
  induction p generalizing ℓ with
  | ret a => exact h
  | act a r ih =>
    intro g Λ hl hi
    refine ⟨(h g Λ hl hi).1, fun hc b g' hb => ?_⟩
    obtain ⟨ℓ', hi', tail⟩ := (h g Λ hl hi).2 hc b g' hb
    exact ⟨ℓ', hi', ih b tail⟩

theorem Valid.mono {ℓ : L} {Q R : α → L → Prop} (h : Valid S cond O t p ℓ Q)
    (weaker : ∀ a ℓ', Q a ℓ' → R a ℓ') :
    Valid S cond O t p ℓ R := by
  induction p generalizing ℓ with
  | ret a => exact weaker a ℓ h
  | act a r ih =>
    intro g Λ hl hi
    refine ⟨(h g Λ hl hi).1, fun hc b g' hb => ?_⟩
    obtain ⟨ℓ', hi', tail⟩ := (h g Λ hl hi).2 hc b g' hb
    exact ⟨ℓ', hi', ih b tail⟩

theorem Valid.seq {ℓ : L} {Q : α → L → Prop} {R : β → L → Prop} (first : Valid S cond O t p ℓ Q)
    (rest : ∀ a ℓ', Q a ℓ' → Valid S cond O t (k a) ℓ' R) :
    Valid S cond O t (p >>= k) ℓ R := Valid.bind (first.mono rest)

theorem Valid.next {ℓ : L} {ℓ' : α → L} {R : β → L → Prop}
    (first : Valid S cond O t p ℓ fun a ℓ1 => ℓ1 = ℓ' a)
    (rest : ∀ a, Valid S cond O t (k a) (ℓ' a) R) : Valid S cond O t (p >>= k) ℓ R :=
  first.seq fun a _ h => h ▸ rest a

theorem Valid.perform {ℓ : L} {Q : β → L → Prop}
    (h : ∀ g Λ, Λ t = ℓ → O.I g Λ → O.safe t a g Λ ∧
      (cond t a g → ∀ b g', S.exec t a g = .done b g' →
        ∃ ℓ', O.I g' (update Λ t ℓ') ∧ Q b ℓ')) :
    Valid S cond O t (Prog.perform a) ℓ Q := h

variable (S cond O) in
def Holds (s : Sys T A Loc G) (Λ : T → L) : Prop :=
  O.I s.g Λ ∧ ∀ t, Valid S cond O t (s.thr t) (Λ t) (O.rest t)

theorem Holds.step {s' : Sys T A Loc G} {Λ : T → L}
    (starts : ∀ t l p ℓ, S.starts t l p → O.rest t l ℓ → Valid S cond O t p ℓ (O.rest t))
    (handlers : ∀ t g h Λ, S.interrupts t g h → O.I g Λ →
      Valid S cond O t h (Λ t) fun _ ℓ' => ℓ' = Λ t)
    (h : Holds S cond O s Λ) (step : Step S cond s s') : ∃ Λ', Holds S cond O s' Λ' := by
  obtain ⟨hi, hv⟩ := h
  cases step with
  | @start t l p at_ ok =>
    refine ⟨Λ, hi, fun u => ?_⟩
    by_cases hu : u = t
    · subst u
      have here := hv t
      rw [at_] at here
      simpa only [update_self] using starts t l p (Λ t) ok here
    · simpa only [update_of_ne hu] using hv u
  | @act t β a k b g' next ok done =>
    have here := hv t
    rw [next] at here
    obtain ⟨ℓ', hi', tail⟩ := (here s.g Λ rfl hi).2 ok b g' done
    refine ⟨update Λ t ℓ', hi', fun u => ?_⟩
    grind
  | @interrupt t p ok =>
    refine ⟨Λ, hi, fun u => ?_⟩
    by_cases hu : u = t
    · subst u
      simp only [update_self]
      refine Valid.bind ((handlers t s.g p Λ ok hi).mono ?_)
      rintro _ ℓ' rfl
      exact hv t
    · simpa only [update_of_ne hu] using hv u

theorem Holds.reach {s' : Sys T A Loc G} {Λ : T → L}
    (starts : ∀ t l p ℓ, S.starts t l p → O.rest t l ℓ → Valid S cond O t p ℓ (O.rest t))
    (handlers : ∀ t g h Λ, S.interrupts t g h → O.I g Λ →
      Valid S cond O t h (Λ t) fun _ ℓ' => ℓ' = Λ t)
    (h : Holds S cond O s Λ) (reach : Reach S cond s s') : ∃ Λ', Holds S cond O s' Λ' := by
  induction reach with
  | refl => exact ⟨Λ, h⟩
  | tail _ last ih =>
    obtain ⟨Λ', h'⟩ := ih
    exact h'.step starts handlers last

theorem Holds.safe {Λ : T → L} (h : Holds S cond O s Λ) {k : β → Prog A Loc}
    (next : s.thr t = .act a k) : O.safe t a s.g Λ := by
  have here := h.2 t
  rw [next] at here
  exact (here s.g Λ rfl h.1).1

end Logic

section Only

variable {S : Setting T A Loc G} {cond : T → ∀ {β : Type}, A β → G → Prop}
  {P : ∀ β : Type, A β → Prop} {s s' : Sys T A Loc G}

def Only (P : ∀ β : Type, A β → Prop) : Prog A α → Prop
  | .ret _ => True
  | .act a k => P _ a ∧ ∀ b, Only P (k b)

omit [DecidableEq T] in
theorem only_perform (h : P β a) : Only P (Prog.perform a) := ⟨h, fun _ => trivial⟩

theorem Only.bind (hp : Only P p) (hk : ∀ a, Only P (k a)) : Only P (p >>= k) := by
  induction p with
  | ret a => exact hk a
  | act a r ih => exact ⟨hp.1, fun b => ih b (hp.2 b)⟩

theorem only_step (starts : ∀ t l p, S.starts t l p → Only P p)
    (handlers : ∀ t g h, S.interrupts t g h → Only P h) (hs : ∀ t, Only P (s.thr t))
    (step : Step S cond s s') (t : T) : Only P (s'.thr t) := by
  cases step with
  | @start u l p at_ ok =>
    grind
  | @act u β a k b g' next ok done =>
    by_cases ht : t = u
    · subst ht
      have here := hs t
      rw [next] at here
      simpa only [update_self] using here.2 b
    · simpa only [update_of_ne ht] using hs t
  | @interrupt u p ok =>
    by_cases ht : t = u
    · subst ht
      simpa only [update_self] using (handlers t s.g p ok).bind fun _ => hs t
    · simpa only [update_of_ne ht] using hs t

theorem only_reach (starts : ∀ t l p, S.starts t l p → Only P p)
    (handlers : ∀ t g h, S.interrupts t g h → Only P h) (hs : ∀ t, Only P (s.thr t))
    (reach : Reach S cond s s') : ∀ t, Only P (s'.thr t) := by
  induction reach with
  | refl => exact hs
  | tail _ last ih => exact only_step starts handlers ih last

theorem Reach.related {J : G → Prop} {R : G → G → Prop} (refl : ∀ g, R g g)
    (trans : ∀ g g' g'', R g g' → R g' g'' → R g g'')
    (acts : ∀ t β (a : A β) g b g', P β a → J g → S.exec t a g = .done b g' → R g g')
    (starts : ∀ t l p, S.starts t l p → Only P p)
    (handlers : ∀ t g h, S.interrupts t g h → Only P h) (hs : ∀ t, Only P (s.thr t))
    (hJ : ∀ u, Reach S cond s u → J u.g) (reach : Reach S cond s s') : R s.g s'.g := by
  induction reach with
  | refl => exact refl _
  | @tail u u' first last ih =>
    refine trans _ _ _ ih ?_
    cases last with
    | start at_ ok => exact refl _
    | @act t β a k b g' next ok done =>
      have here := only_reach starts handlers hs first t
      rw [next] at here
      exact acts t β a u.g b g' here.1 (hJ u first) done
    | interrupt ok => exact refl _

end Only

end Xv6.Interleaving
