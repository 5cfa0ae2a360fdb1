import Mathlib.Data.Set.Lattice
import Mathlib.Order.CompletePartialOrder
import Xv6.Resumption

set_option autoImplicit false

/-! Every process runs its own resumption on a private state; all of them share one state. An action
can end the process or create another one that goes on from the same point. A territory is a set of
tokens that no other process has. A process changes the shared state only in ways that those without
its tokens tolerate (`rely`), and divides its territory when it creates another one. -/
namespace Xv6.Spawning
open Resumption
open Function (update update_of_ne update_self)

/-- What an action leaves: the shared state, how the process goes on, if it does, and how the
    process it created starts. -/
structure Result (β G L : Type) where
  shared : G
  next : Option (β × L)
  child : Option (β × L)

/-- The action of process `p`, where `q` is the name of a process it creates and `o` decides what
    the action leaves open. -/
structure Kernel (A : Type → Type) (G L Ω : Type) where
  exec : ∀ {β : Type}, ℕ → ℕ → Ω → A β → G → L → Option (Result β G L)

structure Proc (A : Type → Type) (α L : Type) where
  loc : L
  code : Prog A α

structure Sys (A : Type → Type) (α G L : Type) where
  shared : G
  procs : ℕ → Option (Proc A α L)

variable {A : Type → Type} {α G L Ω : Type} (K : Kernel A G L Ω)

def resume {β : Type} (k : β → Prog A α) : Option (β × L) → Option (Proc A α L)
  | none => none
  | some (b, l) => some ⟨l, k b⟩

theorem resume_eq_some {β : Type} {k : β → Prog A α} {next : Option (β × L)} {x : Proc A α L}
    (h : resume k next = some x) : ∃ b l, next = some (b, l) ∧ x = ⟨l, k b⟩ := by
  cases next with
  | none => cases h
  | some next =>
    cases h
    exact ⟨next.1, next.2, rfl, rfl⟩

def Sys.after {β : Type} (S : Sys A α G L) (p q : ℕ) (k : β → Prog A α) (r : Result β G L) :
    Sys A α G L where
  shared := r.shared
  procs := update (update S.procs q (resume k r.child)) p (resume k r.next)

section After

variable {β : Type} (S : Sys A α G L) (k : β → Prog A α) (r : Result β G L)

theorem after_self (p q : ℕ) : (S.after p q k r).procs p = resume k r.next :=
  update_self ..

theorem after_child {p q : ℕ} (h : q ≠ p) : (S.after p q k r).procs q = resume k r.child :=
  (update_of_ne h ..).trans (update_self ..)

theorem after_other {p q p' : ℕ} (hp : p' ≠ p) (hq : p' ≠ q) :
    (S.after p q k r).procs p' = S.procs p' :=
  (update_of_ne hp ..).trans (update_of_ne hq ..)

end After

inductive Step : Sys A α G L → Sys A α G L → Prop
  | act {β : Type} {S : Sys A α G L} {p q : ℕ} {o : Ω} {l : L} {a : A β} {k : β → Prog A α}
      {r : Result β G L} (here : S.procs p = some ⟨l, .act a k⟩) (unused : S.procs q = none)
      (result : K.exec p q o a S.shared l = some r) : Step S (S.after p q k r)

inductive Reach (S₀ : Sys A α G L) : Sys A α G L → Prop
  | start : Reach S₀ S₀
  | step {S S' : Sys A α G L} (reached : Reach S₀ S) (step : Step K S S') : Reach S₀ S'

def play : List (ℕ × ℕ × Ω) → Sys A α G L → Option (Sys A α G L)
  | [], S => some S
  | (p, q, o) :: rest, S =>
    match S.procs p, S.procs q with
    | some ⟨l, .act a k⟩, none =>
      match K.exec p q o a S.shared l with
      | some r => play rest (S.after p q k r)
      | none => none
    | _, _ => none

variable {K} in
theorem Reach.trans {S S' S'' : Sys A α G L} (h : Reach K S S') (h' : Reach K S' S'') :
    Reach K S S'' := by
  induction h' with
  | start => exact h
  | step _ hstep ih => exact ih.step hstep

variable {K} in
theorem reach_of_play {moves : List (ℕ × ℕ × Ω)} {S S' : Sys A α G L}
    (h : play K moves S = some S') : Reach K S S' := by
  induction moves generalizing S with
  | nil =>
    cases h
    exact .start
  | cons move rest ih =>
    obtain ⟨p, q, o⟩ := move
    unfold play at h
    split at h
    · rename_i here unused
      split at h
      · rename_i result
        exact (Reach.start.step (.act here unused result)).trans (ih h)
      · cases h
    · cases h

variable {K} in
theorem Reach.shared {S0 S : Sys A α G L} {I : G → Prop} (h : Reach K S0 S) (start : I S0.shared)
    (step : ∀ {β : Type} (p q : ℕ) (o : Ω) (a : A β) (g : G) (l : L) (r : Result β G L),
      I g → K.exec p q o a g l = some r → I r.shared) : I S.shared := by
  induction h with
  | start => exact start
  | step _ hstep ih =>
    cases hstep with
    | act here unused result => exact step _ _ _ _ _ _ _ ih result

section Territories

variable {τ : Type}

/-- What a process tolerates while it has some tokens, and what it promises at each action. -/
structure Discipline (A : Type → Type) (G L τ : Type) where
  rely : Set τ → G → G → Prop
  promise : ∀ {β : Type}, A β → L → G → Prop
  refl : ∀ T g, rely T g g
  trans : ∀ {T g g' g''}, rely T g g' → rely T g' g'' → rely T g g''

variable (D : Discipline A G L τ)

/-- The process keeps its promise at every action it comes to, whatever the others do. -/
def Ok : Set τ → Prog A α → L → G → Prop
  | _, .ret _, _, _ => True
  | T, .act a k, l, g => ∀ g', D.rely T g g' → D.promise a l g' ∧
      ∀ p q o r, K.exec p q o a g' l = some r → (∀ U, Disjoint U T → D.rely U g' r.shared) ∧
        ∃ T₁ T₂, Disjoint T₁ T₂ ∧ T₁ ⊆ T ∧ T₂ ⊆ T ∧
          (∀ b l', r.next = some (b, l') → Ok T₁ (k b) l' r.shared) ∧
          ∀ b l', r.child = some (b, l') → Ok T₂ (k b) l' r.shared

structure Divided (S : Sys A α G L) (T : ℕ → Set τ) : Prop where
  apart : ∀ p p', p ≠ p' → S.procs p ≠ none → S.procs p' ≠ none → Disjoint (T p) (T p')
  ok : ∀ p x, S.procs p = some x → Ok K D (T p) x.code x.loc S.shared

variable {K D}

theorem Ok.stable {T : Set τ} {code : Prog A α} {l : L} {g g' : G} (h : Ok K D T code l g)
    (hrely : D.rely T g g') : Ok K D T code l g' := by
  cases code with
  | ret a => trivial
  | act a k => exact fun g'' hrely' => h g'' (D.trans hrely hrely')

theorem Ok.promise {T : Set τ} {β : Type} {a : A β} {k : β → Prog A α} {l : L} {g : G}
    (h : Ok K D T (.act a k) l g) : D.promise a l g := (h g (D.refl T g)).1

theorem ok_alone {T : Set τ} {β : Type} {a : A β} {k : β → Prog A α} {l : L} {g : G}
    (h : ∀ g', D.rely T g g' → D.promise a l g' ∧
      ∀ p q o r, K.exec p q o a g' l = some r → (∀ U, D.rely U g' r.shared) ∧ r.child = none ∧
        ∀ b l', r.next = some (b, l') → Ok K D T (k b) l' r.shared) :
    Ok K D T (.act a k) l g := by
  intro g' hrely
  obtain ⟨hpromise, hresult⟩ := h g' hrely
  refine ⟨hpromise, fun p q o r hr => ?_⟩
  obtain ⟨hquiet, hchild, hnext⟩ := hresult p q o r hr
  refine ⟨fun U _ => hquiet U, T, ∅, Set.disjoint_empty T, subset_rfl, Set.empty_subset T, hnext,
    fun b l' hc => ?_⟩
  rw [hchild] at hc
  cases hc

theorem Divided.step {S S' : Sys A α G L} {T : ℕ → Set τ} (h : Divided K D S T)
    (hstep : Step K S S') : ∃ T', Divided K D S' T' := by
  obtain ⟨here, unused, result⟩ := hstep
  rename_i β p q o l a k r
  obtain ⟨-, hresult⟩ := h.ok p _ here S.shared (D.refl _ _)
  obtain ⟨hrely, T1, T2, hdisj, hsub1, hsub2, hnext, hchild⟩ := hresult p q o r result
  have hlive : S.procs p ≠ none := fun hnone => Option.some_ne_none _ (here.symm.trans hnone)
  have hqp : q ≠ p := by
    rintro rfl
    exact hlive unused
  have hself : update (update T q T2) p T1 p = T1 := update_self ..
  have hchildT : update (update T q T2) p T1 q = T2 :=
    (update_of_ne hqp ..).trans (update_self ..)
  have hotherT : ∀ p', p' ≠ p → p' ≠ q →
      update (update T q T2) p T1 p' = T p' := fun p' hp hq =>
    (update_of_ne hp ..).trans (update_of_ne hq ..)
  -- the two parts of the old territory are as far from the others as it was
  have hfar : ∀ p', p' ≠ p → p' ≠ q → (S.after p q k r).procs p' ≠ none → Disjoint
    (T p) (T p') := by
    intro p' hp hq hsome
    rw [after_other S k r hp hq] at hsome
    exact h.apart p p' hp.symm hlive hsome
  refine ⟨update (update T q T2) p T1, ?_, ?_⟩
  · intro p1 p2 hne hsome1 hsome2
    by_cases hp1 : p1 = p
    · subst hp1
      rw [hself]
      by_cases hq2 : p2 = q
      · rw [hq2, hchildT]
        exact hdisj
      · rw [hotherT p2 hne.symm hq2]
        exact (hfar p2 hne.symm hq2 hsome2).mono_left hsub1
    by_cases hp2 : p2 = p
    · subst hp2
      rw [hself]
      by_cases hq1 : p1 = q
      · rw [hq1, hchildT]
        exact hdisj.symm
      · rw [hotherT p1 hp1 hq1]
        exact ((hfar p1 hp1 hq1 hsome1).mono_left hsub1).symm
    by_cases hq1 : p1 = q
    · subst hq1
      rw [hchildT, hotherT p2 hp2 hne.symm]
      exact (hfar p2 hp2 hne.symm hsome2).mono_left hsub2
    rw [hotherT p1 hp1 hq1]
    by_cases hq2 : p2 = q
    · rw [hq2, hchildT]
      exact ((hfar p1 hp1 hq1 hsome1).mono_left hsub2).symm
    · rw [hotherT p2 hp2 hq2]
      rw [after_other S k r hp1 hq1] at hsome1
      rw [after_other S k r hp2 hq2] at hsome2
      exact h.apart p1 p2 hne hsome1 hsome2
  · intro p' x hx
    by_cases hp : p' = p
    · subst hp
      rw [after_self] at hx
      rw [hself]
      obtain ⟨b, l', hr, rfl⟩ := resume_eq_some hx
      exact hnext b l' hr
    by_cases hq : p' = q
    · subst hq
      rw [after_child S k r hp] at hx
      rw [hchildT]
      obtain ⟨b, l', hr, rfl⟩ := resume_eq_some hx
      exact hchild b l' hr
    · rw [after_other S k r hp hq] at hx
      rw [hotherT p' hp hq]
      have hsome : S.procs p' ≠ none :=
        fun hnone => Option.some_ne_none _ (hx.symm.trans hnone)
      exact (h.ok p' x hx).stable (hrely _ (h.apart p' p hp hsome hlive))

theorem Divided.reach {S0 S : Sys A α G L} {T : ℕ → Set τ} (h : Divided K D S0 T)
    (hreach : Reach K S0 S) : ∃ T', Divided K D S T' := by
  induction hreach with
  | start => exact ⟨T, h⟩
  | step _ hstep ih =>
    obtain ⟨T', hT'⟩ := ih
    exact hT'.step hstep

end Territories

/-- The actions of `K` with a result that passes the test `ok`. -/
def Kernel.only (ok : ∀ {β : Type}, A β → Result β G L → Bool) : Kernel A G L Ω :=
  ⟨fun p q o a g l => (K.exec p q o a g l).filter (ok a)⟩

section Owes

variable (hit : ∀ {β : Type}, A β → L → Prop)

/-- Whatever happens, the process or one it creates comes to an action with `hit`. -/
def Owes : Prog A α → L → Prop
  | .ret _, _ => False
  | .act a k, l => hit a l ∨ ∀ p q o g r, K.exec p q o a g l = some r →
      (∃ b l', r.next = some (b, l') ∧ Owes (k b) l') ∨
        ∃ b l', r.child = some (b, l') ∧ Owes (k b) l'

def Hits (S : Sys A α G L) : Prop :=
  ∃ p β, ∃ (a : A β) (k : β → Prog A α) (l : L), S.procs p = some ⟨l, .act a k⟩ ∧ hit a l

variable {K hit}

theorem Owes.step {S S' : Sys A α G L} {p : ℕ} {x : Proc A α L} (here : S.procs p = some x)
    (h : Owes K hit x.code x.loc) (hstep : Step K S S') (hno : ¬ Hits hit S) :
    ∃ p x, S'.procs p = some x ∧ Owes K hit x.code x.loc := by
  obtain ⟨acts, unused, result⟩ := hstep
  rename_i β p' q o l a k r
  have hlive : ∀ {p x}, S.procs p = some x → p ≠ q := by
    rintro p x hx rfl
    cases hx.symm.trans unused
  by_cases hp : p = p'
  · subst hp
    cases here.symm.trans acts
    rcases h with hhit | h
    · exact absurd ⟨p, β, a, k, l, acts, hhit⟩ hno
    rcases h p q o S.shared r result with ⟨b, l', hnext, h⟩ | ⟨b, l', hchild, h⟩
    · exact ⟨p, ⟨l', k b⟩, by rw [after_self, hnext]; rfl, h⟩
    · exact ⟨q, ⟨l', k b⟩, by rw [after_child _ _ _ (hlive acts).symm, hchild]; rfl, h⟩
  · exact ⟨p, x, (after_other S k r hp (hlive here)).trans here, h⟩

theorem Owes.passes {S₀ S : Sys A α G L} {p : ℕ} {x : Proc A α L} (here : S₀.procs p = some x)
    (h : Owes K hit x.code x.loc) (hreach : Reach K S₀ S) :
    (∃ S', Reach K S₀ S' ∧ Reach K S' S ∧ Hits hit S') ∨
      ∃ p x, S.procs p = some x ∧ Owes K hit x.code x.loc := by
  induction hreach with
  | start => exact .inr ⟨p, x, here, h⟩
  | step hreach hstep ih =>
    rename_i S S'
    rcases ih with ⟨S1, h1, h2, hits⟩ | ⟨p', x', here', h'⟩
    · exact .inl ⟨S1, h1, h2.step hstep, hits⟩
    · by_cases hits : Hits hit S
      · exact .inl ⟨S, hreach, .step .start hstep, hits⟩
      · exact .inr (h'.step here' hstep hits)

end Owes

end Xv6.Spawning
