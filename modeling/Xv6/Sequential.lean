import Xv6.Resumption

set_option autoImplicit false

/-! Code that runs to its end without interruption is a function from states to outcomes. It may
carry a ghost value along, which an invariant relates to the state. -/
namespace Xv6.Sequential
open Resumption

def Code (σ α : Type) : Type := σ → Outcome α σ

variable {σ τ γ α β : Type}
variable {p : Code σ α} {f : α → Code σ β} {s' : σ} {a : α} {Q R : α → σ → Prop}

namespace Code

def ret (a : α) : Code σ α := fun s => .done a s

def bind (p : Code σ α) (f : α → Code σ β) : Code σ β := fun s =>
  match p s with
  | .blocked => .blocked
  | .panic msg => .panic msg
  | .undefined => .undefined
  | .done a s' => f a s'

instance : Monad (Code σ) where
  pure := ret
  bind := bind

theorem bind_bind {δ : Type} (p : Code σ α) (f : α → Code σ β) (g : β → Code σ δ) :
    bind (bind p f) g = bind p fun a => bind (f a) g := by
  funext s
  unfold bind
  cases p s <;> rfl

theorem bind_ret (p : Code σ α) : bind p ret = p := by
  funext s
  unfold bind
  cases p s <;> rfl

instance : LawfulMonad (Code σ) := LawfulMonad.mk' (Code σ) bind_ret (fun _ _ => rfl) bind_bind

def get : Code σ σ := fun s => .done s s

def modify (f : σ → σ) : Code σ Unit := fun s => .done () (f s)

def blocked : Code σ α := fun _ => .blocked

def panic (msg : String) : Code σ α := fun _ => .panic msg

def undefined : Code σ α := fun _ => .undefined

def within (part : σ → τ) (put : τ → σ → σ) (p : Code τ α) : Code σ α := fun s =>
  match p (part s) with
  | .blocked => .blocked
  | .panic msg => .panic msg
  | .undefined => .undefined
  | .done a t => .done a (put t s)

end Code

theorem bind_of_done {s : σ} (h : p s = .done a s') : (p >>= f) s = f a s' := by
  change Code.bind p f s = _
  unfold Code.bind
  rw [h]

theorem bind_of_panic {s : σ} {msg : String} (h : p s = .panic msg) : (p >>= f) s = .panic msg := by
  change Code.bind p f s = _
  unfold Code.bind
  rw [h]

theorem done_bind {s s'' : σ} {b : β} (h : (p >>= f) s = .done b s'') :
    ∃ a s', p s = .done a s' ∧ f a s' = .done b s'' := by
  change Code.bind p f s = _ at h
  unfold Code.bind at h
  cases hp : p s with
  | done a s' =>
    rw [hp] at h
    exact ⟨a, s', rfl, h⟩
  | blocked =>
    rw [hp] at h
    cases h
  | panic msg =>
    rw [hp] at h
    cases h
  | undefined =>
    rw [hp] at h
    cases h

section Alone

variable {T : Type} {A : Type → Type} (M : Machine T A σ) (t : T)

def alone (p : Prog A α) : Code σ α := run M t p

theorem alone_bind (p : Prog A α) (f : α → Prog A β) :
    alone M t (p >>= f) = alone M t p >>= fun a => alone M t (f a) := by
  funext s
  change run M t (p >>= f) s = Code.bind (run M t p) (fun a => run M t (f a)) s
  unfold Code.bind
  induction p generalizing s with
  | ret a => rfl
  | act a k ih =>
    change run M t (.act a fun b => k b >>= f) s = _
    simp only [run]
    cases M.exec t a s with
    | done b s' => exact ih b s'
    | blocked => rfl
    | panic msg => rfl
    | undefined => rfl

theorem alone_perform (a : A α) : alone M t (.perform a) = M.exec t a := by
  funext s
  change run M t (.act a .ret) s = _
  simp only [run]
  cases M.exec t a s <;> rfl

end Alone

/-- The code returns, and its answer and the state it leaves satisfy `Q`. -/
def Returns (p : Code σ α) (Q : α → σ → Prop) (s : σ) : Prop :=
  ∃ a s', p s = .done a s' ∧ Q a s'

theorem returns_pure {s : σ} (h : Q a s) :
    Returns (pure a : Code σ α) Q s := ⟨a, s, rfl, h⟩

theorem Returns.bind {Q : β → σ → Prop} {s : σ} (h : Returns p (fun a => Returns (f a) Q) s) :
    Returns (p >>= f) Q s := by
  obtain ⟨a, s', hp, b, s'', hf, hq⟩ := h
  refine ⟨b, s'', ?_, hq⟩
  rw [bind_of_done hp]
  exact hf

theorem Returns.mono {s : σ} (h : Returns p Q s) (weaker : ∀ a s', Q a s' → R a s') :
    Returns p R s := by
  obtain ⟨a, s', hp, hq⟩ := h
  exact ⟨a, s', hp, weaker a s' hq⟩

theorem Returns.within {part : σ → τ} {put : τ → σ → σ} {p : Code τ α} {s : σ}
    (h : Returns p (fun a t => Q a (put t s)) (part s)) :
    Returns (Code.within part put p) Q s := by
  obtain ⟨a, t, hp, hq⟩ := h
  refine ⟨a, put t s, ?_, hq⟩
  unfold Code.within
  rw [hp]

/-- The code returns and satisfies `Q`, or it panics, which it does not if `fits`. -/
def Ends (fits : Prop) (p : Code σ α) (Q : α → σ → Prop) (s : σ) : Prop :=
  Returns p Q s ∨ ¬ fits ∧ ∃ msg, p s = .panic msg

theorem ends_pure {fits : Prop} {s : σ} (h : Q a s) :
    Ends fits (pure a : Code σ α) Q s := .inl (returns_pure h)

theorem Ends.bind {fits : Prop} {Q : β → σ → Prop} {s : σ} (h : Ends fits p R s)
    (rest : ∀ a s', R a s' → Ends fits (f a) Q s') : Ends fits (p >>= f) Q s := by
  rcases h with ⟨a, s', hp, hR⟩ | ⟨hfits, msg, hp⟩
  · have hstep : (p >>= f) s = f a s' := bind_of_done hp
    rcases rest a s' hR with ⟨b, s'', hf, hq⟩ | ⟨hfits, msg, hf⟩
    · exact .inl ⟨b, s'', hstep.trans hf, hq⟩
    · exact .inr ⟨hfits, msg, hstep.trans hf⟩
  · exact .inr ⟨hfits, msg, bind_of_panic hp⟩

theorem Ends.of_run {fits : Prop} {q : Code σ α} {s : σ} (h : p s = q s') (hq : Ends fits q Q s') :
    Ends fits p Q s := by
  unfold Ends Returns
  rw [h]
  exact hq

theorem Ends.mono {fits fits' : Prop} {s : σ} (h : Ends fits p Q s) (hfits : fits' → fits)
    (weaker : ∀ a s', Q a s' → R a s') :
    Ends fits' p R s := by
  rcases h with h | ⟨hnot, msg, hp⟩
  · exact .inl (h.mono weaker)
  · exact .inr ⟨fun h => hnot (hfits h), msg, hp⟩

theorem Ends.within {fits : Prop} {part : σ → τ} {put : τ → σ → σ} {p : Code τ α} {s : σ}
    (h : Ends fits p (fun a t => Q a (put t s)) (part s)) :
    Ends fits (Code.within part put p) Q s := by
  rcases h with h | ⟨hnot, msg, hp⟩
  · exact .inl h.within
  · refine .inr ⟨hnot, msg, ?_⟩
    unfold Code.within
    rw [hp]

theorem Ends.sure {fits : Prop} {s : σ} (h : Ends fits p Q s) (hfits : fits) : Returns p Q s :=
  h.resolve_right fun hnot => hnot.1 hfits

theorem Ends.done {fits : Prop} {s : σ} (h : Ends fits p Q s) (hrun : p s = .done a s') :
    Q a s' := by
  rcases h with ⟨b, s'', hp, hq⟩ | ⟨-, msg, hp⟩
  · cases hrun.symm.trans hp
    exact hq
  · cases hrun.symm.trans hp

/-- The code returns and satisfies `Q`, or it panics with this message, which it does not if
    `fits`. -/
def EndsBy (fits : Prop) (msg : String) (p : Code σ α) (Q : α → σ → Prop) (s : σ) : Prop :=
  Returns p Q s ∨ ¬ fits ∧ p s = .panic msg

section EndsBy

variable {fits : Prop} {msg : String} {s : σ}

theorem endsBy_pure (h : Q a s) :
    EndsBy fits msg (pure a : Code σ α) Q s := .inl (returns_pure h)

theorem EndsBy.bind {Q : β → σ → Prop} (h : EndsBy fits msg p R s)
    (rest : ∀ a s', R a s' → EndsBy fits msg (f a) Q s') :
    EndsBy fits msg (p >>= f) Q s := by
  rcases h with ⟨a, s', hp, hR⟩ | ⟨hfits, hp⟩
  · have hstep : (p >>= f) s = f a s' := bind_of_done hp
    rcases rest a s' hR with ⟨b, s'', hf, hq⟩ | ⟨hfits, hf⟩
    · exact .inl ⟨b, s'', hstep.trans hf, hq⟩
    · exact .inr ⟨hfits, hstep.trans hf⟩
  · exact .inr ⟨hfits, bind_of_panic hp⟩

theorem EndsBy.of_run {q : Code σ α} (h : p s = q s') (hq : EndsBy fits msg q Q s') :
    EndsBy fits msg p Q s := by
  unfold EndsBy Returns
  rw [h]
  exact hq

theorem EndsBy.mono {fits' : Prop} (h : EndsBy fits msg p Q s) (hfits : fits' → fits)
    (weaker : ∀ a s', Q a s' → R a s') :
    EndsBy fits' msg p R s := by
  rcases h with h | ⟨hnot, hp⟩
  · exact .inl (h.mono weaker)
  · exact .inr ⟨fun h => hnot (hfits h), hp⟩

theorem EndsBy.sure (h : EndsBy fits msg p Q s) (hfits : fits) : Returns p Q s :=
  h.resolve_right fun hnot => hnot.1 hfits

theorem EndsBy.alone_bind {T : Type} {A : Type → Type} {M : Machine T A σ} {t : T} {p : Prog A α}
    {f : α → Prog A β} {Q : β → σ → Prop} (h : EndsBy fits msg (alone M t p) R s)
    (rest : ∀ a s', R a s' → EndsBy fits msg (alone M t (f a)) Q s') :
    EndsBy fits msg (alone M t (p >>= f)) Q s := by
  rw [Sequential.alone_bind]
  exact h.bind rest

end EndsBy

/-- Where the invariant relates the ghost value to the state, the code returns, and some ghost
    value is related to the state it leaves such that `Q` holds. -/
def Keeps (J : γ → σ → Prop) (p : Code σ α) (Q : α → γ → σ → Prop) (G : γ) (s : σ) : Prop :=
  J G s → Returns p (fun a s' => ∃ G', J G' s' ∧ Q a G' s') s

variable {J : γ → σ → Prop} {Q : α → γ → σ → Prop} {G : γ} {s : σ}

theorem keeps_pure (h : J G s → Q a G s) : Keeps J (pure a) Q G s :=
  fun hJ => returns_pure ⟨G, hJ, h hJ⟩

theorem Keeps.mono {R : α → γ → σ → Prop} (h : Keeps J p R G s)
    (weaker : ∀ a G' s', J G' s' → R a G' s' → Q a G' s') : Keeps J p Q G s := by
  intro hJ
  apply (h hJ).mono
  rintro a s' ⟨G', hJ', hR⟩
  exact ⟨G', hJ', weaker a G' s' hJ' hR⟩

theorem Keeps.read {p : Code σ β} {f : β → Code σ α} {b : β} (h : J G s → p s = .done b s)
    (rest : Keeps J (f b) Q G s) : Keeps J (p >>= f) Q G s := by
  intro hJ
  apply Returns.bind
  exact ⟨b, s, h hJ, rest hJ⟩

end Xv6.Sequential
