import Xv6.SleepCode

set_option autoImplicit false

namespace Xv6.KillRules
open Resumption Interleaving SleepCode
open Function (update update_eq_self update_idem update_of_ne update_self)

inductive Found where
  | no
  | passed
  /-- It was not killed, and `chan` is set to a channel that is not safe. -/
  | away
  | clear
  deriving DecidableEq

structure Mode (n : ℕ) where
  held : Fin n → Bool
  found : Found
  killing : Option (Fin n)

variable {n : ℕ} {K X D : Type}
variable {χ : X}

def Mode.own (m : Mode n) : Thread n → Bool
  | .proc p => m.held p
  | .intr _ => false

def Mode.setOwn (m : Mode n) (b : Bool) : Thread n → Mode n
  | .proc p => { m with held := update m.held p b }
  | .intr _ => m

def allowed (safe : X → Prop) : {β : Type} → ProcAct n K X β → Mode n → Prop
  | _, .release (.proc _), m => m.killing = none ∧ m.found ≠ .clear
  | _, .setChan none, m => m.found = .no
  | _, .setChan (some χ), m => safe χ ∧ m.found = .clear ∨ ¬ safe χ ∧ m.found = .passed
  | _, .setSleeping, m => m.found = .clear ∨ m.found = .away
  | _, .swtch, m => m.killing = none ∧ m.found = .no
  | _, .resume, m => m.found = .no
  | _, .setKilled q, m => m.held q = true ∧ m.found = .no ∧ m.killing = none
  | _, .wakeKilled q, m => m.killing = some q
  | _, _, _ => True

def possible (t : Thread n) : {β : Type} → ProcAct n K X β → Mode n → Prop
  | _, .acquire (.proc q), m => m.held q = false
  | _, .resume, m => m.own t = false
  | _, _, _ => True

def after (t : Thread n) : {β : Type} → ProcAct n K X β → β → Mode n → Mode n
  | _, .acquire (.proc q), _, m => { m with held := update m.held q true }
  | _, .release (.proc q), _, m => { m with held := update m.held q false }
  | _, .killed, b, m =>
    { m with found := if b then .no else if m.own t then .clear else .passed }
  | _, .setChan (some _), _, m =>
    { m with found := if m.found = .passed then .away else m.found }
  | _, .setSleeping, _, m => { m with found := .no }
  | _, .swtch, _, m => m.setOwn false t
  | _, .resume, _, m => m.setOwn true t
  | _, .setKilled q, _, m => { m with killing := some q }
  | _, .wakeKilled _, _, m => { m with killing := none }
  | _, _, _, m => m

/-- The program keeps the discipline from the mode `m` on, and ends as `Q` says. -/
def Careful (safe : X → Prop) (t : Thread n) {α : Type} :
    Code n K X D α → Mode n → (α → Mode n → Prop) → Prop
  | .ret a, m, Q => Q a m
  | .act (.proc a) k, m, Q =>
    allowed safe a m ∧ (possible t a m → ∀ b, Careful safe t (k b) (after t a b m) Q)
  | .act (.data _) k, m, Q => ∀ b, Careful safe t (k b) m Q

variable {safe : X → Prop} {t : Thread n} {α β : Type} {m : Mode n}
variable {c : Code n K X D α} {Q : α → Mode n → Prop}

theorem Careful.bind {k : α → Code n K X D β} {Q : β → Mode n → Prop}
    (h : Careful safe t c m fun a m' => Careful safe t (k a) m' Q) :
    Careful safe t (c >>= k) m Q := by
  induction c generalizing m with
  | ret a => exact h
  | act a r ih =>
    cases a with
    | proc a => exact ⟨h.1, fun hp b => ih b (h.2 hp b)⟩
    | data f => exact fun b => ih b (h b)

theorem Careful.mono {R : α → Mode n → Prop} (h : Careful safe t c m Q)
    (weaker : ∀ a m', Q a m' → R a m') : Careful safe t c m R := by
  induction c generalizing m with
  | ret a => exact weaker a m h
  | act a r ih =>
    cases a with
    | proc a => exact ⟨h.1, fun hp b => ih b (h.2 hp b)⟩
    | data f => exact fun b => ih b (h b)

theorem Careful.seq {k : α → Code n K X D β} {R : β → Mode n → Prop} (first : Careful safe t c m Q)
    (rest : ∀ a m', Q a m' → Careful safe t (k a) m' R) : Careful safe t (c >>= k) m R :=
  Careful.bind (first.mono rest)

theorem Careful.next {k : α → Code n K X D β} {m' : α → Mode n} {R : β → Mode n → Prop}
    (first : Careful safe t c m fun a m1 => m1 = m' a)
    (rest : ∀ a, Careful safe t (k a) (m' a) R) : Careful safe t (c >>= k) m R :=
  first.seq fun a _ h => h ▸ rest a

theorem careful_data (f : D → Outcome β D) :
    Careful safe t (data f : Code n K X D β) m fun _ m' => m' = m := fun _ => rfl

theorem Careful.lift {K' X' D' : Type} (safe' : X' → Prop) {lock : K → K'} {chan : X → X'}
    {get : D' → D} {set : D' → D → D'} (hsafe : ∀ χ, safe' (chan χ) ↔ safe χ)
    (h : Careful safe t c m Q) : Careful safe' t (lift lock chan get set c) m Q := by
  induction c generalizing m with
  | ret a => exact h
  | act a r ih =>
    cases a with
    | data f => exact fun b => ih b (h b)
    | proc a =>
      have hall : allowed safe' (a.map lock chan) m := by
        have h1 := h.1
        cases a with
        | setChan χ =>
          cases χ with
          | none => exact h1
          | some χ =>
            change safe' (chan χ) ∧ _ ∨ ¬ safe' (chan χ) ∧ _
            rw [hsafe]
            exact h1
        | release l => cases l <;> exact h1
        | acquire l => cases l <;> exact h1
        | _ => exact h1
      refine ⟨hall, fun hp b => ?_⟩
      have hposs : possible t a m := by
        cases a with
        | acquire l => cases l <;> exact hp
        | _ => exact hp
      have hafter : after t (a.map lock chan) b m = after t a b m := by
        cases a with
        | acquire l => cases l <;> rfl
        | release l => cases l <;> rfl
        | setChan χ => cases χ <;> rfl
        | _ => rfl
      rw [hafter]
      exact ih b (h.2 hposs b)

def Knows (safe : X → Prop) (p : Fin n) (e : Entry X) (m : Mode n) : Prop :=
  match m.found with
  | .no => True
  | .passed => e.passed = true
  | .away => e.passed = true ∧ ∀ χ, e.chan = some χ → ¬ safe χ
  | .clear => e.killed = false ∧ m.held p = true

/-- `strict`: nobody is killed between its test and its sleep. -/
structure Facts (strict : Prop) (safe : X → Prop) (plock : Fin n → Option (Thread n))
    (proc : Fin n → Entry X) (Λ : Thread n → Mode n) : Prop where
  unseen : strict → ∀ p, (proc p).passed = true → (proc p).killed = false
  woken : ∀ p, (proc p).state = .sleeping → (proc p).killed = true →
    (strict ∨ ∃ χ, (proc p).chan = some χ ∧ safe χ) → ∃ t, (Λ t).killing = some p
  held : ∀ t q, (Λ t).held q = true → plock q = some t
  killing : ∀ t q, (Λ t).killing = some q → (Λ t).held q = true
  knows : ∀ p, Knows safe p (proc p) (Λ (.proc p))

variable {strict : Prop} {plock : Fin n → Option (Thread n)} {proc : Fin n → Entry X}
  {Λ : Thread n → Mode n} {p q : Fin n} {e : Entry X}

structure Harmless (e e' : Entry X) : Prop where
  passed : e'.passed = e.passed
  killed : e'.killed = true → e.killed = true
  state : e'.state = .sleeping → e.state = .sleeping
  chan : ∀ χ, e'.chan = some χ → e.chan = some χ

theorem Harmless.not_killed {e' : Entry X} (h : Harmless e e') (hk : e.killed = false) :
    e'.killed = false := by
  cases hk' : e'.killed with
  | false => rfl
  | true =>
    rw [h.killed hk'] at hk
    cases hk

theorem Knows.harmless {e' : Entry X} (h : Knows safe p e m) (he : Harmless e e') :
    Knows safe p e' m := by
  unfold Knows at h ⊢
  split at h
  · trivial
  · rwa [he.passed]
  · rw [he.passed]
    exact ⟨h.1, fun χ hχ => h.2 χ (he.chan χ hχ)⟩
  · exact ⟨he.not_killed h.1, h.2⟩

section

variable (h : Facts strict safe plock proc Λ)
include h

theorem Facts.entry (hq : Harmless (proc q) e) : Facts strict safe plock (update proc q e) Λ := by
  have hall : ∀ p, Harmless (proc p) (update proc q e p) := by
    intro p
    by_cases hp : p = q
    · subst hp
      rwa [update_self]
    · rw [update_of_ne hp]
      exact ⟨rfl, id, id, fun _ => id⟩
  refine { h with
    unseen := fun hs p hp => ?_, woken := fun p hsl hk hw => ?_, knows := fun p => ?_ }
  · rw [(hall p).passed] at hp
    exact (hall p).not_killed (h.unseen hs p hp)
  · refine h.woken p ((hall p).state hsl) ((hall p).killed hk) (hw.imp_right ?_)
    rintro ⟨χ, hχ, hsafe⟩
    exact ⟨χ, (hall p).chan χ hχ, hsafe⟩
  · exact (h.knows p).harmless (hall p)

theorem Facts.mode {μ : Mode n} (hheld : ∀ q, μ.held q = true → plock q = some t)
    (hkilling : μ.killing = (Λ t).killing) (hkills : ∀ q, μ.killing = some q → μ.held q = true)
    (hknows : ∀ p, t = .proc p → Knows safe p (proc p) μ) :
    Facts strict safe plock proc (update Λ t μ) := by
  refine { h with
    woken := fun p hs hk hw => ?_, held := fun u q hu => ?_, killing := fun u q hu => ?_,
    knows := fun p => ?_ }
  · obtain ⟨u, hu⟩ := h.woken p hs hk hw
    refine ⟨u, ?_⟩
    rw [proj_update Mode.killing hkilling]
    exact hu
  · grind [h.held]
  · grind [h.killing]
  · grind [h.knows]

theorem Facts.plock_mono {plock' : Fin n → Option (Thread n)}
    (hlock : ∀ t q, (Λ t).held q = true → plock' q = some t) :
    Facts strict safe plock' proc Λ := { h with held := hlock }

theorem Facts.acquire (hfree : plock q = none) :
    (Λ t).held q = false ∧
      Facts strict safe (update plock q (some t)) proc (update Λ t
        { Λ t with held := update (Λ t).held q true }) := by
  have hnot : ∀ u, (Λ u).held q = false := by
    intro u
    by_contra hu
    rw [h.held u q (by simpa using hu)] at hfree
    cases hfree
  have hother : ∀ u r, (Λ u).held r = true → update plock q (some t) r = some u := by
    intro u r hu
    grind [h.held]
  refine ⟨hnot t, Facts.mode (h.plock_mono hother) (fun r hr => ?_) rfl (fun r hr => ?_)
    fun p hp => ?_⟩
  · grind
  · grind [h.killing]
  · subst hp
    have hold := h.knows p
    unfold Knows at hold ⊢
    cases hf : (Λ (.proc p)).found with
    | clear =>
      rw [hf] at hold
      refine ⟨hold.1, ?_⟩
      change update (Λ (.proc p)).held q true p = true
      grind
    | _ =>
      rw [hf] at hold
      exact hold

theorem Facts.release (hown : plock q = some t) (hkilling : (Λ t).killing = none)
    (hclear : (Λ t).found ≠ .clear) :
    Facts strict safe (update plock q none) proc (update Λ t
      { Λ t with held := update (Λ t).held q false }) := by
  have hmode := h.mode (t := t) (μ := { Λ t with held := update (Λ t).held q false })
    (fun r hr => ?_) rfl (fun r hr => ?_) fun p hp => ?_
  · refine hmode.plock_mono fun u r hu => ?_
    have hr : r ≠ q := by
      rintro rfl
      by_cases hut : u = t
      · rw [hut, update_self] at hu
        change update (Λ t).held r false r = true at hu
        rw [update_self] at hu
        cases hu
      · rw [update_of_ne hut] at hu
        exact hut (Option.some.inj ((h.held u r hu).symm.trans hown))
    rw [update_of_ne hr]
    exact hmode.held u r hu
  · grind [h.held]
  · rw [show (Λ t).killing = some r from hr] at hkilling
    cases hkilling
  · subst hp
    have hold := h.knows p
    unfold Knows at hold ⊢
    cases hf : (Λ (.proc p)).found with
    | clear => exact absurd hf hclear
    | _ =>
      rw [hf] at hold
      exact hold

theorem Facts.setKilled (hheld : (Λ t).held q = true) (hfound : (Λ t).found = .no)
    (hkilling : (Λ t).killing = none) (hunseen : strict → (proc q).passed = false) :
    Facts strict safe plock (update proc q { proc q with killed := true })
      (update Λ t { Λ t with killing := some q }) where
  unseen := by
    intro hs p hp
    grind [h.unseen]
  woken := by
    intro p hs hk hw
    by_cases hpq : p = q
    · exact ⟨t, by rw [update_self, hpq]⟩
    rw [update_of_ne hpq] at hs hk hw
    obtain ⟨u, hu⟩ := h.woken p hs hk hw
    have hut : u ≠ t := by
      rintro rfl
      rw [hkilling] at hu
      cases hu
    exact ⟨u, by rwa [update_of_ne hut]⟩
  held := by
    intro u r hu
    grind [h.held]
  killing := by
    intro u r hu
    grind [h.killing]
  knows := by
    intro p
    by_cases hpt : Thread.proc p = t
    · rw [hpt, update_self]
      unfold Knows
      rw [show ({ Λ t with killing := some q } : Mode n).found = .no from hfound]
      trivial
    rw [update_of_ne hpt]
    have hold := h.knows p
    by_cases hpq : p = q
    · subst hpq
      rw [update_self]
      unfold Knows at hold ⊢
      cases hf : (Λ (.proc p)).found with
      | clear =>
        -- both threads would hold the lock
        rw [hf] at hold
        exact absurd (Option.some.inj ((h.held _ _ hold.2).symm.trans (h.held _ _ hheld))) hpt
      | _ =>
        rw [hf] at hold
        exact hold
    · rwa [update_of_ne hpq]

theorem Facts.wakeKilled (hkilling : (Λ t).killing = some q) (hq : (proc q).state ≠ .sleeping) :
    Facts strict safe plock proc (update Λ t { Λ t with killing := none }) := by
  have hheld : ∀ u, (update Λ t { Λ t with killing := none } u).held = (Λ u).held :=
    proj_update Mode.held rfl
  refine { h with
    woken := fun p hs hk hw => ?_, held := fun u r hu => ?_, killing := fun u r hu => ?_,
    knows := fun p => ?_ }
  · grind [h.woken]
  · rw [hheld] at hu
    exact h.held u r hu
  · grind [h.killing]
  · by_cases hpt : Thread.proc p = t
    · subst hpt
      rw [update_self]
      exact h.knows p
    · rw [update_of_ne hpt]
      exact h.knows p

theorem Facts.own {f : Found} (hunseen : strict → e.passed = true → e.killed = false)
    (hwoken : e.state = .sleeping → e.killed = true →
      (strict ∨ ∃ χ, e.chan = some χ ∧ safe χ) → ∃ t, (Λ t).killing = some p)
    (hknows : Knows safe p e { Λ (.proc p) with found := f }) :
    Facts strict safe plock (update proc p e)
      (update Λ (.proc p) { Λ (.proc p) with found := f }) := by
  have hheld : ∀ u, (update Λ (.proc p) { Λ (.proc p) with found := f } u).held =
      (Λ u).held := proj_update Mode.held rfl
  have hkilling : ∀ u, (update Λ (.proc p) { Λ (.proc p) with found := f } u).killing =
      (Λ u).killing := proj_update Mode.killing rfl
  refine ⟨fun hs r hr => ?_, fun r hs hk hw => ?_, fun u r hu => ?_, fun u r hu => ?_, fun r => ?_⟩
  · grind [h.unseen]
  · simp only [hkilling]
    by_cases hrp : r = p
    · subst hrp
      rw [update_self] at hs hk hw
      exact hwoken hs hk hw
    · rw [update_of_ne hrp] at hs hk hw
      exact h.woken r hs hk hw
  · rw [hheld] at hu
    exact h.held u r hu
  · rw [hkilling] at hu
    rw [hheld]
    exact h.killing u r hu
  · grind [h.knows]

theorem Facts.killed :
    Facts strict safe plock
      (update proc p { proc p with passed := !(proc p).killed })
      (update Λ (.proc p) { Λ (.proc p) with
        found := if (proc p).killed then .no else if (Λ (.proc p)).held p then .clear
          else .passed }) := by
  refine h.own (fun _ hp => by simpa using hp) (h.woken p) ?_
  cases hk : (proc p).killed with
  | true => trivial
  | false =>
    cases hh : (Λ (.proc p)).held p with
    | true => exact ⟨hk, hh⟩
    | false => rfl

theorem Facts.setChan
    (hall : safe χ ∧ (Λ (.proc p)).found = .clear ∨ ¬ safe χ ∧ (Λ (.proc p)).found = .passed) :
    Facts strict safe plock (update proc p { proc p with chan := some χ })
      (update Λ (.proc p) { Λ (.proc p) with
        found := if (Λ (.proc p)).found = .passed then .away else (Λ (.proc p)).found }) := by
  have hold := h.knows p
  rcases hall with ⟨-, hf⟩ | ⟨hnot, hf⟩
  · unfold Knows at hold
    rw [hf] at hold
    refine h.own (fun hs => h.unseen hs p) (fun _ hk => ?_) ?_
    · exact absurd (hold.1.symm.trans hk) (by decide)
    · rw [hf]
      exact hold
  unfold Knows at hold
  rw [hf] at hold
  refine h.own (fun hs => h.unseen hs p) (fun hs hk hw => h.woken p hs hk ?_) ?_
  · rcases hw with hstrict | ⟨χ', hχ, hsafe⟩
    · exact .inl hstrict
    · cases hχ
      exact absurd hsafe hnot
  · rw [if_pos hf]
    refine ⟨hold, fun χ' hχ => ?_⟩
    cases hχ
    exact hnot

theorem Facts.setSleeping (hall : (Λ (.proc p)).found = .clear ∨ (Λ (.proc p)).found = .away) :
    Facts strict safe plock
      (update proc p { proc p with state := .sleeping, passed := false })
      (update Λ (.proc p) { Λ (.proc p) with found := .no }) := by
  have hold := h.knows p
  unfold Knows at hold
  refine h.own (fun _ hp => by cases hp) (fun _ hk hw => ?_) trivial
  rcases hall with hf | hf
  · rw [hf] at hold
    exact absurd (hold.1.symm.trans hk) (by decide)
  · rw [hf] at hold
    rcases hw with hstrict | ⟨χ, hχ, hsafe⟩
    · exact absurd ((h.unseen hstrict p hold.1).symm.trans hk) (by decide)
    · exact absurd hsafe (hold.2 χ hχ)

end

section Sound

variable [DecidableEq K] [DecidableEq X] {g g' : Kernel n K X D} {b : β}

def Inv (strict : Prop) (safe : X → Prop) (g : Kernel n K X D) (Λ : Thread n → Mode n) : Prop :=
  Facts strict safe g.plock g.proc Λ

def Quiet (strict : Prop) (g : Kernel n K X D) : {β : Type} → ProcAct n K X β → Prop
  | _, .setKilled q => strict → (g.proc q).passed = false
  | _, _ => True

omit [DecidableEq K] [DecidableEq X] in
theorem Inv.same (h : Inv strict safe g Λ) : Inv strict safe g (update Λ t (Λ t)) := by
  rwa [update_eq_self]

omit [DecidableEq K] [DecidableEq X] in
theorem Inv.harmless (h : Inv strict safe g Λ) {f : Entry X → Entry X}
    (hf : Harmless (g.proc q) (f (g.proc q))) :
    Inv strict safe (g.modProc q f) (update Λ t (Λ t)) :=
  Inv.same (Facts.entry h hf)

section Locks

variable {u : Unit}

theorem Inv.step_acquire (h : Inv strict safe g Λ) {l : Lock n K}
    (hdone : execProc t (.acquire l : ProcAct n K X Unit) g = .done u g') :
    possible t (.acquire l : ProcAct n K X Unit) (Λ t) ∧
      Inv strict safe g' (update Λ t (after t (.acquire l : ProcAct n K X Unit) u (Λ t))) := by
  obtain ⟨hfree, rfl⟩ := execProc_acquire hdone
  cases l with
  | proc q => exact Facts.acquire h hfree
  | data k => exact ⟨trivial, Inv.same (g := g.setLock (some t) (.data k)) h⟩

theorem Inv.step_release (h : Inv strict safe g Λ) {l : Lock n K}
    (hall : allowed safe (.release l : ProcAct n K X Unit) (Λ t))
    (hdone : execProc t (.release l : ProcAct n K X Unit) g = .done u g') :
    Inv strict safe g' (update Λ t (after t (.release l : ProcAct n K X Unit) u (Λ t))) := by
  obtain ⟨hown, rfl⟩ := execProc_release hdone
  cases l with
  | proc q => exact Facts.release h hown hall.1 hall.2
  | data k => exact Inv.same (g := g.setLock none (.data k)) h

theorem Inv.step_swtch (h : Inv strict safe g Λ)
    (hall : allowed safe (.swtch : ProcAct n K X Unit) (Λ (.proc p)))
    (hdone : execProc (.proc p) (.swtch : ProcAct n K X Unit) g = .done u g') :
    Inv strict safe g' (update Λ (.proc p)
      (after (.proc p) (.swtch : ProcAct n K X Unit) u (Λ (.proc p)))) := by
  simp only [execProc] at hdone
  split at hdone
  · next hown =>
    split at hdone
    · cases hdone
    · cases hdone
      refine Facts.release h hown hall.1 ?_
      rw [hall.2]
      decide
  · cases hdone

theorem Inv.step_resume (h : Inv strict safe g Λ)
    (hdone : execProc (.proc p) (.resume : ProcAct n K X Unit) g = .done u g') :
    possible (.proc p) (.resume : ProcAct n K X Unit) (Λ (.proc p)) ∧
      Inv strict safe g' (update Λ (.proc p)
        (after (.proc p) (.resume : ProcAct n K X Unit) u (Λ (.proc p)))) := by
  simp only [execProc] at hdone
  split at hdone
  · next hready =>
    cases hdone
    obtain ⟨hnot, hlock⟩ := Facts.acquire (t := .proc p) h hready.1
    exact ⟨hnot, Facts.entry hlock ⟨rfl, id, (fun hs => by cases hs), fun _ => id⟩⟩
  · cases hdone

theorem Inv.step_wakeKilled (h : Inv strict safe g Λ) (hall : (Λ t).killing = some q)
    (hdone : execProc t (.wakeKilled q : ProcAct n K X Unit) g = .done u g') :
    Inv strict safe g' (update Λ t (after t (.wakeKilled q : ProcAct n K X Unit) u (Λ t))) := by
  simp only [execProc] at hdone
  split at hdone
  · cases hdone
    have hawake : Inv strict safe (g.modProc q fun e => { e with state := .runnable }) Λ :=
      Facts.entry h ⟨rfl, id, (fun hs => by cases hs), fun _ => id⟩
    refine Facts.wakeKilled hawake hall ?_
    change (update g.proc q _ q).state ≠ _
    rw [update_self]
    exact fun hs => by cases hs
  · next hnot =>
    cases hdone
    exact Facts.wakeKilled h hall hnot

end Locks

theorem Inv.step (h : Inv strict safe g Λ) {a : ProcAct n K X β} (hall : allowed safe a (Λ t))
    (hquiet : Quiet strict g a) (hdone : execProc t a g = .done b g') :
    possible t a (Λ t) ∧ Inv strict safe g' (update Λ t (after t a b (Λ t))) := by
  cases a with
  | acquire l => exact h.step_acquire hdone
  | release l => exact ⟨trivial, h.step_release hall hdone⟩
  | killed =>
    cases t with
    | intr i => cases hdone
    | proc p =>
      cases hdone
      exact ⟨trivial, Facts.killed h⟩
  | setChan χ =>
    cases t with
    | intr i => cases hdone
    | proc p =>
      cases hdone
      cases χ with
      | none => exact ⟨trivial, h.harmless ⟨rfl, id, id, fun _ hχ => by cases hχ⟩⟩
      | some χ => exact ⟨trivial, Facts.setChan h hall⟩
  | setSleeping =>
    cases t with
    | intr i => cases hdone
    | proc p =>
      cases hdone
      exact ⟨trivial, Facts.setSleeping h hall⟩
  | swtch =>
    cases t with
    | intr i => cases hdone
    | proc p => exact ⟨trivial, h.step_swtch hall hdone⟩
  | resume =>
    cases t with
    | intr i => cases hdone
    | proc p => exact h.step_resume hdone
  | wake q χ =>
    simp only [execProc] at hdone
    split at hdone
    · cases hdone
      exact ⟨trivial, h.harmless ⟨rfl, id, (fun hs => by cases hs), fun _ => id⟩⟩
    · cases hdone
      exact ⟨trivial, h.same⟩
  | setKilled q =>
    cases hdone
    exact ⟨trivial, Facts.setKilled h hall.1 hall.2.1 hall.2.2 hquiet⟩
  | wakeKilled q => exact ⟨trivial, h.step_wakeKilled hall hdone⟩
  | pid q | state q =>
    cases hdone
    exact ⟨trivial, h.same⟩
  | setPid q pid =>
    cases hdone
    exact ⟨trivial, h.harmless ⟨rfl, id, id, fun _ => id⟩⟩
  | start q =>
    cases hdone
    exact ⟨trivial, h.harmless ⟨rfl, id, (fun hs => by cases hs), fun _ => id⟩⟩
  | exited =>
    cases t with
    | intr i => cases hdone
    | proc p =>
      cases hdone
      exact ⟨trivial, h.harmless ⟨rfl, id, (fun hs => by cases hs), fun _ => id⟩⟩
  | freeproc q =>
    cases hdone
    exact ⟨trivial, h.harmless ⟨rfl, (fun hk => by cases hk), (fun hs => by cases hs),
      fun _ hχ => by cases hχ⟩⟩

variable {Loc : Type} {starts : Thread n → Loc → Code n K X D Loc → Prop}
  {cond : Thread n → {β : Type} → Act n K X D β → Kernel n K X D → Prop}

def outline (strict : Prop) (safe : X → Prop) (rest : Loc → Mode n → Prop) :
    Outline (Thread n) (Act n K X D) Loc (Kernel n K X D) (Mode n) where
  I := Inv strict safe
  safe := fun _ _ _ _ _ => True
  rest := fun _ => rest

theorem valid_of_careful {rest : Loc → Mode n → Prop}
    (hcond : ∀ t β (a : ProcAct n K X β) g, cond t (.proc a) g → Quiet strict g a)
    (h : Careful safe t c m Q) :
    Valid (sleepers starts) cond (outline strict safe rest) t c m Q := by
  induction c generalizing m with
  | ret a => exact h
  | act a r ih =>
    intro g Λ hΛ hI
    refine ⟨trivial, fun hc b g' hdone => ?_⟩
    subst hΛ
    cases a with
    | proc a =>
      obtain ⟨hposs, hI'⟩ := Inv.step hI h.1 (hcond t _ a g hc) hdone
      exact ⟨_, hI', ih b (h.2 hposs b)⟩
    | data f =>
      obtain ⟨d', -, rfl⟩ := exec_data (t := t) hdone
      refine ⟨Λ t, ?_, ih b (h b)⟩
      rw [update_eq_self]
      exact hI

end Sound

theorem careful_acquire :
    Careful safe t (act (.acquire (.proc q)) : Code n K X D Unit) m fun _ m' =>
      m.held q = false ∧ m' = { m with held := update m.held q true } :=
  ⟨trivial, fun hq _ => ⟨hq, rfl⟩⟩

theorem careful_release (hkilling : m.killing = none) (hclear : m.found ≠ .clear) :
    Careful safe t (act (.release (.proc q)) : Code n K X D Unit) m fun _ m' =>
      m' = { m with held := update m.held q false } :=
  ⟨⟨hkilling, hclear⟩, fun _ _ => rfl⟩

theorem careful_lock (k : K) :
    Careful safe t (act (.acquire (.data k)) : Code n K X D Unit) m fun _ m' => m' = m :=
  ⟨trivial, fun _ _ => rfl⟩

theorem careful_unlock (k : K) :
    Careful safe t (act (.release (.data k)) : Code n K X D Unit) m fun _ m' => m' = m :=
  ⟨trivial, fun _ _ => rfl⟩

theorem careful_wake (χ : X) :
    Careful safe t (act (.wake q χ) : Code n K X D Unit) m fun _ m' => m' = m :=
  ⟨trivial, fun _ _ => rfl⟩

theorem careful_pid : Careful safe t (act (.pid q) : Code n K X D ℕ) m fun _ m' => m' = m :=
  ⟨trivial, fun _ _ => rfl⟩

theorem careful_state :
    Careful safe t (act (.state q) : Code n K X D ProcState) m fun _ m' => m' = m :=
  ⟨trivial, fun _ _ => rfl⟩

theorem careful_setPid (pid : ℕ) :
    Careful safe t (act (.setPid q pid) : Code n K X D Unit) m fun _ m' => m' = m :=
  ⟨trivial, fun _ _ => rfl⟩

theorem careful_start : Careful safe t (act (.start q) : Code n K X D Unit) m fun _ m' => m' = m :=
  ⟨trivial, fun _ _ => rfl⟩

theorem careful_exited : Careful safe t (act .exited : Code n K X D Unit) m fun _ m' => m' = m :=
  ⟨trivial, fun _ _ => rfl⟩

theorem careful_freeproc :
    Careful safe t (act (.freeproc q) : Code n K X D Unit) m fun _ m' => m' = m :=
  ⟨trivial, fun _ _ => rfl⟩

theorem careful_setKilled (hheld : m.held q = true) (hfound : m.found = .no)
    (hkilling : m.killing = none) :
    Careful safe t (act (.setKilled q) : Code n K X D Unit) m fun _ m' =>
      m' = { m with killing := some q } :=
  ⟨⟨hheld, hfound, hkilling⟩, fun _ _ => rfl⟩

theorem careful_wakeKilled (hkilling : m.killing = some q) :
    Careful safe t (act (.wakeKilled q) : Code n K X D Unit) m fun _ m' =>
      m' = { m with killing := none } :=
  ⟨hkilling, fun _ _ => rfl⟩

theorem careful_setChan (hsafe : ¬ safe χ) (hfound : m.found = Found.passed) :
    Careful safe t (act (.setChan (some χ)) : Code n K X D Unit) m fun _ m' =>
      m' = { m with found := .away } := by
  refine ⟨.inr ⟨hsafe, hfound⟩, fun _ _ => ?_⟩
  change ({ m with found := if m.found = .passed then .away else m.found } : Mode n) = _
  rw [if_pos hfound]

theorem careful_setChan_safe (hsafe : safe χ) (hfound : m.found = .clear) :
    Careful safe t (act (.setChan (some χ)) : Code n K X D Unit) m fun _ m' => m' = m := by
  refine ⟨.inl ⟨hsafe, hfound⟩, fun _ _ => ?_⟩
  change ({ m with found := if m.found = .passed then .away else m.found } : Mode n) = m
  rw [if_neg (by rw [hfound]; decide)]

theorem careful_clearChan (hfound : m.found = .no) :
    Careful safe t (act (.setChan none) : Code n K X D Unit) m fun _ m' => m' = m :=
  ⟨hfound, fun _ _ => rfl⟩

theorem careful_setSleeping (hfound : m.found = .clear ∨ m.found = .away) :
    Careful safe t (act .setSleeping : Code n K X D Unit) m fun _ m' =>
      m' = { m with found := .no } :=
  ⟨hfound, fun _ _ => rfl⟩

theorem careful_swtch (hkilling : m.killing = none) (hfound : m.found = .no) :
    Careful safe (.proc p) (act .swtch : Code n K X D Unit) m fun _ m' =>
      m' = { m with held := update m.held p false } :=
  ⟨⟨hkilling, hfound⟩, fun _ _ => rfl⟩

theorem careful_resume (hfound : m.found = .no) :
    Careful safe (.proc p) (act .resume : Code n K X D Unit) m fun _ m' =>
      m' = { m with held := update m.held p true } :=
  ⟨hfound, fun _ _ => rfl⟩

def idle : Mode n := ⟨fun _ => false, .no, none⟩

def passing : Mode n := ⟨fun _ => false, .passed, none⟩

def locked (p : Fin n) (f : Found) : Mode n := ⟨update (fun _ => false) p true, f, none⟩

theorem relock (hq : m.held q = false) :
    { m with held := update (update m.held q true) q false } = m := by
  rw [update_idem, ← hq, update_eq_self]

theorem careful_wakeupFrom (χ : X) (qs : List (Fin n)) (hkilling : m.killing = none)
    (hclear : m.found ≠ .clear) :
    Careful safe t (wakeupFrom χ qs : Code n K X D Unit) m fun _ m' => m' = m := by
  induction qs with
  | nil => rfl
  | cons q qs ih =>
    refine careful_acquire.seq ?_
    rintro _ _ ⟨hq, rfl⟩
    refine (careful_wake χ).next fun _ => ?_
    refine (careful_release (by exact hkilling) (by exact hclear)).next fun _ => ?_
    rw [relock hq]
    exact ih

theorem careful_wakeup (χ : X) (hkilling : m.killing = none) (hclear : m.found ≠ .clear) :
    Careful safe t (wakeup χ : Code n K X D Unit) m fun _ m' => m' = m :=
  careful_wakeupFrom χ _ hkilling hclear

theorem careful_killFrom (pid : ℕ) (qs : List (Fin n)) (hkilling : m.killing = none)
    (hfound : m.found = .no) :
    Careful safe t (killFrom pid qs : Code n K X D ℤ) m fun _ m' => m' = m := by
  have hclear : m.found ≠ .clear := by
    rw [hfound]
    decide
  induction qs with
  | nil => rfl
  | cons q qs ih =>
    refine careful_acquire.seq ?_
    rintro _ _ ⟨hq, rfl⟩
    refine careful_pid.next fun k => ?_
    split_ifs
    · refine (careful_setKilled (update_self ..) (by exact hfound)
        (by exact hkilling)).next fun _ => ?_
      refine (careful_wakeKilled (by rfl)).next fun _ => ?_
      refine (careful_release (by rfl) (by exact hclear)).next fun _ => ?_
      change ({ m with held := _, killing := none } : Mode n) = m
      rw [← hkilling]
      exact relock hq
    · refine (careful_release (by exact hkilling) (by exact hclear)).next fun _ => ?_
      rw [relock hq]
      exact ih

theorem careful_kill (pid : ℕ) (hkilling : m.killing = none) (hfound : m.found = .no) :
    Careful safe t (kill pid : Code n K X D ℤ) m fun _ m' => m' = m :=
  careful_killFrom pid _ hkilling hfound

theorem careful_killed :
    Careful safe (.proc p) (act .killed : Code n K X D Bool) idle fun b m' =>
      m' = if b then idle else passing := by
  refine ⟨trivial, fun _ b => ?_⟩
  cases b <;> rfl

theorem careful_killed_locked :
    Careful safe (.proc p) (act .killed : Code n K X D Bool) (locked p .no) fun b m' =>
      m' = locked p (if b then .no else .clear) := by
  refine ⟨trivial, fun _ b => ?_⟩
  cases b with
  | true => rfl
  | false =>
    have hheld : (locked p .no).held p = true := by simp [locked]
    change ({ locked p .no with
      found := if (locked p .no).held p then .clear else .passed } : Mode n) = locked p .clear
    rw [if_pos hheld]
    rfl

theorem unlocked (p : Fin n) (f : Found) :
    ({ locked p f with held := update (locked p f).held p false } : Mode n) =
      ⟨fun _ => false, f, none⟩ := by
  unfold locked
  rw [update_idem, update_eq_self]

theorem careful_sleep {k : K} (hsafe : ¬ safe χ) :
    Careful safe (.proc p) (sleep p χ k : Code n K X D Unit) passing fun _ m' => m' = idle := by
  refine careful_acquire.seq ?_
  rintro _ _ ⟨-, rfl⟩
  refine (careful_unlock k).next fun _ => ?_
  refine (careful_setChan hsafe (by rfl)).next fun _ => ?_
  refine (careful_setSleeping (.inr (by rfl))).next fun _ => ?_
  refine (careful_swtch (by rfl) (by rfl)).mono ?_
  rintro _ _ rfl
  exact unlocked p .no

theorem careful_awake {k : K} :
    Careful safe (.proc p) (awake p k : Code n K X D Unit) idle fun _ m' => m' = idle := by
  refine (careful_resume (by rfl)).next fun _ => ?_
  refine (careful_clearChan (by rfl)).next fun _ => ?_
  refine (careful_release (by rfl) (fun h => by cases h)).next fun _ => ?_
  refine (careful_lock k).mono ?_
  rintro _ _ rfl
  exact unlocked p .no

theorem careful_sleepLocked (hsafe : safe χ) :
    Careful safe (.proc p) (sleepLocked χ : Code n K X D Unit) (locked p .clear) fun _ m' =>
      m' = idle := by
  refine (careful_setChan_safe hsafe (by rfl)).next fun _ => ?_
  refine (careful_setSleeping (.inl (by rfl))).next fun _ => ?_
  refine (careful_swtch (by rfl) (by rfl)).mono ?_
  rintro _ _ rfl
  exact unlocked p .no

theorem careful_awakeLocked :
    Careful safe (.proc p) (awakeLocked : Code n K X D Unit) idle fun _ m' =>
      m' = locked p .no := by
  refine (careful_resume (by rfl)).next fun _ => ?_
  exact careful_clearChan (by rfl)

end Xv6.KillRules
