import Xv6.ProcLives

set_option autoImplicit false

namespace Xv6.ProcInvariant
open Resumption Interleaving ProcCode
open LogCode (Proc)
open Function (update update_eq_self update_idem update_of_ne update_self)

variable {n : ℕ} {lockOf : ℕ → ℕ} {o : Opts} {t : Thread n} {p : Proc} {ℓ : Ghost} {β : Type}
variable {g : State n} {a : Act β} {Λ : Thread n → Ghost} {c : Fin n} {Q : β → Ghost → Prop}
variable {l : Lock} {q : Proc}

variable (lockOf o) in
abbrev Ok {α : Type} (t : Thread n) (prog : Prog Act α) (ℓ : Ghost) (Q : α → Ghost → Prop) : Prop :=
  Valid (kernel n lockOf) (Good o) (outline n lockOf o) t prog ℓ Q

theorem Edge.refl (s : ProcState) : Edge s s := by
  cases s <;> rfl

def Minor : Event → Prop
  | .wait _ _ _ _ => False
  | .copyFailed _ _ _ => False
  | _ => True

def Quiet (l l' : List Event) : Prop := l' = l ∨ ∃ e, l' = l ++ [e] ∧ Minor e

theorem Quiet.minor {l l' : List Event} (h : Quiet l l') {e : Event} (he : l' = l ++ [e]) :
    Minor e := by
  rcases h with h | ⟨e', h, hm⟩
  · rw [h] at he
    have := congrArg List.length he
    rw [List.length_append, List.length_singleton] at this
    omega
  · rw [h] at he
    cases List.append_cancel_left he
    exact hm

theorem Legal.same {g' : State n} (h : g'.entry = g.entry) (hq : Quiet g.trace g'.trace) :
    Legal t g g' where
  edge := by
    intro q
    rw [show st g' q = st g q from congrArg (fun e => (e q).state) h]
    exact Edge.refl _
  reaped := by
    intro q hq hq'
    rw [show st g' q = st g q from congrArg (fun e => (e q).state) h] at hq'
    exact absurd hq' hq
  waits := fun _ _ _ _ he => (hq.minor he).elim
  failed := fun _ _ _ he => (hq.minor he).elim

theorem Legal.modify {g' : State n} {e : Entry} (h : g'.entry = update g.entry q e)
    (hq : Quiet g.trace g'.trace) (hedge : Edge (st g q) e.state)
    (hne : e.state = .unused → st g q = .unused) :
    Legal t g g' := by
  have hst : st g' = update (st g) q e.state := by
    have := proj_new Entry.state g.entry q e
    rw [← h] at this
    exact this
  constructor
  · intro x
    rw [hst]
    by_cases hx : x = q
    · rw [hx, update_self]
      exact hedge
    · rw [update_of_ne hx]
      exact Edge.refl _
  · intro x hx hx'
    rw [hst] at hx'
    grind
  · exact fun _ _ _ _ he => (hq.minor he).elim
  · exact fun _ _ _ he => (hq.minor he).elim

theorem Safe.off (h : g.hart t = none) : Safe o t a g Λ := by
  have hexec : exec t a g = .blocked := by
    unfold exec
    rw [h]
  constructor
  · intro _ msg hm
    rw [hexec] at hm
    cases hm
  · intro _ b g' hm
    rw [hexec] at hm
    cases hm
  · intro _ _ _ hne
    exact absurd h hne
  · intro _ hne
    exact absurd h hne

theorem exec_on (h : g.hart t = some c) : exec t a g = execOn t c a g := by
  unfold exec
  rw [h]

theorem ok_act (hwants : wants a = none)
    (h : ∀ g Λ c, Λ t = ℓ → Inv lockOf o g Λ → g.hart t = some c → Good o t a g →
      (o.clean → o.kill → Aimed a g) ∧ ∃ b g' ℓ', execOn t c a g = .done b g' ∧
        Legal t g g' ∧ Inv lockOf o g' (update Λ t ℓ') ∧ Q b ℓ') :
    Ok lockOf o t (act a) ℓ Q := by
  apply Valid.perform
  intro g Λ hl hI
  change Safe o t a g Λ ∧ (Good o t a g → ∀ b g', exec t a g = .done b g' →
    ∃ ℓ', Inv lockOf o g' (update Λ t ℓ') ∧ Q b ℓ')
  cases hart : g.hart t with
  | none =>
    refine ⟨Safe.off hart, fun _ b g' hdone => ?_⟩
    rw [exec, hart] at hdone
    cases hdone
  | some c =>
    rw [exec_on hart]
    constructor
    · constructor
      · intro hgood msg hm
        obtain ⟨-, b, g', ℓ', hdone, -⟩ := h g Λ c hl hI hart hgood
        rw [exec_on hart, hdone] at hm
        cases hm
      · intro hgood b g' hm
        obtain ⟨-, b, g', ℓ', hdone, hlegal, -⟩ := h g Λ c hl hI hart hgood
        rw [exec_on hart, hdone] at hm
        cases hm
        exact hlegal
      · intro hc hk hgood _
        exact (h g Λ c hl hI hart hgood).1 hc hk
      · intro _ _ q hq
        rw [hwants] at hq
        cases hq
    · intro hgood b g' hm
      obtain ⟨-, b, g', ℓ', hdone, -, hI', hQ⟩ := h g Λ c hl hI hart hgood
      rw [hdone] at hm
      cases hm
      exact ⟨ℓ', hI', hQ⟩

theorem ok_recast {α : Type} {k : β → Prog Act α} {Q : α → Ghost → Prop} (ℓ' : Ghost)
    (hheld : ℓ'.held = ℓ.held)
    (h : ∀ g Λ, Λ t = ℓ → Inv lockOf o g Λ → g.hart t ≠ none → Inv lockOf o g (update Λ t ℓ'))
    (hok : Ok lockOf o t (act a >>= k) ℓ' Q) : Ok lockOf o t (act a >>= k) ℓ Q := by
  intro g Λ hl hI
  change Safe o t a g Λ ∧ (Good o t a g → ∀ b g', exec t a g = .done b g' →
    ∃ ℓ2, Inv lockOf o g' (update Λ t ℓ2) ∧ _)
  by_cases hart : g.hart t = none
  · refine ⟨Safe.off hart, fun _ b g' hdone => ?_⟩
    rw [exec, hart] at hdone
    cases hdone
  obtain ⟨hsafe, hrest⟩ := hok g (update Λ t ℓ') (update_self ..) (h g Λ hl hI hart)
  constructor
  · refine ⟨hsafe.sound, hsafe.legal, hsafe.aimed, fun ho hne q hq x hx => ?_⟩
    apply hsafe.order ho hne q hq x
    rw [update_self, hheld, ← hl]
    exact hx
  · intro hgood b g' hdone
    obtain ⟨ℓ2, hI2, hQ⟩ := hrest hgood b g' hdone
    rw [update_idem] at hI2
    exact ⟨ℓ2, hI2, hQ⟩

theorem ok_upgrade {R : β → Ghost → Prop} (hok : Ok lockOf o t (act a) ℓ Q)
    (h : ∀ (g : State n) Λ b, Inv lockOf o g Λ → Q b (Λ t) →
      ∃ ℓ', Inv lockOf o g (update Λ t ℓ') ∧ R b ℓ') :
    Ok lockOf o t (act a) ℓ R := by
  apply Valid.perform
  intro g Λ hl hI
  obtain ⟨hsafe, hrest⟩ := hok g Λ hl hI
  refine ⟨hsafe, fun hgood b g' hdone => ?_⟩
  obtain ⟨ℓ1, hI1, hQ⟩ := hrest hgood b g' hdone
  obtain ⟨ℓ2, hI2, hR⟩ := h g' _ b hI1 (by rw [update_self]; exact hQ)
  rw [update_idem] at hI2
  exact ⟨ℓ2, hI2, hR⟩

theorem ok_resume {α : Type} {k : β → Prog Act α} {Q : α → Ghost → Prop} (hoff : ℓ.phase = .off)

    (hok : Ok lockOf o (.proc p : Thread n) (act a >>= k) { ℓ with phase := .run, dead := false } Q) :
    Ok lockOf o (.proc p : Thread n) (act a >>= k) ℓ Q := by
  apply ok_recast { ℓ with phase := .run, dead := false } _ _ hok
  · rfl
  · intro g Λ hl hI hart
    subst hl
    exact hI.resume rfl hart hoff

/-- What must be known to take a lock: it is not held, locks of processes are taken in the order
    of process ids, and only an interrupt takes that of the parent `exit` remembers. -/
def Takes (lockOf : ℕ → ℕ) (o : Opts) (t : Thread n) (ℓ : Ghost) (l : Lock) : Prop :=
  ∀ (g : State n) Λ, Λ t = ℓ → Inv lockOf o g Λ → g.hart t ≠ none → l ∉ ℓ.held ∧
    ∀ q, l = .proc q → (o.order → ∀ x, .proc x ∈ ℓ.held → pid g x < pid g q) ∧
      ∀ v a G k, ℓ.job = .leaving (some v) a G k → q ≠ v ∨ ∃ i, .other i ∈ ℓ.held

theorem takes_first (hl : l ∉ ℓ.held) (hfree : ∀ x, .proc x ∉ ℓ.held)
    (hjob : ∀ v a G k q, l = .proc q → ℓ.job = .leaving (some v) a G k →
      q ≠ v ∨ ∃ i, .other i ∈ ℓ.held) :
    Takes lockOf o t ℓ l := by
  intro g Λ _ _ _
  refine ⟨hl, fun q hq => ⟨fun _ x hx => absurd hx (hfree x), fun v a G k hj => ?_⟩⟩
  exact hjob v a G k q hq hj

theorem acquire_outcome (h : g.lock l ≠ some c) :
    g.acquire c l = .blocked ∧ g.lock l ≠ none ∨ g.lock l = none ∧ g.acquire c l = .done ()
      { g with
        lock := update g.lock l (some c)
        noff := update g.noff c (g.noff c + 1) } := by
  unfold State.acquire
  rw [if_neg h]
  by_cases hfree : g.lock l = none
  · rw [if_neg (not_not_intro hfree)]
    exact .inr ⟨hfree, rfl⟩
  · rw [if_pos hfree]
    exact .inl ⟨rfl, hfree⟩

theorem ok_acquiring {a : Act Unit} (hexec : ∀ c (g : State n), execOn t c a g =
    g.acquire c l)
    (hwants : ∀ q, wants a = some q → l = .proc q)
    (htake : ∀ (g : State n) Λ, Λ t = ℓ → Inv lockOf o g Λ → g.hart t ≠ none → l ∉ ℓ.held ∧
      ∀ q, l = .proc q → o.order → ∀ x, .proc x ∈ ℓ.held → pid g x < pid g q)
    (hwf : Wf lockOf t ℓ → Wf lockOf t { ℓ with held := insert l ℓ.held })
    (hbelow : ∀ (g : State n) Λ, Λ t = ℓ → Inv lockOf o g Λ → Good o t a g → ∀ p, t = .proc p →
      PidsJob o.order (pid g) g.nextpid p (insert l ℓ.held) ℓ.job)
    (haim : ∀ g : State n, Aimed a g) :
    Ok lockOf o t (act a) ℓ fun _ ℓ' => ℓ' = { ℓ with held := insert l ℓ.held } := by
  apply Valid.perform
  intro g Λ hl hI
  change Safe o t a g Λ ∧ (Good o t a g → ∀ b g', exec t a g = .done b g' →
    ∃ ℓ', Inv lockOf o g' (update Λ t ℓ') ∧ ℓ' = { ℓ with held := insert l ℓ.held })
  cases hart : g.hart t with
  | none =>
    refine ⟨Safe.off hart, fun _ b g' hdone => ?_⟩
    rw [exec, hart] at hdone
    cases hdone
  | some c =>
    have hne : g.hart t ≠ none := by
      rw [hart]
      exact Option.some_ne_none c
    obtain ⟨hnot, horder⟩ := htake g Λ hl hI hne
    have hlock : g.lock l ≠ some c := by
      intro hc
      have := (hI.harts.lock_iff hart l).1 hc
      rw [hl] at this
      exact hnot this
    have hsafe_order : o.order → g.hart t ≠ none → ∀ q, wants a = some q → ∀ x,
        .proc x ∈ (Λ t).held → pid g x < pid g q := by
      intro ho _ q hq x hx
      rw [hl] at hx
      exact horder q (hwants q hq) ho x hx
    have hcase := acquire_outcome hlock
    rw [← hexec c g] at hcase
    rcases hcase with ⟨hblock, -⟩ | ⟨hfree, hdone⟩
    · constructor
      · constructor
        · intro _ msg hm
          rw [exec_on hart, hblock] at hm
          cases hm
        · intro _ b g' hm
          rw [exec_on hart, hblock] at hm
          cases hm
        · exact fun _ _ _ _ => haim g
        · exact hsafe_order
      · intro _ b g' hm
        rw [exec_on hart, hblock] at hm
        cases hm
    · constructor
      · constructor
        · intro _ msg hm
          rw [exec_on hart, hdone] at hm
          cases hm
        · intro _ b g' hm
          rw [exec_on hart, hdone] at hm
          cases hm
          exact Legal.same rfl (.inl rfl)
        · exact fun _ _ _ _ => haim g
        · exact hsafe_order
      · intro hgood b g' hm
        rw [exec_on hart, hdone] at hm
        cases hm
        refine ⟨{ ℓ with held := insert l ℓ.held }, ?_, rfl⟩
        subst hl
        apply hI.locks (hwf (hI.wf t)) _ rfl rfl rfl rfl rfl (hbelow g Λ rfl hI hgood)
        rw [proj_new]
        exact hI.harts.acquire hart hfree

theorem Job.Locked.mono {H H' : Finset Lock} {j : Job} (h : j.Locked lockOf p H) (hsub : H ⊆ H') :
    j.Locked lockOf p H' := by
  cases j with
  | idle => trivial
  | making q s => exact hsub h
  | leaving v a G k =>
    refine ⟨fun ha => ?_, h.2.imp_right fun hp => hsub hp⟩
    obtain ⟨v', hv', hmem⟩ := h.1 ha
    exact ⟨v', hv', hsub hmem⟩
  | waiting S k c =>
    refine ⟨hsub h.1, fun hc => ?_⟩
    obtain ⟨q, hq, hmem⟩ := h.2 hc
    exact ⟨q, hq, hsub hmem⟩
  | drowsy χ => exact h.imp (fun hl => hsub hl) fun hp => hsub hp

theorem wf_insert (l : Lock) (hphase : ℓ.phase = .run ∨ ℓ.phase = .free) (h : Wf lockOf t ℓ) :
    Wf lockOf t { ℓ with held := insert l ℓ.held } := by
  cases t with
  | cpu c =>
    obtain ⟨hp, hw⟩ := h
    refine ⟨?_, fun χ P hχ => Finset.mem_insert_of_mem (hw χ P hχ)⟩
    rcases hphase with hph | hph
    · rw [hph] at hp
      exact hp.elim
    · change ℓ.phase.OfCpu _
      rw [hph]
      trivial
  | proc p =>
    obtain ⟨hp, hj, hcalm, hdead, hw⟩ := h
    refine ⟨?_, hj.mono (Finset.subset_insert _ _), hcalm, hdead,
      fun χ P hχ => Finset.mem_insert_of_mem (hw χ P hχ)⟩
    rcases hphase with hph | hph
    · change ℓ.phase.OfProc p _
      rw [hph]
      trivial
    · rw [hph] at hp
      exact hp.elim

theorem ok_acquire (hphase : ℓ.phase = .run ∨ ℓ.phase = .free) (htake : Takes lockOf o t ℓ l) :
    Ok lockOf o t (act (.acquire l)) ℓ fun _ ℓ' => ℓ' = { ℓ with held := insert l ℓ.held } := by
  apply ok_acquiring (l := l)
  · exact fun _ _ => rfl
  · intro q hq
    cases l with
    | proc x =>
      cases hq
      rfl
    | pid => cases hq
    | other i => cases hq
  · intro g Λ hl hI hart
    obtain ⟨hnot, hrest⟩ := htake g Λ hl hI hart
    exact ⟨hnot, fun q hq => (hrest q hq).1⟩
  · exact wf_insert l hphase
  · intro g Λ hl hI _ p ht
    subst ht
    have hj : PidsJob o.order (pid g) g.nextpid p ℓ.held ℓ.job := by
      rw [← hl]
      exact hI.pids.job p
    cases hjob : ℓ.job with
    | leaving v a G k =>
      cases v with
      | none => trivial
      | some v =>
        rw [hjob] at hj
        intro ho hv hno
        refine hj ho ?_ fun i hi => hno i (Finset.mem_insert_of_mem hi)
        rcases Finset.mem_insert.1 hv with heq | hv
        · by_cases hart : g.hart (.proc p) = none
          · -- A process off the CPU has no other phase than that.
            have hoff := hI.sched.off p hart
            have hwf := hI.proc_wf p
            rw [hl] at hoff hwf
            rcases hphase with hph | hph
            · rw [hph] at hoff
              cases hoff
            · rw [hph] at hoff
              cases hoff
          · rcases ((htake g Λ hl hI hart).2 v heq.symm).2 v a G k hjob with hne | ⟨i, hi⟩
            · exact absurd rfl hne
            · exact absurd (Finset.mem_insert_of_mem hi) (hno i)
        · exact hv
    | making q s =>
      rw [hjob] at hj
      exact hj
    | idle => trivial
    | waiting S k c => trivial
    | drowsy χ => trivial
  · exact fun _ => trivial

theorem ok_acquireParent {v : Proc} {G : Finset Proc} {k : Option Proc} (hrun : ℓ.phase = .run)
    (hheld : ℓ.held = ∅) (hjob : ℓ.job = .leaving (some v) false G k) :
    Ok lockOf o (.proc p : Thread n) (act (.acquireParent v)) ℓ fun _ ℓ' =>
      ℓ' = { ℓ with held := insert (.proc v) ℓ.held } := by
  apply ok_acquiring (l := .proc v)
  · exact fun _ _ => rfl
  · intro q hq
    cases hq
    rfl
  · intro g Λ _ _ _
    rw [hheld]
    exact ⟨Finset.notMem_empty _, fun _ _ _ x hx => absurd hx (Finset.notMem_empty _)⟩
  · exact wf_insert _ (.inl hrun)
  · intro g Λ hl hI hgood p' ht
    cases ht
    rw [hjob]
    exact fun ho _ _ => hgood ho p rfl
  · exact fun _ => trivial

theorem ok_release (hl : l ∈ ℓ.held)
    (hwf : Wf lockOf t ℓ → Wf lockOf t { ℓ with held := ℓ.held.erase l })
    (hpids : ∀ i v a G k, l = .other i → ℓ.job = .leaving (some v) a G k → .proc v ∉ ℓ.held) :
    Ok lockOf o t (act (.release l)) ℓ fun _ ℓ' => ℓ' = { ℓ with held := ℓ.held.erase l } := by
  apply ok_act rfl
  intro g Λ c hΛ hI hart _
  subst hΛ
  have hlock : g.lock l = some c := (hI.harts.lock_iff hart l).2 hl
  have hnoff : ¬ g.noff c < 1 := by
    rw [hI.harts.noff t c hart]
    have := Finset.card_pos.2 ⟨l, hl⟩
    omega
  refine ⟨fun _ _ => trivial, (), { g with
    lock := update g.lock l none
    noff := update g.noff c (g.noff c - 1) }, { Λ t with held := (Λ t).held.erase l }, ?_,
    Legal.same rfl (.inl rfl), ?_, rfl⟩
  · change g.release c l = _
    unfold State.release
    rw [if_neg (not_not_intro hlock), if_neg hnoff]
  · apply hI.locks (hwf (hI.wf t)) _ rfl rfl rfl rfl rfl
    · intro p ht
      subst ht
      have hj := hI.pids.job p
      change PidsJob o.order (pid g) g.nextpid p ((Λ (.proc p)).held.erase l) (Λ (.proc p)).job
      change PidsJob o.order (pid g) g.nextpid p (Λ (.proc p)).held (Λ (.proc p)).job at hj
      cases hjob : (Λ (.proc p)).job with
      | leaving v a G k =>
        cases v with
        | none => trivial
        | some v =>
          rw [hjob] at hj
          intro ho hv hno
          have hv' := Finset.mem_of_mem_erase hv
          apply hj ho hv'
          intro i hi
          by_cases hil : .other i = l
          · exact hpids i v a G k hil.symm hjob hv'
          · exact hno i (Finset.mem_erase_of_ne_of_mem hil hi)
      | making q s =>
        rw [hjob] at hj
        exact hj
      | idle => trivial
      | waiting S k c => trivial
      | drowsy χ => trivial
    · rw [proj_new]
      exact hI.harts.release hart hl

theorem wf_erase (hphase : ℓ.phase = .run ∨ ℓ.phase = .free)
    (hjob : ∀ p, t = .proc p → ℓ.job.Locked lockOf p (ℓ.held.erase l))
    (hwaking : ∀ χ P, ℓ.waking = some (χ, P) → .other (lockOf χ) ≠ l) (h : Wf lockOf t ℓ) :
    Wf lockOf t { ℓ with held := ℓ.held.erase l } := by
  cases t with
  | cpu c =>
    refine ⟨?_, fun χ P hχ => Finset.mem_erase_of_ne_of_mem (hwaking χ P hχ) (h.waking χ P hχ)⟩
    have hp := h.phase
    rcases hphase with hph | hph
    · rw [hph] at hp
      exact hp.elim
    · change ℓ.phase.OfCpu _
      rw [hph]
      trivial
  | proc p =>
    refine ⟨?_, hjob p rfl, h.calm, h.dead,
      fun χ P hχ => Finset.mem_erase_of_ne_of_mem (hwaking χ P hχ) (h.waking χ P hχ)⟩
    have hp := h.phase
    rcases hphase with hph | hph
    · change ℓ.phase.OfProc p _
      rw [hph]
      trivial
    · rw [hph] at hp
      exact hp.elim

theorem ok_observe (val : State n → Fin n → β)
    (hwants : wants a = none) (haim : ∀ g : State n, Aimed a g)
    (hexec : ∀ c (g : State n), execOn t c a g = .done (val g c) g)
    (h : ∀ g Λ c, Λ t = ℓ → Inv lockOf o g Λ → g.hart t = some c →
      ∃ ℓ', Inv lockOf o g (update Λ t ℓ') ∧ Q (val g c) ℓ') :
    Ok lockOf o t (act a) ℓ Q := by
  apply ok_act hwants
  intro g Λ c hl hI hart _
  obtain ⟨ℓ', hI', hQ⟩ := h g Λ c hl hI hart
  exact ⟨fun _ _ => haim g, val g c, g, ℓ', hexec c g, Legal.same rfl (.inl rfl), hI', hQ⟩

theorem inv_same (hl : Λ t = ℓ) (hI : Inv lockOf o g Λ) : Inv lockOf o g (update Λ t ℓ) := by
  rw [← hl, update_eq_self]
  exact hI

theorem ok_myproc :
    Ok lockOf o (.proc p : Thread n) (act .myproc) ℓ fun b ℓ' => b = some p ∧ ℓ' = ℓ := by
  refine ok_observe (fun g c => g.proc c) rfl (fun _ => trivial) (fun _ _ => rfl) ?_
  intro g Λ c hl hI hart
  exact ⟨ℓ, inv_same hl hI, (hI.sched.lent c p (hI.sched.on p c hart)).1, rfl⟩

theorem ok_myproc_cpu (hfree : ℓ.phase = .free) :
    Ok lockOf o (.cpu c) (act .myproc) ℓ fun b ℓ' => b = none ∧ ℓ' = ℓ := by
  refine ok_observe (fun g c => g.proc c) rfl (fun _ => trivial) (fun _ _ => rfl) ?_
  intro g Λ d hl hI hart
  have hd : d = c := hI.sched.here c d hart
  subst hl
  rw [hd]
  exact ⟨Λ (.cpu c), inv_same rfl hI, (hI.sched.free c hfree).2, rfl⟩

theorem ok_get (q : Proc) : Ok lockOf o t (act (.get q)) ℓ fun _ ℓ' => ℓ' = ℓ := by
  refine ok_observe (fun g _ => g.entry q) rfl (fun _ => trivial) (fun _ _ => rfl) ?_
  intro g Λ c hl hI _
  exact ⟨ℓ, inv_same hl hI, rfl⟩

theorem Inv.turn (hI : Inv lockOf o g Λ) {j : Job} (hℓ : ℓ = { Λ (.proc p) with job := j })
    (hrun : (Λ (.proc p)).phase = .run) (hold : ∀ q s, (Λ (.proc p)).job ≠ .making q s)
    (hnew : ∀ q s, j ≠ .making q s) (hwf : j.Locked lockOf p (Λ (.proc p)).held)
    (htree : TreeJob (st g) (par g) p j) (hwaits : WaitsJob (st g) (par g) (chan g) p j)
    (hwakes : ∀ χ, j = .drowsy χ → Covered g.cond (fun t => (Λ t).waking) χ p)
    (hpids : PidsJob o.order (pid g) g.nextpid p (Λ (.proc p)).held j)
    (hhist : HistoryJob (pid g) (xst g) g.trace p j) :
    Inv lockOf o g (update Λ (.proc p) ℓ) := by
  apply hI.setJob hℓ hwf _ _ htree _ _ hwaits hwakes hpids _ hhist
  · intro hoff
    rw [hrun] at hoff
    cases hoff
  · intro hdead
    have hoff := ((hI.proc_wf p).dead hdead).1
    rw [hrun] at hoff
    cases hoff
  · exact fun q s hq => absurd hq (hold q s)
  · exact fun q s hq => absurd hq (hnew q s)
  · exact fun q s _ hq => absurd hq (hnew q s)

theorem Inv.drop (hI : Inv lockOf o g Λ) (hℓ : ℓ = { Λ (.proc p) with job := .idle })
    (hrun : (Λ (.proc p)).phase = .run) (hold : ∀ q s, (Λ (.proc p)).job ≠ .making q s) :
    Inv lockOf o g (update Λ (.proc p) ℓ) :=
  hI.turn hℓ hrun hold nofun trivial trivial trivial nofun trivial trivial

theorem Inv.attend (hI : Inv lockOf o g Λ)
    (hℓ : ℓ = { Λ (.proc p) with job := .waiting ∅ none none }) (hrun : (Λ (.proc p)).phase = .run)
    (hjob : (Λ (.proc p)).job = .idle) (hp : .proc p ∈ (Λ (.proc p)).held) :
    Inv lockOf o g (update Λ (.proc p) ℓ) := by
  have halive : Alive (st g p) := by
    rw [hI.running hrun]
    exact ⟨nofun, nofun⟩
  refine hI.turn hℓ hrun ?_ nofun ⟨hp, nofun⟩ ⟨halive, nofun⟩ nofun nofun trivial trivial
  rw [hjob]
  exact nofun

section

variable (hrun : ℓ.phase = .run)
include hrun

theorem ok_get_unused (hq : .proc q ∈ ℓ.held) (hjob : ℓ.job = .idle) :
    Ok lockOf o (.proc p : Thread n) (act (.get q)) ℓ fun e ℓ' =>
      ℓ' = if e.state = .unused then { ℓ with job := .making q .found } else ℓ := by
  refine ok_observe (fun g _ => g.entry q) rfl (fun _ => trivial) (fun _ _ => rfl) ?_
  intro g Λ c hl hI hart
  by_cases hun : (g.entry q).state = .unused
  · refine ⟨{ ℓ with job := .making q .found }, ?_, by rw [if_pos hun]⟩
    subst hl
    have hon : g.hart (.proc p) ≠ none := by
      rw [hart]
      exact Option.some_ne_none c
    have halive : Alive (st g p) := by
      rw [hI.running hrun]
      exact ⟨nofun, nofun⟩
    have hpar : par g q = none := by
      rcases hI.tree.unused q hun with hnone | ⟨u, s, hu⟩
      · exact hnone
      · have := hI.one_maker hon hq hu
        cases this
        rw [show field Ghost.job Λ p = _ from hjob] at hu
        cases hu
    apply hI.setJob (j := .making q .found) rfl hq
    · intro hoff
      rw [hrun] at hoff
      cases hoff
    · intro hdead
      have hoff := ((hI.proc_wf p).dead hdead).1
      rw [hrun] at hoff
      cases hoff
    · exact ⟨halive, hun, hpar⟩
    · intro x s hx
      rw [hjob] at hx
      cases hx
    · intro x s hx hs
      cases hx
      cases hs
    · trivial
    · exact nofun
    · exact ⟨nofun, nofun, nofun⟩
    · intro x s k hx hk
      cases hx
      cases hk
    · exact nofun
  · refine ⟨ℓ, inv_same hl hI, by rw [if_neg hun]⟩

theorem ok_get_parent (hjob : ℓ.job = .leaving none false ∅ none) :
    Ok lockOf o (.proc p : Thread n) (act (.get p)) ℓ fun e ℓ' =>
      ∃ v, e.parent = some v ∧ ℓ' = { ℓ with job := .leaving (some v) false ∅ none } := by
  refine ok_observe (fun g _ => g.entry p) rfl (fun _ => trivial) (fun _ _ => rfl) ?_
  intro g Λ c hl hI _
  subst hl
  obtain ⟨⟨halive, hinit, -⟩, -, -, hhist, -⟩ := hI.at_job hjob
  cases hv : (g.entry p).parent with
  | none => exact absurd (hI.tree.orphan p halive.1 hv) hinit
  | some v =>
    have hpv : par g p = some v := hv
    have hlt : pid g v < pid g p := hI.pids.order p v halive.1 hpv
    refine ⟨_, ?_, v, rfl, rfl⟩
    apply hI.turn rfl hrun
    · rw [hjob]
      exact nofun
    · exact nofun
    · exact ⟨nofun, .inl ⟨rfl, rfl⟩⟩
    · refine ⟨halive, hinit, nofun, fun v' hv' => ?_, nofun⟩
      cases hv'
      refine ⟨.inl hpv, fun hvp => ?_, fun heq => ?_⟩
      · have := hI.pids.order v p (hI.tree.alive p v hpv).1 hvp
        omega
      · rw [heq] at hpv
        exact hI.tree.irrefl p hpv
    · trivial
    · exact nofun
    · exact fun _ _ _ => hlt
    · exact hhist

theorem ok_parentOf_exit {v : Option Proc} {a : Bool} {G : Finset Proc} (hp : .proc p ∈ ℓ.held)
    (hjob : ℓ.job = .leaving v a G none) :
    Ok lockOf o (.proc p : Thread n) (act (.parentOf q)) ℓ fun b ℓ' =>
      ℓ' = if b = some p then { ℓ with job := .leaving v a G (some q) }
        else { ℓ with job := .leaving v a (insert q G) none } := by
  refine ok_observe (fun g _ => (g.entry q).parent) rfl (fun _ => trivial) (fun _ _ => rfl) ?_
  intro g Λ c hl hI _
  subst hl
  obtain ⟨⟨halive, hinit, hgiven, horig, -⟩, hwaits, hpids, hhist, hlocked⟩ := hI.at_job hjob
  have hold (x : Proc) (s : Stage) : (Λ (.proc p)).job ≠ .making x s := by
    rw [hjob]
    exact nofun
  by_cases hpar : (g.entry q).parent = some p
  · refine ⟨_, ?_, (if_pos hpar).symm⟩
    apply hI.turn (j := .leaving v a G (some q)) rfl hrun hold nofun ⟨hlocked.1, .inr hp⟩
    · refine ⟨halive, hinit, hgiven, horig, fun x hx => ?_⟩
      cases hx
      exact hpar
    · cases v with
      | none => trivial
      | some v => cases a <;> exact hwaits
    · exact nofun
    · cases v with
      | none => trivial
      | some v => exact hpids
    · exact hhist
  · refine ⟨_, ?_, (if_neg hpar).symm⟩
    apply hI.turn (j := .leaving v a (insert q G) none) rfl hrun hold nofun ⟨hlocked.1, .inr hp⟩
    · refine ⟨halive, hinit, fun x hx => ?_, horig, nofun⟩
      rcases Finset.mem_insert.1 hx with heq | hx
      · rw [heq]
        exact hpar
      · exact hgiven x hx
    · cases v with
      | none => trivial
      | some v => cases a <;> exact hwaits
    · exact nofun
    · cases v with
      | none => trivial
      | some v => exact hpids
    · exact hhist

theorem ok_parentOf_wait {S : Finset Proc} (hjob : ℓ.job = .waiting S none none) :
    Ok lockOf o (.proc p : Thread n) (act (.parentOf q)) ℓ fun b ℓ' =>
      ℓ' = if b = some p then { ℓ with job := .waiting S (some q) none }
        else { ℓ with job := .waiting (insert q S) none none } := by
  refine ok_observe (fun g _ => (g.entry q).parent) rfl (fun _ => trivial) (fun _ _ => rfl) ?_
  intro g Λ c hl hI _
  subst hl
  obtain ⟨htree, hwaits, -, -, hlocked⟩ := hI.at_job hjob
  have hold (x : Proc) (s : Stage) : (Λ (.proc p)).job ≠ .making x s := by
    rw [hjob]
    exact nofun
  by_cases hpar : (g.entry q).parent = some p
  · refine ⟨_, ?_, (if_pos hpar).symm⟩
    refine hI.turn rfl hrun hold nofun ⟨hlocked.1, nofun⟩ ?_ hwaits nofun trivial trivial
    refine ⟨htree.1, fun x hx => ?_⟩
    cases hx
    exact ⟨hpar, nofun⟩
  refine ⟨_, ?_, (if_neg hpar).symm⟩
  refine hI.turn rfl hrun hold nofun ⟨hlocked.1, nofun⟩ ⟨htree.1, nofun⟩ ?_ nofun trivial trivial
  intro hinit x hx hxp
  rcases Finset.mem_insert.1 hx with heq | hx
  · rw [heq] at hxp
    exact absurd hxp hpar
  · exact hwaits hinit x hx hxp

theorem ok_get_corpse {S : Finset Proc} (hq : .proc q ∈ ℓ.held)
    (hjob : ℓ.job = .waiting S (some q) none) :
    Ok lockOf o (.proc p : Thread n) (act (.get q)) ℓ fun e ℓ' =>
      ℓ' = if e.state = .zombie then
          { ℓ with job := .waiting S (some q) (some (e.pid, e.xstate)) }
        else { ℓ with job := .waiting (insert q S) none none } := by
  refine ok_observe (fun g _ => g.entry q) rfl (fun _ => trivial) (fun _ _ => rfl) ?_
  intro g Λ c hl hI _
  subst hl
  obtain ⟨htree, hwaits, -, -, hlocked⟩ := hI.at_job hjob
  have hold (x : Proc) (s : Stage) : (Λ (.proc p)).job ≠ .making x s := by
    rw [hjob]
    exact nofun
  by_cases hz : (g.entry q).state = .zombie
  · refine ⟨_, ?_, (if_pos hz).symm⟩
    refine hI.turn rfl hrun hold nofun ⟨hlocked.1, fun _ => ⟨q, rfl, hq⟩⟩ ?_ hwaits nofun trivial
      ⟨rfl, rfl⟩
    refine ⟨htree.1, fun x hx => ?_⟩
    cases hx
    exact ⟨(htree.2 q rfl).1, fun _ => hz⟩
  refine ⟨_, ?_, (if_neg hz).symm⟩
  refine hI.turn rfl hrun hold nofun ⟨hlocked.1, nofun⟩ ⟨htree.1, nofun⟩ ?_ nofun trivial trivial
  intro hinit x hx hxp
  rcases Finset.mem_insert.1 hx with heq | hx
  · rw [heq]
    exact hz
  · exact hwaits hinit x hx hxp

theorem ok_getCond {χ : ℕ} (hlk : .other (lockOf χ) ∈ ℓ.held) (hjob : ℓ.job = .idle) :
    Ok lockOf o (.proc p : Thread n) (act (.getCond χ)) ℓ fun b ℓ' =>
      ℓ' = if b = true then ℓ else { ℓ with job := .drowsy χ } := by
  refine ok_observe (fun g _ => g.cond χ) rfl (fun _ => trivial) (fun _ _ => rfl) ?_
  intro g Λ c hl hI _
  by_cases hb : g.cond χ = true
  · exact ⟨ℓ, inv_same hl hI, (if_pos hb).symm⟩
  refine ⟨{ ℓ with job := .drowsy χ }, ?_, (if_neg hb).symm⟩
  subst hl
  have halive : Alive (st g p) := by
    rw [hI.running hrun]
    exact ⟨nofun, nofun⟩
  have hold (x : Proc) (s : Stage) : (Λ (.proc p)).job ≠ .making x s := by
    rw [hjob]
    exact nofun
  refine hI.turn rfl hrun hold nofun (.inl hlk) halive trivial ?_ trivial trivial
  intro χ' hχ
  cases hχ
  exact .inl (Bool.eq_false_of_not_eq_true hb)

end

end Xv6.ProcInvariant
