import Xv6.SleepCode

set_option autoImplicit false

/-! Whoever holds the lock of the data knows the data, and when nobody holds it the data satisfies
`own`. To each channel belongs the condition that its sleepers find. Whoever makes it false owes a
wakeup to those that it has not visited yet. A process that is about to sleep has given up the lock
of the data but holds its own, so no wakeup misses it. -/
namespace Xv6.SleepRules
open Resumption Interleaving SleepCode
open Function (update update_eq_self update_idem update_of_ne update_self)

variable {β : Type}

/-- The lock, what of the data it guards, the condition of each channel, what is known of a
    process that sleeps on it, what holds while the lock is free, and what else is known of
    the data and the threads. -/
structure Monitor (n : ℕ) (K X D V E : Type) where
  k : K
  view : D → V
  cond : X → V → Prop
  sleeper : X → E → Prop
  own : V → Prop
  extra : D → (Thread n → E) → Prop

abbrev Due (n : ℕ) (X : Type) := X → Fin n → Prop

structure Ghost (n : ℕ) (X V E : Type) where
  mon : Option (V × Due n X)
  plock : Option (Fin n)
  /-- The channel it sleeps on or is about to, and whether `chan` is set. -/
  bed : Option (X × Bool)
  ext : E

variable {n : ℕ} {K X D V E : Type}
variable {f : Entry X → Entry X} {Q : β → Ghost n X V E → Prop}

/-- `held` is the holder of the lock, and the last four arguments are the ghost values of
    all threads. -/
structure Facts (M : Monitor n K X D V E) (held : Option (Thread n))
    (plocks : Fin n → Option (Thread n)) (proc : Fin n → Entry X) (d : D)
    (mon : Thread n → Option (V × Due n X)) (plock : Thread n → Option (Fin n))
    (bed : Thread n → Option (X × Bool)) (ext : Thread n → E) : Prop where
  holder : ∀ t, held = some t ↔ mon t ≠ none
  view : ∀ t v due, mon t = some (v, due) → M.view d = v
  own : held = none → M.own (M.view d)
  locker : ∀ t q, plocks q = some t ↔ plock t = some q
  lies : ∀ p χ b, bed (.proc p) = some (χ, b) → (b = true → (proc p).chan = some χ) ∧
    (plock (.proc p) = some p → (proc p).state ≠ .runnable) ∧
    (plock (.proc p) ≠ some p → b = true ∧ (proc p).state ≠ .running)
  running : ∀ p, bed (.proc p) = none → (proc p).state = .running
  live : ∀ p, (proc p).state ≠ .unused ∧ (proc p).state ≠ .zombie
  asleep : ∀ p, (proc p).state = .sleeping → ∃ χ, bed (.proc p) = some (χ, true)
  waits : ∀ p χ b, bed (.proc p) = some (χ, b) → (proc p).state ≠ .runnable →
    M.cond χ (M.view d) ∨ ∃ t v due, mon t = some (v, due) ∧ due χ p
  sleeps : ∀ p χ b, bed (.proc p) = some (χ, b) → M.sleeper χ (ext (.proc p))
  extra : M.extra d ext

def Inv (M : Monitor n K X D V E) (g : Kernel n K X D) (Λ : Thread n → Ghost n X V E) : Prop :=
  Facts M (g.lock M.k) g.plock g.proc g.data (fun t => (Λ t).mon) (fun t => (Λ t).plock)
    (fun t => (Λ t).bed) fun t => (Λ t).ext

variable {M : Monitor n K X D V E} {held : Option (Thread n)}
  {plocks : Fin n → Option (Thread n)} {proc : Fin n → Entry X} {d d' : D}
  {mon : Thread n → Option (V × Due n X)} {plock : Thread n → Option (Fin n)}
  {bed : Thread n → Option (X × Bool)} {ext : Thread n → E}
  {t : Thread n} {p q : Fin n} {χ : X} {v : V} {due due' : Due n X} {e : E}

section

variable (h : Facts M held plocks proc d mon plock bed ext)
include h

theorem Facts.lockProc (hq : plocks q = none) (ht : plock t = none)
    (hstate : bed t ≠ none → t = .proc q → (proc q).state ≠ .runnable) :
    Facts M held (update plocks q (some t)) proc d mon
      (update plock t (some q)) bed ext := by
  refine { h with locker := fun u r => ?_, lies := fun p χ b hb => ⟨(h.lies p χ b hb).1, ?_⟩ }
  · grind [h.locker]
  · grind [h.lies p χ b hb]

theorem Facts.unlockProc (ht : plock t = some q)
    (hbed : ∀ χ b, t = .proc q → bed t = some (χ, b) → b = true ∧ (proc q).state ≠ .running) :
    Facts M held (update plocks q none) proc d mon (update plock t none) bed
      ext := by
  have hq : plocks q = some t := (h.locker t q).2 ht
  refine { h with locker := fun u r => ?_, lies := fun p χ b hb => ⟨(h.lies p χ b hb).1, ?_⟩ }
  · grind [h.locker]
  · grind [h.lies p χ b hb]

theorem Facts.running_or_sleeping
    (hp : (proc p).state ≠ .runnable) : (proc p).state = .running ∨ (proc p).state = .sleeping := by
  obtain ⟨hunused, hzombie⟩ := h.live p
  cases hs : (proc p).state with
  | unused => exact absurd hs hunused
  | zombie => exact absurd hs hzombie
  | runnable => exact absurd hs hp
  | running => exact .inl rfl
  | sleeping => exact .inr rfl

theorem Facts.entry (hstate : (f (proc q)).state = (proc q).state)
    (hchan : (f (proc q)).chan = (proc q).chan) :
    Facts M held plocks (update proc q (f (proc q))) d mon plock bed ext := by
  have hs : ∀ p, (update proc q (f (proc q)) p).state = (proc p).state := by
    intro p
    by_cases hp : p = q
    · rw [hp, update_self, hstate]
    · rw [update_of_ne hp]
  have hc : ∀ p, (update proc q (f (proc q)) p).chan = (proc p).chan := by
    intro p
    by_cases hp : p = q
    · rw [hp, update_self, hchan]
    · rw [update_of_ne hp]
  refine { h with
    lies := fun p χ b hb => ?_, running := fun p hp => ?_, live := fun p => ?_,
    asleep := fun p hp => ?_, waits := fun p χ b hb hp => ?_ }
  · rw [hs, hc]
    exact h.lies p χ b hb
  · rw [hs]
    exact h.running p hp
  · rw [hs]
    exact h.live p
  · rw [hs] at hp
    exact h.asleep p hp
  · rw [hs] at hp
    exact h.waits p χ b hb hp

theorem Facts.wake (hq : (proc q).state = .sleeping) (hlock : plock (.proc q) ≠ some q) :
    Facts M held plocks (update proc q { proc q with state := .runnable }) d mon plock bed
      ext := by
  refine { h with
    lies := fun p χ b hb => ?_, running := fun p hp => ?_, live := fun p => ?_,
    asleep := fun p hp => ?_, waits := fun p χ b hb hp => ?_ }
  · grind [h.lies]
  · obtain ⟨χ, hχ⟩ := h.asleep q hq
    grind [h.running]
  · grind [h.live]
  · grind [h.asleep]
  · grind [h.waits]

theorem Facts.own_entry {e : Entry X} {o : Option (X × Bool)}
    (hown : o ≠ none → plock (.proc p) = some p) (hchan : ∀ χ, o = some (χ, true) → e.chan = some χ)
    (hstate : e.state = .running ∨ e.state = .sleeping)
    (hasleep : e.state = .sleeping → ∃ χ, o = some (χ, true)) (hwaits : ∀ χ b, o = some (χ, b) →
      M.cond χ (M.view d) ∨ ∃ t v due, mon t = some (v, due) ∧ due χ p)
    (hsleeps : ∀ χ b, o = some (χ, b) → M.sleeper χ (ext (.proc p))) :
    Facts M held plocks (update proc p e) d mon plock
      (update bed (.proc p) o) ext := by
  have hnot : e.state ≠ .runnable ∧ e.state ≠ .unused ∧ e.state ≠ .zombie := by
    rcases hstate with hs | hs <;> simp [hs]
  refine { h with
    lies := fun r χ b hb => ?_, running := fun r hr => ?_, live := fun r => ?_,
    asleep := fun r hr => ?_, waits := fun r χ b hb hr => ?_, sleeps := fun r χ b hb => ?_ }
  · grind [h.lies]
  · grind [h.running]
  · grind [h.live]
  · have hasleep' := h.asleep r
    grind
  · have hwaits' := h.waits r χ b
    grind
  · have hsleeps' := h.sleeps r χ b
    grind

theorem Facts.up {e : Entry X} (he : e.state = .running) :
    Facts M held plocks (update proc p e) d mon plock (update bed (.proc p) none) ext :=
  h.own_entry (absurd rfl) nofun (.inl he) (fun hs => by rw [he] at hs; cases hs) nofun nofun

theorem Facts.mon_unique {u : Thread n} (ht : mon t ≠ none) (hu : mon u ≠ none) : u = t :=
  Option.some.inj (((h.holder u).2 hu).symm.trans ((h.holder t).2 ht))

end

theorem Facts.lockMon (h : Facts M none plocks proc d mon plock bed ext) :
    Facts M (some t) plocks proc d
      (update mon t (some (M.view d, fun _ _ => False))) plock bed ext := by
  have hnone : ∀ u, mon u = none := fun u => by
    by_contra hne
    cases (h.holder u).2 hne
  refine { h with
    holder := fun u => ?_, view := fun u v due hu => ?_, own := nofun,
    waits := fun p χ b hb hp => .inl ?_ }
  · grind
  · grind
  · have hwaits := h.waits p χ b hb hp
    grind

section

variable (h : Facts M held plocks proc d mon plock bed ext)
include h

theorem Facts.unlockMon (ht : mon t = some (v, due)) (hown : M.own v)
    (hdue : ∀ χ p, due χ p → M.cond χ v) :
    Facts M none plocks proc d (update mon t none) plock bed ext := by
  have hne : mon t ≠ none := by rw [ht]; nofun
  have hnone : ∀ u, update mon t none u = none := by
    intro u
    have honly := h.mon_unique (u := u) hne
    grind
  refine { h with
    holder := fun u => ?_, view := fun u v due hu => ?_, own := fun _ => ?_,
    waits := fun p χ b hb hp => .inl ?_ }
  · rw [hnone u]
    simp
  · rw [hnone u] at hu
    cases hu
  · rwa [h.view t v due ht]
  · rcases h.waits p χ b hb hp with hc | ⟨u, w, due', hu, hd⟩
    · exact hc
    · obtain rfl := h.mon_unique hne (by rw [hu]; nofun)
      obtain ⟨rfl, rfl⟩ := Prod.mk.inj (Option.some.inj (ht.symm.trans hu))
      rw [h.view u v due ht]
      exact hdue χ p hd

theorem Facts.sleeps_update (hbed : bed t = none) (p : Fin n) (χ : X) (b : Bool)
    (hb : bed (.proc p) = some (χ, b)) :
    M.sleeper χ (update ext t e (.proc p)) := by
  grind [h.sleeps]

theorem Facts.write (ht : mon t = some (v, due)) (hbed : bed t = none)
    (hdue : ∀ χ p, due χ p → due' χ p) (hcond : ∀ χ p, M.cond χ v → M.cond χ (M.view d') ∨ due' χ p)
    (hextra : M.extra d' (update ext t e)) :
    Facts M held plocks proc d' (update mon t (some (M.view d', due'))) plock bed
      (update ext t e) := by
  have hne : mon t ≠ none := by rw [ht]; nofun
  refine { h with
    holder := fun u => ?_, view := fun u w due hu => ?_, own := fun hn => ?_,
    waits := fun p χ b hb hp => ?_, sleeps := h.sleeps_update hbed, extra := hextra }
  · grind [h.holder]
  · have honly := h.mon_unique (u := u) hne
    grind
  · rw [hn] at h
    exact absurd ((h.holder t).2 hne) nofun
  · have howed : due' χ p → M.cond χ (M.view d') ∨ ∃ u w due, update mon t
        (some (M.view d', due')) u = some (w, due) ∧ due χ p := fun hd =>
      .inr ⟨t, _, _, update_self .., hd⟩
    rcases h.waits p χ b hb hp with hc | ⟨u, w, due'', hu, hd⟩
    · rw [h.view t v due ht] at hc
      rcases hcond χ p hc with hc' | hd
      · exact .inl hc'
      · exact howed hd
    · obtain rfl := h.mon_unique hne (by rw [hu]; nofun)
      obtain ⟨rfl, rfl⟩ := Prod.mk.inj (Option.some.inj (ht.symm.trans hu))
      exact howed (hdue χ p hd)

theorem Facts.aside (hbed : bed t = none) (hview : M.view d' = M.view d)
    (hextra : M.extra d' (update ext t e)) :
    Facts M held plocks proc d' mon plock bed (update ext t e) := by
  refine { h with
    view := fun u w due hu => ?_, own := fun hn => ?_, waits := fun p χ b hb hp => ?_,
    sleeps := h.sleeps_update hbed, extra := hextra }
  · rw [hview]
    exact h.view u w due hu
  · rw [hview]
    exact h.own hn
  · rw [hview]
    exact h.waits p χ b hb hp

theorem Facts.paid (ht : mon t = some (v, due))
    (hpaid : ∀ χ p b, due χ p → bed (.proc p) = some (χ, b) → (proc p).state ≠ .runnable →
      due' χ p) :
    Facts M held plocks proc d (update mon t (some (v, due'))) plock bed ext := by
  have hne : mon t ≠ none := by rw [ht]; nofun
  refine { h with
    holder := fun u => ?_, view := fun u w due hu => ?_, waits := fun p χ b hb hp => ?_ }
  · grind [h.holder]
  · have hview := h.view t v _ ht
    have honly := h.mon_unique (u := u) hne
    grind
  · rcases h.waits p χ b hb hp with hc | ⟨u, w, due'', hu, hd⟩
    · exact .inl hc
    · obtain rfl := h.mon_unique hne (by rw [hu]; nofun)
      obtain ⟨rfl, rfl⟩ := Prod.mk.inj (Option.some.inj (ht.symm.trans hu))
      exact .inr ⟨u, v, due', update_self .., hpaid χ p b hd hb hp⟩

end

variable {ℓ ℓ' : Ghost n X V E} {g : Kernel n K X D} {Λ : Thread n → Ghost n X V E}

theorem inv_update : Inv M g (update Λ t ℓ') ↔
    Facts M (g.lock M.k) g.plock g.proc g.data (update (fun u => (Λ u).mon) t ℓ'.mon)
      (update (fun u => (Λ u).plock) t ℓ'.plock)
      (update (fun u => (Λ u).bed) t ℓ'.bed)
      (update (fun u => (Λ u).ext) t ℓ'.ext) := by
  unfold Inv
  rw [proj_new Ghost.mon, proj_new Ghost.plock, proj_new Ghost.bed, proj_new Ghost.ext]

theorem Inv.not_falling (hI : Inv M g Λ) (hlock : (Λ t).plock = some q) (hbed : (Λ t).bed = none)
    {b : Bool} (hq : (Λ (.proc q)).bed = some (χ, b)) :
    (Λ (.proc q)).plock ≠ some q := by
  intro hown
  have h1 := (Facts.locker hI t q).2 hlock
  have h2 := (Facts.locker hI (.proc q) q).2 hown
  obtain rfl := Option.some.inj (h1.symm.trans h2)
  rw [hbed] at hq
  cases hq

theorem Inv.wake (hI : Inv M g Λ) (hlock : (Λ t).plock = some q) (hbed : (Λ t).bed = none)
    (hq : (g.proc q).state = .sleeping) :
    Inv M (g.modProc q fun e => { e with state := .runnable }) Λ := by
  obtain ⟨χ, hχ⟩ := Facts.asleep hI q hq
  exact Facts.wake hI hq (hI.not_falling hlock hbed hχ)

theorem Inv.same (hI : Inv M g Λ) (hΛ : Λ t = ℓ) : Inv M g (update Λ t ℓ) := by
  rw [← hΛ, update_eq_self]
  exact hI

theorem Inv.entry (hI : Inv M g Λ) (hstate : ∀ e, (f e).state = e.state)
    (hchan : ∀ e, (f e).chan = e.chan) :
    Inv M (g.modProc q f) Λ := Facts.entry hI (hstate _) (hchan _)

theorem Inv.fall {b0 : Bool} (hI : Inv M g Λ) (hℓ : Λ (.proc p) = ℓ) (hlock : ℓ.plock = some p)
    (hbed : ℓ.bed = some (χ, b0)) (hchan : (f (g.proc p)).chan = some χ)
    (hstate : (f (g.proc p)).state = (g.proc p).state ∨ (f (g.proc p)).state = .sleeping) :
    Inv M (g.modProc p f) (update Λ (.proc p) { ℓ with bed := some (χ, true) }) := by
  subst hℓ
  obtain ⟨-, hmine, -⟩ := Facts.lies hI p χ b0 hbed
  have hnot := hmine hlock
  refine inv_update.2 ?_
  simp only [update_eq_self]
  refine Facts.own_entry hI (fun _ => hlock) (fun χ' hχ => ?_) ?_ (fun _ => ⟨χ, rfl⟩) (fun χ' b hχ => ?_) fun χ' b hχ => ?_
  · cases hχ
    exact hchan
  · rcases hstate with hs | hs
    · rw [hs]
      exact Facts.running_or_sleeping hI hnot
    · exact .inr hs
  · cases hχ
    exact Facts.waits hI p χ b0 hbed hnot
  · cases hχ
    exact Facts.sleeps hI p χ b0 hbed

theorem Inv.sleeper (hI : Inv M g Λ) (hfree : g.lock M.k = none)
    (hs : (g.proc p).state = .sleeping) (hχ : (g.proc p).chan = some χ) :
    (Λ (.proc p)).bed = some (χ, true) ∧ M.cond χ (M.view g.data) := by
  obtain ⟨χ', hbed⟩ := Facts.asleep hI p hs
  have hchan := (Facts.lies hI p χ' true hbed).1 rfl
  obtain rfl := Option.some.inj (hχ.symm.trans hchan)
  refine ⟨hbed, ?_⟩
  rcases Facts.waits hI p χ true hbed (by rw [hs]; nofun) with hc | ⟨t, v, due, ht, -⟩
  · exact hc
  · have hheld := (Facts.holder hI t).2 (by rw [ht]; nofun)
    rw [hfree] at hheld
    cases hheld

theorem inv_boot {pid : Fin n → ℕ} {e : Thread n → E} (hown : M.own (M.view d))
    (hextra : M.extra d e) :
    Inv M (bootKernel pid d : Kernel n K X D) fun t => ⟨none, none, none, e t⟩ where
  holder := fun _ => ⟨nofun, fun h => absurd rfl h⟩
  view := nofun
  own := fun _ => hown
  locker := fun _ _ => ⟨nofun, nofun⟩
  lies := nofun
  running := fun _ _ => rfl
  live := fun _ => ⟨nofun, nofun⟩
  asleep := nofun
  waits := nofun
  sleeps := nofun
  extra := hextra

def outline (M : Monitor n K X D V E) {Loc : Type} (rest : Thread n → Loc → Ghost n X V E → Prop) :
    Outline (Thread n) (Act n K X D) Loc (Kernel n K X D) (Ghost n X V E) where
  I := Inv M
  safe := fun _ _ _ _ _ => True
  rest := rest

variable [DecidableEq K] [DecidableEq X] {Loc : Type}
  {starts : Thread n → Loc → Code n K X D Loc → Prop}
  {cond : Thread n → ∀ {β : Type}, Act n K X D β → Kernel n K X D → Prop}
  {rest : Thread n → Loc → Ghost n X V E → Prop}

variable (M starts cond rest) in
abbrev Ok (t : Thread n) {α : Type} (c : Code n K X D α) (ℓ : Ghost n X V E)
    (Q : α → Ghost n X V E → Prop) : Prop :=
  Valid (sleepers starts) cond (outline M rest) t c ℓ Q

theorem ok_act {a : ProcAct n K X β}
    (h : ∀ g Λ, Λ t = ℓ → Inv M g Λ → cond t (.proc a) g → ∀ b g', execProc t a g = .done b g' →
      ∃ ℓ', Inv M g' (update Λ t ℓ') ∧ Q b ℓ') :
    Ok M starts cond rest t (act a) ℓ Q :=
  Valid.perform fun g Λ hΛ hI => ⟨trivial, fun hc b g' hb => h g Λ hΛ hI hc b g' hb⟩

theorem ok_access {f : D → Outcome β D}
    (h : ∀ g Λ, Λ t = ℓ → Inv M g Λ → ∀ b d', f g.data = .done b d' →
      ∃ ℓ', Inv M { g with data := d' } (update Λ t ℓ') ∧ Q b ℓ') :
    Ok M starts cond rest t (data f) ℓ Q := by
  refine Valid.perform fun g Λ hΛ hI => ⟨trivial, fun _ b g' hb => ?_⟩
  obtain ⟨d', hf, rfl⟩ := exec_data (t := t) hb
  exact h g Λ hΛ hI b d' hf

theorem ok_acquire_proc (hlock : ℓ.plock = none) (hbed : ℓ.bed = none) :
    Ok M starts cond rest t (act (.acquire (.proc q))) ℓ fun _ ℓ' =>
      ℓ' = { ℓ with plock := some q } := by
  refine ok_act fun g Λ hΛ hI _ b g' hb => ?_
  subst hΛ
  obtain ⟨hfree, rfl⟩ := execProc_acquire hb
  refine ⟨_, inv_update.2 ?_, rfl⟩
  simp only [update_eq_self]
  exact Facts.lockProc hI hfree hlock fun hne => absurd hbed hne

theorem ok_release_proc (hlock : ℓ.plock = some q) (hbed : ℓ.bed = none) :
    Ok M starts cond rest t (act (.release (.proc q))) ℓ fun _ ℓ' =>
      ℓ' = { ℓ with plock := none } := by
  refine ok_act fun g Λ hΛ hI _ b g' hb => ?_
  subst hΛ
  obtain ⟨-, rfl⟩ := execProc_release hb
  refine ⟨_, inv_update.2 ?_, rfl⟩
  simp only [update_eq_self]
  refine Facts.unlockProc hI hlock fun χ b _ hb => ?_
  cases hbed.symm.trans hb

theorem ok_wake (hmon : ℓ.mon = some (v, due)) (hlock : ℓ.plock = some q) (hbed : ℓ.bed = none) :
    Ok M starts cond rest t (act (.wake q χ)) ℓ fun _ ℓ' =>
      ℓ' = { ℓ with mon := some (v, fun χ' p => due χ' p ∧ ¬ (χ' = χ ∧ p = q)) } := by
  refine ok_act fun g Λ hΛ hI _ b g' hb => ?_
  subst hΛ
  refine ⟨_, inv_update.2 ?_, rfl⟩
  simp only [update_eq_self]
  simp only [execProc] at hb
  split at hb
  · next hsleep =>
    cases hb
    refine Facts.paid (hI.wake hlock hbed hsleep.1) hmon fun χ' p b hd _ hrun => ⟨hd, ?_⟩
    rintro ⟨-, rfl⟩
    refine hrun ?_
    change (update g.proc p _ p).state = _
    rw [update_self]
  next hnot =>
  cases hb
  refine Facts.paid hI hmon fun χ' p b hd hb hrun => ⟨hd, ?_⟩
  rintro ⟨rfl, rfl⟩
  obtain ⟨hchan, -, hfree⟩ := Facts.lies hI p χ' b hb
  obtain ⟨rfl, hnr⟩ := hfree (hI.not_falling hlock hbed hb)
  refine hnot ⟨?_, hchan rfl⟩
  rcases Facts.running_or_sleeping hI hrun with hs | hs
  · exact absurd hs hnr
  · exact hs

theorem ok_wakeupFrom (qs : List (Fin n)) (hmon : ℓ.mon = some (v, due)) (hlock : ℓ.plock = none)
    (hbed : ℓ.bed = none) :
    Ok M starts cond rest t (wakeupFrom χ qs) ℓ fun _ ℓ' =>
      ∃ due', ℓ' = { ℓ with mon := some (v, due') } ∧
        ∀ χ' p, due' χ' p → due χ' p ∧ ¬ (χ' = χ ∧ p ∈ qs) := by
  induction qs generalizing ℓ due with
  | nil =>
    refine ⟨due, ?_, fun χ' p hd => ⟨hd, ?_⟩⟩
    · cases ℓ
      cases hmon
      rfl
    · rintro ⟨-, hp⟩
      cases hp
  | cons q qs ih =>
    refine (ok_acquire_proc hlock hbed).next fun _ => ?_
    refine (ok_wake (by exact hmon) (by rfl) (by exact hbed)).next fun _ => ?_
    refine (ok_release_proc (by rfl) (by exact hbed)).next fun _ => ?_
    refine (ih (by rfl) (by rfl) (by exact hbed)).mono ?_
    rintro _ _ ⟨due', rfl, hdue⟩
    refine ⟨due', ?_, fun χ' p hd => ?_⟩
    · cases ℓ
      cases hlock
      rfl
    · obtain ⟨⟨hold, hne⟩, hrest⟩ := hdue χ' p hd
      refine ⟨hold, ?_⟩
      rintro ⟨rfl, hp⟩
      rcases List.mem_cons.1 hp with rfl | hp
      · exact hne ⟨rfl, rfl⟩
      · exact hrest ⟨rfl, hp⟩

theorem ok_wakeup (hmon : ℓ.mon = some (v, due)) (hlock : ℓ.plock = none) (hbed : ℓ.bed = none) :
    Ok M starts cond rest t (wakeup χ) ℓ fun _ ℓ' =>
      ∃ due', ℓ' = { ℓ with mon := some (v, due') } ∧
        ∀ χ' p, due' χ' p → due χ' p ∧ χ' ≠ χ := by
  refine (ok_wakeupFrom (List.finRange n) hmon hlock hbed).mono ?_
  rintro _ _ ⟨due', rfl, hdue⟩
  refine ⟨due', rfl, fun χ' p hd => ⟨(hdue χ' p hd).1, ?_⟩⟩
  rintro rfl
  exact (hdue χ' p hd).2 ⟨rfl, List.mem_finRange p⟩

theorem ok_pid : Ok M starts cond rest t (act (.pid q)) ℓ fun _ ℓ' => ℓ' = ℓ := by
  refine ok_act fun g Λ hΛ hI _ b g' hb => ?_
  simp only [execProc] at hb
  cases hb
  exact ⟨ℓ, hI.same hΛ, rfl⟩

theorem ok_setKilled : Ok M starts cond rest t (act (.setKilled q)) ℓ fun _ ℓ' => ℓ' = ℓ := by
  refine ok_act fun g Λ hΛ hI _ b g' hb => ?_
  simp only [execProc] at hb
  cases hb
  exact ⟨ℓ, Inv.same (hI.entry (fun _ => rfl) fun _ => rfl) hΛ, rfl⟩

theorem ok_wakeKilled (hlock : ℓ.plock = some q) (hbed : ℓ.bed = none) :
    Ok M starts cond rest t (act (.wakeKilled q)) ℓ fun _ ℓ' => ℓ' = ℓ := by
  refine ok_act fun g Λ hΛ hI _ b g' hb => ?_
  subst hΛ
  simp only [execProc] at hb
  split at hb
  · next hsleep =>
    cases hb
    exact ⟨_, (hI.wake hlock hbed hsleep).same rfl, rfl⟩
  · cases hb
    exact ⟨_, hI.same rfl, rfl⟩

theorem ok_killFrom (pid : ℕ) (qs : List (Fin n)) (hlock : ℓ.plock = none) (hbed : ℓ.bed = none) :
    Ok M starts cond rest t (killFrom pid qs) ℓ fun _ ℓ' => ℓ' = ℓ := by
  have hback : { ({ ℓ with plock := none } : Ghost n X V E) with plock := none } = ℓ := by
    cases ℓ
    cases hlock
    rfl
  induction qs with
  | nil => rfl
  | cons q qs ih =>
    refine (ok_acquire_proc hlock hbed).next fun _ => ?_
    refine ok_pid.next fun i => ?_
    split_ifs
    · refine ok_setKilled.next fun _ => ?_
      refine (ok_wakeKilled (by rfl) (by exact hbed)).next fun _ => ?_
      refine (ok_release_proc (by rfl) (by exact hbed)).next fun _ => ?_
      exact hback
    · refine (ok_release_proc (by rfl) (by exact hbed)).next fun _ => ?_
      change Ok M starts cond rest t (killFrom pid qs) { ℓ with plock := none } _
      rw [show ({ ℓ with plock := none } : Ghost n X V E) = ℓ from hback]
      exact ih

theorem ok_kill (pid : ℕ) (hlock : ℓ.plock = none) (hbed : ℓ.bed = none) :
    Ok M starts cond rest t (kill pid) ℓ fun _ ℓ' => ℓ' = ℓ :=
  ok_killFrom pid _ hlock hbed

theorem ok_killed {Q : Bool → Prop} (h : ∀ g Λ b, Inv M g Λ → Λ (.proc p) = ℓ →
      cond (.proc p) (.proc .killed : Act n K X D Bool) g → (g.proc p).killed = b → Q b) :
    Ok M starts cond rest (.proc p) (act .killed) ℓ fun b ℓ' => ℓ' = ℓ ∧ Q b := by
  refine ok_act fun g Λ hΛ hI hc b g' hb => ?_
  simp only [execProc] at hb
  cases hb
  exact ⟨ℓ, Inv.same (hI.entry (fun _ => rfl) fun _ => rfl) hΛ, rfl, h g Λ _ hI hΛ hc rfl⟩

theorem ok_acquire (hmon : ℓ.mon = none) :
    Ok M starts cond rest t (act (.acquire (.data M.k))) ℓ fun _ ℓ' =>
      ∃ v, M.own v ∧ ℓ' = { ℓ with mon := some (v, fun _ _ => False) } := by
  refine ok_act fun g Λ hΛ hI _ b g' hb => ?_
  subst hΛ
  obtain ⟨hfree, rfl⟩ := execProc_acquire hb
  replace hfree : g.lock M.k = none := hfree
  refine ⟨_, inv_update.2 ?_, M.view g.data, Facts.own hI hfree, rfl⟩
  simp only [update_eq_self]
  have hI' : Facts M (g.lock M.k) _ _ _ _ _ _ _ := hI
  rw [hfree] at hI'
  have := Facts.lockMon (t := t) hI'
  change Facts M (update g.lock M.k (some t) M.k) _ _ _ _ _ _ _
  rwa [update_self]

theorem ok_release (hmon : ℓ.mon = some (v, due)) (hown : M.own v)
    (hdue : ∀ χ p, due χ p → M.cond χ v) :
    Ok M starts cond rest t (act (.release (.data M.k))) ℓ fun _ ℓ' =>
      ℓ' = { ℓ with mon := none } := by
  refine ok_act fun g Λ hΛ hI _ b g' hb => ?_
  subst hΛ
  obtain ⟨-, rfl⟩ := execProc_release hb
  refine ⟨_, inv_update.2 ?_, rfl⟩
  simp only [update_eq_self]
  have := Facts.unlockMon hI hmon hown hdue
  change Facts M (update g.lock M.k none M.k) _ _ _ _ _ _ _
  rwa [update_self]

theorem ok_data {f : D → Outcome β D}
    (hmon : ℓ.mon = some (v, due)) (hbed : ℓ.bed = none)
    (h : ∀ d ext, M.view d = v → M.extra d ext → ext t = ℓ.ext → ∀ b d', f d = .done b d' →
      ∃ e due', (∀ χ p, due χ p → due' χ p) ∧
        (∀ χ p, M.cond χ v → M.cond χ (M.view d') ∨ due' χ p) ∧
        M.extra d' (update ext t e) ∧
        Q b { ℓ with mon := some (M.view d', due'), ext := e }) :
    Ok M starts cond rest t (data f) ℓ Q := by
  refine ok_access fun g Λ hΛ hI b d' hf => ?_
  subst hΛ
  obtain ⟨e, due', hdue, hcond, hextra, hQ⟩ :=
    h g.data _ (Facts.view hI t v due hmon) (Facts.extra hI) rfl b d' hf
  refine ⟨_, inv_update.2 ?_, hQ⟩
  simp only [update_eq_self]
  exact Facts.write hI hmon hbed hdue hcond hextra

theorem ok_read {f : D → Outcome β D} (hf : ∀ d b d', f d = .done b d' → d' = d)
    (hmon : ℓ.mon = some (v, due)) :
    Ok M starts cond rest t (data f) ℓ fun b ℓ' => ∃ d ext, M.view d = v ∧ M.extra d ext ∧
      ext t = ℓ.ext ∧ f d = .done b d ∧
      ℓ' = { ℓ with mon := some (v, fun χ p => due χ p ∧ M.sleeper χ (ext (.proc p))) } := by
  refine ok_access fun g Λ hΛ hI b d' hd => ?_
  subst hΛ
  obtain rfl := hf _ _ _ hd
  refine ⟨_, inv_update.2 ?_, g.data, _, Facts.view hI t v due hmon, Facts.extra hI, rfl, hd, rfl⟩
  simp only [update_eq_self]
  exact Facts.paid hI hmon fun χ p b hdue hbed _ => ⟨hdue, Facts.sleeps hI p χ b hbed⟩

theorem ok_aside {f : D → Outcome β D}
    (hbed : ℓ.bed = none)
    (h : ∀ d ext, M.extra d ext → ext t = ℓ.ext → ∀ b d', f d = .done b d' →
      ∃ e, M.view d' = M.view d ∧ M.extra d' (update ext t e) ∧ Q b { ℓ with ext := e }) :
    Ok M starts cond rest t (data f) ℓ Q := by
  refine ok_access fun g Λ hΛ hI b d' hf => ?_
  subst hΛ
  obtain ⟨e, hview, hextra, hQ⟩ := h g.data _ (Facts.extra hI) rfl b d' hf
  refine ⟨_, inv_update.2 ?_, hQ⟩
  simp only [update_eq_self]
  exact Facts.aside hI hbed hview hextra

theorem ok_release_falling (hmon : ℓ.mon = some (v, due)) (hlock : ℓ.plock = some p)
    (hbed : ℓ.bed = none) (hown : M.own v) (hdue : ∀ χ p, due χ p → M.cond χ v)
    (hcond : M.cond χ v) (hsleeper : M.sleeper χ ℓ.ext) :
    Ok M starts cond rest (.proc p) (act (.release (.data M.k))) ℓ fun _ ℓ' =>
      ℓ' = { ℓ with mon := none, bed := some (χ, false) } := by
  refine ok_act fun g Λ hΛ hI _ b g' hb => ?_
  subst hΛ
  obtain ⟨-, rfl⟩ := execProc_release hb
  refine ⟨_, inv_update.2 ?_, rfl⟩
  simp only [update_eq_self]
  have hrun : (g.proc p).state = .running := Facts.running hI p hbed
  have hview : M.view g.data = v := Facts.view hI (.proc p) v due hmon
  have hfree := Facts.unlockMon hI hmon hown hdue
  have hfall := Facts.own_entry (e := g.proc p) (o := some (χ, false)) hfree (fun _ => hlock)
    (fun χ' hχ => by cases hχ) (.inl hrun) (fun hs => by rw [hrun] at hs; cases hs)
    (fun χ' b hχ => by cases hχ; exact .inl (by rwa [hview]))
    (fun χ' b hχ => by cases hχ; exact hsleeper)
  rw [update_eq_self] at hfall
  change Facts M (update g.lock M.k none M.k) _ _ _ _ _ _ _
  rwa [update_self]

theorem ok_setChan {b0 : Bool} (hlock : ℓ.plock = some p) (hbed : ℓ.bed = some (χ, b0)) :
    Ok M starts cond rest (.proc p) (act (.setChan (some χ))) ℓ fun _ ℓ' =>
      ℓ' = { ℓ with bed := some (χ, true) } := by
  refine ok_act fun g Λ hΛ hI _ b g' hb => ?_
  simp only [execProc] at hb
  cases hb
  exact ⟨_, hI.fall hΛ hlock hbed rfl (.inl rfl), rfl⟩

theorem ok_setSleeping (hlock : ℓ.plock = some p) (hbed : ℓ.bed = some (χ, true)) :
    Ok M starts cond rest (.proc p) (act .setSleeping) ℓ fun _ ℓ' =>
      ℓ' = { ℓ with bed := some (χ, true) } := by
  refine ok_act fun g Λ hΛ hI _ b g' hb => ?_
  have hchan : (g.proc p).chan = some χ := by
    subst hΛ
    exact (Facts.lies hI p χ true hbed).1 rfl
  simp only [execProc] at hb
  cases hb
  exact ⟨_, hI.fall hΛ hlock hbed hchan (.inr rfl), rfl⟩

theorem ok_swtch (hlock : ℓ.plock = some p) (hbed : ℓ.bed = some (χ, true)) :
    Ok M starts cond rest (.proc p) (act .swtch) ℓ fun _ ℓ' => ℓ' = { ℓ with plock := none } := by
  refine ok_act fun g Λ hΛ hI _ b g' hb => ?_
  subst hΛ
  simp only [execProc] at hb
  split at hb
  · split at hb
    · cases hb
    next hrun =>
    cases hb
    refine ⟨_, inv_update.2 ?_, rfl⟩
    simp only [update_eq_self]
    refine Facts.unlockProc hI hlock fun χ' b _ hb => ⟨?_, hrun⟩
    cases hbed.symm.trans hb
    rfl
  · cases hb

theorem ok_sleep (hmon : ℓ.mon = some (v, due)) (hlock : ℓ.plock = none) (hbed : ℓ.bed = none)
    (hown : M.own v) (hdue : ∀ χ p, due χ p → M.cond χ v) (hcond : M.cond χ v)
    (hsleeper : M.sleeper χ ℓ.ext) :
    Ok M starts cond rest (.proc p) (sleep p χ M.k) ℓ fun _ ℓ' =>
      ℓ' = { ℓ with mon := none, bed := some (χ, true) } := by
  refine (ok_acquire_proc hlock hbed).next fun _ => ?_
  refine (ok_release_falling (by exact hmon) (by rfl) (by exact hbed) hown hdue hcond
    (by exact hsleeper)).next fun _ => ?_
  refine (ok_setChan (by rfl) (by rfl)).next fun _ => ?_
  refine (ok_setSleeping (by rfl) (by rfl)).next fun _ => ?_
  refine (ok_swtch (by rfl) (by rfl)).mono ?_
  rintro _ _ rfl
  cases ℓ
  cases hlock
  rfl

theorem ok_resume (hlock : ℓ.plock = none) :
    Ok M starts cond rest (.proc p) (act .resume) ℓ fun _ ℓ' =>
      ℓ' = { ℓ with plock := some p, bed := none } := by
  refine ok_act fun g Λ hΛ hI _ b g' hb => ?_
  subst hΛ
  simp only [execProc] at hb
  split at hb
  · next hrun =>
    cases hb
    refine ⟨_, inv_update.2 ?_, rfl⟩
    simp only [update_eq_self]
    have hup := Facts.up (p := p) (e := { g.proc p with state := .running }) hI rfl
    refine Facts.lockProc hup hrun.1 hlock fun hne => absurd ?_ hne
    exact update_self ..
  · cases hb

theorem ok_clearChan (hbed : ℓ.bed = none) :
    Ok M starts cond rest (.proc p) (act (.setChan none)) ℓ fun _ ℓ' => ℓ' = ℓ := by
  refine ok_act fun g Λ hΛ hI _ b g' hb => ?_
  subst hΛ
  have hrun : (g.proc p).state = .running := Facts.running hI p hbed
  simp only [execProc] at hb
  cases hb
  refine ⟨_, inv_update.2 ?_, rfl⟩
  simp only [update_eq_self]
  have hup := Facts.up (p := p) (e := { g.proc p with chan := none }) hI hrun
  rwa [← hbed, update_eq_self (f := fun u => (Λ u).bed)] at hup

theorem ok_awake (hmon : ℓ.mon = none) (hlock : ℓ.plock = none) :
    Ok M starts cond rest (.proc p) (awake p M.k) ℓ fun _ ℓ' =>
      ∃ v, M.own v ∧ ℓ' = { ℓ with mon := some (v, fun _ _ => False), bed := none } := by
  refine (ok_resume hlock).next fun _ => ?_
  refine (ok_clearChan (by rfl)).next fun _ => ?_
  refine (ok_release_proc (by rfl) (by rfl)).next fun _ => ?_
  refine (ok_acquire (by exact hmon)).mono ?_
  rintro _ _ ⟨v, hv, rfl⟩
  refine ⟨v, hv, ?_⟩
  cases ℓ
  cases hlock
  rfl

omit [DecidableEq X] in
@[simp] theorem setLock_lock (g : Kernel n K X D) (o : Option (Thread n)) (k : K) :
    (g.setLock o (.data k)).lock k = o := by
  simp [Kernel.setLock]

def woken (χ : X) (e : Entry X) : Entry X :=
  if e.state = .sleeping ∧ e.chan = some χ then { e with state := .runnable } else e

theorem total_wakeupFrom {Q : Unit → Kernel n K X D → Prop} (qs : List (Fin n)) (g : Kernel n K X D)
    (hfree : ∀ q, g.plock q = none)
    (hQ : Q () { g with proc := fun p => if p ∈ qs then woken χ (g.proc p) else g.proc p }) :
    Total (sleepers starts).toMachine t (wakeupFrom χ qs) Q g := by
  induction qs generalizing g with
  | nil =>
    simp only [List.not_mem_nil, ↓reduceIte] at hQ
    exact hQ
  | cons q qs ih =>
    have hstep : Total (sleepers starts).toMachine t (wakeupFrom χ qs) Q
        { g with proc := update g.proc q (woken χ (g.proc q)) } := by
      refine ih _ hfree ?_
      have hsame : (fun p => if p ∈ qs then woken χ (update g.proc q
        (woken χ (g.proc q)) p)
          else update g.proc q (woken χ (g.proc q)) p) =
          fun p => if p ∈ q :: qs then woken χ (g.proc p) else g.proc p := by
        funext p
        by_cases hp : p = q
        · subst hp
          have htwice : woken χ (woken χ (g.proc p)) = woken χ (g.proc p) := by
            unfold woken
            split_ifs with h1 h2
            · exact absurd h2.1 nofun
            · rfl
            · rfl
          simp [htwice]
        · simp [hp]
      rw [hsame]
      exact hQ
    have hback : ∀ f : Fin n → Entry X, ({ g with
        plock := update (update g.plock q (some t)) q none, proc := f } :
        Kernel n K X D) = { g with proc := f } := by
      intro f
      rw [update_idem, ← hfree q, update_eq_self]
    refine total_act (b := ()) (h := g.setLock (some t) (.proc q)) ?_ ?_
    · exact if_pos (hfree q)
    · refine total_act (b := ()) (h := { g.setLock (some t) (.proc q) with
        proc := update g.proc q (woken χ (g.proc q)) }) ?_ ?_
      · change (if (g.proc q).state = .sleeping ∧ (g.proc q).chan = some χ then _ else _) = _
        unfold woken
        split_ifs
        · rfl
        · rw [update_eq_self]
          rfl
      · refine total_act (b := ()) (h := _) ?_ hstep
        rw [← hback]
        exact if_pos (update_self ..)

theorem total_wakeup {Q : Unit → Kernel n K X D → Prop} (g : Kernel n K X D)
    (hfree : ∀ q, g.plock q = none) (hQ : Q () { g with proc := fun p => woken χ (g.proc p) }) :
    Total (sleepers starts).toMachine t (wakeup χ) Q g := by
  refine total_wakeupFrom (List.finRange n) g hfree ?_
  simpa only [List.mem_finRange, ↓reduceIte] using hQ

end Xv6.SleepRules
