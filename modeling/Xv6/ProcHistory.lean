import Xv6.ProcFamily

set_option autoImplicit false

namespace Xv6.ProcInvariant
open ProcCode Accounting
open LogCode (Proc)
open Function (update update_eq_self update_of_ne update_self)

variable {st : Proc → ProcState} {par : Proc → Option Proc} {job : Proc → Job}
  {pid : Proc → ℕ} {xst : Proc → ℤ} {nextpid : ℕ} {trace : List Event}
  {pending : Proc → Option ℤ}
variable {p q : Proc} {j : Job}

theorem pendingOf_snoc (u : Proc) (l : List Event) (e : Event) :
    pendingOf u (l ++ [e]) = settle u (pendingOf u l) e := List.foldl_concat ..

theorem History.setJob (h : History st par pid xst nextpid trace job pending)
    (hj : HistoryJob pid xst trace p j) :
    History st par pid xst nextpid trace (update job p j) pending := by
  refine { h with job := fun u => ?_ }
  grind [h.job]

theorem HistoryJob.congr {pid' : Proc → ℕ} {xst' : Proc → ℤ} {trace' : List Event} {u : Proc}
    (h : HistoryJob pid xst trace u j) (hsub : ∀ e ∈ trace, e ∈ trace')
    (hnew : ∀ q s k, j = .making q s → s.id = some k → ∀ e ∈ trace', about e = some k → e ∈ trace)
    (hown : j ≠ .idle → pid' u = pid u)
    (hcorpse : ∀ S q c, j = .waiting S (some q) (some c) → pid' q = pid q ∧ xst' q = xst q) :
    HistoryJob pid' xst' trace' u j := by
  cases j with
  | idle => trivial
  | making q s =>
    intro k hk e he hek
    exact h k hk e (hnew q s k rfl hk e he hek) hek
  | leaving o a G k =>
    change Event.exiting u (pid' u) ∈ trace'
    rw [hown nofun]
    exact hsub _ h
  | waiting S k c =>
    cases k with
    | none => trivial
    | some q =>
      cases c with
      | none => trivial
      | some c =>
        obtain ⟨hp, hx⟩ := hcorpse S q c rfl
        change pid' q = c.1 ∧ xst' q = c.2
        rw [hp, hx]
        exact h
  | drowsy χ => trivial

section

variable (h : History st par pid xst nextpid trace job pending)
include h

theorem History.bound_snoc {e : Event} (he : ∀ k, about e = some k → k < nextpid) :
    ∀ e' ∈ trace ++ [e], ∀ k, about e' = some k → k < nextpid := by
  intro e' he' k hk
  rcases List.mem_append.1 he' with he' | he'
  · exact h.bound e' he' k hk
  · rw [List.mem_singleton.1 he'] at hk
    exact he k hk

theorem History.job_snoc {pid' : Proc → ℕ} {xst' : Proc → ℤ} {e : Event} {u : Proc}
    (hfresh : ∀ q s k, job u = .making q s → s.id = some k → about e ≠ some k)
    (hown : job u ≠ .idle → pid' u = pid u)
    (hcorpse : ∀ S q c, job u = .waiting S (some q) (some c) → pid' q = pid q ∧ xst' q = xst q) :
    HistoryJob pid' xst' (trace ++ [e]) u (job u) := by
  apply (h.job u).congr
  · exact fun e' he' => List.mem_append_left _ he'
  · intro q s k hj hk e' he' hab
    rcases List.mem_append.1 he' with he' | he'
    · exact he'
    · rw [List.mem_singleton.1 he'] at hab
      exact absurd hab (hfresh q s k hj hk)
  · exact hown
  · exact hcorpse

theorem History.idle_snoc {pid' : Proc → ℕ} {xst' : Proc → ℤ} {e : Event}
    (hfresh : ∀ u q s k, u ≠ p → job u = .making q s → s.id = some k → about e ≠ some k)
    (hown : ∀ u, job u ≠ .idle → pid' u = pid u)
    (hcorpse : ∀ u S q c, u ≠ p → job u = .waiting S (some q) (some c) →
      pid' q = pid q ∧ xst' q = xst q) (u : Proc) :
    HistoryJob pid' xst' (trace ++ [e]) u (update job p .idle u) := by
  by_cases hup : u = p
  · rw [hup, update_self]
    trivial
  · rw [update_of_ne hup]
    exact h.job_snoc (fun q s k => hfresh u q s k hup) (hown u) fun S q c => hcorpse u S q c hup

def plain : Event → Prop
  | .fork _ _ _ _ => False
  | .exit _ _ _ => False
  | .wait _ _ _ _ => False
  | _ => True

theorem History.note {e : Event}
    {pending' : Proc → Option ℤ} (he : plain e) (hbound : ∀ k, about e = some k → k < nextpid)
    (hfresh : ∀ u q s k, job u = .making q s → s.id = some k → about e ≠ some k)
    (hright : Right trace e) (hpend : ∀ u, settle u (pending u) e = pending' u) :
    History st par pid xst nextpid (trace ++ [e]) job pending' := by
  have hfork (p k q m) : .fork p k q m ∈ trace ++ [e] ↔ .fork p k q m ∈ trace := by
    rw [List.mem_append, List.mem_singleton]
    exact or_iff_left fun heq => by rw [← heq] at he; exact he
  have hexit (p k s) : .exit p k s ∈ trace ++ [e] ↔ .exit p k s ∈ trace := by
    rw [List.mem_append, List.mem_singleton]
    exact or_iff_left fun heq => by rw [← heq] at he; exact he
  have hwait (p q k s) : .wait p q k s ∈ trace ++ [e] ↔ .wait p q k s ∈ trace := by
    rw [List.mem_append, List.mem_singleton]
    exact or_iff_left fun heq => by rw [← heq] at he; exact he
  constructor
  · exact h.bound_snoc hbound
  · intro q hq p x s
    rw [hwait]
    exact h.reaped q hq p x s
  · intro q hq hinit
    obtain ⟨p, k, hf, hpar⟩ := h.forked q hq hinit
    refine ⟨p, k, (hfork ..).2 hf, fun u hu => ?_⟩
    exact (hpar u hu).imp_right fun ⟨hi, hx⟩ => ⟨hi, List.mem_append_left _ hx⟩
  · intro q hq
    rw [hexit]
    exact h.zombie q hq
  · intro q hq x s
    rw [hexit]
    exact h.status q hq x s
  · intro q hq x s
    rw [hexit]
    exact h.alive q hq x s
  · intro q k s
    rw [hexit]
    simp only [hwait]
    exact h.lost q k s
  · exact Accounted.snoc h.account hright
  · intro u
    rw [pendingOf_snoc, h.pending u]
    exact hpend u
  · exact fun u => h.job_snoc (hfresh u) (fun _ => rfl) fun _ _ _ _ => ⟨rfl, rfl⟩

theorem History.state {s : ProcState}
    (hu : s = .unused ↔ st q = .unused) (hz : s = .zombie ↔ st q = .zombie) :
    History (update st q s) par pid xst nextpid trace job pending := by
  have hst (x : Proc) : update st q s x = .unused ↔ st x = .unused := by
    grind
  have hzo (x : Proc) : update st q s x = .zombie ↔ st x = .zombie := by
    grind
  have hal (x : Proc) : Alive (update st q s x) ↔ Alive (st x) :=
    and_congr (not_congr (hst x)) (not_congr (hzo x))
  constructor
  · exact h.bound
  · intro x hx
    exact h.reaped x fun hx' => hx ((hst x).2 hx')
  · intro x hx
    exact h.forked x fun hx' => hx ((hst x).2 hx')
  · intro x hx
    exact h.zombie x ((hzo x).1 hx)
  · intro x hx
    exact h.status x ((hzo x).1 hx)
  · intro x hx
    exact h.alive x ((hal x).1 hx)
  · intro x k s' hx
    rw [hzo]
    exact h.lost x k s' hx
  · exact h.account
  · exact h.pending
  · exact h.job

theorem History.adopt {o : Option Proc}
    (hq : st q = .unused) :
    History st (update par q o) pid xst nextpid trace job pending := by
  refine { h with forked := fun x hx hinit => ?_ }
  have hxq : x ≠ q := by
    rintro rfl
    exact hx hq
  rw [update_of_ne hxq]
  exact h.forked x hx hinit

theorem History.disown
    (hpar : par q = some p) (hp : p ≠ initproc) (hexit : .exiting p (pid p) ∈ trace) :
    History st (update par q (some initproc)) pid xst nextpid trace job pending := by
  refine { h with forked := fun x hx hinit => ?_ }
  obtain ⟨p0, k0, hf, hu⟩ := h.forked x hx hinit
  refine ⟨p0, k0, hf, fun u hu' => ?_⟩
  grind

theorem History.take :
    History st par pid xst (nextpid + 1) trace
      (update job p (.making q (.reserved nextpid))) pending := by
  have hless : History st par pid xst (nextpid + 1) trace job pending :=
    { h with bound := fun e he k hk => Nat.lt_succ_of_lt (h.bound e he k hk) }
  apply hless.setJob
  intro k hk e he hek
  cases hk
  exact absurd (h.bound e he nextpid hek) (Nat.lt_irrefl _)

theorem History.refill (o : Option Proc)
    (k : ℕ) (r : ℤ) (hq : st q = .unused) (hkids : ∀ x, par x ≠ some q)
    (hbusy : ∀ u, job u ≠ .idle → u ≠ q)
    (hcorpse : ∀ u S c, job u ≠ .waiting S (some q) (some c)) :
    History st (update par q o) (update pid q k) (update xst q r) nextpid trace job pending := by
  have hne {x : Proc} (hx : st x ≠ .unused) : x ≠ q := by
    rintro rfl
    exact hx hq
  have hz {x : Proc} (hx : st x = .zombie) : x ≠ q := by
    apply hne
    rw [hx]
    exact nofun
  constructor
  · exact h.bound
  · grind [h.reaped]
  · grind [h.forked]
  · grind [h.zombie]
  · grind [h.status]
  · intro x hx
    rw [update_of_ne (hne hx.1)]
    exact h.alive x hx
  · grind [h.lost]
  · exact h.account
  · exact h.pending
  · intro u
    apply (h.job u).congr
    · exact fun _ he => he
    · exact fun _ _ _ _ _ _ he _ => he
    · intro hj
      rw [update_of_ne (hbusy u hj)]
    · grind

theorem History.setPid {k : ℕ}
    (hjob : job p = .making q (.reserved k)) (hq : st q = .unused) (hkids : ∀ x, par x ≠ some q)
    (hbusy : ∀ u, job u ≠ .idle → u ≠ q) (hcorpse : ∀ u S c, job u ≠ .waiting S (some q) (some c)) :
    History st par (update pid q k) xst nextpid trace
      (update job p (.making q (.numbered k))) pending := by
  have hfilled := h.refill (par q) k (xst q) hq hkids hbusy hcorpse
  rw [update_eq_self, update_eq_self] at hfilled
  have hj := hfilled.job p
  rw [hjob] at hj
  exact hfilled.setJob hj

theorem History.discard (hq : st q = .unused)
    (hkids : ∀ x, par x ≠ some q) (hbusy : ∀ u, job u ≠ .idle → u ≠ q)
    (hcorpse : ∀ u S c, job u ≠ .waiting S (some q) (some c)) :
    History (update st q .unused) (update par q none) (update pid q 0)
      (update xst q 0) nextpid trace (update job p .idle) pending := by
  have hst : update st q .unused = st := by rw [← hq, update_eq_self]
  rw [hst]
  exact (h.refill none 0 0 hq hkids hbusy hcorpse).setJob trivial

theorem History.start {s : Stage}
    (hjob : job p = .making q s) (hid : s.id = some (pid q)) (hpar : par q = some p)
    (hlt : pid q < nextpid)
    (hfresh : ∀ u x r k, u ≠ p → job u = .making x r → r.id = some k → pid q ≠ k) :
    History (update st q .runnable) par pid xst nextpid
      (trace ++ [.fork p (pid p) q (pid q)]) (update job p .idle) pending := by
  have hj := h.job p
  rw [hjob] at hj
  have hnone (e : Event) (he : e ∈ trace) : about e ≠ some (pid q) := hj (pid q) hid e he
  have hexit (x k r) : .exit x k r ∈ trace ++ [.fork p (pid p) q (pid q)] ↔
      .exit x k r ∈ trace := by simp
  have hwait (y x k r) : .wait y x k r ∈ trace ++ [.fork p (pid p) q (pid q)] ↔
      .wait y x k r ∈ trace := by simp
  constructor
  · apply h.bound_snoc
    rintro _ ⟨⟩
    exact hlt
  · intro x hx p' y r hw
    rw [hwait] at hw
    by_cases hxq : x = q
    · rw [hxq] at hw
      exact hnone _ hw rfl
    · rw [update_of_ne hxq] at hx
      exact h.reaped x hx p' y r hw
  · intro x hx hinit
    by_cases hxq : x = q
    · subst hxq
      refine ⟨p, pid p, List.mem_append_right _ (List.mem_singleton.2 rfl), ?_⟩
      grind
    · grind [h.forked]
  · intro x hx
    rw [hexit]
    grind [h.zombie]
  · intro x hx y r
    rw [hexit]
    grind [h.status]
  · intro x hx y r hw
    rw [hexit] at hw
    by_cases hxq : x = q
    · rw [hxq] at hw
      exact hnone _ hw rfl
    · rw [update_of_ne hxq] at hx
      exact h.alive x hx y r hw
  · intro x k r hx
    rw [hexit] at hx
    simp only [hwait]
    refine (h.lost x k r hx).imp_right fun ⟨hst, hp, hr⟩ => ⟨?_, hp, hr⟩
    have hxq : x ≠ q := by
      intro hxq
      rw [hxq] at hp hx
      exact hnone _ hx (by rw [hp]; rfl)
    rw [update_of_ne hxq]
    exact hst
  · exact Accounted.snoc h.account trivial
  · intro u
    rw [pendingOf_snoc, h.pending u]
    rfl
  · apply h.idle_snoc
    · intro u x r k hup hu hk hek
      exact hfresh u x r k hup hu hk (Option.some.inj hek)
    · exact fun _ _ => rfl
    · exact fun _ _ _ _ _ _ => ⟨rfl, rfl⟩

theorem History.exited {r : ℤ}
    (halive : Alive (st p)) (hlt : pid p < nextpid)
    (hinj : ∀ x, st x ≠ .unused → pid x = pid p → x = p)
    (hfresh : ∀ u x s k, u ≠ p → job u = .making x s → s.id = some k → pid p ≠ k)
    (hcorpse : ∀ u S c, job u ≠ .waiting S (some p) (some c)) :
    History (update st p .zombie) par pid (update xst p r) nextpid
      (trace ++ [.exit p (pid p) r]) (update job p .idle) pending := by
  have hfork (x k y m) : .fork x k y m ∈ trace ++ [.exit p (pid p) r] ↔ .fork x k y m ∈ trace := by
    simp
  have hwait (y x k s) : .wait y x k s ∈ trace ++ [.exit p (pid p) r] ↔
      .wait y x k s ∈ trace := by simp
  have hused {x : Proc} (hx : update st p .zombie x ≠ .unused) : st x ≠ .unused := by
    by_cases hxp : x = p
    · rw [hxp]
      exact halive.1
    · rwa [update_of_ne hxp] at hx
  have hmem {x : Proc} {k : ℕ} {s : ℤ} (hx : .exit x k s ∈ trace ++ [.exit p (pid p) r]) :
      .exit x k s ∈ trace ∨ x = p ∧ k = pid p ∧ s = r := by
    rcases List.mem_append.1 hx with hx | hx
    · exact .inl hx
    · rw [List.mem_singleton] at hx
      cases hx
      exact .inr ⟨rfl, rfl, rfl⟩
  constructor
  · apply h.bound_snoc
    rintro _ ⟨⟩
    exact hlt
  · intro x hx p' y s
    rw [hwait]
    exact h.reaped x (hused hx) p' y s
  · intro x hx hinit
    obtain ⟨p0, k0, hf, hu⟩ := h.forked x (hused hx) hinit
    refine ⟨p0, k0, (hfork ..).2 hf, fun u hu' => ?_⟩
    exact (hu u hu').imp_right fun ⟨hi, hx⟩ => ⟨hi, List.mem_append_left _ hx⟩
  · intro x hx
    grind [h.zombie]
  · intro x hx y s hy
    by_cases hxp : x = p
    · grind [h.alive]
    · rw [update_of_ne hxp] at hx ⊢
      rcases hmem hy with hy | ⟨-, hk, -⟩
      · exact h.status x hx y s hy
      · exact absurd (hinj x (hx.trans_ne nofun) hk) hxp
  · intro x hx y s hy
    have hxp : x ≠ p := by
      intro hxp
      rw [hxp, update_self] at hx
      exact hx.2 rfl
    rw [update_of_ne hxp] at hx
    rcases hmem hy with hy | ⟨-, hk, -⟩
    · exact h.alive x hx y s hy
    · exact hxp (hinj x hx.1 hk)
  · intro x k s hx
    simp only [hwait]
    by_cases hxp : x = p
    · subst hxp
      rcases hmem hx with hx | ⟨-, hk, hs⟩
      · refine (h.lost x k s hx).imp_right fun ⟨hst, _⟩ => ?_
        exact absurd hst halive.2
      · rw [update_self, update_self]
        exact .inr ⟨rfl, hk.symm, hs.symm⟩
    · grind [h.lost]
  · exact Accounted.snoc h.account trivial
  · intro u
    rw [pendingOf_snoc, h.pending u]
    rfl
  · apply h.idle_snoc
    · intro u x s k hup hu hk hek
      exact hfresh u x s k hup hu hk (Option.some.inj hek)
    · exact fun _ _ => rfl
    · grind

theorem History.reap (hz : st q = .zombie)
    (hinit : q ≠ initproc) (hlt : pid q < nextpid)
    (hinj : ∀ x, st x ≠ .unused → pid x = pid q → x = q) (hkids : ∀ x, par x ≠ some q)
    (hbusy : ∀ u, job u ≠ .idle → u ≠ q)
    (hfresh : ∀ u x s k, u ≠ p → job u = .making x s → s.id = some k → pid q ≠ k)
    (hcorpse : ∀ u S c, u ≠ p → job u ≠ .waiting S (some q) (some c)) :
    History (update st q .unused) (update par q none) (update pid q 0)
      (update xst q 0) nextpid (trace ++ [.wait p q (pid q) (xst q)])
      (update job p .idle) (update pending p (some (pid q : ℤ))) := by
  have hfork (x k y m) : .fork x k y m ∈ trace ++ [.wait p q (pid q) (xst q)] ↔
      .fork x k y m ∈ trace := by simp
  have hexit (x k s) : .exit x k s ∈ trace ++ [.wait p q (pid q) (xst q)] ↔
      .exit x k s ∈ trace := by simp
  have hused : st q ≠ .unused := by
    rw [hz]
    exact nofun
  have hne {x : Proc} (hx : update st q .unused x ≠ .unused) : x ≠ q := by
    intro hxq
    rw [hxq, update_self] at hx
    exact hx rfl
  have hnez {x : Proc} (hx : update st q .unused x = .zombie) : x ≠ q := by
    apply hne
    rw [hx]
    exact nofun
  constructor
  · apply h.bound_snoc
    rintro _ ⟨⟩
    exact hlt
  · intro x hx p' y s hw
    have hxq := hne hx
    rw [update_of_ne hxq] at hx hw
    rcases List.mem_append.1 hw with hw | hw
    · exact h.reaped x hx p' y s hw
    · rw [List.mem_singleton] at hw
      injection hw with _ _ hk _
      exact hxq (hinj x hx hk)
  · grind [h.forked]
  · grind [h.zombie]
  · grind [h.status]
  · intro x hx y s
    have hxq := hne hx.1
    rw [update_of_ne hxq] at hx
    rw [hexit, update_of_ne hxq]
    exact h.alive x hx y s
  · intro x k s hx
    rw [hexit] at hx
    rcases h.lost x k s hx with ⟨y, hy⟩ | ⟨hst, hk, hs⟩
    · exact .inl ⟨y, List.mem_append_left _ hy⟩
    by_cases hxq : x = q
    · subst hxq
      refine .inl ⟨p, List.mem_append_right _ ?_⟩
      rw [hk, hs]
      exact List.mem_singleton.2 rfl
    · refine .inr ?_
      rw [update_of_ne hxq, update_of_ne hxq, update_of_ne hxq]
      exact ⟨hst, hk, hs⟩
  · apply Accounted.snoc h.account
    obtain ⟨p0, k0, hf, -⟩ := h.forked q hused hinit
    exact ⟨⟨p0, k0, hf⟩, h.zombie q hz, fun x s' hx => h.status q hz x s' hx,
      fun p' x s' => h.reaped q hused p' x s'⟩
  · intro u
    rw [pendingOf_snoc, h.pending u]
    by_cases hup : u = p
    · rw [hup, update_self]
      exact if_pos rfl
    · rw [update_of_ne hup]
      exact if_neg (Ne.symm hup)
  · apply h.idle_snoc
    · intro u x s k hup hu hk hek
      exact hfresh u x s k hup hu hk (Option.some.inj hek)
    · intro u hj
      rw [update_of_ne (hbusy u hj)]
    · grind

end

variable {entry : Proc → Entry}

theorem Tidy.setJob (h : Tidy entry job)
    (hmake : ∀ q s, job p = .making q s → (entry q).state = .unused →
      Clean (entry q) ∨ ∃ s', j = .making q s') :
    Tidy entry (update job p j) := by
  intro q hq
  refine or_iff_not_imp_left.2 fun hc => maker_update ((h q hq).resolve_left hc) fun s hs => ?_
  exact (hmake q s hs hq).resolve_left hc

theorem Tidy.remake {s s' : Stage} (h : Tidy entry job) (hjob : job p = .making q s) :
    Tidy entry (update job p (.making q s')) := by
  refine h.setJob fun x r hx _ => .inr ?_
  cases hjob.symm.trans hx
  exact ⟨s', rfl⟩

theorem Tidy.modify (h : Tidy entry job) {e : Entry}
    (he : e.state = .unused → Clean e ∨ ∃ u s, job u = .making q s) :
    Tidy (update entry q e) job := by
  intro x hx
  by_cases hxq : x = q
  · rw [hxq, update_self] at hx ⊢
    exact he hx
  · rw [update_of_ne hxq] at hx ⊢
    exact h x hx

theorem Marked.snoc {l : List Event} {k : ℕ} (h : Marked l q k) (e : Event) :
    Marked (l ++ [e]) q k := by
  obtain ⟨before, after, hl, hf, hm⟩ := h
  refine ⟨before, after ++ [e], by rw [hl, List.append_assoc], hf, ?_⟩
  exact hm.imp (fun ⟨p, hp⟩ => ⟨p, List.mem_append_left _ hp⟩) (List.mem_append_left _)

theorem Kills.snoc (h : Kills entry trace) (e : Event) : Kills entry (trace ++ [e]) := by
  intro q hq
  exact ⟨(h q hq).1, (h q hq).2.snoc e⟩

theorem Kills.modify (h : Kills entry trace) {e : Entry}
    (he : e.killed = true → e.state ≠ .unused ∧ Marked trace q e.pid) :
    Kills (update entry q e) trace := by
  intro x hx
  grind [h x]

end Xv6.ProcInvariant
