import Xv6.ProcRules

set_option autoImplicit false

namespace Xv6.ProcInvariant
open Resumption Interleaving ProcCode
open LogCode (Proc)
open Function (update update_eq_self update_idem update_of_ne update_self)

variable {n : ℕ} {lockOf : ℕ → ℕ} {o : Opts} {t : Thread n} {p q : Proc} {ℓ : Ghost}
variable {k χ : ℕ} {r : ℤ}

/-- A program may use what the invariant says of the state it starts in. -/
theorem ok_known {α β : Type} {a : Act β} {k : β → Prog Act α} {Q : α → Ghost → Prop} (φ : Prop)
    (h : ∀ (g : State n) Λ, Λ t = ℓ → Inv lockOf o g Λ → g.hart t ≠ none → φ)
    (hok : φ → Ok lockOf o t (act a >>= k) ℓ Q) : Ok lockOf o t (act a >>= k) ℓ Q := by
  intro g Λ hl hI
  by_cases hart : g.hart t = none
  · refine ⟨Safe.off hart, fun _ b g' hdone => ?_⟩
    change exec t a g = _ at hdone
    rw [exec, hart] at hdone
    cases hdone
  · exact hok (h g Λ hl hI hart) g Λ hl hI

theorem ok_panic {msg : String} {Q : Unit → Ghost → Prop} :
    Ok lockOf o t (act (.panic msg)) ℓ Q := by
  apply Valid.perform
  intro g Λ _ _
  have hexec : exec t (.panic msg) g = .blocked ∨ exec t (.panic msg) g = .panic msg := by
    unfold exec
    cases g.hart t with
    | none => exact .inl rfl
    | some c => exact .inr rfl
  have hdone (b : Unit) (g' : State n) : exec t (.panic msg) g ≠ .done b g' := by
    intro h
    rw [h] at hexec
    rcases hexec with h | h <;> cases h
  refine ⟨⟨fun _ m hm => ?_, fun _ b g' h => absurd h (hdone b g'), fun _ _ _ _ => trivial, nofun⟩,
    fun _ b g' h => absurd h (hdone b g')⟩
  rcases hexec with h | h
  · rw [h] at hm
    cases hm
  · rw [h] at hm
    cases hm
    exact .rfl

theorem ok_takePid (hjob : ℓ.job = .making q .found) :
    Ok lockOf o (.proc p : Thread n) (act .takePid) ℓ fun k ℓ' =>
      ℓ' = { ℓ with job := .making q (.reserved k) } := by
  apply Valid.perform
  intro g Λ hl hI
  have hexec (b : ℕ) (g' : State n) (h : exec (.proc p) .takePid g = .done b g') :
      b = g.nextpid ∧ g' = { g with nextpid := g.nextpid + 1 } := by
    unfold exec at h
    cases hart : g.hart (.proc p) with
    | none =>
      rw [hart] at h
      cases h
    | some c =>
      rw [hart] at h
      change (if g.nextpid + 1 < 2 ^ 31 then _ else _) = _ at h
      split at h
      · cases h
        exact ⟨rfl, rfl⟩
      · cases h
  have hsound (msg : String) : exec (.proc p) .takePid g ≠ .panic msg := by
    intro h
    unfold exec at h
    cases hart : g.hart (.proc p) with
    | none =>
      rw [hart] at h
      cases h
    | some c =>
      rw [hart] at h
      change (if g.nextpid + 1 < 2 ^ 31 then _ else _) = _ at h
      split at h <;> cases h
  refine ⟨⟨fun _ msg hm => absurd hm (hsound msg), fun _ b g' h => ?_, fun _ _ _ _ => trivial,
    nofun⟩, fun _ b g' h => ?_⟩
  · rw [(hexec b g' h).2]
    exact Legal.same rfl (.inl rfl)
  · obtain ⟨rfl, rfl⟩ := hexec b g' h
    subst hl
    exact ⟨_, hI.takePid rfl hjob, rfl⟩

theorem ok_setPid (hjob : ℓ.job = .making q (.reserved k)) :
    Ok lockOf o (.proc p : Thread n) (act (.set q (.pid k))) ℓ fun _ ℓ' =>
      ℓ' = { ℓ with job := .making q (.numbered k) } := by
  apply ok_act rfl
  intro g Λ c hl hI _ _
  subst hl
  exact ⟨fun _ _ => trivial, (), _, _, rfl, Legal.modify rfl (.inl rfl) (Edge.refl _) id,
    hI.setPid rfl hjob, rfl⟩

theorem ok_setTrapframe (ok : Bool) (hjob : ℓ.job = .making q (.numbered k)) :
    Ok lockOf o (.proc p : Thread n) (act (.set q (.trapframe ok))) ℓ fun _ ℓ' =>
      ℓ' = if ok = true then ℓ else { ℓ with job := .idle } := by
  apply ok_act rfl
  intro g Λ c hl hI _ hgood
  have hwrite : Inv lockOf o (g.modify q (·.write (.trapframe ok))) Λ := by
    subst hl
    exact hI.touch rfl rfl rfl rfl rfl rfl rfl fun _ => ⟨p, _, hjob⟩
  refine ⟨fun _ _ => trivial, (), _, _, rfl, Legal.modify rfl (.inl rfl) (Edge.refl _) id, ?_, rfl⟩
  by_cases hok : ok = true
  · rw [if_pos hok]
    exact inv_same hl hwrite
  rw [if_neg hok]
  subst hl
  refine hwrite.setJob rfl trivial (fun _ => trivial) (fun _ => rfl) trivial ?_ nofun trivial
    nofun trivial nofun trivial
  intro x s hx
  rw [hjob] at hx
  cases hx
  exact .inl ⟨(hwrite.tree.making hjob).2.2, fun hc => absurd (hgood hc) hok⟩

theorem ok_setField {s : Stage} {w : Write} (hjob : ℓ.job = .making q s)
    (hw : (∃ ok, w = .pagetable ok) ∨ ∃ k, w = .sz k) :
    Ok lockOf o (.proc p : Thread n) (act (.set q w)) ℓ fun _ ℓ' => ℓ' = ℓ := by
  have hsame (e : Entry) : (e.write w).state = e.state ∧ (e.write w).parent = e.parent ∧
      (e.write w).chan = e.chan ∧ (e.write w).pid = e.pid ∧ (e.write w).xstate = e.xstate ∧
      (e.write w).context = e.context ∧ (e.write w).killed = e.killed := by
    rcases hw with ⟨ok, rfl⟩ | ⟨k, rfl⟩ <;> exact ⟨rfl, rfl, rfl, rfl, rfl, rfl, rfl⟩
  have hwants : wants (.set q w) = none := by
    rcases hw with ⟨ok, rfl⟩ | ⟨k, rfl⟩ <;> rfl
  apply ok_act hwants
  intro g Λ c hl hI _ _
  obtain ⟨hst, hpar, hchan, hpid, hxst, hctx, hkilled⟩ := hsame (g.entry q)
  have hwrite : Inv lockOf o (g.modify q (·.write w)) Λ := by
    subst hl
    exact hI.touch hst hpar hchan hpid hxst hctx hkilled fun _ => ⟨p, s, hjob⟩
  refine ⟨fun _ _ => trivial, (), _, _, rfl, Legal.modify rfl (.inl rfl) ?_ ?_,
    inv_same hl hwrite, rfl⟩
  · rw [hst]
    exact Edge.refl _
  · rw [hst]
    exact id

theorem ok_setContext (hjob : ℓ.job = .making q (.numbered k)) :
    Ok lockOf o (.proc p : Thread n) (act (.set q .context)) ℓ fun _ ℓ' =>
      ℓ' = { ℓ with job := .making q (.ready k) } := by
  apply ok_act rfl
  intro g Λ c hl hI _ _
  subst hl
  exact ⟨fun _ _ => trivial, (), _, _, rfl, Legal.modify rfl (.inl rfl) (Edge.refl _) id,
    hI.prepare rfl hjob, rfl⟩

theorem ok_freeproc {s : Stage} (hjob : ℓ.job = .making q s) :
    Ok lockOf o (.proc p : Thread n) (act (.freeproc q)) ℓ fun _ ℓ' =>
      ℓ' = { ℓ with job := .idle } := by
  apply ok_act rfl
  intro g Λ c hl hI _ _
  subst hl
  have hun := (hI.making hjob).unused
  refine ⟨fun _ _ => trivial, (), _, _, rfl, Legal.modify rfl (.inl rfl) ?_ fun _ => hun,
    hI.discard rfl hjob, rfl⟩
  rw [hun]
  exact Edge.refl _

theorem ok_setParent_fork (hjob : ℓ.job = .making q (.ready k)) :
    Ok lockOf o (.proc p : Thread n) (act (.setParent q p)) ℓ fun _ ℓ' =>
      ℓ' = { ℓ with job := .making q (.parented k) } := by
  apply ok_act rfl
  intro g Λ c hl hI _ _
  subst hl
  exact ⟨fun _ _ => trivial, (), _, _, rfl, Legal.modify rfl (.inl rfl) (Edge.refl _) id,
    hI.adopt rfl hjob, rfl⟩

theorem ok_start (hjob : ℓ.job = .making q (.parented k)) :
    Ok lockOf o (.proc p : Thread n) (act (.start q)) ℓ fun _ ℓ' =>
      ℓ' = { ℓ with job := .idle } := by
  apply ok_act rfl
  intro g Λ c hl hI _ _
  subst hl
  have hun := (hI.making hjob).unused
  refine ⟨fun _ _ => trivial, (), _, _, rfl, Legal.modify rfl (.inr ⟨_, rfl, trivial⟩) ?_
    nofun, hI.start rfl hjob, rfl⟩
  rw [hun]
  trivial

theorem ok_exiting (hrun : ℓ.phase = .run) (hp : p ≠ initproc) (hjob : ℓ.job = .idle) :
    Ok lockOf o (.proc p : Thread n) (act (.exiting p)) ℓ fun _ ℓ' =>
      ℓ' = { ℓ with job := .leaving none false ∅ none } := by
  apply ok_act rfl
  intro g Λ c hl hI _ _
  subst hl
  have halive : Alive (st g p) := by
    rw [hI.running hrun]
    exact ⟨nofun, nofun⟩
  have hnote : Inv lockOf o (g.log (.exiting p (pid g p))) Λ := by
    have := hI.note (p := p) (ℓ := Λ (.proc p)) (r := (Λ (.proc p)).pending)
      (v := .exiting p (pid g p)) rfl trivial
      (by
        intro k hk
        cases hk
        exact hI.pids.lt p)
      (by
        intro u x s k hu hk hab
        cases hab
        exact hI.not_fresh (hI.not_made halive.1) hu hk rfl)
      trivial
      (by
        intro u
        change field Ghost.pending Λ u = _
        rw [show (Λ (.proc p)).pending = field Ghost.pending Λ p from rfl,
          update_eq_self])
    rwa [update_eq_self] at this
  refine ⟨fun _ _ => trivial, (), _, _, rfl, Legal.same rfl (.inr ⟨_, rfl, trivial⟩), ?_, rfl⟩
  refine hnote.turn rfl hrun ?_ nofun ⟨nofun, .inl ⟨rfl, rfl⟩⟩
    ⟨halive, hp, nofun, nofun, nofun⟩ trivial nofun trivial ?_
  · rw [hjob]
    exact nofun
  · exact List.mem_append_right _ (List.mem_singleton.2 rfl)

theorem ok_setParent_exit {v : Option Proc} {a : Bool} {G : Finset Proc}
    (hjob : ℓ.job = .leaving v a G (some q)) :
    Ok lockOf o (.proc p : Thread n) (act (.setParent q initproc)) ℓ fun _ ℓ' =>
      ℓ' = { ℓ with job := .leaving v a (insert q G) none } := by
  apply ok_act rfl
  intro g Λ c hl hI _ _
  subst hl
  exact ⟨fun _ _ => trivial, (), _, _, rfl, Legal.modify rfl (.inl rfl) (Edge.refl _) id,
    hI.disown rfl hjob, rfl⟩

theorem edge_wake (e : Entry) (ch : Chan) :
    Edge e.state (e.wake ch).state ∧ ((e.wake ch).state = .unused → e.state = .unused) := by
  unfold Entry.wake
  split
  · rename_i h
    rw [h.1]
    exact ⟨trivial, nofun⟩
  · exact ⟨Edge.refl _, id⟩

theorem ok_wakeup1 (hq : .proc q ∈ ℓ.held) (hphase : ∀ s, ℓ.phase ≠ .parting s) {ℓ' : Ghost}
    (h : ∀ (g : State n) Λ, Λ t = ℓ → Inv lockOf o g Λ → g.hart t ≠ none →
      (st g q = .sleeping → chan g q ≠ some (.proc q)) →
      Inv lockOf o g (update Λ t ℓ')) :
    Ok lockOf o t (act (.wakeup1 q)) ℓ fun _ ℓ2 => ℓ2 = ℓ' := by
  apply ok_act rfl
  intro g Λ c hl hI hart _
  have hon : g.hart t ≠ none := by
    rw [hart]
    exact Option.some_ne_none c
  have hlock : g.lock (.proc q) = some c := by
    subst hl
    exact (hI.harts.lock_iff hart _).2 hq
  have hwoken : Inv lockOf o (g.modify q (·.wake (.proc q))) Λ := by
    subst hl
    exact hI.wake hon hq hphase
  refine ⟨fun _ _ => trivial, (), g.modify q (·.wake (.proc q)), ℓ', ?_,
    Legal.modify rfl (.inl rfl) (edge_wake _ _).1 (edge_wake _ _).2, ?_, rfl⟩
  · change (if g.lock (.proc q) ≠ some c then _ else _) = _
    rw [if_neg (not_not_intro hlock)]
  · apply h _ Λ hl hwoken hon
    intro hs hc
    have hq' : (g.modify q (·.wake (.proc q))).entry q = (g.entry q).wake (.proc q) :=
      update_self ..
    unfold st at hs
    unfold chan at hc
    rw [hq'] at hs hc
    unfold Entry.wake at hs hc
    split at hs
    · cases hs
    · rename_i hno
      rw [if_neg hno] at hc
      exact hno ⟨hs, hc⟩

theorem ok_wakeup1_init (hq : .proc q ∈ ℓ.held) (hphase : ∀ s, ℓ.phase ≠ .parting s) :
    Ok lockOf o t (act (.wakeup1 q)) ℓ fun _ ℓ' => ℓ' = ℓ := by
  apply ok_wakeup1 hq hphase
  exact fun g Λ hl hI _ _ => inv_same hl hI

theorem ok_wakeup1_parent {G : Finset Proc} {k : Option Proc} (hrun : ℓ.phase = .run)
    (hq : .proc q ∈ ℓ.held) (hjob : ℓ.job = .leaving (some q) false G k) :
    Ok lockOf o (.proc p : Thread n) (act (.wakeup1 q)) ℓ fun _ ℓ' =>
      ℓ' = { ℓ with job := .leaving (some q) true G k } := by
  apply ok_wakeup1 hq
  · rw [hrun]
    exact nofun
  · intro g Λ hl hI _ hawake
    subst hl
    obtain ⟨htree, -, hpids, hhist, hlocked⟩ := hI.at_job hjob
    exact hI.turn rfl hrun (by rw [hjob]; exact nofun) nofun ⟨fun _ => ⟨q, rfl, hq⟩, hlocked.2⟩ htree
      hawake nofun hpids hhist

theorem ok_exited {v : Proc} (hrun : ℓ.phase = .run) (hp : .proc p ∈ ℓ.held)
    (hjob : ℓ.job = .leaving (some v) true Finset.univ none) :
    Ok lockOf o (.proc p : Thread n) (act (.exited p r)) ℓ fun _ ℓ' =>
      ℓ' = { ℓ with phase := .parting .zombie, job := .idle } := by
  apply ok_act rfl
  intro g Λ c hl hI _ _
  subst hl
  have hst := hI.running hrun
  refine ⟨fun _ _ => trivial, (), _, _, rfl, Legal.modify rfl (.inr ⟨_, rfl, trivial⟩) ?_
    nofun, hI.exited rfl hrun hp hjob, rfl⟩
  rw [hst]
  trivial

theorem ok_reap {S : Finset Proc} (hjob : ℓ.job = .waiting S (some q) (some (k, r))) :
    Ok lockOf o (.proc p : Thread n) (act (.reap q k r)) ℓ fun _ ℓ' =>
      ℓ' = { ℓ with job := .idle, pending := some (k : ℤ) } := by
  apply ok_act rfl
  intro g Λ c hl hI _ _
  subst hl
  obtain ⟨htree, -, -, ⟨(hk : pid g q = k), (hr : xst g q = r)⟩, -⟩ := hI.at_job hjob
  have hpar : par g q = some p := (htree.2 q rfl).1
  have hz : st g q = .zombie := (htree.2 q rfl).2 nofun
  refine ⟨fun _ _ => trivial, (), _, _, rfl, ?_, hI.reap rfl hjob, rfl⟩
  have hst (x : Proc) (hx : x ≠ q) : st ((g.modify q Entry.freed).log (.wait p q k r)) x =
      st g x :=
    congrArg Entry.state (update_of_ne hx ..)
  have hstq : st ((g.modify q Entry.freed).log (.wait p q k r)) q = .unused :=
    congrArg Entry.state (modify_entry g q Entry.freed)
  constructor
  · intro x
    by_cases hx : x = q
    · rw [hx]
      change Edge (st g q) (st ((g.modify q Entry.freed).log (.wait p q k r)) q)
      rw [hstq, hz]
      trivial
    · change Edge (st g x) (st ((g.modify q Entry.freed).log (.wait p q k r)) x)
      rw [hst x hx]
      exact Edge.refl _
  · intro x hx hx'
    by_cases hxq : x = q
    · rw [hxq, hk, hr]
      exact ⟨p, rfl, rfl⟩
    · change st ((g.modify q Entry.freed).log (.wait p q k r)) x = .unused at hx'
      rw [hst x hxq] at hx'
      exact absurd hx' hx
  · intro p' q' k' r' he
    cases List.append_cancel_left he
    exact ⟨rfl, hz, hpar, hk, hr, hstq⟩
  · intro p' q' k' he
    cases List.append_cancel_left he

theorem settle_own {Λ : Thread n → Ghost} {v : Event} {r : Option ℤ}
    (hown : ∀ x, settle p x v = r) (hother : ∀ u x, u ≠ p → settle u x v = x) (u : Proc) :
    settle u (field Ghost.pending Λ u) v = update (field Ghost.pending Λ) p r u := by
  by_cases hu : u = p
  · rw [hu, update_self]
    exact hown _
  · rw [update_of_ne hu]
    exact hother u _ hu

/-- `wait` cannot copy the status out; the child stays a zombie. -/
theorem ok_copyFailed {S : Finset Proc} {k : ℕ × ℤ} (hrun : ℓ.phase = .run)
    (hjob : ℓ.job = .waiting S (some q) (some k)) :
    Ok lockOf o (.proc p : Thread n) (act (.copyFailed q)) ℓ fun _ ℓ' =>
      ℓ' = { ℓ with job := .idle, pending := some (-1) } := by
  apply ok_act rfl
  intro g Λ c hl hI _ _
  subst hl
  obtain ⟨htree, -⟩ := hI.at_job hjob
  have hpar : par g q = some p := (htree.2 q rfl).1
  have hz : st g q = .zombie := (htree.2 q rfl).2 nofun
  have hused : st g q ≠ .unused := by
    rw [hz]
    exact nofun
  have hnote : Inv lockOf o (g.log (.copyFailed p q (pid g q)))
      (update Λ (.proc p) { Λ (.proc p) with pending := some (-1) }) := by
    refine hI.note rfl trivial ?_ ?_ ?_ ?_
    · intro m hm
      cases hm
      exact hI.pids.lt q
    · intro u x s m hu hm hab
      cases hab
      exact hI.not_fresh (hI.not_made hused) hu hm rfl
    · trivial
    · apply settle_own
      · exact fun x => if_pos rfl
      · exact fun u x hu => if_neg (Ne.symm hu)
  refine ⟨fun _ _ => trivial, (), _, _, rfl, ⟨fun _ => Edge.refl _, ?_, ?_, ?_⟩, ?_, rfl⟩
  · exact fun x hx hx' => absurd hx' hx
  · intro p' q' k' r' he
    cases List.append_cancel_left he
  · intro p' q' k' he
    cases List.append_cancel_left he
    exact ⟨rfl, hz, hpar, rfl, rfl⟩
  have hdrop := hnote.drop (p := p) (ℓ := { Λ (.proc p) with job := .idle, pending := some (-1) })
    (by rw [update_self]) (by rw [update_self]; exact hrun)
    (by
      rw [update_self]
      change ∀ x s, (Λ (.proc p)).job ≠ .making x s
      rw [hjob]
      exact nofun)
  rwa [update_idem] at hdrop

theorem ok_ret (hr : r = ℓ.pending.getD (-1)) :
    Ok lockOf o (.proc p : Thread n) (act (.ret r)) ℓ fun _ ℓ' =>
      ℓ' = { ℓ with pending := none } := by
  apply ok_act rfl
  intro g Λ c hl hI _ _
  subst hl
  refine ⟨fun _ _ => trivial, (), _, _, rfl, Legal.same rfl (.inr ⟨_, rfl, trivial⟩), ?_, rfl⟩
  refine hI.note rfl trivial ?_ ?_ ?_ ?_
  · exact nofun
  · exact nofun
  · change r = (pendingOf p g.trace).getD (-1)
    rw [hI.history.pending p]
    exact hr
  · apply settle_own
    · exact fun x => if_pos rfl
    · exact fun u x hu => if_neg (Ne.symm hu)

theorem edge_kill (e : Entry) :
    Edge e.state e.kill.state ∧ (e.kill.state = .unused → e.state = .unused) := by
  unfold Entry.kill
  by_cases h : e.state = .sleeping
  · rw [h]
    exact ⟨trivial, nofun⟩
  · rw [if_neg h]
    exact ⟨Edge.refl _, id⟩

section

variable (hrun : ℓ.phase = .run)
include hrun

theorem ok_kill {k : ℤ} (hq : .proc q ∈ ℓ.held) (hjob : ∀ x s, ℓ.job ≠ .making x s) :
    Ok lockOf o (.proc p : Thread n) (act (.kill q k)) ℓ fun b ℓ' =>
      ℓ' = if b = true then { ℓ with pending := some 0 } else ℓ := by
  apply ok_act rfl
  intro g Λ c hl hI hart hgood
  subst hl
  have hon : g.hart (.proc p) ≠ none := by
    rw [hart]
    exact Option.some_ne_none c
  have hmade (u : Proc) (s : Stage) : field Ghost.job Λ u ≠ .making q s := by
    intro hu
    have := hI.one_maker hon hq hu
    cases this
    exact hjob q s hu
  -- A free slot is clean, and 0 is not what `kill` looks for.
  have hlive (hc : o.clean) (hk : o.kill) (hpid : ((g.entry q).pid : ℤ) = k) :
      (g.entry q).state ≠ .unused := by
    intro hun
    rcases hI.tidy hc q hun with hclean | ⟨u, s, hu⟩
    · rw [hclean.pid] at hpid
      exact hgood hk hpid.symm
    · exact hmade u s hu
  refine ⟨hlive, ?_⟩
  by_cases hpid : ((g.entry q).pid : ℤ) = k
  · refine ⟨true, (g.modify q Entry.kill).log (.kill p q (g.entry q).pid), _, if_pos hpid,
      Legal.modify rfl (.inr ⟨_, rfl, trivial⟩) (edge_kill _).1 (edge_kill _).2, ?_,
      (if_pos rfl).symm⟩
    have hsettle := settle_own (p := p) (Λ := Λ) (v := .kill p q (pid g q)) (r := some 0)
      (fun x => if_pos rfl) fun u x hu => if_neg (Ne.symm hu)
    by_cases hs : (g.entry q).state = .sleeping
    · have hroused := hI.rouse hs (hI.not_parting hon hq (by rw [hrun]; exact nofun))
      have hmark := hroused.mark (p := p) (q := q) (v := .kill p q (pid g q)) (r := some 0) rfl
        (.inl ⟨p, by unfold pid; rw [modify_entry]⟩) hsettle hmade
        (fun _ _ => by unfold st; rw [modify_entry]; exact nofun)
      have heq : (g.modify q fun e => { e with state := .runnable }).modify q
          (fun e => { e with killed := true }) = g.modify q Entry.kill := by
        unfold State.modify Entry.kill
        simp only [update_self, update_idem]
        rw [if_pos hs]
      rw [heq] at hmark
      exact hmark
    · have hmark := hI.mark (p := p) (q := q) (v := .kill p q (pid g q)) (r := some 0) rfl
        (.inl ⟨p, rfl⟩) hsettle hmade fun hc hk => hlive hc hk hpid
      have heq : g.modify q (fun e => { e with killed := true }) = g.modify q Entry.kill := by
        apply modify_congr
        unfold Entry.kill
        rw [if_neg hs]
      rw [heq] at hmark
      exact hmark
  · exact ⟨false, g, _, if_neg hpid, Legal.same rfl (.inl rfl), inv_same rfl hI,
      (if_neg nofun).symm⟩

theorem ok_fault : Ok lockOf o (.proc p : Thread n) (act (.fault p)) ℓ fun _ ℓ' => ℓ' = ℓ := by
  apply ok_act rfl
  intro g Λ c hl hI _ _
  subst hl
  have hused : st g p ≠ .unused := by
    rw [hI.running hrun]
    exact nofun
  refine ⟨fun _ _ => trivial, (), _, _, rfl,
    Legal.modify rfl (.inr ⟨_, rfl, trivial⟩) (Edge.refl _) id, ?_, rfl⟩
  apply hI.mark rfl (.inr rfl) _ (hI.not_made hused) fun _ _ => hused
  intro u
  change field Ghost.pending Λ u = _
  rw [show (Λ (.proc p)).pending = field Ghost.pending Λ p from rfl, update_eq_self]

theorem ok_yielding (hp : .proc p ∈ ℓ.held) :
    Ok lockOf o (.proc p : Thread n) (act (.yielding p)) ℓ fun _ ℓ' =>
      ℓ' = { ℓ with phase := .parting .runnable } := by
  apply ok_act rfl
  intro g Λ c hl hI _ _
  subst hl
  have hst := hI.running hrun
  refine ⟨fun _ _ => trivial, (), _, _, rfl, Legal.modify rfl (.inl rfl) ?_ nofun, ?_, rfl⟩
  · rw [hst]
    trivial
  · rw [modify_congr _ (fun e => { e with state := .runnable, chan := (g.entry p).chan }) rfl]
    exact hI.part rfl hrun hp (.inl ⟨rfl, rfl⟩)

theorem ok_sleep {ch : Chan} (hp : .proc p ∈ ℓ.held) (hjob : ∀ x s, ℓ.job ≠ .making x s)
    (hself : ∀ (g : State n) Λ, Λ (.proc p) = ℓ → Inv lockOf o g Λ → ch = .proc p →
      p ≠ initproc → ∀ x, par g x = some p → st g x ≠ .zombie)
    (hother : ∀ (g : State n) Λ χ, Λ (.proc p) = ℓ → Inv lockOf o g Λ → ch = .other χ →
      Covered g.cond (fun t => (Λ t).waking) χ p) :
    Ok lockOf o (.proc p : Thread n) (act (.sleepOn p ch)) ℓ fun _ ℓ' =>
      ℓ' = { ℓ with phase := .parting .sleeping, job := .idle } := by
  apply ok_act rfl
  intro g Λ c hl hI _ _
  have hst : st g p = .running := by
    subst hl
    exact hI.running hrun
  refine ⟨fun _ _ => trivial, (), _, _, rfl, Legal.modify rfl (.inl rfl) ?_ nofun, ?_, rfl⟩
  · rw [hst]
    trivial
  · have hdrop : Inv lockOf o g (update Λ (.proc p) { ℓ with job := .idle }) := by
      subst hl
      exact hI.drop rfl hrun hjob
    have hpart := hdrop.part (p := p) (s := .sleeping) (w := some ch)
      (ℓ := { ℓ with phase := .parting .sleeping, job := .idle })
      (by rw [update_self]) (by rw [update_self]; exact hrun)
      (by rw [update_self]; exact hp)
      (.inr ⟨rfl, ch, rfl, hself g Λ hl hI, fun χ hχ => by
        rw [proj_same Ghost.waking (by rw [hl])]
        exact hother g Λ χ hl hI hχ, by rw [update_self]⟩)
    rw [update_idem] at hpart
    rw [modify_congr _ (fun e => { e with state := .sleeping, chan := some ch }) rfl]
    exact hpart

/-- All children were looked at, and the lock of the parent keeps them from exiting unseen. -/
theorem ok_sleep_wait (hp : .proc p ∈ ℓ.held) (hjob : ℓ.job = .waiting Finset.univ none none) :
    Ok lockOf o (.proc p : Thread n) (act (.sleepOn p (.proc p))) ℓ fun _ ℓ' =>
      ℓ' = { ℓ with phase := .parting .sleeping, job := .idle } := by
  apply ok_sleep hrun hp
  · rw [hjob]
    exact nofun
  · intro g Λ hl hI _ hinit x hx
    obtain ⟨-, hwaits, -⟩ := hI.at_job ((congrArg Ghost.job hl).trans hjob)
    exact hwaits hinit x (Finset.mem_univ x) hx
  · exact nofun

theorem ok_sleep_cond (hp : .proc p ∈ ℓ.held) (hjob : ℓ.job = .drowsy χ) :
    Ok lockOf o (.proc p : Thread n) (act (.sleepOn p (.other χ))) ℓ fun _ ℓ' =>
      ℓ' = { ℓ with phase := .parting .sleeping, job := .idle } := by
  apply ok_sleep hrun hp
  · rw [hjob]
    exact nofun
  · exact nofun
  · intro g Λ χ' hl hI hχ
    cases hχ
    exact hI.wakes.drowsy p χ ((congrArg Ghost.job hl).trans hjob)

theorem ok_clearChan :
    Ok lockOf o (.proc p : Thread n) (act (.clearChan p)) ℓ fun _ ℓ' => ℓ' = ℓ := by
  apply ok_act rfl
  intro g Λ c hl hI _ _
  have hst : st g p = .running := by
    subst hl
    exact hI.running hrun
  have hused : st g p ≠ .unused := by
    rw [hst]
    exact nofun
  exact ⟨fun _ _ => trivial, (), _, _, rfl, Legal.modify rfl (.inl rfl) (Edge.refl _) id,
    inv_same hl (hI.clearChan hused), rfl⟩

theorem ok_image {sz : ℕ} :
    Ok lockOf o (.proc p : Thread n) (act (.image p sz)) ℓ fun _ ℓ' => ℓ' = ℓ := by
  apply ok_act rfl
  intro g Λ c hl hI _ _
  have hst : st g p = .running := by
    subst hl
    exact hI.running hrun
  refine ⟨fun _ _ => trivial, (), _, _, rfl, Legal.modify rfl (.inl rfl) (Edge.refl _) id,
    inv_same hl (hI.touch rfl rfl rfl rfl rfl rfl rfl ?_), rfl⟩
  rw [hst]
  exact nofun

end

theorem ok_sched {s : ProcState} (hpart : ℓ.phase = .parting s) (hheld : ℓ.held = {.proc p})
    (hcalm : ℓ.job.Calm) (hidle : s = .zombie → ℓ.job = .idle) :
    Ok lockOf o (.proc p : Thread n) (act (.sched p)) ℓ fun _ ℓ' =>
      ℓ' = { ℓ with phase := .off, dead := decide (s = .zombie) } := by
  apply ok_act rfl
  intro g Λ c hl hI hart _
  subst hl
  have hlock : g.lock (.proc p) = some c := by
    apply (hI.harts.lock_iff hart _).2
    rw [hheld]
    exact Finset.mem_singleton_self _
  have hnoff : g.noff c = 1 := by
    rw [hI.harts.noff _ c hart, hheld]
    exact Finset.card_singleton _
  have hst : (g.entry p).state ≠ .running := by
    have hph := (hI.proc_wf p).phase
    rw [hpart] at hph
    rw [show (g.entry p).state = s from hI.sched.parting p s hpart]
    exact hph.2
  refine ⟨fun _ _ => trivial, (), { g.modify p fun e => { e with context := .saved } with
    hart := update (update g.hart (.proc p) none) (.cpu c) (some c) }, _, ?_,
    Legal.modify (q := p) (e := { g.entry p with context := .saved }) rfl (.inl rfl) (Edge.refl _)
      id, hI.leave rfl hart hpart hheld hcalm hidle, rfl⟩
  change g.sched (.proc p) c p = _
  unfold State.sched
  rw [if_neg (not_not_intro hlock), if_neg (not_not_intro hnoff), if_neg hst]

theorem ok_enter (hoff : ℓ.phase = .off) (hdead : ℓ.dead = true) :
    Ok lockOf o (.proc p : Thread n) (act (.enter p)) ℓ fun _ ℓ' =>
      ℓ' = { ℓ with phase := .run, dead := false } := by
  apply ok_act rfl
  intro g Λ c hl hI hart _
  subst hl
  have hon : g.hart (.proc p) ≠ none := by
    rw [hart]
    exact Option.some_ne_none c
  have hst : st g p = .running := hI.sched.running p hon (.inr hoff)
  have hctx : (g.entry p).context = .forkret := by
    apply hI.deaths.fresh p hdead
    rw [hst]
    exact ⟨nofun, nofun⟩
  exact ⟨fun _ _ => trivial, (), g, _, if_pos hctx, Legal.same rfl (.inl rfl),
    hI.resume rfl hon hoff, rfl⟩

section Cpu

variable {c : Fin n}

theorem ok_pick (hfree : ℓ.phase = .free) (hheld : ℓ.held = {.proc q}) :
    Ok lockOf o (.cpu c) (act (.pick q)) ℓ fun b ℓ' =>
      ℓ' = if b = true then { ℓ with phase := .picked q } else ℓ := by
  apply ok_act rfl
  intro g Λ d hl hI _ _
  by_cases hq : (g.entry q).state = .runnable
  · subst hl
    refine ⟨fun _ _ => trivial, true, _, _, if_pos hq, Legal.modify rfl (.inl rfl) ?_ nofun,
      hI.pick rfl hfree hheld hq, (if_pos rfl).symm⟩
    rw [show st g q = _ from hq]
    trivial
  · exact ⟨fun _ _ => trivial, false, g, _, if_neg hq, Legal.same rfl (.inl rfl), inv_same hl hI,
      (if_neg nofun).symm⟩

theorem ok_assign (hphase : ℓ.phase = .picked q) :
    Ok lockOf o (.cpu c) (act (.setProc (some q))) ℓ fun _ ℓ' =>
      ℓ' = { ℓ with phase := .assigned q } := by
  apply ok_act rfl
  intro g Λ d hl hI hart _
  have hd : d = c := hI.sched.here c d hart
  subst hl hd
  exact ⟨fun _ _ => trivial, (), _, _, rfl, Legal.same rfl (.inl rfl), hI.assign rfl hphase, rfl⟩

theorem ok_swtch (hphase : ℓ.phase = .assigned q) :
    Ok lockOf o (.cpu c) (act (.swtch q)) ℓ fun _ ℓ' => ℓ' = { ℓ with phase := .lent q } := by
  apply ok_act rfl
  intro g Λ d hl hI hart _
  have hd : d = c := hI.sched.here c d hart
  subst hl hd
  have hq : g.hart (.proc q) = none := (hI.sched.assigned d q hphase).2.1
  exact ⟨fun _ _ => trivial, (), _, _, if_neg (not_not_intro hq), Legal.same rfl (.inl rfl),
    hI.switch rfl hphase, rfl⟩

theorem ok_unassign (hphase : ℓ.phase = .lent q) :
    Ok lockOf o (.cpu c) (act (.setProc none)) ℓ fun _ ℓ' => ℓ' = { ℓ with phase := .free } := by
  apply ok_act rfl
  intro g Λ d hl hI hart _
  have hd : d = c := hI.sched.here c d hart
  subst hl hd
  exact ⟨fun _ _ => trivial, (), _, _, rfl, Legal.same rfl (.inl rfl),
    hI.unassign rfl hphase hart, rfl⟩

end Cpu

theorem ok_setFalse : Ok lockOf o t (act (.setCond χ false)) ℓ fun _ ℓ' => ℓ' = ℓ := by
  apply ok_act rfl
  intro g Λ c hl hI _ _
  refine ⟨fun _ _ => trivial, (), _, _, rfl, Legal.same rfl (.inl rfl), ?_, rfl⟩
  subst hl
  apply hI.conditions (w := (Λ t).waking) rfl
  · have hw := hI.wf t
    cases t with
    | cpu c => exact hw.waking
    | proc p => exact hw.waking
  · rw [show update (fun u => (Λ u).waking) t (Λ t).waking = fun u => (Λ u).waking from
      update_eq_self ..]
    exact hI.wakes.setFalse

theorem ok_setTrue (hlk : .other (lockOf χ) ∈ ℓ.held) (hnone : ℓ.waking = none) :
    Ok lockOf o t (act (.setCond χ true)) ℓ fun _ ℓ' => ℓ' = { ℓ with waking := some (χ, ∅) } := by
  apply ok_act rfl
  intro g Λ c hl hI _ _
  refine ⟨fun _ _ => trivial, (), _, _, rfl, Legal.same rfl (.inl rfl), ?_, rfl⟩
  subst hl
  apply hI.conditions rfl
  · intro χ' P h
    cases h
    exact hlk
  · exact hI.wakes.setTrue hnone

theorem ok_wake {P : Finset Proc} (hq : .proc q ∈ ℓ.held) (hphase : ∀ s, ℓ.phase ≠ .parting s)
    (hjob : ∀ x χ, t = .proc x → ℓ.job ≠ .drowsy χ) (hwaking : ℓ.waking = some (χ, P)) :
    Ok lockOf o t (act (.wake q χ)) ℓ fun _ ℓ' =>
      ℓ' = { ℓ with waking := some (χ, insert q P) } := by
  apply ok_act rfl
  intro g Λ c hl hI hart _
  subst hl
  have hon : g.hart t ≠ none := by
    rw [hart]
    exact Option.some_ne_none c
  have hlk : .other (lockOf χ) ∈ (Λ t).held := by
    have hw := hI.wf t
    cases t with
    | cpu c => exact hw.waking χ P hwaking
    | proc p => exact hw.waking χ P hwaking
  have hwoken := hI.wake (w := .other χ) hon hq hphase
  refine ⟨fun _ _ => trivial, (), _, _, rfl,
    Legal.modify rfl (.inl rfl) (edge_wake _ _).1 (edge_wake _ _).2, ?_, rfl⟩
  apply hwoken.conditions rfl
  · intro χ' P' h
    cases h
    exact hlk
  · apply hwoken.wakes.advance hwaking
    · intro hs
      unfold st chan at hs
      rw [modify_entry] at hs
      unfold Entry.wake at hs
      split at hs
      · cases hs.1
      · rename_i hno
        exact hno hs
    · -- A drowsy process has one of the two locks that are held here.
      intro hdrowsy
      have hdrowsy' : (Λ (.proc q)).job = .drowsy χ := hdrowsy
      have honq := hI.on_of_not_calm hdrowsy id
      obtain ⟨-, -, -, -, hlocked⟩ := hI.at_job hdrowsy
      have hsame : Thread.proc q = t := by
        rcases hlocked with h | h
        · exact hI.harts.excl honq hon h hlk
        · exact hI.harts.excl honq hon h hq
      rw [hsame] at hdrowsy'
      exact hjob q χ hsame.symm hdrowsy'

theorem ok_awake {α β : Type} {a : Act β} {k : β → Prog Act α} {Q : α → Ghost → Prop}
    (hwaking : ℓ.waking = some (χ, Finset.univ))
    (hok : Ok lockOf o t (act a >>= k) { ℓ with waking := none } Q) :
    Ok lockOf o t (act a >>= k) ℓ Q := by
  apply ok_recast { ℓ with waking := none } _ _ hok
  · rfl
  · intro g Λ hl hI _
    subst hl
    exact hI.conditions rfl nofun (hI.wakes.finish hwaking)

end Xv6.ProcInvariant
