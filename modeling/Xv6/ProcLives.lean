import Xv6.ProcSteps

set_option autoImplicit false

namespace Xv6.ProcInvariant
open Interleaving ProcCode
open LogCode (Proc)
open Function (update update_eq_self update_of_ne update_self)

variable {n : ℕ} {lockOf : ℕ → ℕ} {o : Opts} {g : State n} {Λ : Thread n → Ghost}
variable {c : Fin n} {t : Thread n}
variable {p q : Proc} {k : ℕ} {ℓ : Ghost}

theorem Inv.prepare (hI : Inv lockOf o g Λ)
    (hℓ : ℓ = { Λ (.proc p) with job := .making q (.ready k) })
    (hjob0 : (Λ (.proc p)).job = .making q (.numbered k)) :
    Inv lockOf o (g.modify q fun e => { e with context := .forkret })
      (update Λ (.proc p) ℓ) := by
  subst hℓ
  have hw := hI.proc_wf p
  have hm := hI.making hjob0
  have hfield : field Ghost.job Λ p = .making q (.numbered k) := hjob0
  refine hI.entry (t := .proc p) (q := q) (e := { g.entry q with context := .forkret })
    (l := g.trace) rfl rfl ?_ ?_ ?_ ?_ ?_ ?_ ?_ ?_ ?_ ?_
  all_goals try simp only [update_st, update_par, update_chan, update_pid, update_xst, field_proc,
    update_field, update_eq_self]
  · exact hI.sched
  · exact hI.tree.remake hjob0 rfl
  · exact hI.deaths.prepare
  · exact hI.waits.setJob trivial
  · exact hI.wakes.setJob nofun
  · obtain ⟨-, -, hj, -⟩ := hI.at_job hjob0
    have := hI.pids.setJob (p := p) (j := .making q (.ready k)) (H := field Ghost.held Λ p)
      ⟨hj.1, hj.2.1, nofun⟩ ?_
    · rwa [update_eq_self] at this
    · intro x s m hx hm' u q' s' hup hu hs'
      cases hx
      exact hup (hI.pids.distinct u q' s' p q _ m hu hs' hfield hm')
  · obtain ⟨-, -, -, hj, -⟩ := hI.at_job hjob0
    exact hI.history.setJob hj
  · exact fun hc => ((hI.tidy hc).remake hjob0).modify fun _ => .inr ⟨p, _, update_self ..⟩
  · exact fun hc hk => (hI.kills hc hk).modify (hI.kills hc hk q)
  · exact hw.remake hjob0 _

theorem Inv.adopt (hI : Inv lockOf o g Λ)
    (hℓ : ℓ = { Λ (.proc p) with job := .making q (.parented k) })
    (hjob0 : (Λ (.proc p)).job = .making q (.ready k)) :
    Inv lockOf o (g.modify q fun e => { e with parent := some p })
      (update Λ (.proc p) ℓ) := by
  subst hℓ
  have hw := hI.proc_wf p
  have hm := hI.making hjob0
  have hfield : field Ghost.job Λ p = .making q (.ready k) := hjob0
  refine hI.entry (t := .proc p) (q := q) (e := { g.entry q with parent := some p })
    (l := g.trace) rfl rfl ?_ ?_ ?_ ?_ ?_ ?_ ?_ ?_ ?_ ?_
  all_goals try simp only [update_st, update_chan, update_pid, update_xst, update_ctx, field_proc,
    update_field, update_eq_self]
  · exact hI.sched
  · exact hI.tree.adopt hjob0 hm.one rfl
  · apply hI.deaths.setJob
    intro x s hx hs
    cases hx
    exact hI.deaths.ready p q _ hfield rfl
  · apply Waits.setJob (hI.waits.setParent (.inl ?_))
    · trivial
    · rw [hm.unused]
      exact nofun
  · exact hI.wakes.setJob nofun
  · obtain ⟨-, -, hj, -⟩ := hI.at_job hjob0
    have := (hI.pids.adopt (o := some p) hm.unused).setJob (p := p) (j := .making q (.parented k))
      (H := field Ghost.held Λ p) ⟨hj.1, hj.2.1, nofun⟩ ?_
    · rwa [update_eq_self] at this
    · intro x s m hx hm' u q' s' hup hu hs'
      cases hx
      exact hup (hI.pids.distinct u q' s' p q _ m hu hs' hfield hm')
  · obtain ⟨-, -, -, hj, -⟩ := hI.at_job hjob0
    exact (hI.history.adopt hm.unused).setJob hj
  · exact fun hc => ((hI.tidy hc).remake hjob0).modify fun _ => .inr ⟨p, _, update_self ..⟩
  · exact fun hc hk => (hI.kills hc hk).modify (hI.kills hc hk q)
  · exact hw.remake hjob0 _

theorem WfProc.relax (h : WfProc lockOf p ℓ) (r : Option ℤ) :
    WfProc lockOf p { ℓ with job := .idle, pending := r } :=
  ⟨h.phase, trivial, fun _ => trivial, fun hd => ⟨(h.dead hd).1, rfl⟩, h.waking⟩

theorem Inv.start (hI : Inv lockOf o g Λ) (hℓ : ℓ = { Λ (.proc p) with job := .idle })
    (hjob0 : (Λ (.proc p)).job = .making q (.parented k)) :
    Inv lockOf o ((g.modify q fun e => { e with state := .runnable }).log
      (.fork p (pid g p) q (pid g q))) (update Λ (.proc p) ℓ) := by
  subst hℓ
  have hw := hI.proc_wf p
  have hm := hI.making hjob0
  have hfield : field Ghost.job Λ p = .making q (.parented k) := hjob0
  have hpar : par g q = some p := (hI.tree.making hjob0).2.2
  obtain ⟨-, -, hj, -, hmem⟩ := hI.at_job hjob0
  have hk : pid g q = k := hj.2.1 k rfl
  have hon := hI.on_of_not_calm hjob0 id
  have hqp : Thread.proc (n := n) p ≠ .proc q := by
    intro h
    have := hm.busy p (hfield.trans_ne nofun)
    exact this (Thread.proc.inj h)
  refine hI.entry (t := .proc p) (q := q) (e := { g.entry q with state := .runnable })
    (l := g.trace ++ [Event.fork p (pid g p) q (pid g q)]) rfl rfl ?_ ?_ ?_ ?_ ?_ ?_ ?_ ?_ ?_ ?_
  all_goals try simp only [update_par, update_chan, update_pid, update_xst, update_ctx, field_proc,
    update_field, update_eq_self]
  · refine hI.sched.state ?_ nofun (hI.off_of_held hon hmem hqp)
    rw [hm.unused]
    exact nofun
  · exact hI.tree.start hjob0 hm.one rfl
  · exact hI.deaths.start hjob0 rfl
  · exact Waits.setJob (hI.waits.state (q := q) (s := .runnable) nofun nofun) trivial
  · exact Wakes.setJob (hI.wakes.state (q := q) (s := .runnable) nofun) nofun
  · have := (hI.pids.start hjob0 hpar).setJob (p := p) (j := .idle) (H := field Ghost.held Λ p)
      trivial nofun
    rwa [update_eq_self] at this
  · apply hI.history.start hjob0 (by rw [hk]; rfl) hpar (hI.pids.lt q)
    intro u x r m hup hu hr hqm
    rw [hk] at hqm
    rw [← hqm] at hr
    exact hup (hI.pids.distinct u x r p q _ k hu hr hfield rfl)
  · intro hc x hx
    by_cases hxq : x = q
    · rw [hxq, update_self] at hx
      cases hx
    · rw [update_of_ne hxq] at hx ⊢
      refine (hI.tidy hc x hx).imp_right fun hmk => maker_update hmk fun s hs => ?_
      rw [hfield] at hs
      cases hs
      exact absurd rfl hxq
  · intro hc hk'
    apply Kills.modify ((hI.kills hc hk').snoc _)
    intro he
    exact absurd hm.unused (hI.kills hc hk' q he).1
  · exact hw.relax _

theorem clean_freed (e : Entry) : Clean e.freed := ⟨rfl, rfl, rfl, rfl, rfl, rfl⟩

section

variable (hI : Inv lockOf o g Λ)
include hI

theorem Inv.discard {s : Stage} (hℓ : ℓ = { Λ (.proc p) with job := .idle })
    (hjob0 : (Λ (.proc p)).job = .making q s) :
    Inv lockOf o (g.modify q Entry.freed) (update Λ (.proc p) ℓ) := by
  subst hℓ
  have hw := hI.proc_wf p
  have hm := hI.making hjob0
  have hfield : field Ghost.job Λ p = .making q s := hjob0
  have hpar (u : Proc) (hu : par g q = some u) : u = p := by
    rw [(hI.tree.making hjob0).2.2] at hu
    split at hu
    · exact (Option.some.inj hu).symm
    · cases hu
  have hst : update (st g) q .unused = st g := by
    rw [← hm.unused, update_eq_self]
  refine hI.entry (t := .proc p) (q := q) (e := (g.entry q).freed)
    (l := g.trace) rfl rfl ?_ ?_ ?_ ?_ ?_ ?_ ?_ ?_ ?_ ?_
  all_goals try simp only [field_proc, update_field, update_eq_self]
  · change Sched g.hart g.proc (update (st g) q .unused) _
    rw [hst]
    exact hI.sched
  · apply hI.tree.freed (fun h => h.1 hm.unused) hm.one hpar
    intro x r hx
    rw [hfield] at hx
    cases hx
    rfl
  · change Deaths _ (update (ctx g) q (g.entry q).context) _ _ _
    rw [update_ctx]
    exact hI.deaths.freed (hI.deaths.unused q hm.unused)
  · exact hI.waits.freed.setJob trivial
  · exact Wakes.setJob (hI.wakes.state (q := q) (s := .unused) nofun).clearChan nofun
  · exact hI.pids.freed hm.init hm.busy hm.one hm.lock
  · exact hI.history.discard hm.unused hm.kids hm.busy hm.corpse
  · intro hc x hx
    by_cases hxq : x = q
    · rw [hxq, update_self]
      exact .inl (clean_freed _)
    · rw [update_of_ne hxq] at hx ⊢
      refine (hI.tidy hc x hx).imp_right fun hmk => maker_update hmk fun r hr => ?_
      rw [hfield] at hr
      cases hr
      exact absurd rfl hxq
  · intro hc hk
    exact (hI.kills hc hk).modify nofun
  · exact hw.relax _

theorem Inv.disown {v : Option Proc} {a : Bool} {G : Finset Proc}
    (hℓ : ℓ = { Λ (.proc p) with job := .leaving v a (insert q G) none })
    (hjob0 : (Λ (.proc p)).job = .leaving v a G (some q)) :
    Inv lockOf o (g.modify q fun e => { e with parent := some initproc })
      (update Λ (.proc p) ℓ) := by
  subst hℓ
  have hw := hI.proc_wf p
  have hfield : field Ghost.job Λ p = .leaving v a G (some q) := hjob0
  obtain ⟨⟨halive, hinit, -, -, hkid⟩, hwaits, hpids, hhist, hlocked⟩ := hI.at_job hjob0
  have hq : par g q = some p := hkid q rfl
  have hqi : q ≠ initproc := by
    intro h
    rw [h, hI.tree.root] at hq
    cases hq
  have hmaking (x : Proc) (s : Stage) : field Ghost.job Λ p ≠ .making x s := by
    rw [hfield]
    exact nofun
  have hused : st g q ≠ .unused := hI.child_used hq (hmaking q)
  refine hI.entry (t := .proc p) (q := q)
    (e := { g.entry q with parent := some initproc })
    (l := g.trace) rfl rfl ?_ ?_ ?_ ?_ ?_ ?_ ?_ ?_ ?_ ?_
  all_goals try simp only [update_st, update_chan, update_pid, update_xst, update_ctx, field_proc,
    update_field, update_eq_self]
  · exact hI.sched
  · exact hI.tree.disown hfield
  · exact hI.deaths.setJob nofun
  · apply (hI.waits.setParent (.inr rfl)).setJob
    cases v with
    | none => trivial
    | some v =>
      cases a with
      | false => trivial
      | true => exact hwaits
  · exact hI.wakes.setJob nofun
  · have := (hI.pids.disown hqi).setJob (p := p) (j := .leaving v a (insert q G) none)
      (H := field Ghost.held Λ p) ?_ nofun
    · rwa [update_eq_self] at this
    · cases v with
      | none => trivial
      | some v => exact hpids
  · exact (hI.history.disown hq hinit hhist).setJob hhist
  · intro hc
    apply Tidy.modify ((hI.tidy hc).setJob fun x s hx _ => absurd hx (hmaking x s))
    exact fun he => absurd he hused
  · exact fun hc hk => (hI.kills hc hk).modify (hI.kills hc hk q)
  · refine ⟨hw.phase, ⟨hlocked.1, .inr ?_⟩, fun hoff => ?_, fun hdead => ?_, hw.waking⟩
    · rcases hlocked.2 with ⟨-, hkid⟩ | hown
      · cases hkid
      · exact hown
    · have := hw.calm hoff
      rw [hjob0] at this
      cases this.2.2
    · have := (hw.dead hdead).2
      rw [hjob0] at this
      cases this

theorem Inv.reap {S : Finset Proc} {r : ℤ}
    (hℓ : ℓ = { Λ (.proc p) with job := .idle, pending := some (k : ℤ) })
    (hjob0 : (Λ (.proc p)).job = .waiting S (some q) (some (k, r))) :
    Inv lockOf o ((g.modify q Entry.freed).log (.wait p q k r))
      (update Λ (.proc p) ℓ) := by
  subst hℓ
  have hw := hI.proc_wf p
  have hfield : field Ghost.job Λ p = .waiting S (some q) (some (k, r)) := hjob0
  have hon := hI.on_of_not_calm hjob0 id
  obtain ⟨htree, -, -, ⟨(hk : pid g q = k), (hr : xst g q = r)⟩, hlocked⟩ := hI.at_job hjob0
  have hmem : .proc q ∈ (Λ (.proc p)).held := by
    obtain ⟨q', hq', hmem⟩ := hlocked.2 nofun
    cases hq'
    exact hmem
  have hpar : par g q = some p := (htree.2 q rfl).1
  have hz : st g q = .zombie := (htree.2 q rfl).2 nofun
  have hdead : ¬ Alive (st g q) := fun h => h.2 hz
  obtain ⟨hinit, hkids, hbusy⟩ := hI.lifeless hdead
  have hused : st g q ≠ .unused := by
    rw [hz]
    exact nofun
  have hpq : Thread.proc (n := n) p ≠ .proc q := by
    intro h
    exact hbusy p (hfield.trans_ne nofun) (Thread.proc.inj h)
  have hone (u : Proc) (s : Stage) (hu : field Ghost.job Λ u = .making q s) : u = p :=
    absurd hu (hI.not_made hused u s)
  have hlock (u : Proc) (hup : u ≠ p) (hu : field Ghost.job Λ u ≠ .idle) :
      .proc q ∉ field Ghost.held Λ u :=
    hI.not_held hon hmem hdead (fun h => hup (Thread.proc.inj h)) hu
  have hmaking (x : Proc) (s : Stage) : field Ghost.job Λ p ≠ .making x s := by
    rw [hfield]
    exact nofun
  refine hI.entry (t := .proc p) (q := q) (e := (g.entry q).freed)
    (l := g.trace ++ [Event.wait p q k r]) rfl rfl ?_ ?_ ?_ ?_ ?_ ?_ ?_ ?_ ?_ ?_
  all_goals try simp only [field_proc, update_field, update_eq_self]
  · refine hI.sched.state ?_ nofun (hI.off_of_held hon hmem hpq)
    rw [hz]
    exact nofun
  · apply hI.tree.freed hdead hone
    · intro u hu
      rw [hpar] at hu
      exact (Option.some.inj hu).symm
    · intro x s hx
      exact absurd hx (hmaking x s)
  · change Deaths _ (update (ctx g) q (g.entry q).context) _ _ _
    rw [update_ctx]
    apply hI.deaths.freed
    exact (hI.deaths.zombie q hz).resolve_right (hI.off_of_held hon hmem hpq _)
  · exact hI.waits.freed.setJob trivial
  · exact Wakes.setJob (hI.wakes.state (q := q) (s := .unused) nofun).clearChan nofun
  · exact hI.pids.freed hinit hbusy hone hlock
  · rw [← hk, ← hr]
    apply hI.history.reap hz hinit (hI.pids.lt q) _ hkids hbusy
    · intro u x s m _ hu hm
      exact hI.not_fresh (hI.not_made hused) hu hm
    · intro u S' c hup hu
      exact hup (Thread.proc.inj (hI.one_reaper hon hmem hu))
    · intro x hx hpx
      exact hI.pids.inj x q hpx (by have := hI.pids.live x hx; omega)
  · intro hc
    apply Tidy.setJob ((hI.tidy hc).modify fun _ => .inl (clean_freed _))
    intro x s hx
    exact absurd hx (hmaking x s)
  · intro hc hk'
    exact Kills.modify ((hI.kills hc hk').snoc _) nofun
  · exact hw.relax _

theorem Inv.leave {s : ProcState}
    (hℓ : ℓ = { Λ (.proc p) with phase := .off, dead := decide (s = .zombie) })
    (hc : g.hart (.proc p) = some c) (hpart : (Λ (.proc p)).phase = .parting s)
    (hheld0 : (Λ (.proc p)).held = {.proc p}) (hcalm : (Λ (.proc p)).job.Calm)
    (hidle : s = .zombie → (Λ (.proc p)).job = .idle) :
    Inv lockOf o { g.modify p fun e => { e with context := .saved } with
      hart := update (update g.hart (.proc p) none) (.cpu c) (some c) }
      (update Λ (.proc p) ℓ) := by
  subst hℓ
  have hw := hI.proc_wf p
  have hph := hw.phase
  rw [hpart] at hph
  have hs : s ≠ .running := hph.2
  have hst : st g p = s := hI.sched.parting p s hpart
  have hlent := hI.sched.on p c hc
  have hcpu : WfCpu lockOf (Λ (.cpu c)) := hI.wf (.cpu c)
  have hcheld : (Λ (.cpu c)).held = {.proc p} := by
    have := hcpu.phase
    rw [hlent] at this
    exact this
  have hcoff : g.hart (.cpu c) = none := by
    rcases (hI.sched.lent c p hlent).2 with ⟨h, -⟩ | ⟨-, h, -⟩
    · exact h
    · rw [hc] at h
      cases h
  have hlive : (Λ (.proc p)).dead = false := by
    cases hdead : (Λ (.proc p)).dead with
    | false => rfl
    | true =>
      rw [(hw.dead hdead).1] at hpart
      cases hpart
  have hunused : s ≠ .unused := by
    intro hu
    have := hI.deaths.unused p (hst.trans hu)
    rw [show field Ghost.dead Λ p = _ from hlive] at this
    cases this
  have hmade (u : Proc) (r : Stage) : field Ghost.job Λ u ≠ .making p r :=
    hI.not_made (by rw [hst]; exact hunused) u r
  let g' : State n := { g.modify p fun e => { e with context := .saved } with
    hart := update (update g.hart (.proc p) none) (.cpu c) (some c) }
  have hst' : st g' = update (st g) p (g.entry p).state :=
    proj_new Entry.state g.entry p _
  have hpar' : par g' = update (par g) p (g.entry p).parent :=
    proj_new Entry.parent g.entry p _
  have hchan' : chan g' = update (chan g) p (g.entry p).chan :=
    proj_new Entry.chan g.entry p _
  have hpid' : pid g' = update (pid g) p (g.entry p).pid :=
    proj_new Entry.pid g.entry p _
  have hxst' : xst g' = update (xst g) p (g.entry p).xstate :=
    proj_new Entry.xstate g.entry p _
  have hctx' : ctx g' = update (ctx g) p .saved :=
    proj_new Entry.context g.entry p _
  rw [update_st] at hst'
  rw [update_par] at hpar'
  rw [update_chan] at hchan'
  rw [update_pid] at hpid'
  rw [update_xst] at hxst'
  constructor
  all_goals try simp only [proj_new, field_proc, update_field, update_eq_self]
  · apply wf_update hI.wf
    refine ⟨hheld0, hw.job, fun _ => hcalm, fun hdead => ⟨rfl, ?_⟩, hw.waking⟩
    exact hidle (of_decide_eq_true hdead)
  · apply hI.harts.switch hc hcoff
    rw [hcheld, hheld0]
  · rw [hst']
    exact hI.sched.leave hc hpart hs
  · rw [hst', hpar']
    exact hI.tree
  · rw [hst', hctx']
    by_cases hz : s = .zombie
    · rw [decide_eq_true hz]
      exact hI.deaths.die (hst.trans hz) hmade
    · have hdead : update (field Ghost.dead Λ) p false = field Ghost.dead Λ := by
        rw [← hlive]
        exact update_eq_self ..
      rw [decide_eq_false hz, hdead]
      exact hI.deaths.leave hlive (by rw [hst]; exact hz) hmade
  · rw [hst', hpar', hchan']
    exact hI.waits
  · rw [hst', hchan']
    exact hI.wakes
  · rw [hst', hpar', hpid']
    exact hI.pids
  · rw [hst', hpar', hpid', hxst']
    exact hI.history
  · intro hcl
    apply (hI.tidy hcl).modify
    intro he
    exact absurd he (by change st g p ≠ _; rw [hst]; exact hunused)
  · intro hcl hk
    apply (hI.kills hcl hk).modify
    intro he
    exact hI.kills hcl hk p he

theorem Inv.dispatch {f : Phase} {hart : Thread n → Option (Fin n)} {proc : Fin n → Option Proc}
    (hℓ : ℓ = { Λ (.cpu c) with phase := f }) (hof : f.OfCpu (Λ (.cpu c)).held)
    (hharts : Harts hart g.lock g.noff fun t => (Λ t).held)
    (hsched : Sched hart proc (st g) (update (fun t => (Λ t).phase) (.cpu c) f)) :
    Inv lockOf o { g with hart := hart, proc := proc } (update Λ (.cpu c) ℓ) := by
  subst hℓ
  have hw : WfCpu lockOf (Λ (.cpu c)) := hI.wf (.cpu c)
  constructor
  all_goals try simp only [proj_new, update_eq_self]
  · apply wf_update hI.wf
    exact ⟨hof, hw.waking⟩
  · exact hharts
  · exact hsched
  · exact hI.tree
  · exact hI.deaths
  · exact hI.waits
  · exact hI.wakes
  · exact hI.pids
  · exact hI.history
  · exact hI.tidy
  · exact hI.kills

theorem Inv.one_scheduler {d : Fin n} (hc : (Λ (.cpu c)).held = {.proc q})
    (hon : g.hart (.cpu c) ≠ none) (hdc : d ≠ c) :
    (Λ (.cpu d)).phase ≠ .picked q ∧ (Λ (.cpu d)).phase ≠ .assigned q := by
  have hmem : .proc q ∈ (Λ (.cpu c)).held := by
    rw [hc]
    exact Finset.mem_singleton_self _
  have hd : WfCpu lockOf (Λ (.cpu d)) := hI.wf (.cpu d)
  have hph := hd.phase
  have hno (hheld : (Λ (.cpu d)).held = {.proc q}) (hond : g.hart (.cpu d) = some d) : False := by
    have hmemd : .proc q ∈ (Λ (.cpu d)).held := by
      rw [hheld]
      exact Finset.mem_singleton_self _
    have := hI.harts.excl (by rw [hond]; exact Option.some_ne_none d) hon hmemd hmem
    exact hdc (Thread.cpu.inj this)
  constructor
  · intro hp
    rw [hp] at hph
    exact hno hph (hI.sched.picked d q hp).1
  · intro hp
    rw [hp] at hph
    exact hno hph (hI.sched.assigned d q hp).1

theorem Inv.switch (hℓ : ℓ = { Λ (.cpu c) with phase := .lent q })
    (hphase : (Λ (.cpu c)).phase = .assigned q) :
    Inv lockOf o { g with
      hart := update (update g.hart (.cpu c) none) (.proc q) (some c) }
      (update Λ (.cpu c) ℓ) := by
  obtain ⟨hc, hq, -, -⟩ := hI.sched.assigned c q hphase
  have hcpu : WfCpu lockOf (Λ (.cpu c)) := hI.wf (.cpu c)
  have hheld : (Λ (.cpu c)).held = {.proc q} := by
    have := hcpu.phase
    rw [hphase] at this
    exact this
  have hqheld : (Λ (.proc q)).held = {.proc q} := by
    have := (hI.proc_wf q).phase
    rw [hI.sched.off q hq] at this
    exact this
  apply hI.dispatch (f := .lent q) hℓ hheld
  · apply hI.harts.switch hc hq
    rw [hqheld, hheld]
  · apply hI.sched.switch hphase
    intro d hd
    exact hI.one_scheduler hheld (by rw [hc]; exact Option.some_ne_none c) hd

theorem Inv.assign (hℓ : ℓ = { Λ (.cpu c) with phase := .assigned q })
    (hphase : (Λ (.cpu c)).phase = .picked q) :
    Inv lockOf o { g with proc := update g.proc c (some q) }
      (update Λ (.cpu c) ℓ) := by
  have hcpu : WfCpu lockOf (Λ (.cpu c)) := hI.wf (.cpu c)
  have hheld := hcpu.phase
  rw [hphase] at hheld
  exact hI.dispatch hℓ hheld hI.harts (hI.sched.assign hphase)

theorem Inv.unassign (hℓ : ℓ = { Λ (.cpu c) with phase := .free })
    (hphase : (Λ (.cpu c)).phase = .lent q) (hc : g.hart (.cpu c) = some c) :
    Inv lockOf o { g with proc := update g.proc c none }
      (update Λ (.cpu c) ℓ) :=
  hI.dispatch hℓ trivial hI.harts (hI.sched.unassign hphase hc)

theorem Inv.conditions {cond : ℕ → Bool} {w : Option (ℕ × Finset Proc)}
    (hℓ : ℓ = { Λ t with waking := w })
    (hlock : ∀ χ P, w = some (χ, P) → .other (lockOf χ) ∈ (Λ t).held)
    (hwakes : Wakes (st g) (chan g) cond (field Ghost.job Λ) (update (fun u => (Λ u).waking) t w)) :
    Inv lockOf o { g with cond := cond } (update Λ t ℓ) := by
  have hheld : ℓ.held = (Λ t).held := by rw [hℓ]
  have hphase : ℓ.phase = (Λ t).phase := by rw [hℓ]
  have hd : ℓ.dead = (Λ t).dead := by rw [hℓ]
  have hjob : ℓ.job = (Λ t).job := by rw [hℓ]
  have hwaking : ℓ.waking = w := by rw [hℓ]
  have hpending : ℓ.pending = (Λ t).pending := by rw [hℓ]
  constructor
  · apply wf_update hI.wf
    rw [hℓ]
    have hw := hI.wf t
    cases t with
    | cpu c => exact ⟨hw.phase, hlock⟩
    | proc p => exact ⟨hw.phase, hw.job, hw.calm, hw.dead, hlock⟩
  · rw [proj_same Ghost.held hheld]
    exact hI.harts
  · rw [proj_same Ghost.phase hphase]
    exact hI.sched
  · rw [field_same Ghost.job hjob]
    exact hI.tree
  · rw [field_same Ghost.job hjob, field_same Ghost.dead hd, field_same Ghost.phase hphase]
    exact hI.deaths
  · rw [field_same Ghost.job hjob]
    exact hI.waits
  · rw [field_same Ghost.job hjob, proj_new, hwaking]
    exact hwakes
  · rw [field_same Ghost.job hjob, field_same Ghost.held hheld]
    exact hI.pids
  · rw [field_same Ghost.job hjob, field_same Ghost.pending hpending]
    exact hI.history
  · rw [field_same Ghost.job hjob]
    exact hI.tidy
  · exact hI.kills

theorem Inv.note {v : Event} {r : Option ℤ} (hℓ : ℓ = { Λ (.proc p) with pending := r })
    (hplain : plain v) (hbound : ∀ k, about v = some k → k < g.nextpid)
    (hfresh : ∀ u q s k, field Ghost.job Λ u = .making q s → s.id = some k → about v ≠ some k)
    (hright : ProcInvariant.Right g.trace v)
    (hpend : ∀ u, settle u (field Ghost.pending Λ u) v = update (field Ghost.pending Λ) p r u) :
    Inv lockOf o (g.log v) (update Λ (.proc p) ℓ) := by
  subst hℓ
  have hw := hI.proc_wf p
  constructor
  all_goals try simp only [proj_new, field_proc, update_field, update_eq_self]
  · apply wf_update hI.wf
    exact { hw with }
  · exact hI.harts
  · exact hI.sched
  · exact hI.tree
  · exact hI.deaths
  · exact hI.waits
  · exact hI.wakes
  · exact hI.pids
  · exact hI.history.note hplain hbound hfresh hright hpend
  · exact hI.tidy
  · exact fun hc hk => (hI.kills hc hk).snoc v

theorem Inv.not_parting (ht : g.hart t ≠ none) (hq : .proc q ∈ (Λ t).held)
    (hphase : ∀ s, (Λ t).phase ≠ .parting s) (s : ProcState) :
    (Λ (.proc q)).phase ≠ .parting s := by
  by_cases htq : t = .proc q
  · rw [← htq]
    exact hphase s
  · exact hI.off_of_held ht hq htq s

theorem Inv.wake {w : Chan} (ht : g.hart t ≠ none) (hq : .proc q ∈ (Λ t).held)
    (hphase : ∀ s, (Λ t).phase ≠ .parting s) :
    Inv lockOf o (g.modify q (·.wake w)) Λ := by
  by_cases hs : (g.entry q).state = .sleeping ∧ (g.entry q).chan = some w
  · have heq : (g.entry q).wake w = { g.entry q with state := .runnable } := if_pos hs
    rw [modify_congr (·.wake w) (fun e => { e with state := .runnable }) heq]
    exact hI.rouse hs.1 (hI.not_parting ht hq hphase)
  · have heq : (g.entry q).wake w = g.entry q := if_neg hs
    rw [modify_same (·.wake w) heq]
    exact hI

end

end Xv6.ProcInvariant
