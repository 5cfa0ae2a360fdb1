import Xv6.ProcHarts
import Xv6.ProcHistory
import Xv6.ProcRecord

set_option autoImplicit false

namespace Xv6.ProcInvariant
open Resumption Interleaving ProcCode
open LogCode (Proc)
open Function (update update_eq_self update_of_ne update_self)

variable {n : ℕ} {lockOf : ℕ → ℕ} {o : Opts} {g : State n} {Λ : Thread n → Ghost}
variable {ℓ : Ghost} {q p u : Proc} {s : Stage}
variable {t : Thread n}

section Fields

variable {α : Type} (f : Ghost → α)

theorem field_proc (p : Proc) (ℓ : Ghost) :
    field f (update Λ (.proc p) ℓ) = update (field f Λ) p (f ℓ) := by
  funext q
  unfold field
  grind

theorem field_cpu (c : Fin n) (ℓ : Ghost) : field f (update Λ (.cpu c) ℓ) = field f Λ := by
  funext q
  have hne : Thread.proc (n := n) q ≠ .cpu c := nofun
  unfold field
  rw [update_of_ne hne]

theorem update_field (p : Proc) :
    update (field f Λ) p (f (Λ (.proc p))) = field f Λ := update_eq_self ..

theorem field_same (h : f ℓ = f (Λ t)) : field f (update Λ t ℓ) = field f Λ := by
  funext q
  exact proj_update f h (.proc q)

end Fields

theorem modify_entry (g : State n) (q : Proc) (f : Entry → Entry) :
    (g.modify q f).entry q = f (g.entry q) := update_self ..

theorem modify_congr (f f' : Entry → Entry) (h : f (g.entry q) = f' (g.entry q)) :
    g.modify q f = g.modify q f' := by
  unfold State.modify
  rw [h]

theorem modify_same (f : Entry → Entry) (h : f (g.entry q) = g.entry q) : g.modify q f = g := by
  unfold State.modify
  rw [h, update_eq_self]

theorem wf_update (h : ∀ t, Wf lockOf t (Λ t)) (hℓ : Wf lockOf t ℓ) (u : Thread n) :
    Wf lockOf u (update Λ t ℓ u) := by
  grind

section

variable (hI : Inv lockOf o g Λ)
include hI

theorem Inv.proc_wf (p : Proc) : WfProc lockOf p (Λ (.proc p)) :=
  hI.wf (.proc p)

theorem Inv.at_job {j : Job} (hj : (Λ (.proc p)).job = j) :
    TreeJob (st g) (par g) p j ∧ WaitsJob (st g) (par g) (chan g) p j ∧
      PidsJob o.order (pid g) g.nextpid p (Λ (.proc p)).held j ∧
      HistoryJob (pid g) (xst g) g.trace p j ∧ j.Locked lockOf p (Λ (.proc p)).held := by
  subst hj
  exact ⟨hI.tree.job p, hI.waits.job p, hI.pids.job p, hI.history.job p, (hI.proc_wf p).job⟩

theorem Inv.on_of_not_calm {j : Job} (hj : (Λ (.proc p)).job = j) (h : ¬ j.Calm) :
    g.hart (.proc p) ≠ none := by
  intro hnone
  subst hj
  exact h ((hI.proc_wf p).calm (hI.sched.off p hnone))

theorem Inv.running (hp : (Λ (.proc p)).phase = .run) : st g p = .running := by
  apply hI.sched.running p _ (.inl hp)
  intro hnone
  rw [hI.sched.off p hnone] at hp
  cases hp

section

variable (ht : g.hart t ≠ none) (hq : .proc q ∈ (Λ t).held)
include ht hq

/-- The lock of a slot without a live process has one holder among the busy ones. -/
theorem Inv.not_held (hdead : ¬ Alive (st g q))
    (hu : .proc u ≠ t) (hjob : (Λ (.proc u)).job ≠ .idle) :
    .proc q ∉ (Λ (.proc u)).held := by
  intro hmem
  by_cases hon : g.hart (.proc u) = none
  · -- Off the CPU it has its own lock only, and it is alive.
    have hphase := (hI.proc_wf u).phase
    rw [hI.sched.off u hon] at hphase
    have hheld : (Λ (.proc u)).held = {.proc u} := hphase
    rw [hheld, Finset.mem_singleton] at hmem
    cases hmem
    exact hdead ((hI.tree.job q).busy hjob)
  · exact hu (hI.harts.excl hon ht hmem hq)

theorem Inv.one_maker (hu : field Ghost.job Λ u = .making q s) : .proc u = t := by
  obtain ⟨-, -, -, -, hmem⟩ := hI.at_job hu
  exact hI.harts.excl (hI.on_of_not_calm hu id) ht hmem hq

theorem Inv.one_reaper {S : Finset Proc}
    {c : ℕ × ℤ} (hu : field Ghost.job Λ u = .waiting S (some q) (some c)) :
    .proc u = t := by
  obtain ⟨-, -, -, -, hlocked⟩ := hI.at_job hu
  obtain ⟨q', hq', hmem⟩ := hlocked.2 nofun
  cases hq'
  exact hI.harts.excl (hI.on_of_not_calm hu id) ht hmem hq

theorem Inv.off_of_held (hne : t ≠ .proc q)
    (s : ProcState) :
    (Λ (.proc q)).phase ≠ .parting s := by
  intro hpart
  have hon : g.hart (.proc q) ≠ none := by
    intro hnone
    rw [hI.sched.off q hnone] at hpart
    cases hpart
  have hmem : .proc q ∈ (Λ (.proc q)).held := by
    have := (hI.proc_wf q).phase
    rw [hpart] at this
    exact this.1
  exact hne (hI.harts.excl ht hon hq hmem)

end

theorem Inv.locks {lock : Lock → Option (Fin n)} {noff : Fin n → ℕ} (hwf : Wf lockOf t ℓ)
    (hharts : Harts g.hart lock noff fun u => (update Λ t ℓ u).held)
    (hphase : ℓ.phase = (Λ t).phase) (hdead : ℓ.dead = (Λ t).dead) (hjob : ℓ.job = (Λ t).job)
    (hwaking : ℓ.waking = (Λ t).waking) (hpending : ℓ.pending = (Λ t).pending)
    (hbelow : ∀ p, t = .proc p → PidsJob o.order (pid g) g.nextpid p ℓ.held ℓ.job) :
    Inv lockOf o { g with lock := lock, noff := noff } (update Λ t ℓ) where
  wf := wf_update hI.wf hwf
  harts := hharts
  sched := by
    rw [proj_same Ghost.phase hphase]
    exact hI.sched
  tree := by
    rw [field_same Ghost.job hjob]
    exact hI.tree
  deaths := by
    rw [field_same Ghost.job hjob, field_same Ghost.dead hdead, field_same Ghost.phase hphase]
    exact hI.deaths
  waits := by
    rw [field_same Ghost.job hjob]
    exact hI.waits
  wakes := by
    rw [field_same Ghost.job hjob, proj_same Ghost.waking hwaking]
    exact hI.wakes
  pids := by
    cases t with
    | cpu c =>
      rw [field_cpu, field_cpu]
      exact hI.pids
    | proc p =>
      have hp := hI.pids.setJob (hbelow p rfl) fun q s k hq hk u q' s' hu hu' hk' =>
        hu (hI.pids.distinct u q' s' p q s k hu' hk' (hjob.symm.trans hq) hk)
      rw [field_proc, field_proc]
      exact hp
  history := by
    rw [field_same Ghost.job hjob, field_same Ghost.pending hpending]
    exact hI.history
  tidy := by
    rw [field_same Ghost.job hjob]
    exact hI.tidy
  kills := hI.kills

theorem Inv.setJob {j : Job} (hℓ : ℓ = { Λ (.proc p) with job := j })
    (hwf : j.Locked lockOf p (Λ (.proc p)).held) (hcalm : (Λ (.proc p)).phase = .off → j.Calm)
    (hdead : (Λ (.proc p)).dead = true → j = .idle) (htree : TreeJob (st g) (par g) p j)
    (hmake : ∀ q s, (Λ (.proc p)).job = .making q s →
      par g q = none ∧ (o.clean → Clean (g.entry q)) ∨ ∃ s', j = .making q s')
    (hready : ∀ q s, j = .making q s → s.isReady = true → ctx g q = .forkret)
    (hwaits : WaitsJob (st g) (par g) (chan g) p j)
    (hwakes : ∀ χ, j = .drowsy χ → Covered g.cond (fun t => (Λ t).waking) χ p)
    (hpids : PidsJob o.order (pid g) g.nextpid p (Λ (.proc p)).held j)
    (hdist : ∀ q s k, j = .making q s → s.id = some k → ∀ u q' s', u ≠ p →
      (Λ (.proc u)).job = .making q' s' → s'.id ≠ some k)
    (hhist : HistoryJob (pid g) (xst g) g.trace p j) :
    Inv lockOf o g (update Λ (.proc p) ℓ) := by
  subst hℓ
  have hw := hI.proc_wf p
  constructor
  all_goals try simp only [proj_new, field_proc, update_field, update_eq_self]
  · apply wf_update hI.wf
    exact ⟨hw.phase, hwf, hcalm, fun hd => ⟨(hw.dead hd).1, hdead hd⟩, hw.waking⟩
  · exact hI.harts
  · exact hI.sched
  · exact hI.tree.setJob htree fun q s hq => (hmake q s hq).imp_left And.left
  · exact hI.deaths.setJob hready
  · exact hI.waits.setJob hwaits
  · exact hI.wakes.setJob hwakes
  · have := hI.pids.setJob hpids hdist
    rwa [update_field] at this
  · exact hI.history.setJob hhist
  · intro hc
    exact (hI.tidy hc).setJob fun q s hq _ => (hmake q s hq).imp_left fun h => h.2 hc
  · exact hI.kills

theorem Inv.resume (hℓ : ℓ = { Λ (.proc p) with phase := .run, dead := false })
    (hp : g.hart (.proc p) ≠ none) (hoff : (Λ (.proc p)).phase = .off) :
    Inv lockOf o g (update Λ (.proc p) ℓ) := by
  subst hℓ
  have hw := hI.proc_wf p
  have hrun : st g p = .running := hI.sched.running p hp (.inr hoff)
  constructor
  all_goals try simp only [proj_new, field_proc, update_field, update_eq_self]
  · apply wf_update hI.wf
    exact ⟨trivial, hw.job, nofun, nofun, hw.waking⟩
  · exact hI.harts
  · exact hI.sched.resume hp hoff
  · exact hI.tree
  · apply Deaths.setPhase
    · apply hI.deaths.enter
      rw [hrun]
      exact ⟨nofun, nofun⟩
    · change (Λ (.proc p)).phase ≠ _
      rw [hoff]
      exact nofun
  · exact hI.waits
  · exact hI.wakes
  · exact hI.pids
  · exact hI.history
  · exact hI.tidy
  · exact hI.kills

end

section Same

variable (g) (q : Proc)

@[simp] theorem update_st : update (st g) q (g.entry q).state = st g :=
  update_eq_self ..

@[simp] theorem update_par : update (par g) q (g.entry q).parent = par g :=
  update_eq_self ..

@[simp] theorem update_chan : update (chan g) q (g.entry q).chan = chan g :=
  update_eq_self ..

@[simp] theorem update_pid : update (pid g) q (g.entry q).pid = pid g :=
  update_eq_self ..

@[simp] theorem update_xst : update (xst g) q (g.entry q).xstate = xst g :=
  update_eq_self ..

@[simp] theorem update_ctx : update (ctx g) q (g.entry q).context = ctx g :=
  update_eq_self ..

end Same

section

variable (hI : Inv lockOf o g Λ)
include hI

/-- One slot and the ghost value of one thread change. The locks held and the wakeup under way
    stay, and each other part of the invariant is given on its own. -/
theorem Inv.entry {e : Entry} {l : List Event} (hheld : ℓ.held = (Λ t).held)
    (hwaking : ℓ.waking = (Λ t).waking) (sched : Sched g.hart g.proc (update (st g) q e.state)
      (update (fun u => (Λ u).phase) t ℓ.phase))
    (tree : Tree (update (st g) q e.state) (update (par g) q e.parent)
      (field Ghost.job (update Λ t ℓ)))
    (deaths : Deaths (update (st g) q e.state) (update (ctx g) q e.context)
      (field Ghost.job (update Λ t ℓ)) (field Ghost.dead (update Λ t ℓ))
      (field Ghost.phase (update Λ t ℓ)))
    (waits : Waits (update (st g) q e.state) (update (par g) q e.parent)
      (update (chan g) q e.chan) (field Ghost.job (update Λ t ℓ)))
    (wakes : Wakes (update (st g) q e.state) (update (chan g) q e.chan) g.cond
      (field Ghost.job (update Λ t ℓ)) fun u => (Λ u).waking)
    (pids : Pids o.order (update (st g) q e.state) (update (par g) q e.parent)
      (update (pid g) q e.pid) g.nextpid (field Ghost.job (update Λ t ℓ))
      (field Ghost.held Λ)) (history : History (update (st g) q e.state) (update (par g) q e.parent)
      (update (pid g) q e.pid) (update (xst g) q e.xstate) g.nextpid l
      (field Ghost.job (update Λ t ℓ)) (field Ghost.pending (update Λ t ℓ)))
    (tidy : o.clean → Tidy (update g.entry q e)
      (field Ghost.job (update Λ t ℓ))) (kills : o.clean → o.kill → Kills (update g.entry q e) l)
    (hwf : Wf lockOf t ℓ) :
    Inv lockOf o { g with entry := update g.entry q e, trace := l }
      (update Λ t ℓ) := by
  let g' : State n := { g with entry := update g.entry q e, trace := l }
  have hst : st g' = update (st g) q e.state := proj_new Entry.state g.entry q e
  have hpar : par g' = update (par g) q e.parent := proj_new Entry.parent g.entry q e
  have hchan : chan g' = update (chan g) q e.chan := proj_new Entry.chan g.entry q e
  have hpid : pid g' = update (pid g) q e.pid := proj_new Entry.pid g.entry q e
  have hxst : xst g' = update (xst g) q e.xstate := proj_new Entry.xstate g.entry q e
  have hctx : ctx g' = update (ctx g) q e.context :=
    proj_new Entry.context g.entry q e
  constructor
  · exact wf_update hI.wf hwf
  · rw [proj_same Ghost.held hheld]
    exact hI.harts
  · rw [proj_new, hst]
    exact sched
  · rw [hst, hpar]
    exact tree
  · rw [hst, hctx]
    exact deaths
  · rw [hst, hpar, hchan]
    exact waits
  · rw [hst, hchan, proj_same Ghost.waking hwaking]
    exact wakes
  · rw [hst, hpar, hpid, field_same Ghost.held hheld]
    exact pids
  · rw [hst, hpar, hpid, hxst]
    exact history
  · exact tidy
  · exact kills

theorem Inv.reenter {e : Entry}
    (sched : Sched g.hart g.proc (update (st g) q e.state) fun u => (Λ u).phase)
    (tree : Tree (update (st g) q e.state) (update (par g) q e.parent) (field Ghost.job Λ))
    (deaths : Deaths (update (st g) q e.state) (update (ctx g) q e.context) (field Ghost.job Λ)
      (field Ghost.dead Λ) (field Ghost.phase Λ))
    (waits : Waits (update (st g) q e.state) (update (par g) q e.parent)
      (update (chan g) q e.chan) (field Ghost.job Λ))
    (wakes : Wakes (update (st g) q e.state) (update (chan g) q e.chan) g.cond
      (field Ghost.job Λ) fun u => (Λ u).waking)
    (pids : Pids o.order (update (st g) q e.state) (update (par g) q e.parent)
      (update (pid g) q e.pid) g.nextpid (field Ghost.job Λ) (field Ghost.held Λ))
    (history : History (update (st g) q e.state) (update (par g) q e.parent)
      (update (pid g) q e.pid) (update (xst g) q e.xstate) g.nextpid g.trace (field Ghost.job Λ)
      (field Ghost.pending Λ)) (tidy : o.clean → Tidy (update g.entry q e) (field Ghost.job Λ))
    (kills : o.clean → o.kill → Kills (update g.entry q e) g.trace) :
    Inv lockOf o (g.modify q fun _ => e) Λ := by
  have hself : update Λ (.proc q) (Λ (.proc q)) = Λ := update_eq_self ..
  have := hI.entry (t := .proc q) (ℓ := Λ (.proc q)) (q := q) (e := e) (l := g.trace) rfl rfl
  simp only [hself, update_eq_self] at this
  exact this sched tree deaths waits wakes pids history tidy kills (hI.wf _)

theorem Inv.rouse (hq : st g q = .sleeping) (hpart : ∀ s, (Λ (.proc q)).phase ≠ .parting s) :
    Inv lockOf o (g.modify q fun e => { e with state := .runnable }) Λ := by
  have hu : ProcState.runnable = .unused ↔ st g q = .unused := by
    rw [hq]
    exact iff_of_false nofun nofun
  have hz : ProcState.runnable = .zombie ↔ st g q = .zombie := by
    rw [hq]
    exact iff_of_false nofun nofun
  have hused : (g.entry q).state ≠ .unused := by
    change st g q ≠ _
    rw [hq]
    exact nofun
  have hrun : st g q ≠ .running := by
    rw [hq]
    exact nofun
  refine hI.reenter (e := { g.entry q with state := .runnable }) ?_ ?_ ?_ ?_ ?_ ?_ ?_ ?_ ?_
  all_goals try simp only [update_par, update_chan, update_pid, update_xst, update_ctx]
  · exact hI.sched.state hrun nofun hpart
  · exact hI.tree.state hu hz
  · exact hI.deaths.state hu hz
  · exact hI.waits.state nofun nofun
  · exact hI.wakes.state nofun
  · exact hI.pids.state nofun (.inl hused)
  · exact hI.history.state hu hz
  · exact fun hc => (hI.tidy hc).modify nofun
  · exact fun hc hk => (hI.kills hc hk).modify fun he => ⟨nofun, ((hI.kills hc hk) q he).2⟩

theorem Inv.not_fresh (hmade : ∀ u s, field Ghost.job Λ u ≠ .making q s) {x : Proc} {k : ℕ}
    (hu : field Ghost.job Λ u = .making x s) (hk : s.id = some k) :
    pid g q ≠ k := by
  intro hq
  obtain ⟨-, -, ⟨hid, hnum, hres⟩, -⟩ := hI.at_job hu
  have hpos : 0 < k := Nat.lt_of_le_of_lt (Nat.zero_le _) (hid k hk).1
  have hnum' (hn : s.number = some k) : False := by
    have hqx : q = x := hI.pids.inj q x (hq.trans (hnum k hn).symm) (by omega)
    rw [← hqx] at hu
    exact hmade u s hu
  cases s with
  | found => cases hk
  | reserved m => exact hres k (by cases hk; rfl) q hq
  | numbered m => exact hnum' hk
  | ready m => exact hnum' hk
  | parented m => exact hnum' hk

theorem Inv.not_made (hq : st g q ≠ .unused) (u : Proc) (s : Stage) :
    field Ghost.job Λ u ≠ .making q s :=
  fun hu => hq (hI.tree.making hu).1

theorem Inv.child_used (hq : par g q = some p)
    (hmaking : ∀ s, field Ghost.job Λ p ≠ .making q s) : st g q ≠ .unused := by
  intro hu
  rcases hI.tree.unused q hu with hnone | ⟨u, s, hus⟩
  · rw [hq] at hnone
    cases hnone
  · have hpar := (hI.tree.making hus).2.2
    rw [hq] at hpar
    split at hpar
    · cases hpar
      exact hmaking s hus
    · cases hpar

theorem Inv.mark {v : Event} {r : Option ℤ} (hℓ : ℓ = { Λ (.proc p) with pending := r })
    (hev : (∃ p', v = .kill p' q (pid g q)) ∨ v = .fault q (pid g q))
    (hpend : ∀ u, settle u (field Ghost.pending Λ u) v = update (field Ghost.pending Λ) p r u)
    (hmade : ∀ u s, field Ghost.job Λ u ≠ .making q s)
    (hlive : o.clean → o.kill → st g q ≠ .unused) :
    Inv lockOf o ((g.modify q fun e => { e with killed := true }).log v)
      (update Λ (.proc p) ℓ) := by
  subst hℓ
  have habout : about v = some (pid g q) := by
    rcases hev with ⟨p', rfl⟩ | rfl <;> rfl
  have hw := hI.proc_wf p
  have hnote : History (st g) (par g) (pid g) (xst g) g.nextpid (g.trace ++ [v])
      (field Ghost.job Λ) (update (field Ghost.pending Λ) p r) := by
    apply hI.history.note
    · rcases hev with ⟨p', rfl⟩ | rfl <;> trivial
    · intro k hk
      rw [habout] at hk
      cases hk
      exact hI.pids.lt q
    · intro u x s k hu hk hab
      rw [habout] at hab
      exact hI.not_fresh hmade hu hk (Option.some.inj hab)
    · rcases hev with ⟨p', rfl⟩ | rfl <;> trivial
    · exact hpend
  refine hI.entry (t := .proc p) (q := q) (e := { g.entry q with killed := true })
    (l := g.trace ++ [v]) rfl rfl ?_ ?_ ?_ ?_ ?_ ?_ ?_ ?_ ?_ ?_
  all_goals try simp only [update_st, update_par, update_chan, update_pid, update_xst, update_ctx,
    field_proc, update_field, update_eq_self]
  · exact hI.sched
  · exact hI.tree
  · exact hI.deaths
  · exact hI.waits
  · exact hI.wakes
  · exact hI.pids
  · exact hnote
  · intro hc
    apply (hI.tidy hc).modify
    intro he
    exact (hI.tidy hc q he).imp_left fun h => { h with }
  · intro hc hk
    apply Kills.modify ((hI.kills hc hk).snoc v)
    intro _
    refine ⟨hlive hc hk, g.trace, [v], rfl, ?_, ?_⟩
    · by_cases hinit : q = initproc
      · exact .inl hinit
      · obtain ⟨p0, k0, hf, -⟩ := hI.history.forked q (hlive hc hk) hinit
        exact .inr ⟨p0, k0, hf⟩
    · exact hev.imp (fun ⟨p', h⟩ => ⟨p', by rw [h]; exact List.mem_singleton.2 rfl⟩)
        fun h => by rw [h]; exact List.mem_singleton.2 rfl
  · exact { hw with }

theorem Inv.one_waker (ht : g.hart t ≠ none) (hq : .proc q ∈ (Λ t).held) {G : Finset Proc}
    {k : Option Proc} (hu : field Ghost.job Λ u = .leaving (some q) true G k) :
    .proc u = t := by
  have hon := hI.on_of_not_calm hu fun h => Bool.noConfusion h.1
  obtain ⟨-, -, -, -, hlocked⟩ := hI.at_job hu
  obtain ⟨v, hv, hmem⟩ := hlocked.1 rfl
  cases hv
  exact hI.harts.excl hon ht hmem hq

theorem Inv.part {s : ProcState} {w : Option Chan}
    (hℓ : ℓ = { Λ (.proc p) with phase := .parting s }) (hrun : (Λ (.proc p)).phase = .run)
    (hmem : .proc p ∈ (Λ (.proc p)).held)
    (hs : s = .runnable ∧ w = (g.entry p).chan ∨ s = .sleeping ∧ ∃ x, w = some x ∧
      (x = .proc p → p ≠ initproc → ∀ q, par g q = some p → st g q ≠ .zombie) ∧
      (∀ χ, x = .other χ → Covered g.cond (fun t => (Λ t).waking) χ p) ∧
      (Λ (.proc p)).job = .idle) :
    Inv lockOf o (g.modify p fun e => { e with state := s, chan := w })
      (update Λ (.proc p) ℓ) := by
  subst hℓ
  have hw := hI.proc_wf p
  have hst : st g p = .running := hI.running hrun
  have hon : g.hart (.proc p) ≠ none := by
    intro hnone
    rw [hI.sched.off p hnone] at hrun
    cases hrun
  have hsne : s ≠ .running ∧ s ≠ .unused ∧ s ≠ .zombie := by
    rcases hs with ⟨rfl, -⟩ | ⟨rfl, -⟩ <;> exact ⟨nofun, nofun, nofun⟩
  have hu : s = .unused ↔ st g p = .unused := by
    rw [hst]
    exact iff_of_false hsne.2.1 nofun
  have hz : s = .zombie ↔ st g p = .zombie := by
    rw [hst]
    exact iff_of_false hsne.2.2 nofun
  have hused : st g p ≠ .unused := by
    rw [hst]
    exact nofun
  refine hI.entry (t := .proc p) (q := p) (e := { g.entry p with state := s, chan := w })
    (l := g.trace) rfl rfl ?_ ?_ ?_ ?_ ?_ ?_ ?_ ?_ ?_ ?_
  all_goals try simp only [update_par, update_pid, update_xst, update_ctx, field_proc, update_field]
  · exact hI.sched.part hrun hsne.1
  · exact hI.tree.state hu hz
  · apply (hI.deaths.state hu hz).setPhase
    change (Λ (.proc p)).phase ≠ _
    rw [hrun]
    exact nofun
  · rcases hs with ⟨rfl, rfl⟩ | ⟨rfl, x, rfl, hkids, -, hidle⟩
    · rw [update_chan]
      exact hI.waits.state nofun nofun
    · apply hI.waits.sleepOn hkids
      intro u G k hu'
      have hup := hI.one_waker hon hmem hu'
      cases hup
      rw [show field Ghost.job Λ p = _ from hidle] at hu'
      cases hu'
  · rcases hs with ⟨rfl, rfl⟩ | ⟨rfl, x, rfl, -, hcov, -⟩
    · rw [update_chan]
      exact hI.wakes.state nofun
    · exact hI.wakes.sleepOn hcov
  · exact hI.pids.state (fun h => hu.1 h) (.inl hused)
  · exact hI.history.state hu hz
  · intro hc
    exact (hI.tidy hc).modify fun he => absurd he hsne.2.1
  · intro hc hk
    exact (hI.kills hc hk).modify fun he => ⟨hsne.2.1, (hI.kills hc hk p he).2⟩
  · refine ⟨⟨hmem, hsne.1⟩, hw.job, nofun, fun hdead => ?_, hw.waking⟩
    rw [(hw.dead hdead).1] at hrun
    cases hrun

theorem Inv.exited {v : Proc} {r : ℤ}
    (hℓ : ℓ = { Λ (.proc p) with phase := .parting .zombie, job := .idle })
    (hrun : (Λ (.proc p)).phase = .run) (hmem : .proc p ∈ (Λ (.proc p)).held)
    (hjob0 : (Λ (.proc p)).job = .leaving (some v) true Finset.univ none) :
    Inv lockOf o ((g.modify p fun e => { e with xstate := r, state := .zombie }).log
      (.exit p (pid g p) r)) (update Λ (.proc p) ℓ) := by
  subst hℓ
  have hw := hI.proc_wf p
  have hst : st g p = .running := hI.running hrun
  have hon : g.hart (.proc p) ≠ none := by
    intro hnone
    rw [hI.sched.off p hnone] at hrun
    cases hrun
  have halive : Alive (st g p) := by
    rw [hst]
    exact ⟨nofun, nofun⟩
  have hfield : field Ghost.job Λ p = .leaving (some v) true Finset.univ none := hjob0
  obtain ⟨⟨-, hinit, hgiven, horig, -⟩, hwaits, -, -, hlocked⟩ := hI.at_job hjob0
  have hkids (x : Proc) : par g x ≠ some p := hgiven x (Finset.mem_univ x)
  have hvmem : .proc v ∈ (Λ (.proc p)).held := by
    obtain ⟨v', hv', hmem'⟩ := hlocked.1 rfl
    cases hv'
    exact hmem'
  have hmaking (q : Proc) (s : Stage) : field Ghost.job Λ p ≠ .making q s := by
    rw [hfield]
    exact nofun
  have hcorpse (u : Proc) (S : Finset Proc) (c : ℕ × ℤ) :
      field Ghost.job Λ u ≠ .waiting S (some p) (some c) := by
    intro hu
    have hz := ((hI.at_job hu).1.2 p rfl).2 nofun
    rw [hst] at hz
    cases hz
  have hpar (u : Proc) (hu : par g p = some u) (hui : u ≠ initproc) :
      (st g u = .sleeping → chan g u ≠ some (.proc u)) ∧
        ∀ S k c, field Ghost.job Λ u ≠ .waiting S k c := by
    obtain ⟨hpv, -, hvp⟩ := horig v rfl
    have huv : u = v := by
      rcases hpv with h | h
      · rw [h] at hu
        exact (Option.some.inj hu).symm
      · rw [h] at hu
        exact absurd (Option.some.inj hu).symm hui
    subst huv
    constructor
    · exact hwaits
    · -- A parent in the middle of `wait` would hold its own lock, which is held here.
      intro S k c hjobu
      obtain ⟨-, -, -, -, hmemu⟩ := hI.at_job hjobu
      have := hI.harts.excl (hI.on_of_not_calm hjobu id) hon hmemu.1 hvmem
      exact hvp (Thread.proc.inj this)
  refine hI.entry (t := .proc p) (q := p)
    (e := { g.entry p with xstate := r, state := .zombie })
    (l := g.trace ++ [Event.exit p (pid g p) r]) rfl rfl ?_ ?_ ?_ ?_ ?_ ?_ ?_ ?_ ?_ ?_
  all_goals try simp only [update_par, update_chan, update_pid, update_ctx, field_proc,
    update_field]
  · exact hI.sched.part hrun nofun
  · exact hI.tree.exited hinit hkids halive hmaking
  · exact hI.deaths.exited
  · exact hI.waits.exited hpar
  · exact Wakes.setJob (hI.wakes.state (q := p) (s := .zombie) nofun) nofun
  · have := (hI.pids.state (q := p) (s := .zombie) nofun (.inl halive.1)).setJob (p := p)
      (j := .idle) (H := field Ghost.held Λ p) trivial nofun
    rwa [update_eq_self] at this
  · apply hI.history.exited halive (hI.pids.lt p) _ _ hcorpse
    · intro x hx hpx
      exact hI.pids.inj x p hpx (by have := hI.pids.live x hx; omega)
    · intro u x s k _ hu hk
      exact hI.not_fresh (hI.not_made halive.1) hu hk
  · intro hc
    apply Tidy.setJob ((hI.tidy hc).modify fun he => ProcState.noConfusion he)
    intro q s hq
    exact absurd hq (hmaking q s)
  · intro hc hk
    apply Kills.modify ((hI.kills hc hk).snoc _)
    intro he
    exact ⟨nofun, ((hI.kills hc hk p he).2).snoc _⟩
  · refine ⟨⟨hmem, nofun⟩, trivial, nofun, fun hdead => ?_, hw.waking⟩
    rw [(hw.dead hdead).1] at hrun
    cases hrun

theorem Inv.clearChan (hused : st g p ≠ .unused) :
    Inv lockOf o (g.modify p fun e => { e with chan := none }) Λ := by
  refine hI.reenter (e := { g.entry p with chan := none }) ?_ ?_ ?_ ?_ ?_ ?_ ?_ ?_ ?_
  all_goals try simp only [update_st, update_par, update_pid, update_xst, update_ctx]
  · exact hI.sched
  · exact hI.tree
  · exact hI.deaths
  · exact hI.waits.clearChan
  · exact hI.wakes.clearChan
  · exact hI.pids
  · exact hI.history
  · exact fun hc => (hI.tidy hc).modify fun he => absurd he hused
  · exact fun hc hk => (hI.kills hc hk).modify fun he => hI.kills hc hk p he

theorem Inv.pick {c : Fin n} (hℓ : ℓ = { Λ (.cpu c) with phase := .picked q })
    (hfree : (Λ (.cpu c)).phase = .free) (hheld0 : (Λ (.cpu c)).held = {.proc q})
    (hq : st g q = .runnable) :
    Inv lockOf o (g.modify q fun e => { e with state := .running })
      (update Λ (.cpu c) ℓ) := by
  subst hℓ
  have hw : WfCpu lockOf (Λ (.cpu c)) := hI.wf (.cpu c)
  have hmem : .proc q ∈ (Λ (.cpu c)).held := by
    rw [hheld0]
    exact Finset.mem_singleton_self _
  have hc : g.hart (.cpu c) = some c := (hI.sched.free c hfree).1
  have hon : g.hart (.cpu c) ≠ none := by
    rw [hc]
    exact Option.some_ne_none c
  have hoff : g.hart (.proc q) = none := by
    by_contra hne
    have hrun := hI.sched.running q hne
    have hphq := (hI.proc_wf q).phase
    have hpart := hI.off_of_held hon hmem nofun
    cases hp : (Λ (.proc q)).phase with
    | parting s => exact hpart s hp
    | run =>
      rw [hrun (.inl hp)] at hq
      cases hq
    | off =>
      rw [hrun (.inr hp)] at hq
      cases hq
    | free => rw [hp] at hphq; exact hphq
    | picked x => rw [hp] at hphq; exact hphq
    | assigned x => rw [hp] at hphq; exact hphq
    | lent x => rw [hp] at hphq; exact hphq
  have hother (d : Fin n) (hd : (Λ (.cpu d)).phase = .lent q) : g.hart (.cpu d) = none := by
    by_contra hne
    have hwd : WfCpu lockOf (Λ (.cpu d)) := hI.wf (.cpu d)
    have hph := hwd.phase
    rw [hd] at hph
    have hmemd : .proc q ∈ (Λ (.cpu d)).held := by
      rw [show (Λ (.cpu d)).held = {.proc q} from hph]
      exact Finset.mem_singleton_self _
    have hdc := hI.harts.excl hne hon hmemd hmem
    cases hdc
    rw [hfree] at hd
    cases hd
  have hu : ProcState.running = .unused ↔ st g q = .unused := by
    rw [hq]
    exact iff_of_false nofun nofun
  have hz : ProcState.running = .zombie ↔ st g q = .zombie := by
    rw [hq]
    exact iff_of_false nofun nofun
  have hused : st g q ≠ .unused := by
    rw [hq]
    exact nofun
  refine hI.entry (t := .cpu c) (q := q) (e := { g.entry q with state := .running })
    (l := g.trace) rfl rfl ?_ ?_ ?_ ?_ ?_ ?_ ?_ ?_ ?_ ?_
  all_goals try simp only [update_par, update_chan, update_pid, update_xst, update_ctx]
  · exact hI.sched.pick hfree hoff hother
  · exact hI.tree.state hu hz
  · exact hI.deaths.state hu hz
  · exact hI.waits.state nofun nofun
  · exact hI.wakes.state nofun
  · exact hI.pids.state nofun (.inl hused)
  · exact hI.history.state hu hz
  · intro hcl
    exact (hI.tidy hcl).modify nofun
  · intro hcl hk
    exact (hI.kills hcl hk).modify fun he => ⟨nofun, (hI.kills hcl hk q he).2⟩
  · exact ⟨hheld0, hw.waking⟩

theorem Inv.lifeless (hq : ¬ Alive (st g q)) :
    q ≠ initproc ∧ (∀ x, par g x ≠ some q) ∧ ∀ u, field Ghost.job Λ u ≠ .idle → u ≠ q := by
  refine ⟨?_, fun x hx => hq (hI.tree.alive x q hx), fun u hu huq => ?_⟩
  · intro hinit
    rw [hinit] at hq
    exact hq hI.tree.init
  · rw [huq] at hu
    exact hq ((hI.tree.job q).busy hu)

/-- What is known of a slot that `fork` is filling. -/
structure Making (lockOf : ℕ → ℕ) (o : Opts) (g : State n) (Λ : Thread n → Ghost) (p q : Proc) :
    Prop where
  unused : st g q = .unused
  alive : Alive (st g p)
  init : q ≠ initproc
  kids : ∀ x, par g x ≠ some q
  busy : ∀ u, field Ghost.job Λ u ≠ .idle → u ≠ q
  one : ∀ u s, field Ghost.job Λ u = .making q s → u = p
  lock : ∀ u, u ≠ p → field Ghost.job Λ u ≠ .idle → .proc q ∉ field Ghost.held Λ u
  corpse : ∀ u S c, field Ghost.job Λ u ≠ .waiting S (some q) (some c)

theorem Inv.making (hjob : (Λ (.proc p)).job = .making q s) : Making lockOf o g Λ p q := by
  have hon := hI.on_of_not_calm hjob id
  obtain ⟨-, -, -, -, hmem⟩ := hI.at_job hjob
  obtain ⟨hq, halive, -⟩ := hI.tree.making hjob
  have hdead : ¬ Alive (st g q) := fun h => h.1 hq
  obtain ⟨hinit, hkids, hbusy⟩ := hI.lifeless hdead
  refine ⟨hq, halive, hinit, hkids, hbusy, ?_, ?_, ?_⟩
  · intro u s' hu
    exact Thread.proc.inj (hI.one_maker hon hmem hu)
  · intro u hup hu
    exact hI.not_held hon hmem hdead (fun h => hup (Thread.proc.inj h)) hu
  · intro u S c hu
    have hz := ((hI.at_job hu).1.2 q rfl).2 nofun
    rw [hq] at hz
    cases hz

end

theorem WfProc.remake (h : WfProc lockOf p ℓ) (hjob : ℓ.job = .making q s) (s' : Stage) :
    WfProc lockOf p { ℓ with job := .making q s' } := by
  have hlocked := h.job
  rw [hjob] at hlocked
  refine ⟨h.phase, hlocked, fun hoff => ?_, fun hdead => ?_, h.waking⟩
  · have := h.calm hoff
    rw [hjob] at this
    exact this
  · have := (h.dead hdead).2
    rw [hjob] at this
    cases this

theorem Inv.touch (hI : Inv lockOf o g Λ) {e : Entry} (hst : e.state = (g.entry q).state)
    (hpar : e.parent = (g.entry q).parent) (hchan : e.chan = (g.entry q).chan)
    (hpid : e.pid = (g.entry q).pid) (hxst : e.xstate = (g.entry q).xstate)
    (hctx : e.context = (g.entry q).context) (hkilled : e.killed = (g.entry q).killed)
    (hfree : st g q = .unused → ∃ u s, field Ghost.job Λ u = .making q s) :
    Inv lockOf o (g.modify q fun _ => e) Λ := by
  refine hI.reenter (e := e) ?_ ?_ ?_ ?_ ?_ ?_ ?_ ?_ ?_
  all_goals try simp only [hst, hpar, hchan, hpid, hxst, hctx, update_st, update_par, update_chan,
    update_pid, update_xst, update_ctx]
  · exact hI.sched
  · exact hI.tree
  · exact hI.deaths
  · exact hI.waits
  · exact hI.wakes
  · exact hI.pids
  · exact hI.history
  · exact fun hc => (hI.tidy hc).modify fun he => .inr (hfree (hst.symm.trans he))
  · intro hc hk
    apply (hI.kills hc hk).modify
    intro he
    rw [hkilled] at he
    rw [hst, hpid]
    exact hI.kills hc hk q he

theorem Inv.takePid (hI : Inv lockOf o g Λ)
    (hℓ : ℓ = { Λ (.proc p) with job := .making q (.reserved g.nextpid) })
    (hjob0 : (Λ (.proc p)).job = .making q .found) :
    Inv lockOf o { g with nextpid := g.nextpid + 1 } (update Λ (.proc p) ℓ) := by
  subst hℓ
  have hw := hI.proc_wf p
  constructor
  all_goals try simp only [proj_new, field_proc, update_field, update_eq_self]
  · apply wf_update hI.wf
    exact hw.remake hjob0 _
  · exact hI.harts
  · exact hI.sched
  · exact hI.tree.remake hjob0 rfl
  · apply hI.deaths.setJob
    intro x s hx hs
    cases hx
    cases hs
  · exact hI.waits.setJob trivial
  · exact hI.wakes.setJob nofun
  · exact hI.pids.take
  · exact hI.history.take
  · exact fun hc => (hI.tidy hc).remake hjob0
  · exact hI.kills

theorem Inv.setPid (hI : Inv lockOf o g Λ) {k : ℕ}
    (hℓ : ℓ = { Λ (.proc p) with job := .making q (.numbered k) })
    (hjob0 : (Λ (.proc p)).job = .making q (.reserved k)) :
    Inv lockOf o (g.modify q fun e => { e with pid := k }) (update Λ (.proc p) ℓ) := by
  subst hℓ
  have hw := hI.proc_wf p
  have hm := hI.making hjob0
  refine hI.entry (t := .proc p) (q := q) (e := { g.entry q with pid := k })
    (l := g.trace) rfl rfl ?_ ?_ ?_ ?_ ?_ ?_ ?_ ?_ ?_ ?_
  all_goals try simp only [update_st, update_par, update_chan, update_xst, update_ctx, field_proc,
    update_field, update_eq_self]
  · exact hI.sched
  · exact hI.tree.remake hjob0 rfl
  · apply hI.deaths.setJob
    intro x s hx hs
    cases hx
    cases hs
  · exact hI.waits.setJob trivial
  · exact hI.wakes.setJob nofun
  · exact hI.pids.setPid hjob0 hm.unused hm.kids hm.init hm.busy hm.one hm.lock
  · exact hI.history.setPid hjob0 hm.unused hm.kids hm.busy hm.corpse
  · exact fun hc => ((hI.tidy hc).remake hjob0).modify fun _ => .inr ⟨p, _, update_self ..⟩
  · intro hc hk
    apply (hI.kills hc hk).modify
    intro he
    exact absurd hm.unused (hI.kills hc hk q he).1
  · exact hw.remake hjob0 _

end Xv6.ProcInvariant
