import Xv6.ProcSystem
import Xv6.Scripts

set_option autoImplicit false

namespace Xv6.ProcScheduling
open Resumption Interleaving ProcCode ProcInvariant
open LogCode (Proc)

variable {n : ℕ} {lockOf : ℕ → ℕ} {o : Opts} {g : State n} {Λ : Thread n → Ghost}
variable {p : Proc}
variable {c : Fin n}

theorem phase_of_proc (hI : Inv lockOf o g Λ) (h : g.proc c = some p) :
    (Λ (.cpu c)).held = {.proc p} ∧
      ((Λ (.cpu c)).phase = .assigned p ∨ (Λ (.cpu c)).phase = .lent p) := by
  have hwf : WfCpu lockOf (Λ (.cpu c)) := hI.wf (.cpu c)
  have hph := hwf.phase
  cases hp : (Λ (.cpu c)).phase with
  | free =>
    rw [(hI.sched.free c hp).2] at h
    cases h
  | picked q =>
    rw [(hI.sched.picked c q hp).2.2.2] at h
    cases h
  | assigned q =>
    rw [(hI.sched.assigned c q hp).2.2.2] at h
    cases h
    rw [hp] at hph
    exact ⟨hph, .inl rfl⟩
  | lent q =>
    rw [(hI.sched.lent c q hp).1] at h
    cases h
    rw [hp] at hph
    exact ⟨hph, .inr rfl⟩
  | run =>
    rw [hp] at hph
    exact hph.elim
  | parting s =>
    rw [hp] at hph
    exact hph.elim
  | off =>
    rw [hp] at hph
    exact hph.elim

theorem place_of_proc (hI : Inv lockOf o g Λ) (h : g.proc c = some p) :
    g.hart (.proc p) = some c ∨ g.hart (.cpu c) = some c ∧ g.hart (.proc p) = none := by
  rcases (phase_of_proc hI h).2 with hp | hp
  · obtain ⟨hc, hnone, -⟩ := hI.sched.assigned c p hp
    exact .inr ⟨hc, hnone⟩
  · rcases (hI.sched.lent c p hp).2 with ⟨-, hc⟩ | ⟨hc, hnone, -⟩
    · exact .inl hc
    · exact .inr ⟨hc, hnone⟩

theorem one_cpu (hI : Inv lockOf o g Λ) {d : Fin n} (hc : g.proc c = some p)
    (hd : g.proc d = some p) : c = d := by
  rcases place_of_proc hI hc with hpc | ⟨hcc, hpc⟩
  · rcases place_of_proc hI hd with hpd | ⟨-, hpd⟩
    · rw [hpc] at hpd
      exact Option.some.inj hpd
    · rw [hpc] at hpd
      cases hpd
  rcases place_of_proc hI hd with hpd | ⟨hdd, -⟩
  · rw [hpc] at hpd
    cases hpd
  -- Both schedulers would have the lock of the process.
  have hmem (e : Fin n) (he : g.proc e = some p) : .proc p ∈ (Λ (.cpu e)).held := by
    rw [(phase_of_proc hI he).1]
    exact Finset.mem_singleton_self _
  have := hI.harts.excl (by rw [hcc]; exact Option.some_ne_none c)
    (by rw [hdd]; exact Option.some_ne_none d) (hmem c hc) (hmem d hd)
  exact Thread.cpu.inj this

theorem running_or_locked (hI : Inv lockOf o g Λ) (h : g.proc c = some p) :
    st g p = .running ∨ g.lock (.proc p) = some c := by
  rcases place_of_proc hI h with hp | ⟨hc, -⟩
  · have hon : g.hart (.proc p) ≠ none := by
      rw [hp]
      exact Option.some_ne_none c
    have hph := (hI.proc_wf p).phase
    cases hphase : (Λ (.proc p)).phase with
    | run => exact .inl (hI.sched.running p hon (.inl hphase))
    | off => exact .inl (hI.sched.running p hon (.inr hphase))
    | parting s =>
      rw [hphase] at hph
      exact .inr ((hI.harts.lock_iff hp _).2 hph.1)
    | free => rw [hphase] at hph; exact hph.elim
    | picked q => rw [hphase] at hph; exact hph.elim
    | assigned q => rw [hphase] at hph; exact hph.elim
    | lent q => rw [hphase] at hph; exact hph.elim
  · right
    apply (hI.harts.lock_iff hc _).2
    rw [(phase_of_proc hI h).1]
    exact Finset.mem_singleton_self _

/-- No two CPUs have the same process; a process that a CPU has is running or locked by that CPU;
    and states change along the edges only. -/
theorem process_on_one_cpu {cond : ℕ → Bool} {s : Sys (Thread n) Act Loc (State n)}
    (h : Reach (kernel n lockOf) always (boot n cond) s) :
    (∀ c d p, s.g.proc c = some p → s.g.proc d = some p → c = d) ∧
    (∀ c p, s.g.proc c = some p →
      (s.g.entry p).state = .running ∨ s.g.lock (.proc p) = some c) ∧
    ∀ s', Step (kernel n lockOf) always s s' →
      ∀ p, Edge (s.g.entry p).state (s'.g.entry p).state := by
  obtain ⟨Λ, hΛ⟩ := holds_of_reach_always h
  have hI : Inv lockOf free s.g Λ := hΛ.1
  refine ⟨fun c d p => one_cpu hI, fun c p => running_or_locked hI, fun s' step p => ?_⟩
  obtain ⟨t, hlegal⟩ := Holds.legal hΛ (step.mono fun _ _ a g _ => good_free a g)
  exact hlegal.edge p

theorem process_on_one_cpu_first :
    ∃ s, Reach (kernel 2 id) always (boot 2 fun _ => false) s ∧ s.g.proc 0 = some 0 ∧
      (s.g.entry 0).state = .running ∧ ∀ d, s.g.proc d = some 0 → d = 0 := by
  -- The first process is on the first of two CPUs.
  obtain ⟨s, hreach, htest⟩ := exists_of_freely (S := kernel 2 id)
    [.start (.cpu 0) .idle scheduler .scheduler, .acts (.cpu 0) 4] (boot 2 fun _ => false)
    (fun s => s.g.proc 0 = some 0 ∧ (s.g.entry 0).state = .running) (by decide +kernel)
  obtain ⟨hproc, hst⟩ := of_decide_eq_true htest
  refine ⟨s, hreach, hproc, hst, fun d hd => ?_⟩
  exact (process_on_one_cpu hreach).1 d 0 0 hd hproc

theorem on_of_other (hI : Inv lockOf o g Λ) {t : Thread n} {i : ℕ}
    (h : .other i ∈ (Λ t).held) : g.hart t ≠ none := by
  intro hnone
  have hno (q : Proc) (hheld : (Λ t).held = {.proc q}) : False := by
    rw [hheld] at h
    cases Finset.mem_singleton.1 h
  cases t with
  | proc p =>
    have hph := (hI.proc_wf p).phase
    rw [hI.sched.off p hnone] at hph
    exact hno p hph
  | cpu c =>
    have hwf : WfCpu lockOf (Λ (.cpu c)) := hI.wf (.cpu c)
    have hph := hwf.phase
    cases hp : (Λ (.cpu c)).phase with
    | free =>
      rw [(hI.sched.free c hp).1] at hnone
      cases hnone
    | picked q => rw [hp] at hph; exact hno q hph
    | assigned q => rw [hp] at hph; exact hno q hph
    | lent q => rw [hp] at hph; exact hno q hph
    | run => rw [hp] at hph; exact hph.elim
    | parting s => rw [hp] at hph; exact hph.elim
    | off => rw [hp] at hph; exact hph.elim

/-- When nobody holds the lock of a condition that is true, nobody sleeps on it. -/
theorem no_lost_wakeup {cond : ℕ → Bool} {s : Sys (Thread n) Act Loc (State n)}
    (h : Reach (kernel n lockOf) always (boot n cond) s) (χ : ℕ)
    (hfree : s.g.lock (.other (lockOf χ)) = none) (hcond : s.g.cond χ = true) :
    ¬ ∃ p, (s.g.entry p).state = .sleeping ∧ (s.g.entry p).chan = some (.other χ) := by
  rintro ⟨p, hst, hchan⟩
  obtain ⟨Λ, hΛ⟩ := holds_of_reach_always h
  have hI : Inv lockOf free s.g Λ := hΛ.1
  rcases hI.wakes.asleep p χ hst hchan with hfalse | ⟨t, P, hwaking, -⟩
  · rw [hcond] at hfalse
    cases hfalse
  have hmem : .other (lockOf χ) ∈ (Λ t).held := by
    have hwf := hI.wf t
    cases t with
    | cpu c => exact hwf.waking χ P hwaking
    | proc q => exact hwf.waking χ P hwaking
  obtain ⟨c, hc⟩ := Option.ne_none_iff_exists'.1 (on_of_other hI hmem)
  rw [(hI.harts.lock_iff hc _).2 hmem] at hfree
  cases hfree

def plenty : Memory := ⟨true, true, true⟩

theorem no_lost_wakeup_child :
    ∃ s, Reach (kernel 2 id) always (boot 2 fun _ => false) s ∧ s.g.cond 0 = true ∧
      (s.g.entry 1).state = .runnable ∧ (s.g.entry 1).chan = some (.other 0) ∧
      ¬ ∃ p, (s.g.entry p).state = .sleeping ∧ (s.g.entry p).chan = some (.other 0) := by
  -- A child sleeps on condition 0, and its parent makes it true.
  obtain ⟨s, hreach, htest⟩ := exists_of_freely (S := kernel 2 id)
    [.start (.cpu 0) .idle scheduler .scheduler, .acts (.cpu 0) 4,
      .start (.proc 0) .dead (newborn 0) .newborn, .acts (.proc 0) 3,
      .start (.proc 0) .user (sysFork plenty) (.fork plenty), .acts (.proc 0) 21,
      .start (.cpu 1) .idle scheduler .scheduler, .acts (.cpu 1) 7,
      .start (.proc 1) .dead (newborn 1) .newborn, .acts (.proc 1) 3,
      .start (.proc 1) .user (sysAwait id 0 false) (.await 0 false), .acts (.proc 1) 8,
      .acts (.cpu 1) 2,
      .start (.proc 0) .user (syscall fun _ => makeTrue id 0) (.makeTrue 0), .acts (.proc 0) 198]
    (boot 2 fun _ => false)
    (fun s => s.g.lock (.other 0) = none ∧ s.g.cond 0 = true ∧
      (s.g.entry 1).state = .runnable ∧ (s.g.entry 1).chan = some (.other 0)) (by decide +kernel)
  obtain ⟨hfree, hcond, hst, hchan⟩ := of_decide_eq_true htest
  exact ⟨s, hreach, hcond, hst, hchan, no_lost_wakeup hreach 0 hfree hcond⟩

end Xv6.ProcScheduling
