import Xv6.ProcCalls

set_option autoImplicit false

namespace Xv6.ProcInvariant
open Resumption Interleaving ProcCode
open LogCode (Proc)

variable {n : ℕ} {lockOf : ℕ → ℕ} {o : Opts} {t : Thread n} {ℓ : Ghost}
variable {Λ : Thread n → Ghost} {s : Sys (Thread n) Act Loc (State n)}

theorem ok_starts {l : Loc} {prog : Prog Act Loc} (h : Starts lockOf t l prog)
    (hrest : Rest lockOf t l ℓ) : Ok lockOf o t prog ℓ (Rest lockOf t) := by
  cases h with
  | scheduler =>
    rw [show ℓ = _ from hrest]
    exact ok_scheduler
  | newborn =>
    rw [show ℓ = _ from hrest]
    exact ok_newborn
  | waiting addr copyout =>
    rw [show ℓ = _ from hrest]
    exact ok_waitLoop addr copyout
  | awaiting χ consume =>
    rw [show ℓ = _ from hrest]
    exact ok_awaitLoop χ consume
  | giveUp χ =>
    rw [show ℓ = _ from hrest]
    refine (ok_release_idle _).next fun _ => ?_
    exact ok_usertrapEnd
  | fork mem =>
    rw [show ℓ = _ from hrest]
    apply ok_syscall
    refine (ok_fork mem).next fun _ => ?_
    rfl
  | exec sz =>
    rw [show ℓ = _ from hrest]
    apply ok_syscall
    cases sz with
    | none => rfl
    | some sz => exact ok_image rfl
  | exit status =>
    rw [show ℓ = _ from hrest]
    apply ok_withProc
    exact ok_killed (ok_exit status) fun _ _ h => h
  | wait addr copyout =>
    rw [show ℓ = _ from hrest]
    apply ok_withProc
    apply ok_killed _ fun _ _ h => h
    refine (ok_attend (ok_acquire_idle _)).next fun _ => ?_
    exact ok_waitLoop addr copyout
  | kill pid =>
    rw [show ℓ = _ from hrest]
    apply ok_syscall
    apply (ok_killFrom pid table).seq
    intro v ℓ' hv
    exact ok_returns hv
  | fault =>
    rw [show ℓ = _ from hrest]
    apply ok_withProc
    refine (ok_fault rfl).next fun _ => ?_
    exact ok_usertrapEnd
  | timer =>
    rw [show ℓ = _ from hrest]
    apply ok_withProc
    apply ok_killed _ fun _ _ h => h
    refine (ok_yield rfl rfl rfl ?_ ?_ rfl).seq ?_
    · trivial
    · trivial
    rintro _ _ rfl
    rfl
  | await χ consume =>
    rw [show ℓ = _ from hrest]
    apply ok_withProc
    apply ok_killed _ fun _ _ h => h
    refine (ok_acquire_idle _).next fun _ => ?_
    exact ok_awaitLoop χ consume
  | makeTrue χ =>
    rw [show ℓ = _ from hrest]
    apply ok_syscall
    exact ok_makeTrue ⟨.inl rfl, rfl, fun _ _ => trivial, rfl⟩
  | makeFalse χ =>
    rw [show ℓ = _ from hrest]
    apply ok_syscall
    exact ok_makeFalse

theorem Job.Locked.calm {p : Proc} {j : Job} (h : j.Locked lockOf p ∅) : j.Calm := by
  cases j with
  | idle => trivial
  | making q s => exact absurd h (Finset.notMem_empty _)
  | leaving v a G k =>
    obtain ⟨ha, hk⟩ := h
    refine ⟨?_, hk.resolve_right (Finset.notMem_empty _)⟩
    cases a with
    | false => rfl
    | true =>
      obtain ⟨v', -, hv⟩ := ha rfl
      exact absurd hv (Finset.notMem_empty _)
  | waiting S k c => exact absurd h.1 (Finset.notMem_empty _)
  | drowsy χ =>
    rcases h with h | h
    · exact absurd h (Finset.notMem_empty _)
    · exact absurd h (Finset.notMem_empty _)

theorem ready_of_interrupts {g : State n} {c : Fin n} (hI : Inv lockOf o g Λ)
    (hon : g.hart t = some c) (hoff : g.noff c = 0) :
    Ready lockOf t (Λ t) := by
  have hheld : (Λ t).held = ∅ := by
    rw [hI.harts.noff t c hon] at hoff
    exact Finset.card_eq_zero.1 hoff
  have hno (l : Lock) : l ∉ (Λ t).held := by
    rw [hheld]
    exact Finset.notMem_empty l
  have hne (l : Lock) (h : (Λ t).held = {l}) : False := by
    apply hno l
    rw [h]
    exact Finset.mem_singleton_self l
  have hwf := hI.wf t
  cases t with
  | cpu d =>
    refine ⟨?_, hheld, nofun, ?_⟩
    · have hph := hwf.phase
      cases hp : (Λ (.cpu d)).phase with
      | free => exact .inr rfl
      | picked q => rw [hp] at hph; exact (hne _ hph).elim
      | assigned q => rw [hp] at hph; exact (hne _ hph).elim
      | lent q => rw [hp] at hph; exact (hne _ hph).elim
      | run => exact .inl rfl
      | parting s => rw [hp] at hph; exact hph.elim
      | off => rw [hp] at hph; exact hph.elim
    · cases hw : (Λ (.cpu d)).waking with
      | none => rfl
      | some w => exact absurd (hwf.waking w.1 w.2 hw) (hno _)
  | proc p =>
    refine ⟨?_, hheld, ?_, ?_⟩
    · have hph := hwf.phase
      cases hp : (Λ (.proc p)).phase with
      | run => exact .inl rfl
      | free => exact .inr rfl
      | parting s => rw [hp] at hph; exact absurd hph.1 (hno _)
      | off => rw [hp] at hph; exact (hne _ hph).elim
      | picked q => rw [hp] at hph; exact hph.elim
      | assigned q => rw [hp] at hph; exact hph.elim
      | lent q => rw [hp] at hph; exact hph.elim
    · intro p' hp'
      cases hp'
      rw [← hheld]
      exact hwf.job
    · cases hw : (Λ (.proc p)).waking with
      | none => rfl
      | some w => exact absurd (hwf.waking w.1 w.2 hw) (hno _)

theorem ok_interrupts {g : State n} {prog : Prog Act Unit} (h : Interrupts lockOf t g prog)
    (hI : Inv lockOf o g Λ) :
    Ok lockOf o t prog (Λ t) fun _ ℓ' => ℓ' = Λ t := by
  cases h with
  | @device c hon hoff χ => exact ok_makeTrue (ready_of_interrupts hI hon hoff)
  | @timer c hon hoff =>
    have hready := ready_of_interrupts hI hon hoff
    have hwf := hI.wf t
    cases t with
    | cpu d =>
      have hfree : (Λ (.cpu d)).phase = .free := by
        rcases hready.phase with hp | hp
        · have hph := hwf.phase
          rw [hp] at hph
          exact hph.elim
        · exact hp
      apply (ok_myproc_cpu hfree).seq
      rintro b _ ⟨rfl, rfl⟩
      rfl
    | proc p =>
      have hrun : (Λ (.proc p)).phase = .run := by
        rcases hready.phase with hp | hp
        · exact hp
        · have hph := hwf.phase
          rw [hp] at hph
          exact hph.elim
      have hdead : (Λ (.proc p)).dead = false := by
        cases hd : (Λ (.proc p)).dead with
        | false => rfl
        | true => exact Phase.noConfusion (hrun.symm.trans (hwf.dead hd).1)
      have hlocked := hready.job p rfl
      apply ok_myproc.seq
      rintro b ℓ ⟨rfl, rfl⟩
      refine (ok_get p).next fun e => ?_
      split_ifs with hs
      · exact ok_yield hrun hready.held hdead hlocked.calm hlocked hready.waking
      · rfl

def bootGhost : Thread n → Ghost
  | .cpu _ => idleGhost .free ∅ false
  | .proc p => idleGhost .off {.proc p} true

section Boot

variable {cond : ℕ → Bool} {q : Proc}

theorem boot_entry (q : Proc) : q = initproc ∧ (boot n cond).g.entry q = Entry.first ∨
    q ≠ initproc ∧ (boot n cond).g.entry q = Entry.empty := by
  by_cases hq : q = initproc
  · subst hq
    exact .inl ⟨rfl, rfl⟩
  · refine .inr ⟨hq, ?_⟩
    change Function.update (fun _ => Entry.empty) initproc Entry.first q = _
    exact Function.update_of_ne hq _ _

theorem boot_field {α : Type} (f : Entry → α) (q : Proc) :
    q = initproc ∧ f ((boot n cond).g.entry q) = f Entry.first ∨
      q ≠ initproc ∧ f ((boot n cond).g.entry q) = f Entry.empty :=
  (boot_entry q).imp (fun h => ⟨h.1, congrArg f h.2⟩) fun h => ⟨h.1, congrArg f h.2⟩

theorem boot_par (q : Proc) : par (boot n cond).g q = none :=
  (boot_field Entry.parent q).elim And.right And.right

theorem boot_chan (q : Proc) : chan (boot n cond).g q = none :=
  (boot_field Entry.chan q).elim And.right And.right

theorem boot_used (hq : st (boot n cond).g q ≠ .unused) : q = initproc :=
  (boot_field Entry.state q).elim And.left fun h => absurd h.2 hq

theorem boot_not_zombie (q : Proc) : st (boot n cond).g q ≠ .zombie := by
  rcases boot_field Entry.state q with ⟨-, h⟩ | ⟨-, h⟩
  · exact h.trans_ne nofun
  · exact h.trans_ne nofun

theorem boot_pid : pid (boot n cond).g q ≠ 0 ↔ q = initproc := by
  rcases boot_field Entry.pid q with ⟨hq, h⟩ | ⟨hq, h⟩
  · exact iff_of_true (h.trans_ne nofun) hq
  · exact iff_of_false (fun hne => hne h) hq

theorem boot_harts : Harts (boot n cond).g.hart (boot n cond).g.lock (boot n cond).g.noff
    fun t => (bootGhost (n := n) t).held := by
  constructor
  · intro t u c ht hu
    cases t with
    | cpu d =>
      cases u with
      | cpu e => rw [show d = c from Option.some.inj ht, show e = c from Option.some.inj hu]
      | proc q => cases hu
    | proc q => cases ht
  · intro l c
    refine iff_of_false nofun ?_
    rintro ⟨t, ht, hl⟩
    cases t with
    | cpu d => exact Finset.notMem_empty _ hl
    | proc q => cases ht
  · intro t c ht
    cases t with
    | cpu d => rfl
    | proc q => cases ht

theorem boot_sched : Sched (boot n cond).g.hart (boot n cond).g.proc (st (boot n cond).g)
    fun t => (bootGhost (n := n) t).phase := by
  constructor
  · exact fun _ _ => rfl
  · exact nofun
  · exact fun p hp => absurd rfl hp
  · exact nofun
  · exact fun c d h => (Option.some.inj h).symm
  · exact fun c _ => ⟨rfl, rfl⟩
  · exact nofun
  · exact nofun
  · exact nofun

theorem boot_tree : Tree (st (boot n cond).g) (par (boot n cond).g)
    (field Ghost.job (bootGhost (n := n))) := by
  constructor
  · exact fun q u hq => absurd ((boot_par q).symm.trans hq) nofun
  · exact fun q hq => absurd ((boot_par q).symm.trans hq) nofun
  · exact fun q hq _ => boot_used hq
  · exact ⟨nofun, nofun⟩
  · exact boot_par initproc
  · exact fun q _ => .inl (boot_par q)
  · exact fun _ => trivial

theorem boot_deaths : Deaths (st (boot n cond).g) (ctx (boot n cond).g)
    (field Ghost.job (bootGhost (n := n))) (field Ghost.dead (bootGhost (n := n)))
    (field Ghost.phase (bootGhost (n := n))) := by
  constructor
  · exact fun _ _ => rfl
  · exact fun q hq => absurd hq (boot_not_zombie q)
  · intro q _ hq
    rw [boot_used hq.1]
    rfl
  · exact nofun

theorem boot_pids : Pids o.order (st (boot n cond).g) (par (boot n cond).g) (pid (boot n cond).g)
    (boot n cond).g.nextpid (field Ghost.job (bootGhost (n := n)))
    (field Ghost.held (bootGhost (n := n))) := by
  constructor
  · intro q
    rcases boot_field Entry.pid q with ⟨-, h⟩ | ⟨-, h⟩
    · exact h.trans_lt Nat.one_lt_two
    · exact h.trans_lt Nat.two_pos
  · intro q x hqx hq
    exact (boot_pid.1 hq).trans (boot_pid.1 (hqx ▸ hq)).symm
  · exact fun q hq => Nat.pos_of_ne_zero (boot_pid.2 (boot_used hq))
  · rfl
  · exact fun q u _ hq => absurd ((boot_par q).symm.trans hq) nofun
  · exact nofun
  · exact fun _ => trivial

theorem boot_history : History (st (boot n cond).g) (par (boot n cond).g) (pid (boot n cond).g)
    (xst (boot n cond).g) (boot n cond).g.nextpid (boot n cond).g.trace
    (field Ghost.job (bootGhost (n := n))) (field Ghost.pending (bootGhost (n := n))) := by
  constructor
  · exact nofun
  · exact nofun
  · exact fun q hq hne => absurd (boot_used hq) hne
  · exact fun q hq => absurd hq (boot_not_zombie q)
  · exact fun q hq => absurd hq (boot_not_zombie q)
  · exact nofun
  · exact nofun
  · exact Accounting.Accounted.nil
  · exact fun _ => rfl
  · exact fun _ => trivial

end Boot

theorem boot_inv (n : ℕ) (lockOf : ℕ → ℕ) (o : Opts) (cond : ℕ → Bool) :
    Inv lockOf o (boot n cond).g bootGhost := by
  refine ⟨fun t => ?_, boot_harts, boot_sched, boot_tree, boot_deaths, ?_, ?_, boot_pids,
    boot_history, ?_, ?_⟩
  · cases t with
    | cpu c => exact ⟨trivial, nofun⟩
    | proc p => exact ⟨rfl, trivial, fun _ => trivial, fun _ => ⟨rfl, rfl⟩, nofun⟩
  · exact ⟨fun q _ _ hq => absurd ((boot_chan q).symm.trans hq) nofun, fun _ => trivial⟩
  · exact ⟨fun q χ _ hq => absurd ((boot_chan q).symm.trans hq) nofun, nofun⟩
  · intro _ q hq
    rcases boot_entry q with ⟨-, h⟩ | ⟨-, h⟩
    · rw [h] at hq
      cases hq
    · rw [h]
      exact .inl ⟨rfl, rfl, rfl, rfl, rfl, rfl⟩
  · intro _ _ q hq
    rcases boot_entry q with ⟨-, h⟩ | ⟨-, h⟩ <;> rw [h] at hq <;> cases hq

theorem boot_holds (n : ℕ) (lockOf : ℕ → ℕ) (o : Opts) (cond : ℕ → Bool) :
    Holds (kernel n lockOf) (Good o) (outline n lockOf o) (boot n cond) bootGhost := by
  refine ⟨boot_inv n lockOf o cond, fun t => ?_⟩
  cases t with
  | cpu c => rfl
  | proc p => rfl

theorem holds_of_reach {cond : ℕ → Bool} (h : Reach (kernel n lockOf) (Good o) (boot n cond) s) :
    ∃ Λ, Holds (kernel n lockOf) (Good o) (outline n lockOf o) s Λ :=
  Holds.reach (fun _ _ _ _ hs hr => ok_starts hs hr) (fun _ _ _ _ hi hI => ok_interrupts hi hI)
    (boot_holds n lockOf o cond) h

def free : Opts := ⟨False, False, False⟩

theorem good_free {β : Type} (a : Act β) (g : State n) : Good free t a g := by
  cases a with
  | set q w =>
    cases w with
    | trapframe ok => exact False.elim
    | _ => trivial
  | kill q k => exact False.elim
  | acquireParent v => exact False.elim
  | _ => trivial

theorem holds_of_reach_always {cond : ℕ → Bool}
    (h : Reach (kernel n lockOf) always (boot n cond) s) :
    ∃ Λ, Holds (kernel n lockOf) (Good free) (outline n lockOf free) s Λ :=
  holds_of_reach (Reach.mono h fun _ _ a g _ => good_free a g)

theorem Holds.legal {s' : Sys (Thread n) Act Loc (State n)}
    (h : Holds (kernel n lockOf) (Good o) (outline n lockOf o) s Λ)
    (step : Step (kernel n lockOf) (Good o) s s') : ∃ t, Legal t s.g s'.g := by
  cases step with
  | @start t l p at_ ok => exact ⟨t, Legal.same rfl (.inl rfl)⟩
  | @act t β a k b g' next ok done =>
    have hsafe : Safe o t a s.g Λ := h.safe next
    exact ⟨t, hsafe.legal ok b g' done⟩
  | @interrupt t p ok => exact ⟨t, Legal.same rfl (.inl rfl)⟩

end Xv6.ProcInvariant
