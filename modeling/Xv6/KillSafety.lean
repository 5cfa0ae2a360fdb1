import Xv6.KillSleep

set_option autoImplicit false

namespace Xv6.KillSafety
open Interleaving SleepCode KillRules KillSleep

variable {n : ℕ} {p q : Fin n} {t : Thread n}

abbrev Keeps {K X D α : Type} (safe : X → Prop) (t : Thread n) (c : Code n K X D α) : Prop :=
  Careful safe t c idle fun _ m => m = idle

section Pipe
open PipeSleep (PipeProg giveUp pipewriteEnd pipewriteFrom pipereadFrom pipereadLoop)

def never {X : Type} : X → Prop := fun _ => False

theorem keeps_pipe : Keeps never t (PipeSleep.pipe : PipeProg n _) := careful_data _

theorem keeps_giveUp : Keeps never t (giveUp : PipeProg n _) := by
  refine (careful_unlock ()).next fun _ => ?_
  rfl

theorem keeps_wakeup {K X D : Type} {safe : X → Prop} (χ : X) :
    Keeps safe t (wakeup χ : Code n K X D Unit) := careful_wakeup χ rfl fun h => by cases h

theorem keeps_pipewriteEnd (i : ℕ) : Keeps never t (pipewriteEnd i : PipeProg n _) := by
  refine (keeps_wakeup _).next fun _ => ?_
  refine (careful_unlock ()).next fun _ => ?_
  rfl

theorem keeps_pipewriteFrom (src : List UInt8) (m : ℤ) (fuel i : ℕ) :
    Keeps never (.proc p) (pipewriteFrom p src m fuel i) := by
  induction fuel generalizing i with
  | zero => exact keeps_pipewriteEnd i
  | succ fuel ih =>
    refine keeps_pipe.next fun pi => ?_
    by_cases hfull : PipeSleep.full pi
    · rw [if_pos hfull]
      by_cases hopen : pi.readopen = false
      · rw [if_pos hopen]
        exact keeps_giveUp
      rw [if_neg hopen]
      refine careful_killed.next fun killed => ?_
      cases killed with
      | true => exact keeps_giveUp
      | false =>
        refine (careful_wakeup _ rfl fun h => by cases h).next fun _ => ?_
        refine (careful_sleep id).next fun _ => ?_
        rfl
    · rw [if_neg hfull]
      cases src[i]? with
      | none => exact keeps_pipewriteEnd i
      | some b =>
        refine (careful_data _).next fun _ => ?_
        exact ih (i + 1)

theorem keeps_pipereadEnd (i : ℕ) : Keeps never t (pipereadFrom.pipereadEnd i : PipeProg n _) := by
  refine (keeps_wakeup _).next fun _ => ?_
  refine (careful_unlock ()).next fun _ => ?_
  rfl

theorem keeps_pipereadFrom (room fuel i : ℕ) :
    Keeps never t (pipereadFrom room fuel i : PipeProg n _) := by
  induction fuel generalizing i with
  | zero => exact keeps_pipereadEnd i
  | succ fuel ih =>
    refine keeps_pipe.next fun pi => ?_
    by_cases hempty : pi.nread = pi.nwrite
    · rw [if_pos hempty]
      exact keeps_pipereadEnd i
    · rw [if_neg hempty]
      refine (careful_data _).next fun _ => ?_
      split_ifs
      · exact ih (i + 1)
      · exact keeps_pipereadEnd i

theorem keeps_pipereadLoop (m : ℤ) (room : ℕ) : Keeps never (.proc p) (pipereadLoop p m room) := by
  refine keeps_pipe.next fun pi => ?_
  by_cases hempty : pi.nread = pi.nwrite ∧ pi.writeopen = true
  · rw [if_pos hempty]
    refine careful_killed.next fun killed => ?_
    cases killed with
    | true => exact keeps_giveUp
    | false =>
      refine (careful_sleep id).next fun _ => ?_
      rfl
  · rw [if_neg hempty]
    exact keeps_pipereadFrom room _ 0

theorem keeps_pipeclose (writable : Bool) :
    Keeps never t (PipeSleep.pipeclose writable : PipeProg n _) := by
  refine (careful_lock ()).next fun _ => ?_
  refine (careful_data _).next fun _ => ?_
  refine (keeps_wakeup _).next fun _ => ?_
  refine keeps_pipe.next fun pi => ?_
  split_ifs
  · refine (careful_unlock ()).next fun _ => ?_
    exact careful_data _
  · exact careful_unlock ()

theorem keeps_pipe_call {l : PipeSleep.Loc} {c : PipeProg n PipeSleep.Loc}
    (h : PipeSleep.Calls t l c) : Keeps never t c := by
  cases h with
  | write p r src m =>
    refine (careful_data _).next fun has => ?_
    cases has with
    | false => rfl
    | true =>
      refine (careful_lock ()).next fun _ => ?_
      exact keeps_pipewriteFrom src m _ 0
  | writeOn p src m i =>
    refine careful_awake.next fun _ => ?_
    exact keeps_pipewriteFrom src m _ i
  | read p r m room =>
    refine (careful_data _).next fun has => ?_
    cases has with
    | false => rfl
    | true =>
      refine (careful_lock ()).next fun _ => ?_
      exact keeps_pipereadLoop m room
  | readOn p m room =>
    refine careful_awake.next fun _ => ?_
    exact keeps_pipereadLoop m room
  | close p r writable =>
    refine (careful_data _).next fun last => ?_
    cases last with
    | false => rfl
    | true =>
      refine (keeps_pipeclose writable).next fun _ => ?_
      rfl
  | share p q r writable =>
    refine (careful_data _).next fun _ => ?_
    rfl
  | kill p r pid =>
    refine (careful_kill pid rfl rfl).next fun _ => ?_
    rfl

end Pipe

section Console
open ConsoleCode

theorem keeps_finish (r : ℤ) : Keeps never t (finish p r) := by
  refine (careful_data _).next fun _ => ?_
  refine (careful_unlock ()).next fun _ => ?_
  rfl

theorem keeps_consolereadFrom (target : ℤ) (m room : ℕ) :
    Keeps never (.proc p) (consolereadFrom p target m room) := by
  induction m generalizing room with
  | zero => exact keeps_finish target
  | succ m ih =>
    refine (careful_data _).next fun k => ?_
    by_cases hempty : k.r = k.w
    · rw [if_pos hempty]
      refine careful_killed.next fun killed => ?_
      cases killed with
      | true => exact keeps_finish _
      | false =>
        refine (careful_sleep id).next fun _ => ?_
        rfl
    rw [if_neg hempty]
    refine (careful_data _).next fun c => ?_
    by_cases hD : c = ctrl 'D'
    · rw [if_pos hD]
      by_cases hbytes : ((m + 1 : ℕ) : ℤ) < target
      · rw [if_pos hbytes]
        refine (careful_data _).next fun _ => ?_
        exact keeps_finish _
      · rw [if_neg hbytes]
        refine (careful_data _).next fun _ => ?_
        exact keeps_finish _
    · rw [if_neg hD]
      by_cases hroom : room = 0
      · rw [if_pos hroom]
        exact keeps_finish _
      · rw [if_neg hroom]
        refine (careful_data _).next fun _ => ?_
        split_ifs
        · exact keeps_finish _
        · exact ih _

theorem keeps_consoleread (m : ℤ) (room : ℕ) : Keeps never (.proc p) (consoleread p m room) := by
  refine (careful_lock ()).next fun _ => ?_
  refine (careful_data _).next fun _ => ?_
  split_ifs
  · exact keeps_consolereadFrom m _ room
  · exact keeps_finish 0

theorem keeps_killLine (rounds : ℕ) : Keeps never t (killLine rounds : ConsProg n Unit) := by
  induction rounds with
  | zero => rfl
  | succ rounds ih =>
    refine (careful_data _).next fun k => ?_
    split_ifs
    · refine (careful_data _).next fun _ => ?_
      exact ih
    · rfl

theorem keeps_insert (c : UInt8) : Keeps never t (insert c : ConsProg n Unit) := by
  refine (careful_data _).next fun k => ?_
  by_cases hspace : c ≠ 0 ∧ k.e - k.r < UInt32.ofNat INPUT_BUF
  · rw [if_pos hspace]
    generalize (if c = carriageReturn then newline else c) = c
    refine (careful_data _).next fun _ => ?_
    refine (careful_data _).seq ?_
    rintro k' _ rfl
    split_ifs
    · refine (careful_data _).next fun _ => ?_
      exact keeps_wakeup ()
    · rfl
  · rw [if_neg hspace]
    rfl

theorem keeps_edit (c : UInt8) : Keeps never t (edit c : ConsProg n Unit) := by
  unfold edit
  split_ifs
  · rfl
  · refine (careful_data _).next fun k => ?_
    exact keeps_killLine _
  · refine (careful_data _).next fun k => ?_
    split_ifs
    · exact careful_data _
    · rfl
  · exact keeps_insert c

theorem keeps_consoleintr (c : UInt8) : Keeps never t (consoleintr c : ConsProg n Unit) := by
  refine (careful_lock ()).next fun _ => ?_
  refine (keeps_edit c).next fun _ => ?_
  exact careful_unlock ()

end Console

theorem keeps_sysSleepLoop (ticks0 m : UInt32) :
    Keeps Waits (.proc p) (sysSleepLoop p ticks0 m) := by
  refine (careful_data _).next fun ticks => ?_
  by_cases hmore : ticks - ticks0 < m
  · rw [if_pos hmore]
    refine careful_killed.next fun killed => ?_
    cases killed with
    | true =>
      refine (careful_unlock _).next fun _ => ?_
      rfl
    | false =>
      refine (careful_sleep id).next fun _ => ?_
      rfl
  · rw [if_neg hmore]
    refine (careful_unlock _).next fun _ => ?_
    rfl

theorem keeps_clockintr : Keeps Waits t (clockintr : KillProg n Unit) := by
  refine (careful_lock _).next fun _ => ?_
  refine (careful_data _).next fun _ => ?_
  refine (keeps_wakeup _).next fun _ => ?_
  exact careful_unlock _

section Family

variable {m : Mode n} {safe : Chan n → Prop}

theorem careful_freeSlot (q : Fin n) :
    Careful safe t (KillSleep.freeproc q : KillProg n Unit) m fun _ m' => m' = m := by
  refine careful_freeproc.next fun _ => ?_
  exact careful_data _

theorem careful_tryReap (np : Fin n) (addr : ℕ) (copyout : Bool) :
    Careful safe (.proc p) (tryReap p np addr copyout) (locked p .no) fun r m' =>
      m' = if r = none then locked p .no else idle := by
  have hkilling : (locked p .no).killing = none := rfl
  have hclear : (locked p .no).found ≠ .clear := fun h => by cases h
  refine careful_acquire.seq ?_
  rintro _ _ ⟨hnp, rfl⟩
  have hback : ∀ r : Option ℤ, r ≠ none →
      Careful safe (.proc p) (do
        act (.release (.proc np))
        act (.release (.proc p))
        return r : KillProg n (Option ℤ))
        { locked p .no with held := Function.update (locked p .no).held np true }
        fun r m' => m' = if r = none then locked p .no else idle := by
    intro r hr
    refine (careful_release (by exact hkilling) (by exact hclear)).next fun _ => ?_
    rw [relock hnp]
    refine (careful_release hkilling hclear).next fun _ => ?_
    rw [unlocked]
    exact (if_neg hr).symm
  refine careful_state.next fun state => ?_
  by_cases hz : state = .zombie
  · rw [if_pos hz]
    refine careful_pid.next fun pid => ?_
    split_ifs
    · exact hback _ (fun h => by cases h)
    · refine (careful_freeSlot np).next fun _ => ?_
      exact hback _ (fun h => by cases h)
  · rw [if_neg hz]
    refine (careful_release (by exact hkilling) (by exact hclear)).next fun _ => ?_
    rw [relock hnp]
    rfl

theorem careful_scanFrom (addr : ℕ) (copyout : Bool) (ps : List (Fin n)) (havekids : Bool) :
    Careful safe (.proc p) (scanFrom p addr copyout ps havekids) (locked p .no) fun r m' =>
      match r with
      | .result _ => m' = idle
      | .scanned _ => m' = locked p .no := by
  induction ps generalizing havekids with
  | nil => rfl
  | cons np ps ih =>
    refine (careful_data _).next fun parent => ?_
    by_cases hp : parent = some p
    · rw [if_pos hp]
      refine (careful_tryReap np addr copyout).next fun r => ?_
      cases r with
      | some r => rfl
      | none => exact ih true
    · rw [if_neg hp]
      exact ih havekids

theorem keeps_waitLoop (addr : ℕ) (copyout : Bool) :
    Careful Waits (.proc p) (waitLoop p addr copyout) (locked p .no) fun _ m' => m' = idle := by
  have hgive : ∀ r : Loc, Careful Waits (.proc p) (do
      act (.release (.proc p))
      return r : KillProg n Loc) (locked p .no) fun _ m' => m' = idle := by
    intro r
    refine (careful_release (by rfl) (fun h => by cases h)).next fun _ => ?_
    exact unlocked p .no
  refine (careful_scanFrom addr copyout _ false).seq ?_
  intro r m hr
  cases r with
  | result r => exact hr
  | scanned havekids =>
    obtain rfl : m = locked p .no := hr
    by_cases hkids : havekids = false
    · change Careful Waits _ (if havekids = false then _ else _) _ _
      rw [if_pos hkids]
      exact hgive _
    change Careful Waits _ (if havekids = false then _ else _) _ _
    rw [if_neg hkids]
    refine careful_killed_locked.next fun killed => ?_
    cases killed with
    | true => exact hgive _
    | false =>
      refine (careful_sleepLocked trivial).next fun _ => ?_
      rfl

theorem careful_reparentFrom (initproc : Fin n) (ps : List (Fin n)) (hkilling : m.killing = none)
    (hclear : m.found ≠ .clear) :
    Careful safe t (reparentFrom initproc p ps) m fun _ m' => m' = m := by
  induction ps with
  | nil => rfl
  | cons pp ps ih =>
    refine (careful_data _).next fun parent => ?_
    split_ifs
    · refine careful_acquire.seq ?_
      rintro _ _ ⟨hpp, rfl⟩
      refine (careful_data _).next fun _ => ?_
      refine (careful_release (by exact hkilling) (by exact hclear)).next fun _ => ?_
      rw [relock hpp]
      exact ih
    · exact ih

theorem keeps_exitWith (initproc original_parent : Fin n) (status : ℤ) :
    Keeps safe (.proc p) (exitWith initproc p original_parent status) := by
  refine careful_acquire.seq ?_
  rintro _ _ ⟨-, rfl⟩
  refine careful_acquire.seq ?_
  rintro _ _ ⟨hp, rfl⟩
  refine (careful_reparentFrom initproc _ (by rfl) (fun h => by cases h)).next fun _ => ?_
  refine (careful_wake _).next fun _ => ?_
  refine (careful_data _).next fun _ => ?_
  refine careful_exited.next fun _ => ?_
  refine (careful_release (by rfl) (fun h => by cases h)).next fun _ => ?_
  refine (careful_swtch (by rfl) (by rfl)).next fun _ => ?_
  have hheld : ∀ r, Function.update (Function.update (Function.update (Function.update
      (fun _ => false) original_parent true) p true) original_parent false) p false r = false := by
    intro r
    by_cases hrp : r = p
    · rw [hrp, Function.update_self]
    · by_cases hrq : r = original_parent <;> simp [Function.update_apply, hrp, hrq]
  exact congrArg (fun held => (⟨held, .no, none⟩ : Mode n)) (funext hheld)

theorem careful_giveBack (hq : m.held q = false) (hm : m = idle) :
    Careful safe t (act (.release (.proc q)) : KillProg n Unit)
      { m with held := Function.update m.held q true } fun _ m' => m' = idle := by
  subst hm
  refine (careful_release (by rfl) (fun h => by cases h)).mono ?_
  rintro _ _ rfl
  exact relock hq

theorem keeps_exit (initproc : Fin n) (status : ℤ) :
    Keeps safe (.proc p) (exit initproc p status) := by
  unfold exit
  by_cases hinit : p = initproc
  · rw [if_pos hinit]
    exact careful_data _
  rw [if_neg hinit]
  refine careful_acquire.seq ?_
  rintro _ _ ⟨hq, rfl⟩
  refine (careful_wake _).next fun _ => ?_
  refine (careful_giveBack hq rfl).next fun _ => ?_
  refine careful_acquire.seq ?_
  rintro _ _ ⟨hp, rfl⟩
  refine (careful_data _).next fun parent => ?_
  refine (careful_giveBack hp rfl).next fun _ => ?_
  cases parent with
  | none => exact careful_data _
  | some original_parent => exact keeps_exitWith initproc original_parent status

theorem careful_allocpid : Careful safe t (allocpid : KillProg n ℕ) m fun _ m' => m' = m := by
  refine (careful_lock _).next fun _ => ?_
  refine (careful_data _).next fun pid => ?_
  refine (careful_unlock _).next fun _ => ?_
  rfl

theorem keeps_forkFrom (mem : Memory) (ps : List (Fin n)) :
    Keeps safe t (forkFrom p mem ps) := by
  induction ps with
  | nil => rfl
  | cons np ps ih =>
    refine careful_acquire.seq ?_
    rintro _ _ ⟨hnp, rfl⟩
    refine careful_state.next fun state => ?_
    by_cases hfree : state = .unused
    · rw [if_pos hfree]
      refine careful_allocpid.next fun pid => ?_
      refine (careful_setPid pid).next fun _ => ?_
      have hback (l : Loc) : Careful safe t (do
          act (.release (.proc np))
          return l : KillProg n Loc)
          { idle with held := Function.update idle.held np true } fun _ m' => m' = idle := by
        refine (careful_giveBack hnp rfl).next fun _ => ?_
        rfl
      split_ifs
      · exact hback _
      · exact (careful_freeSlot np).next fun _ => hback _
      · refine (careful_data _).next fun _ => ?_
        refine careful_start.next fun _ => ?_
        exact hback _
    · rw [if_neg hfree]
      refine (careful_giveBack hnp rfl).next fun _ => ?_
      exact ih

theorem keeps_forkret : Keeps safe (.proc p) (forkret p) := by
  refine (careful_resume (by rfl)).next fun _ => ?_
  refine (careful_release (by rfl) (fun h => by cases h)).next fun _ => ?_
  exact unlocked p .no

end Family

theorem keeps_onPipe {α : Type} {c : PipeSleep.PipeProg n α} (i : ℕ) (h : Keeps never t c) :
    Keeps Waits t (onPipe i c) := h.lift Waits fun _ => Iff.rfl

theorem keeps_onCons {α : Type} {c : ConsoleCode.ConsProg n α} (h : Keeps never t c) :
    Keeps Waits t (onCons c) := h.lift Waits fun _ => Iff.rfl

theorem keeps_call {initproc : Fin n} {l : Loc} {c : KillProg n Loc} (h : Calls initproc t l c) :
    Keeps Waits t c := by
  cases h with
  | pipe i h =>
    refine (keeps_onPipe i (keeps_pipe_call h)).next fun _ => ?_
    rfl
  | read p r m room =>
    refine (keeps_onCons (keeps_consoleread m room)).next fun _ => ?_
    rfl
  | readOn p target m room =>
    refine (keeps_onCons (careful_awake.seq ?_)).seq ?_
    · rintro _ _ rfl
      exact keeps_consolereadFrom target m room
    · rintro _ _ rfl
      rfl
  | sleep p r m =>
    refine (careful_lock _).next fun _ => ?_
    refine (careful_data _).next fun ticks0 => ?_
    exact keeps_sysSleepLoop ticks0 m
  | sleepOn p ticks0 m =>
    refine careful_awake.next fun _ => ?_
    exact keeps_sysSleepLoop ticks0 m
  | wait p r addr copyout =>
    refine careful_acquire.seq ?_
    rintro _ _ ⟨-, rfl⟩
    exact keeps_waitLoop addr copyout
  | waitOn p addr copyout =>
    refine careful_awakeLocked.next fun _ => ?_
    exact keeps_waitLoop addr copyout
  | exit p r status => exact keeps_exit initproc status
  | fork p r mem => exact keeps_forkFrom mem _
  | forkret p => exact keeps_forkret
  | consoleintr i c =>
    refine (keeps_onCons (keeps_consoleintr c)).next fun _ => ?_
    rfl
  | clockintr i =>
    refine keeps_clockintr.next fun _ => ?_
    rfl
  | kill p r pid =>
    refine (careful_kill pid rfl rfl).next fun _ => ?_
    rfl

section Runs

variable {initproc : Fin n} {live : Fin n → Bool} {pid : Fin n → ℕ} {w : World n}
  {s : Sys (Thread n) (Act n Key (Chan n) (World n)) Loc (Kernel n Key (Chan n) (World n))}

theorem holds_boot {strict : Prop}
    {cond : Thread n → {β : Type} → Act n Key (Chan n) (World n) β →
      Kernel n Key (Chan n) (World n) → Prop} :
    Holds (callers initproc) cond (outline strict Waits fun _ m => m = idle) (boot live pid w)
      fun _ => idle := by
  have hfacts : Facts strict Waits (boot live pid w).g.plock (boot live pid w).g.proc
      fun _ : Thread n => idle :=
    ⟨(fun _ _ hp => by cases hp), (fun _ _ hk => by cases hk), (fun _ _ hq => by cases hq),
      (fun _ _ hq => by cases hq), fun _ => trivial⟩
  refine ⟨hfacts, fun t => ?_⟩
  cases t with
  | intr i => rfl
  | proc p =>
    change Valid _ _ _ _ (if live p then .ret (Loc.user 0) else .ret Loc.dead) _ _
    split_ifs
    · rfl
    · rfl

theorem sleeper_locked (strict : Prop)
    {cond : Thread n → {β : Type} → Act n Key (Chan n) (World n) β →
      Kernel n Key (Chan n) (World n) → Prop}
    (hcond : ∀ t β (a : ProcAct n Key (Chan n) β) g, cond t (.proc a) g → Quiet strict g a)
    (h : Reach (callers initproc) cond (boot live pid w) s)
    (hs : (s.g.proc p).state = .sleeping) (hk : (s.g.proc p).killed = true)
    (hw : strict ∨ ∃ χ, (s.g.proc p).chan = some χ ∧ Waits χ) : s.g.plock p ≠ none := by
  obtain ⟨Λ, hI, -⟩ := Holds.reach
    (fun t l c m hc (hm : m = idle) => by
      subst hm
      exact valid_of_careful hcond (keeps_call hc))
    (fun _ _ _ _ hno => absurd hno not_false) holds_boot h
  obtain ⟨t, ht⟩ := Facts.woken hI p hs hk hw
  rw [Facts.held hI t p (Facts.killing hI t p ht)]
  exact fun hnone => by cases hnone

/-- If no flag is set between a test and the sleep after it, no process that is killed sleeps
    in one of the calls; in `wait` none does in any run. -/
theorem kill_not_slept_through (initproc : Fin n) (live : Fin n → Bool) (pid : Fin n → ℕ)
    (w : World n)
    {s : Sys (Thread n) (Act n Key (Chan n) (World n)) Loc (Kernel n Key (Chan n) (World n))} :
    (Reach (callers initproc) Unseen (boot live pid w) s → ∀ p, (s.g.proc p).killed = true →
      s.g.plock p = none → (s.g.proc p).state ≠ .sleeping) ∧
    (Reach (callers initproc) always (boot live pid w) s → ∀ p, (s.g.proc p).killed = true →
      s.g.plock p = none → (s.g.proc p).state = .sleeping →
        ∀ q, (s.g.proc p).chan ≠ some (.proc q)) := by
  refine ⟨fun h p hk hfree hs => ?_, fun h p hk hfree hs q hχ => ?_⟩
  · refine sleeper_locked True (fun t β a g ha => ?_) h hs hk (.inl trivial) hfree
    cases a with
    | setKilled q => exact fun _ => ha
    | _ => trivial
  · refine sleeper_locked False (fun t β a g ha => ?_) h hs hk (.inr ⟨_, hχ, trivial⟩) hfree
    cases a with
    | setKilled q => exact fun hno => hno.elim
    | _ => trivial

end Runs

def world (n : ℕ) : World n where
  pipe := fun _ => ⟨⟨fun _ => 0, 0, 0, true, true⟩, fun _ _ => 1, false⟩
  cons := ⟨⟨fun _ => 0, 0, 0, 0⟩, 0, 0, 0, fun _ => 0, []⟩
  ticks := 0
  nextpid := 3
  parent := fun _ => none
  xstate := fun _ => 0

def unseenTest : Thread n → {β : Type} → Act n Key (Chan n) (World n) β →
    Kernel n Key (Chan n) (World n) → Bool
  | _, _, .proc (.setKilled q), g => !(g.proc q).passed
  | _, _, _, _ => true

theorem unseen_of_test (t : Thread n) (β : Type) (a : Act n Key (Chan n) (World n) β)
    (g : Kernel n Key (Chan n) (World n)) (h : unseenTest t a g = true) : Unseen t a g := by
  unfold Unseen
  split
  · exact Bool.not_eq_true' _ ▸ h
  · trivial

theorem kill_not_slept_through_reader :
    ∃ s, Reach (callers 0) Unseen (boot (fun _ => true) (fun p => p.val + 1) (world 2)) s ∧
      (s.g.proc 1).killed = true ∧ s.g.plock 1 = none ∧ (s.g.proc 1).state ≠ .sleeping := by
  obtain ⟨s, hs, htest⟩ := exists_of_play (S := callers 0) unseen_of_test
    [.start (.proc 1) (.user 0) _ (Calls.pipe 0 (.read 1 0 1 1)), .acts (.proc 1) 9,
      .start (.proc 0) (.user 0) _ (Calls.kill 0 0 2), .acts (.proc 0) 8]
    (boot (fun _ => true) (fun p => p.val + 1) (world 2))
    (fun s => decide ((s.g.proc 1).killed = true ∧ s.g.plock 1 = none)) (by decide +kernel)
  have hfacts := of_decide_eq_true htest
  exact ⟨s, hs, hfacts.1, hfacts.2,
    (kill_not_slept_through 0 _ _ (world 2)).1 hs 1 hfacts.1 hfacts.2⟩

def SleepsKilled (p : Fin n) (χ : Chan n) (g : Kernel n Key (Chan n) (World n)) : Prop :=
  (g.proc p).killed = true ∧ g.plock p = none ∧ (g.proc p).state = .sleeping ∧
    (g.proc p).chan = some χ

instance (p : Fin n) (χ : Chan n) (g : Kernel n Key (Chan n) (World n)) :
    Decidable (SleepsKilled p χ g) := inferInstanceAs (Decidable (_ ∧ _ ∧ _ ∧ _))

/-- Some run of two processes leads to `p` asleep on the channel and killed. -/
def Overslept (initproc p : Fin 2) (χ : Chan 2) : Prop :=
  ∃ s, Reach (callers initproc) always (boot (fun _ => true) (fun p => p.val + 1) (world 2)) s ∧
    SleepsKilled p χ s.g

theorem overslept_of_play {χ : Chan 2} {c : KillProg 2 Loc} (k : ℕ)
    (hc : Calls 0 (.proc 1) (.user 0) c)
    (hplay : (play (callers 0) freely
      [.start (.proc 1) (.user 0) c hc, .acts (.proc 1) k,
        .start (.proc 0) (.user 0) _ (Calls.kill 0 0 2), .acts (.proc 0) 8, .acts (.proc 1) 5]
      (boot (fun _ => true) (fun p => p.val + 1) (world 2))).any
        (fun s => decide (SleepsKilled 1 χ s.g)) = true) : Overslept 0 1 χ := by
  obtain ⟨s, hs, htest⟩ := exists_of_freely _ _ _ hplay
  exact ⟨s, hs, of_decide_eq_true htest⟩

/-- Process 1 finds itself not killed in `piperead`, `consoleread` or `sys_sleep`, and process 0
    kills it before it sleeps. -/
theorem killed_before_sleep :
    Overslept 0 1 (.pipe 0 .nread) ∧ Overslept 0 1 .cons ∧ Overslept 0 1 .ticks := by
  refine ⟨?_, ?_, ?_⟩
  · exact overslept_of_play 4 (Calls.pipe 0 (.read 1 0 1 1)) (by decide +kernel)
  · exact overslept_of_play 4 (Calls.read 1 0 1 1) (by decide +kernel)
  · exact overslept_of_play 4 (Calls.sleep 1 0 1) (by decide +kernel)

end Xv6.KillSafety
