import Xv6.ProcActions

set_option autoImplicit false

namespace Xv6.ProcInvariant
open Resumption ProcCode
open LogCode (Proc NPROC)

variable {n : ℕ} {lockOf : ℕ → ℕ} {o : Opts} {t : Thread n} {p q : Proc} {ℓ : Ghost} {j : Job}
  {r : Option ℤ} {H : Finset Lock}
variable {l : Lock} {v : Proc} {χ : ℕ}

/-- A process on its hart that is neither about to leave it nor waking others. -/
abbrev busy (held : Finset Lock) (job : Job) (pending : Option ℤ) : Ghost :=
  ⟨held, .run, false, job, none, pending⟩

theorem ok_acquire_first (hphase : ℓ.phase = .run ∨ ℓ.phase = .free) (hheld : ℓ.held = ∅)
    (hjob : ∀ v a G k, l = .proc v → ℓ.job ≠ .leaving (some v) a G k) :
    Ok lockOf o t (act (.acquire l)) ℓ fun _ ℓ' => ℓ' = { ℓ with held := {l} } := by
  apply (ok_acquire hphase (takes_first _ _ _)).mono
  · intro _ ℓ' h
    rw [h, hheld, insert_empty_eq]
  · rw [hheld]
    exact Finset.notMem_empty l
  · intro x
    rw [hheld]
    exact Finset.notMem_empty _
  · intro v a G k x hl hj
    refine .inl fun hxv => ?_
    rw [hxv] at hl
    exact hjob v a G k hl hj

theorem ok_release_last (hphase : ℓ.phase = .run ∨ ℓ.phase = .free) (hheld : ℓ.held = {l})
    (hjob : ∀ p, t = .proc p → ℓ.job.Locked lockOf p ∅) (hwaking : ℓ.waking = none) :
    Ok lockOf o t (act (.release l)) ℓ fun _ ℓ' => ℓ' = { ℓ with held := ∅ } := by
  have herase : ℓ.held.erase l = ∅ := by
    rw [hheld]
    exact Finset.erase_singleton l
  apply (ok_release _ _ _).mono
  · intro _ ℓ' h
    rw [h, herase]
  · rw [hheld]
    exact Finset.mem_singleton_self l
  · apply wf_erase hphase
    · rw [herase]
      exact hjob
    · rw [hwaking]
      exact nofun
  · intro i v a G k hl _
    rw [hheld, hl]
    exact fun h => Lock.noConfusion (Finset.mem_singleton.1 h)

theorem ok_release_run (hl : l ∈ H) (hj : j.Locked lockOf p (H.erase l))
    (hpids : ∀ i v a G k, l = .other i → j = .leaving (some v) a G k → .proc v ∉ H) :
    Ok lockOf o (.proc p : Thread n) (act (.release l)) (busy H j r) fun _ ℓ' =>
      ℓ' = busy (H.erase l) j r := by
  apply ok_release hl _ hpids
  apply wf_erase (.inl rfl)
  · intro p' h
    cases h
    exact hj
  · exact nofun

theorem ok_acquire_idle (l : Lock) :
    Ok lockOf o (.proc p : Thread n) (act (.acquire l)) (busy ∅ .idle r) fun _ ℓ' =>
      ℓ' = busy {l} .idle r := by
  apply ok_acquire_first (.inl rfl) rfl
  exact nofun

theorem ok_release_idle (l : Lock) :
    Ok lockOf o (.proc p : Thread n) (act (.release l)) (busy {l} .idle r) fun _ ℓ' =>
      ℓ' = busy ∅ .idle r := by
  apply ok_release_last (.inl rfl) rfl _ rfl
  exact fun _ _ => trivial

theorem ok_allocpid :
    Ok lockOf o (.proc p : Thread n) allocpid (busy {.proc q} (.making q .found) r) fun k ℓ' =>
      ℓ' = busy {.proc q} (.making q (.reserved k)) r := by
  have hpid : Lock.pid ∉ ({.proc q} : Finset Lock) := fun h =>
    Lock.noConfusion (Finset.mem_singleton.1 h)
  apply (ok_acquire (.inl rfl) _).seq
  · rintro _ _ rfl
    refine (ok_takePid rfl).next fun k => ?_
    refine (ok_release_run (Finset.mem_insert_self _ _) ?_ ?_).seq ?_
    · rw [Finset.erase_insert hpid]
      exact Finset.mem_singleton_self _
    · exact nofun
    · rintro _ _ rfl
      change busy _ _ _ = _
      rw [Finset.erase_insert hpid]
  · intro g Λ _ _ _
    exact ⟨hpid, nofun⟩

/-- What `allocproc` leaves: a slot with its lock, or no slot and no lock. -/
def Allocated (r : Option ℤ) : Option Proc → Ghost → Prop
  | none, ℓ => ℓ = busy ∅ .idle r
  | some q, ℓ => ∃ k, ℓ = busy {.proc q} (.making q (.ready k)) r

theorem ok_found (trapframe pagetable : Bool) :
    Ok lockOf o (.proc p : Thread n) (found trapframe pagetable q)
      (busy {.proc q} (.making q .found) r) (Allocated r) := by
  refine ok_allocpid.next fun k => ?_
  refine (ok_setPid rfl).next fun _ => ?_
  refine (ok_setTrapframe trapframe rfl).next fun _ => ?_
  cases trapframe with
  | false =>
    refine (ok_release_idle _).next fun _ => ?_
    rfl
  | true =>
    refine (ok_setField rfl (.inl ⟨pagetable, rfl⟩)).next fun _ => ?_
    cases pagetable with
    | false =>
      refine (ok_freeproc rfl).next fun _ => ?_
      refine (ok_release_idle _).next fun _ => ?_
      rfl
    | true =>
      refine (ok_setContext rfl).next fun _ => ?_
      exact ⟨k, rfl⟩

theorem ok_allocFrom (trapframe pagetable : Bool) (ps : List Proc) :
    Ok lockOf o (.proc p : Thread n) (allocFrom trapframe pagetable ps) (busy ∅ .idle r)
      (Allocated r) := by
  induction ps with
  | nil => rfl
  | cons q ps ih =>
    refine (ok_acquire_idle _).next fun _ => ?_
    refine (ok_get_unused rfl (Finset.mem_singleton_self _) rfl).next fun e => ?_
    split_ifs with hun
    · exact ok_found trapframe pagetable
    · refine (ok_release_idle _).next fun _ => ?_
      exact ih

theorem ok_fork (mem : Memory) :
    Ok lockOf o (.proc p : Thread n) (fork p mem) (busy ∅ .idle r) fun _ ℓ' =>
      ℓ' = busy ∅ .idle r := by
  apply (ok_allocFrom mem.trapframe mem.pagetable table).seq
  intro b ℓ hb
  cases b with
  | none => exact hb
  | some np =>
    obtain ⟨k, rfl⟩ := hb
    dsimp only
    split_ifs with hcopy
    · refine (ok_freeproc rfl).next fun _ => ?_
      refine (ok_release_idle _).next fun _ => ?_
      rfl
    · refine (ok_get p).next fun e => ?_
      refine (ok_setField rfl (.inr ⟨e.sz, rfl⟩)).next fun _ => ?_
      refine (ok_setParent_fork rfl).next fun _ => ?_
      apply (ok_get np).seq
      rintro e' _ rfl
      refine (ok_start rfl).next fun _ => ?_
      refine (ok_release_idle _).next fun _ => ?_
      rfl

theorem takes_child {G : Finset Proc} :
    Takes lockOf o (.proc p : Thread n)
      (busy {.proc p, .proc v} (.leaving (some v) false G (some q)) r) (.proc q) := by
  intro g Λ hl hI hart
  have hjob : field Ghost.job Λ p = .leaving (some v) false G (some q) := congrArg Ghost.job hl
  obtain ⟨⟨-, -, -, horig, hkid⟩, -, hpids, -⟩ := hI.at_job hjob
  have hpar : par g q = some p := hkid q rfl
  have hqp : q ≠ p := by
    intro h
    rw [h] at hpar
    exact hI.tree.irrefl p hpar
  have hqv : q ≠ v := by
    intro h
    rw [h] at hpar
    exact (horig v rfl).2.1 hpar
  constructor
  · intro hmem
    rcases Finset.mem_insert.1 hmem with h | h
    · exact hqp (Lock.proc.inj h)
    · exact hqv (Lock.proc.inj (Finset.mem_singleton.1 h))
  · intro x hx
    cases hx
    refine ⟨fun ho y hy => ?_, fun v' a G' k hj => ?_⟩
    · have hused : st g q ≠ .unused := hI.child_used hpar (by rw [hjob]; exact nofun)
      have hlt : pid g p < pid g q := hI.pids.order q p hused hpar
      rcases Finset.mem_insert.1 hy with h | h
      · cases h
        exact hlt
      cases Finset.mem_singleton.1 h
      rw [hl] at hpids
      refine Nat.lt_trans (hpids ho (Finset.mem_insert_of_mem h) fun i hi => ?_) hlt
      rcases Finset.mem_insert.1 hi with h | h
      · cases h
      · cases Finset.mem_singleton.1 h
    · cases hj
      exact .inl hqv

theorem ok_reparentFrom (ps : List Proc) (G : Finset Proc) :
    Ok lockOf o (.proc p : Thread n) (reparentFrom p ps)
      (busy {.proc p, .proc v} (.leaving (some v) false G none) r) fun _ ℓ' =>
        ℓ' = busy {.proc p, .proc v} (.leaving (some v) false (G ∪ ps.toFinset) none) r := by
  induction ps generalizing G with
  | nil =>
    change busy _ _ _ = _
    rw [List.toFinset_nil, Finset.union_empty]
  | cons q ps ih =>
    have hnext (ℓ' : Ghost) (h : ℓ' = busy {.proc p, .proc v}
        (.leaving (some v) false (insert q G) none) r) :
        Ok lockOf o (.proc p : Thread n) (reparentFrom p ps) ℓ' fun _ ℓ2 => ℓ2 =
          busy {.proc p, .proc v} (.leaving (some v) false (G ∪ (q :: ps).toFinset) none) r := by
      rw [h, List.toFinset_cons, Finset.union_insert, ← Finset.insert_union]
      exact ih (insert q G)
    refine (ok_parentOf_exit rfl (Finset.mem_insert_self _ _) rfl).next fun b => ?_
    split_ifs with hb
    · have hnot : Takes lockOf o (.proc p : Thread n)
          (busy {.proc p, .proc v} (.leaving (some v) false G (some q)) r) (.proc q) := takes_child
      apply ok_known (.proc q ∉ ({.proc p, .proc v} : Finset Lock))
      · exact fun g Λ hl hI hart => (hnot g Λ hl hI hart).1
      intro hq
      refine (ok_acquire (.inl rfl) hnot).next fun _ => ?_
      refine (ok_setParent_exit rfl).next fun _ => ?_
      refine (ok_release_run (Finset.mem_insert_self _ _) ?_ ?_).seq ?_
      · rw [Finset.erase_insert hq]
        exact ⟨(fun he => by cases he), .inr (Finset.mem_insert_self _ _)⟩
      · exact fun _ _ _ _ _ he => by cases he
      · rintro _ _ rfl
        apply hnext
        rw [Finset.erase_insert hq]
    · exact hnext _ rfl

theorem table_toFinset : table.toFinset = Finset.univ := by
  unfold table
  exact List.toFinset_finRange NPROC

theorem ok_exitWith (status : ℤ) :
    Ok lockOf o (.proc p : Thread n) (exitWith p v status)
      (busy ∅ (.leaving (some v) false ∅ none) none) (Rest lockOf (.proc p : Thread n)) := by
  have hknown : ∀ (g : State n) Λ, Λ (.proc p) =
      busy {.proc v} (.leaving (some v) false ∅ none) none → Inv lockOf o g Λ →
      g.hart (.proc p) ≠ none → p ≠ v := by
    intro g Λ hl hI _ hpv
    obtain ⟨htree, -⟩ := hI.at_job (congrArg Ghost.job hl)
    exact (htree.2.2.2.1 v rfl).2.2 hpv.symm
  refine (ok_acquireParent rfl rfl rfl).next fun _ => ?_
  apply ok_known (p ≠ v) hknown
  intro hpv
  have hnot : Lock.proc p ∉ ({.proc v} : Finset Lock) := fun h =>
    hpv (Lock.proc.inj (Finset.mem_singleton.1 h))
  refine (ok_acquire (.inl rfl) ?_).seq ?_
  · intro g Λ hl hI hart
    refine ⟨hnot, fun q hq => ?_⟩
    cases hq
    refine ⟨fun ho x hx => ?_, fun v' a G k hj => ?_⟩
    · cases Finset.mem_singleton.1 hx
      obtain ⟨-, -, hpids, -⟩ := hI.at_job (congrArg Ghost.job hl)
      rw [hl] at hpids
      exact hpids ho (Finset.mem_singleton_self _) fun i hi =>
        Lock.noConfusion (Finset.mem_singleton.1 hi)
    · cases hj
      exact .inl hpv
  rintro _ _ rfl
  refine (ok_reparentFrom table ∅).next fun _ => ?_
  rw [table_toFinset, Finset.empty_union]
  refine (ok_wakeup1_parent rfl (Finset.mem_insert_of_mem (Finset.mem_singleton_self _)) rfl).next fun _ => ?_
  refine (ok_exited rfl (Finset.mem_insert_self _ _) rfl).next fun _ => ?_
  have herase : ({.proc p, .proc v} : Finset Lock).erase (.proc v) = {.proc p} := by
    rw [Finset.erase_insert_of_ne fun h => hpv (Lock.proc.inj h), Finset.erase_singleton,
      insert_empty_eq]
  refine (ok_release (Finset.mem_insert_of_mem (Finset.mem_singleton_self _)) ?_ ?_).seq ?_
  · intro _
    rw [herase]
    exact ⟨⟨Finset.mem_singleton_self _, nofun⟩, trivial, nofun, nofun, nofun⟩
  · exact nofun
  rintro _ _ rfl
  refine (ok_sched (s := .zombie) rfl ?_ ?_ ?_).seq ?_
  · exact herase
  · trivial
  · exact fun _ => rfl
  rintro _ _ rfl
  change _ = idleGhost .off {.proc p} true
  rw [herase]
  rfl

theorem ok_exit (status : ℤ) :
    Ok lockOf o (.proc p : Thread n) (exit p status) (busy ∅ .idle none)
      (Rest lockOf (.proc p : Thread n)) := by
  unfold exit
  split_ifs with hp
  · apply (ok_panic (Q := fun _ _ => False)).seq
    exact fun _ _ h => h.elim
  · refine (ok_exiting rfl hp rfl).next fun _ => ?_
    refine (ok_acquire_first (.inl rfl) rfl ?_).seq ?_
    · exact nofun
    rintro _ _ rfl
    refine (ok_wakeup1_init (Finset.mem_singleton_self _) ?_).seq ?_
    · exact nofun
    rintro _ _ rfl
    refine (ok_release_last (.inl rfl) rfl ?_ rfl).seq ?_
    · exact fun _ _ => ⟨nofun, .inl ⟨rfl, rfl⟩⟩
    rintro _ _ rfl
    refine (ok_acquire_first (.inl rfl) rfl ?_).seq ?_
    · exact nofun
    rintro _ _ rfl
    apply (ok_get_parent rfl rfl).seq
    rintro e _ ⟨v, hv, rfl⟩
    refine (ok_release_last (.inl rfl) rfl ?_ rfl).seq ?_
    · exact fun _ _ => ⟨nofun, .inl ⟨rfl, rfl⟩⟩
    rintro _ _ rfl
    rw [hv]
    exact ok_exitWith status

def Returns (v : ℤ) (ℓ : Ghost) : Prop := ∃ d, ℓ = busy ∅ .idle d ∧ v = d.getD (-1)

theorem takes_kid {S : Finset Proc} :
    Takes lockOf o (.proc p : Thread n) (busy {.proc p} (.waiting S (some q) none) r)
      (.proc q) := by
  intro g Λ hl hI hart
  have hjob : field Ghost.job Λ p = .waiting S (some q) none := congrArg Ghost.job hl
  obtain ⟨htree, -⟩ := hI.at_job hjob
  have hpar : par g q = some p := (htree.2 q rfl).1
  constructor
  · intro hmem
    cases Finset.mem_singleton.1 hmem
    exact hI.tree.irrefl _ hpar
  · intro x hx
    cases hx
    refine ⟨fun _ y hy => ?_, nofun⟩
    cases Finset.mem_singleton.1 hy
    exact hI.pids.order q p (hI.child_used hpar (by rw [hjob]; exact nofun)) hpar

theorem ok_attend {a : Act Unit}
    (h : Ok lockOf o (.proc p : Thread n) (act a) ℓ fun _ ℓ' =>
      ℓ' = busy {.proc p} .idle none) :
    Ok lockOf o (.proc p : Thread n) (act a) ℓ fun _ ℓ' =>
      ℓ' = busy {.proc p} (.waiting ∅ none none) none := by
  apply ok_upgrade h
  intro g Λ _ hI hl
  refine ⟨busy {.proc p} (.waiting ∅ none none) none, hI.attend ?_ ?_ ?_ ?_, rfl⟩
  · rw [hl]
  · rw [hl]
  · rw [hl]
  · rw [hl]
    exact Finset.mem_singleton_self _

def Tried (p np : Proc) (S : Finset Proc) : Option ℤ → Ghost → Prop
  | none, ℓ => ℓ = busy {.proc p} (.waiting (insert np S) none none) none
  | some v, ℓ => Returns v ℓ

theorem ok_tryReap {np : Proc} {S : Finset Proc} (addr : ℕ) (copyout : Bool) :
    Ok lockOf o (.proc p : Thread n) (tryReap p np addr copyout)
      (busy {.proc p} (.waiting S (some np) none) none) (Tried p np S) := by
  have htake : Takes lockOf o (.proc p : Thread n)
      (busy {.proc p} (.waiting S (some np) none) none) (.proc np) := takes_kid
  apply ok_known (.proc np ∉ ({.proc p} : Finset Lock))
  · exact fun g Λ hl hI hart => (htake g Λ hl hI hart).1
  intro hnot
  have herase : (insert (.proc np) {.proc p} : Finset Lock).erase (.proc np) = {.proc p} :=
    Finset.erase_insert hnot
  -- Giving back both locks, with nothing left to do.
  have hend (d : Option ℤ) (v : ℤ) (hv : v = d.getD (-1)) :
      Ok lockOf o (.proc p : Thread n) (do release np; release p; return some v)
        (busy (insert (.proc np) {.proc p}) .idle d) (Tried p np S) := by
    refine (ok_release_run (Finset.mem_insert_self _ _) ?_ ?_).seq ?_
    · trivial
    · exact fun _ _ _ _ _ he => by cases he
    rintro _ _ rfl
    rw [herase]
    refine (ok_release_idle _).next fun _ => ?_
    exact ⟨d, rfl, hv⟩
  refine (ok_acquire (.inl rfl) htake).next fun _ => ?_
  refine (ok_get_corpse rfl (Finset.mem_insert_self _ _) rfl).next fun e => ?_
  dsimp only
  split_ifs with hz hcopy
  · refine (ok_copyFailed rfl rfl).next fun _ => ?_
    exact hend (some (-1)) (-1) rfl
  · refine (ok_reap rfl).next fun _ => ?_
    exact hend (some e.pid) e.pid rfl
  · refine (ok_release_run (Finset.mem_insert_self _ _) ?_ ?_).seq ?_
    · rw [herase]
      exact ⟨Finset.mem_singleton_self _, fun he => absurd rfl he⟩
    · exact fun _ _ _ _ _ he => by cases he
    rintro _ _ rfl
    rw [herase]
    rfl

/-- The scan of `wait` ends the call, or it has looked at the slots in `S`. -/
def Scanned (p : Proc) (S : Finset Proc) : Scan → Ghost → Prop
  | .result v, ℓ => Returns v ℓ
  | .scanned _, ℓ => ℓ = busy {.proc p} (.waiting S none none) none

theorem ok_scanFrom (addr : ℕ) (copyout : Bool) (ps : List Proc) (S : Finset Proc)
    (havekids : Bool) :
    Ok lockOf o (.proc p : Thread n) (scanFrom p addr copyout ps havekids)
      (busy {.proc p} (.waiting S none none) none) (Scanned p (S ∪ ps.toFinset)) := by
  induction ps generalizing S havekids with
  | nil =>
    change busy _ _ _ = _
    rw [List.toFinset_nil, Finset.union_empty]
  | cons np ps ih =>
    rw [List.toFinset_cons, Finset.union_insert, ← Finset.insert_union]
    refine (ok_parentOf_wait rfl rfl).next fun b => ?_
    split_ifs with hb
    · apply (ok_tryReap addr copyout).seq
      intro v ℓ hv
      cases v with
      | none =>
        rw [show ℓ = _ from hv]
        exact ih (insert np S) true
      | some v => exact hv
    · exact ih (insert np S) havekids

def Round (p : Proc) : Option ℤ → Ghost → Prop
  | none, ℓ => ℓ = busy {.proc p} (.waiting ∅ none none) none
  | some v, ℓ => Returns v ℓ

theorem ok_waitRound (addr : ℕ) (copyout : Bool) :
    Ok lockOf o (.proc p : Thread n) (waitRound p addr copyout)
      (busy {.proc p} (.waiting ∅ none none) none) (Round p) := by
  apply (ok_scanFrom addr copyout table ∅ false).seq
  intro v ℓ hv
  cases v with
  | result v => exact hv
  | scanned havekids =>
    rw [show ℓ = _ from hv, table_toFinset, Finset.empty_union]
    refine (ok_get p).next fun e => ?_
    split_ifs with hover
    · apply ok_recast (busy {.proc p} .idle none)
      · rfl
      · intro g Λ hl hI _
        apply hI.drop
        · rw [hl]
        · rw [hl]
        · rw [hl]
          exact fun _ _ he => by cases he
      refine (ok_release_idle _).next fun _ => ?_
      exact ⟨none, rfl, rfl⟩
    · refine (ok_sleep_wait rfl (Finset.mem_singleton_self _) rfl).next fun _ => ?_
      refine (ok_sched (s := .sleeping) rfl rfl ?_ (fun he => by cases he)).seq ?_
      · trivial
      rintro _ _ rfl
      apply ok_resume rfl
      refine (ok_attend (ok_clearChan rfl)).next fun _ => ?_
      rfl

theorem ok_killFrom (pid : ℤ) (ps : List Proc) :
    Ok lockOf o (.proc p : Thread n) (killFrom pid ps) (busy ∅ .idle none) Returns := by
  induction ps with
  | nil => exact ⟨none, rfl, rfl⟩
  | cons q ps ih =>
    refine (ok_acquire_idle _).next fun _ => ?_
    refine (ok_kill rfl (Finset.mem_singleton_self _) ?_).seq ?_
    · exact nofun
    rintro b _ rfl
    split_ifs with hb
    · refine (ok_release_idle _).next fun _ => ?_
      exact ⟨some 0, rfl, rfl⟩
    · refine (ok_release_idle _).next fun _ => ?_
      exact ih

theorem ok_yield (hrun : ℓ.phase = .run) (hheld : ℓ.held = ∅) (hdead : ℓ.dead = false)
    (hcalm : ℓ.job.Calm) (hlocked : ℓ.job.Locked lockOf p ∅) (hwaking : ℓ.waking = none) :
    Ok lockOf o (.proc p : Thread n) (yield p) ℓ fun _ ℓ' => ℓ' = ℓ := by
  refine (ok_acquire (.inl hrun) ?_).seq ?_
  · intro g Λ hl hI _
    rw [hheld]
    refine ⟨Finset.notMem_empty _, fun q hq => ⟨fun _ x hx => ?_, fun v a G k hj => .inl ?_⟩⟩
    · exact absurd hx (Finset.notMem_empty _)
    · cases hq
      obtain ⟨htree, -⟩ := hI.at_job ((congrArg Ghost.job hl).trans hj)
      exact fun hpv => (htree.2.2.2.1 v rfl).2.2 hpv.symm
  rintro _ _ rfl
  rw [hheld, insert_empty_eq]
  refine (ok_yielding ?_ ?_).seq ?_
  · exact hrun
  · exact Finset.mem_singleton_self _
  rintro _ _ rfl
  refine (ok_sched (s := .runnable) rfl rfl ?_ nofun).seq ?_
  · exact hcalm
  rintro _ _ rfl
  apply ok_resume rfl
  refine (ok_release_last (.inl rfl) rfl ?_ ?_).mono ?_
  · intro p' h
    cases h
    exact hlocked
  · exact hwaking
  · rintro _ _ rfl
    rw [← hheld, ← hrun, ← hdead]

theorem ok_sleepOn (χ : ℕ) :
    Ok lockOf o (.proc p : Thread n) (sleep p χ (.other (lockOf χ)))
      (busy {.other (lockOf χ)} (.drowsy χ) none) fun _ ℓ' =>
        ℓ' = busy {.other (lockOf χ)} .idle none := by
  have hnot : Lock.proc p ∉ ({.other (lockOf χ)} : Finset Lock) := fun h =>
    Lock.noConfusion (Finset.mem_singleton.1 h)
  have hne : Lock.proc p ≠ .other (lockOf χ) := nofun
  have herase : (insert (.proc p) {.other (lockOf χ)} : Finset Lock).erase (.other (lockOf χ)) =
      {.proc p} := by
    rw [Finset.erase_insert_of_ne hne, Finset.erase_singleton, insert_empty_eq]
  refine (ok_acquire (.inl rfl) (takes_first hnot ?_ ?_)).seq ?_
  · exact fun x h => Lock.noConfusion (Finset.mem_singleton.1 h)
  · exact nofun
  rintro _ _ rfl
  refine (ok_release_run (Finset.mem_insert_of_mem (Finset.mem_singleton_self _)) ?_ ?_).seq ?_
  · rw [herase]
    exact .inr (Finset.mem_singleton_self _)
  · exact nofun
  rintro _ _ rfl
  rw [herase]
  refine (ok_sleep_cond rfl (Finset.mem_singleton_self _) rfl).next fun _ => ?_
  refine (ok_sched (s := .sleeping) rfl rfl ?_ (fun he => by cases he)).seq ?_
  · trivial
  rintro _ _ rfl
  apply ok_resume rfl
  refine (ok_clearChan rfl).next fun _ => ?_
  refine (ok_release_idle _).next fun _ => ?_
  exact ok_acquire_idle _

structure Ready (lockOf : ℕ → ℕ) (t : Thread n) (ℓ : Ghost) : Prop where
  phase : ℓ.phase = .run ∨ ℓ.phase = .free
  held : ℓ.held = ∅
  job : ∀ p, t = .proc p → ℓ.job.Locked lockOf p ∅
  waking : ℓ.waking = none

theorem ok_wakeupFrom (hℓ : Ready lockOf t ℓ) (ps : List Proc) (P : Finset Proc) :
    Ok lockOf o t (wakeupFrom χ ps)
      { ℓ with held := {.other (lockOf χ)}, waking := some (χ, P) } fun _ ℓ' =>
        ℓ' = { ℓ with held := {.other (lockOf χ)}, waking := some (χ, P ∪ ps.toFinset) } := by
  induction ps generalizing P with
  | nil =>
    change Ghost.mk _ _ _ _ _ _ = _
    rw [List.toFinset_nil, Finset.union_empty]
  | cons q ps ih =>
    have hnot : Lock.proc q ∉ ({.other (lockOf χ)} : Finset Lock) := fun h =>
      Lock.noConfusion (Finset.mem_singleton.1 h)
    have herase : (insert (.proc q) {.other (lockOf χ)} : Finset Lock).erase (.proc q) =
        {.other (lockOf χ)} := Finset.erase_insert hnot
    rw [List.toFinset_cons, Finset.union_insert, ← Finset.insert_union]
    refine (ok_acquire ?_ (takes_first hnot ?_ ?_)).seq ?_
    · exact hℓ.phase
    · exact fun x h => Lock.noConfusion (Finset.mem_singleton.1 h)
    · exact fun _ _ _ _ _ _ _ => .inr ⟨_, Finset.mem_singleton_self _⟩
    rintro _ _ rfl
    refine (ok_wake (Finset.mem_insert_self _ _) ?_ ?_ rfl).seq ?_
    · intro s h
      rcases hℓ.phase with hp | hp <;> exact Phase.noConfusion (hp.symm.trans h)
    · intro x χ' hx hj
      have hlocked := hℓ.job x hx
      rw [show ℓ.job = _ from hj] at hlocked
      exact hlocked.elim (Finset.notMem_empty _) (Finset.notMem_empty _)
    rintro _ _ rfl
    refine (ok_release (Finset.mem_insert_self _ _) ?_ ?_).seq ?_
    · apply wf_erase
      · exact hℓ.phase
      · intro p hp
        exact (hℓ.job p hp).mono (Finset.empty_subset _)
      · intro χ' P' h
        exact nofun
    · exact nofun
    rintro _ _ rfl
    rw [herase]
    exact ih (insert q P)

theorem ok_makeTrue (hℓ : Ready lockOf t ℓ) :
    Ok lockOf o t (makeTrue lockOf χ) ℓ fun _ ℓ' => ℓ' = ℓ := by
  refine (ok_acquire_first hℓ.phase hℓ.held ?_).seq ?_
  · exact nofun
  rintro _ _ rfl
  refine (ok_setTrue ?_ ?_).seq ?_
  · exact Finset.mem_singleton_self _
  · exact hℓ.waking
  rintro _ _ rfl
  refine (ok_wakeupFrom hℓ table ∅).next fun _ => ?_
  rw [table_toFinset, Finset.empty_union]
  apply ok_awake rfl
  refine (ok_release_last ?_ rfl ?_ rfl).mono ?_
  · exact hℓ.phase
  · exact hℓ.job
  rintro _ _ rfl
  rw [← hℓ.held, ← hℓ.waking]

theorem ok_makeFalse :
    Ok lockOf o (.proc p : Thread n) (makeFalse lockOf χ) (busy ∅ .idle none) fun _ ℓ' =>
      ℓ' = busy ∅ .idle none := by
  refine (ok_acquire_idle _).next fun _ => ?_
  refine ok_setFalse.next fun _ => ?_
  exact ok_release_idle _

theorem ok_schedulerFrom {c : Fin n} (ps : List Proc) :
    Ok lockOf o (.cpu c) (schedulerFrom ps) (idleGhost .free ∅ false) fun _ ℓ' =>
      ℓ' = idleGhost .free ∅ false := by
  induction ps with
  | nil => rfl
  | cons q ps ih =>
    -- The lock is given back with or without a process in between.
    have hend : Ok lockOf o (.cpu c) (do release q; schedulerFrom ps)
        (idleGhost .free {.proc q} false) fun _ ℓ' => ℓ' = idleGhost .free ∅ false := by
      refine (ok_release_last (.inr rfl) rfl ?_ rfl).seq ?_
      · exact nofun
      rintro _ _ rfl
      exact ih
    refine (ok_acquire_first (.inr rfl) rfl ?_).seq ?_
    · exact nofun
    rintro _ _ rfl
    refine (ok_pick rfl rfl).next fun b => ?_
    split_ifs with hb
    · refine (ok_assign rfl).next fun _ => ?_
      refine (ok_swtch rfl).next fun _ => ?_
      refine (ok_unassign rfl).next fun _ => ?_
      exact hend
    · exact hend

theorem ok_scheduler {c : Fin n} :
    Ok lockOf o (.cpu c) scheduler (idleGhost .free ∅ false) (Rest lockOf (.cpu c)) := by
  refine (ok_schedulerFrom table).next fun _ => ?_
  rfl

theorem ok_newborn :
    Ok lockOf o (.proc p : Thread n) (newborn p) (idleGhost .off {.proc p} true)
      (Rest lockOf (.proc p : Thread n)) := by
  refine (ok_enter rfl rfl).next fun _ => ?_
  apply ok_myproc.seq
  rintro b _ ⟨rfl, rfl⟩
  refine (ok_release_idle _).next fun _ => ?_
  rfl

theorem ok_withProc {body : Proc → Prog Act Loc} {Q : Loc → Ghost → Prop}
    (h : Ok lockOf o (.proc p : Thread n) (body p) ℓ Q) :
    Ok lockOf o (.proc p : Thread n) (withProc body) ℓ Q := by
  apply ok_myproc.seq
  rintro b _ ⟨rfl, rfl⟩
  exact h

theorem ok_killed {rest : Prog Act Loc} {Q : Loc → Ghost → Prop}
    (h : Ok lockOf o (.proc p : Thread n) rest (busy ∅ .idle none) Q)
    (hexit : ∀ l ℓ', Rest lockOf (.proc p : Thread n) l ℓ' → Q l ℓ') :
    Ok lockOf o (.proc p : Thread n)
      (do if (← act (.get p)).killed then exit p (-1) else rest) (busy ∅ .idle none) Q := by
  refine (ok_get p).next fun e => ?_
  split_ifs with hk
  · exact (ok_exit (-1)).mono hexit
  · exact h

theorem ok_usertrapEnd :
    Ok lockOf o (.proc p : Thread n) (usertrapEnd p) (busy ∅ .idle none)
      (Rest lockOf (.proc p : Thread n)) :=
  ok_killed rfl fun _ _ h => h

theorem ok_syscall {body : Proc → Prog Act Unit}
    (h : Ok lockOf o (.proc p : Thread n) (body p) (busy ∅ .idle none) fun _ ℓ' =>
      ℓ' = busy ∅ .idle none) :
    Ok lockOf o (.proc p : Thread n) (syscall body) (busy ∅ .idle none)
      (Rest lockOf (.proc p : Thread n)) := by
  apply ok_withProc
  apply ok_killed _ fun _ _ h => h
  refine h.next fun _ => ?_
  exact ok_usertrapEnd

theorem ok_returns {v : ℤ} (h : Returns v ℓ) :
    Ok lockOf o (.proc p : Thread n) (act (.ret v)) ℓ fun _ ℓ' => ℓ' = busy ∅ .idle none := by
  obtain ⟨d, rfl, hv⟩ := h
  exact ok_ret hv

theorem ok_waitLoop (addr : ℕ) (copyout : Bool) :
    Ok lockOf o (.proc p : Thread n) (waitLoop p addr copyout)
      (busy {.proc p} (.waiting ∅ none none) none) (Rest lockOf (.proc p : Thread n)) := by
  apply (ok_waitRound addr copyout).seq
  intro b ℓ hb
  cases b with
  | none => exact hb
  | some v =>
    refine (ok_returns hb).next fun _ => ?_
    exact ok_usertrapEnd

theorem ok_awaitLoop (χ : ℕ) (consume : Bool) :
    Ok lockOf o (.proc p : Thread n) (awaitLoop lockOf p χ consume)
      (busy {.other (lockOf χ)} .idle none) (Rest lockOf (.proc p : Thread n)) := by
  have hend : Ok lockOf o (.proc p : Thread n) (giveUp lockOf p χ)
      (busy {.other (lockOf χ)} .idle none) (Rest lockOf (.proc p : Thread n)) := by
    refine (ok_release_idle _).next fun _ => ?_
    exact ok_usertrapEnd
  refine (ok_getCond rfl (Finset.mem_singleton_self _) rfl).next fun b => ?_
  split_ifs with hb hc
  · refine ok_setFalse.next fun _ => ?_
    exact hend
  · exact hend
  · refine (ok_sleepOn χ).next fun _ => ?_
    rfl

end Xv6.ProcInvariant
