import Xv6.ProcSystem
import Xv6.Scripts

set_option autoImplicit false

namespace Xv6.ProcReaping
open Interleaving ProcCode ProcInvariant
open LogCode (Proc)

variable {n : ℕ} {lockOf : ℕ → ℕ} {cond : ℕ → Bool} {s : Sys (Thread n) Act Loc (State n)}

structure Families (g : State n) : Prop where
  /-- The parent is alive. It is the process that made this one, or the first process when the
      one that made it has called `exit`. -/
  parent : ∀ q, (g.entry q).state ≠ .unused → q ≠ initproc → ∃ u p k,
    (g.entry q).parent = some u ∧ Alive (g.entry u).state ∧
      .fork p k q (g.entry q).pid ∈ g.trace ∧
      (u = p ∧ (g.entry u).pid = k ∨ u = initproc ∧ .exiting p k ∈ g.trace)
  account : Account g.trace
  /-- An exit was reported by `wait`, or the process is still there to be reported. -/
  lost : ∀ q k r, .exit q k r ∈ g.trace → (∃ p, .wait p q k r ∈ g.trace) ∨
    (g.entry q).state = .zombie ∧ (g.entry q).pid = k ∧ (g.entry q).xstate = r

theorem families_of_inv {o : Opts} {g : State n} {Λ : Thread n → Ghost}
    (hI : Inv lockOf o g Λ) : Families g where
  parent := by
    intro q hq hinit
    obtain ⟨p, k, hfork, hpar⟩ := hI.history.forked q hq hinit
    cases hu : (g.entry q).parent with
    | none => exact absurd (hI.tree.orphan q hq hu) hinit
    | some u => exact ⟨u, p, k, rfl, hI.tree.alive q u hu, hfork, hpar u hu⟩
  account := hI.history.account
  lost := hI.history.lost

/-- Each exit is reaped exactly once by the right parent. -/
theorem reaped_once (h : Reach (kernel n lockOf) always (boot n cond) s) :
    Families s.g ∧
      ∀ s', Step (kernel n lockOf) always s s' → ∃ t, Legal t s.g s'.g := by
  obtain ⟨Λ, hΛ⟩ := holds_of_reach_always h
  refine ⟨families_of_inv hΛ.1, fun s' step => ?_⟩
  exact Holds.legal hΛ (step.mono fun _ _ a g _ => good_free a g)

/-- The first process forks, and its child runs on another hart. -/
def firstFork : List (Move (kernel 2 id)) :=
  [.start (.cpu 0) .idle scheduler .scheduler, .acts (.cpu 0) 4,
    .start (.proc 0) .dead (newborn 0) .newborn, .acts (.proc 0) 3,
    .start (.proc 0) .user (sysFork ⟨true, true, true⟩) (.fork _), .acts (.proc 0) 21,
    .start (.cpu 1) .idle scheduler .scheduler, .acts (.cpu 1) 7,
    .start (.proc 1) .dead (newborn 1) .newborn, .acts (.proc 1) 3]

theorem reaped_once_child :
    ∃ s, Reach (kernel 2 id) always (boot 2 fun _ => false) s ∧
      s.g.trace = [.fork 0 1 1 2, .exiting 1 2, .exit 1 2 7, .wait 0 1 2 7, .ret 0 2] ∧
      Families s.g := by
  -- A child exits with status 7 and its parent waits for it.
  obtain ⟨s, hreach, htest⟩ := exists_of_freely (S := kernel 2 id)
    (firstFork ++ [.start (.proc 1) .user (sysExit 7) (.exit 7), .acts (.proc 1) 79,
      .acts (.cpu 1) 2,
      .start (.proc 0) .user (sysWait 0 true) (.wait 0 true), .acts (.proc 0) 12])
    (boot 2 fun _ => false)
    (fun s => s.g.trace = [.fork 0 1 1 2, .exiting 1 2, .exit 1 2 7, .wait 0 1 2 7, .ret 0 2])
    (by decide +kernel)
  exact ⟨s, hreach, of_decide_eq_true htest, (reaped_once hreach).1⟩

/-- Nobody but the first process sleeps in `wait` while it has a child that has exited. -/
theorem wait_not_past_zombie (h : Reach (kernel n lockOf) always (boot n cond) s) (p : Proc)
    (hp : p ≠ initproc) :
    ¬ ((s.g.entry p).state = .sleeping ∧ (s.g.entry p).chan = some (.proc p) ∧
      ∃ q, (s.g.entry q).parent = some p ∧ (s.g.entry q).state = .zombie) := by
  rintro ⟨hst, hchan, q, hpar, hz⟩
  obtain ⟨Λ, hΛ⟩ := holds_of_reach_always h
  have hI : Inv lockOf free s.g Λ := hΛ.1
  exact hI.waits.asleep p hp hst hchan q hpar hz

/-- The child of the first process has a child of its own and waits for it. -/
theorem reach_grandchild :
    ∃ s, Reach (kernel 2 id) always (boot 2 fun _ => false) s ∧
      (s.g.entry 1).state = .sleeping ∧ (s.g.entry 1).chan = some (.proc 1) ∧
      (s.g.entry 1).parent = some initproc ∧ (s.g.entry 2).parent = some 1 ∧
      (s.g.entry 2).state ≠ .unused := by
  obtain ⟨s, hreach, htest⟩ := exists_of_freely (S := kernel 2 id)
    (firstFork ++ [.start (.proc 1) .user (sysFork ⟨true, true, true⟩) (.fork _), .acts (.proc 1) 24,
      .start (.proc 1) .user (sysWait 0 true) (.wait 0 true), .acts (.proc 1) 73,
      .acts (.cpu 1) 2])
    (boot 2 fun _ => false)
    (fun s => (s.g.entry 1).state = .sleeping ∧ (s.g.entry 1).chan = some (.proc 1) ∧
      (s.g.entry 1).parent = some initproc ∧ (s.g.entry 2).parent = some 1 ∧
      (s.g.entry 2).state ≠ .unused) (by decide +kernel)
  exact ⟨s, hreach, of_decide_eq_true htest⟩

theorem wait_not_past_zombie_child :
    ∃ s, Reach (kernel 2 id) always (boot 2 fun _ => false) s ∧
      (s.g.entry 1).state = .sleeping ∧ (s.g.entry 1).chan = some (.proc 1) ∧
      (s.g.entry 2).parent = some 1 ∧ (s.g.entry 2).state ≠ .zombie := by
  obtain ⟨s, hreach, hst, hchan, -, hpar, -⟩ := reach_grandchild
  refine ⟨s, hreach, hst, hchan, hpar, fun hz => ?_⟩
  exact wait_not_past_zombie hreach 1 nofun ⟨hst, hchan, 2, hpar, hz⟩

/-- `u` is the parent of `q`. It is alive and has a smaller process id. -/
def ChildOf (g : State n) (q u : Proc) : Prop :=
  (g.entry q).parent = some u ∧ Alive (g.entry u).state ∧ (g.entry u).pid < (g.entry q).pid

/-- Every process descends from the first one, and no two have the same process id. -/
theorem processes_form_tree (h : Reach (kernel n lockOf) always (boot n cond) s) (q : Proc)
    (hq : (s.g.entry q).state ≠ .unused) :
    Relation.ReflTransGen (ChildOf s.g) q initproc ∧
      ∀ x, (s.g.entry x).pid = (s.g.entry q).pid → x = q := by
  obtain ⟨Λ, hI, -⟩ := holds_of_reach_always h
  have hI : Inv lockOf free s.g Λ := hI
  refine ⟨?_, fun x hx => hI.pids.inj x q hx (hx.trans_ne (hI.pids.live q hq).ne')⟩
  -- parents have smaller process ids
  induction hk : (s.g.entry q).pid using Nat.strong_induction_on generalizing q with
  | _ k ih =>
    cases hu : (s.g.entry q).parent with
    | none => exact hI.tree.orphan q hq hu ▸ .refl
    | some u =>
      have halive : Alive (s.g.entry u).state := hI.tree.alive q u hu
      have hless : (s.g.entry u).pid < (s.g.entry q).pid := hI.pids.order q u hq hu
      exact .head ⟨hu, halive, hless⟩ (ih _ (hk ▸ hless) u halive.1 rfl)

theorem processes_form_tree_grandchild :
    ∃ s, Reach (kernel 2 id) always (boot 2 fun _ => false) s ∧
      (s.g.entry 2).parent = some 1 ∧ (s.g.entry 1).parent = some initproc ∧
      Relation.ReflTransGen (ChildOf s.g) 2 initproc ∧
      ∀ x, (s.g.entry x).pid = (s.g.entry 2).pid → x = 2 := by
  obtain ⟨s, hreach, -, -, hchild, hgrand, hlive⟩ := reach_grandchild
  exact ⟨s, hreach, hgrand, hchild, processes_form_tree hreach 2 hlive⟩

end Xv6.ProcReaping
