import Xv6.ProcSystem
import Xv6.Scripts

set_option autoImplicit false

/-! Locks of processes are taken in the order of their ages. This can go wrong for the parent that
`exit` has remembered: its slot may have been used again, for a descendant of the process that
exits. -/
namespace Xv6.ProcLocks
open Interleaving ProcCode ProcInvariant
open LogCode (Proc)

variable {n : ℕ} {lockOf : ℕ → ℕ} {cond : ℕ → Bool} {s : Sys (Thread n) Act Loc (State n)}

def nextLock (s : Sys (Thread n) Act Loc (State n)) (t : Thread n) : Option Proc :=
  match s.thr t with
  | .act a _ => wants a
  | .ret _ => none

def WaitsFor (s : Sys (Thread n) Act Loc (State n)) (t u : Thread n) : Prop :=
  ∃ x c, nextLock s t = some x ∧ s.g.hart t ≠ none ∧ s.g.lock (.proc x) = some c ∧
    s.g.hart u = some c

/-- When `exit` locks the slot of the parent it has remembered, the process there is older. -/
def ordered : Opts := ⟨False, False, True⟩

theorem lt_of_nextLock {Λ : Thread n → Ghost}
    (hΛ : Holds (kernel n lockOf) (Good ordered) (outline n lockOf ordered) s Λ) {t : Thread n}
    {x y : Proc} (hon : s.g.hart t ≠ none) (hx : nextLock s t = some x)
    (hy : .proc y ∈ (Λ t).held) : pid s.g y < pid s.g x := by
  unfold nextLock at hx
  cases hnext : s.thr t with
  | ret l =>
    rw [hnext] at hx
    cases hx
  | act a k =>
    rw [hnext] at hx
    have hsafe : Safe ordered t a s.g Λ := hΛ.safe hnext
    exact hsafe.order trivial hon x hx y hy

theorem lt_of_chain {Λ : Thread n → Ghost}
    (hΛ : Holds (kernel n lockOf) (Good ordered) (outline n lockOf ordered) s Λ) {t u : Thread n}
    (h : Relation.TransGen (WaitsFor s) t u) :
    s.g.hart t ≠ none ∧ ∃ x, nextLock s t = some x ∧
      ∀ y, s.g.hart u ≠ none → nextLock s u = some y → pid s.g x < pid s.g y := by
  have hI : Inv lockOf ordered s.g Λ := hΛ.1
  induction h with
  | single hw =>
    obtain ⟨x, c, hx, hon, hlock, hu⟩ := hw
    refine ⟨hon, x, hx, fun y hon' hy => ?_⟩
    exact lt_of_nextLock hΛ hon' hy ((hI.harts.lock_iff hu _).1 hlock)
  | tail _ hw ih =>
    obtain ⟨hon, x, hx, hless⟩ := ih
    obtain ⟨y, c, hy, hon', hlock, hv⟩ := hw
    refine ⟨hon, x, hx, fun z hon'' hz => ?_⟩
    calc pid s.g x < pid s.g y := hless y hon' hy
      _ < pid s.g z := lt_of_nextLock hΛ hon'' hz ((hI.harts.lock_iff hv _).1 hlock)

/-- No threads wait for each other's process locks in a cycle, if `exit` always finds an older
    process in the slot of the parent it has remembered. -/
theorem no_deadlock (h : Reach (kernel n lockOf) (Good ordered) (boot n cond) s) (t : Thread n) :
    ¬ Relation.TransGen (WaitsFor s) t t := by
  intro hcycle
  obtain ⟨Λ, hΛ⟩ := holds_of_reach h
  obtain ⟨hon, x, hx, hless⟩ := lt_of_chain hΛ hcycle
  exact Nat.lt_irrefl _ (hless x hon hx)

def findsOlder {n : ℕ} (t : Thread n) {β : Type} (a : Act β) (g : State n) : Bool :=
  match t, a with
  | .proc p, .acquireParent v => (g.entry v).pid < (g.entry p).pid
  | _, _ => true

theorem good_of_findsOlder (t : Thread n) (β : Type) (a : Act β) (g : State n)
    (h : findsOlder t a g = true) : Good ordered t a g := by
  cases a with
  | set q w =>
    cases w with
    | trapframe ok => exact False.elim
    | _ => trivial
  | kill q k => exact False.elim
  | acquireParent v =>
    rintro - p rfl
    exact of_decide_eq_true h
  | _ => trivial

theorem no_deadlock_exit :
    ∃ s, Reach (kernel 2 id) (Good ordered) (boot 2 fun _ => false) s ∧
      WaitsFor s (.proc 0) (.proc 1) ∧ ¬ Relation.TransGen (WaitsFor s) (.proc 0) (.proc 0) := by
  -- A child that exits has locked its parent, which calls `wait`.
  obtain ⟨s, hreach, htest⟩ := exists_of_play (S := kernel 2 id) good_of_findsOlder
    [.start (.cpu 0) .idle scheduler .scheduler, .acts (.cpu 0) 4,
      .start (.proc 0) .dead (newborn 0) .newborn, .acts (.proc 0) 3,
      .start (.proc 0) .user (sysFork ⟨true, true, true⟩) (.fork _), .acts (.proc 0) 21,
      .start (.cpu 1) .idle scheduler .scheduler, .acts (.cpu 1) 7,
      .start (.proc 1) .dead (newborn 1) .newborn, .acts (.proc 1) 3,
      .start (.proc 1) .user (sysExit 7) (.exit 7), .acts (.proc 1) 10,
      .start (.proc 0) .user (sysWait 0 true) (.wait 0 true), .acts (.proc 0) 2]
    (boot 2 fun _ => false)
    (fun s => nextLock s (.proc 0) = some 0 ∧ s.g.hart (.proc 0) ≠ none ∧
      s.g.lock (.proc 0) = some 1 ∧ s.g.hart (.proc 1) = some 1) (by decide +kernel)
  obtain ⟨hnext, hon, hlock, hart⟩ := of_decide_eq_true htest
  exact ⟨s, hreach, ⟨0, 1, hnext, hon, hlock, hart⟩, no_deadlock hreach (.proc 0)⟩

/-- The first process makes 1, which makes 2, which makes 3. Process 2 begins to exit and
    remembers 1 as its parent. Process 1 exits and is reaped; process 3 makes another process,
    which gets slot 1. That process exits and locks its parent, 3; process 2 goes on, locks slot 1
    and comes to its child, 3. -/
def parentRecycled : List (Move (kernel 3 id)) :=
  let fork := sysFork ⟨true, true, true⟩
  [.start (.cpu 0) .idle scheduler .scheduler, .acts (.cpu 0) 4,
    .start (.proc 0) .dead (newborn 0) .newborn, .acts (.proc 0) 3,
    .start (.proc 0) .user fork (.fork _), .acts (.proc 0) 21,
    .start (.cpu 1) .idle scheduler .scheduler, .acts (.cpu 1) 7,
    .start (.proc 1) .dead (newborn 1) .newborn, .acts (.proc 1) 3,
    .start (.proc 1) .user fork (.fork _), .acts (.proc 1) 24,
    .start (.cpu 2) .idle scheduler .scheduler, .acts (.cpu 2) 10,
    .start (.proc 2) .dead (newborn 2) .newborn, .acts (.proc 2) 3,
    .start (.proc 2) .user fork (.fork _), .acts (.proc 2) 27,
    .start (.proc 2) .user (sysExit 0) (.exit 0), .acts (.proc 2) 9,
    .start (.proc 1) .user (sysExit 0) (.exit 0), .acts (.proc 1) 82,
    .acts (.cpu 1) 9,
    .start (.proc 3) .dead (newborn 3) .newborn, .acts (.proc 3) 3,
    .start (.proc 0) .user (sysWait 0 true) (.wait 0 true), .acts (.proc 0) 12,
    .start (.proc 3) .user fork (.fork _), .acts (.proc 3) 21,
    .start (.proc 0) .user userTimer .timer, .acts (.proc 0) 5,
    .acts (.cpu 0) 6,
    .start (.proc 1) .dead (newborn 1) .newborn, .acts (.proc 1) 3,
    .start (.proc 1) .user (sysExit 0) (.exit 0), .acts (.proc 1) 10,
    .acts (.proc 2) 6]

/-- Two processes that exit wait for each other, one for the lock of slot 3 and the other one for
    that of slot 1. -/
theorem exits_deadlock :
    ∃ s, Reach (kernel 3 id) always (boot 3 fun _ => false) s ∧
      WaitsFor s (.proc 2) (.proc 1) ∧ WaitsFor s (.proc 1) (.proc 2) ∧
      Relation.TransGen (WaitsFor s) (.proc 1) (.proc 1) := by
  obtain ⟨s, hreach, htest⟩ := exists_of_freely parentRecycled (boot 3 fun _ => false)
    (fun s => nextLock s (.proc 1) = some 1 ∧ nextLock s (.proc 2) = some 3 ∧
      s.g.lock (.proc 1) = some 2 ∧ s.g.lock (.proc 3) = some 0 ∧
      s.g.hart (.proc 1) = some 0 ∧ s.g.hart (.proc 2) = some 2) (by decide +kernel)
  obtain ⟨hnext1, hnext2, hlock1, hlock3, hart1, hart2⟩ := of_decide_eq_true htest
  have h12 : WaitsFor s (.proc 1) (.proc 2) :=
    ⟨1, 2, hnext1, by rw [hart1]; exact Option.some_ne_none 0, hlock1, hart2⟩
  have h21 : WaitsFor s (.proc 2) (.proc 1) :=
    ⟨3, 0, hnext2, by rw [hart2]; exact Option.some_ne_none 2, hlock3, hart1⟩
  exact ⟨s, hreach, h21, h12, .tail (.single h12) h21⟩

end Xv6.ProcLocks
