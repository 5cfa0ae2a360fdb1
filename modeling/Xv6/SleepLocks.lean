import Xv6.Scripts
import Xv6.SleepRules

set_option autoImplicit false

/-! `sleeplock.c` for one lock. The process ids `pid` do not change, and a process releases the lock
only if it has it. -/
namespace Xv6.SleepLocks
open Interleaving SleepCode SleepRules
open Function (update update_of_ne Injective)

structure Sleeplock where
  locked : Bool
  pid : ℕ

/-- Asleep in `acquiresleep`, or outside, with the answer of the last call if there was one. -/
inductive Loc where
  | user (holds : Bool) (answer : Option Bool)
  | waiting
  deriving DecidableEq

variable {n : ℕ} (pid : Fin n → ℕ)

abbrev LockCode (n : ℕ) (α : Type) := Code n Unit Unit Sleeplock α

/-- The loop of `acquiresleep`, from a test of `locked` on. -/
def acquiresleepLoop (p : Fin n) : LockCode n Loc := do
  if ← read Sleeplock.locked then
    sleep p () ()
    return .waiting
  else
    modify fun _ => ⟨true, pid p⟩
    act (.release (.data ()))
    return .user true none

def acquiresleep (p : Fin n) : LockCode n Loc := do
  act (.acquire (.data ()))
  acquiresleepLoop pid p

def releasesleep : LockCode n Loc := do
  act (.acquire (.data ()))
  modify fun _ => ⟨false, 0⟩
  wakeup ()
  act (.release (.data ()))
  return .user false none

def holdingsleep (p : Fin n) (holds : Bool) : LockCode n Loc := do
  act (.acquire (.data ()))
  let r ← read fun lk => lk.locked && lk.pid == pid p
  act (.release (.data ()))
  return .user holds (some r)

inductive Calls : Thread n → Loc → LockCode n Loc → Prop where
  | acquire (p : Fin n) (a : Option Bool) : Calls (.proc p) (.user false a) (acquiresleep pid p)
  | acquireOn (p : Fin n) : Calls (.proc p) .waiting do
      awake p ()
      acquiresleepLoop pid p
  | release (p : Fin n) (a : Option Bool) : Calls (.proc p) (.user true a) releasesleep
  | holding (p : Fin n) (b : Bool) (a : Option Bool) :
      Calls (.proc p) (.user b a) (holdingsleep pid p b)
  | kill (p : Fin n) (b : Bool) (a : Option Bool) (k : ℕ) : Calls (.proc p) (.user b a) do
      let _ ← SleepCode.kill k
      return .user b none

abbrev System (n : ℕ) :=
  Sys (Thread n) (Act n Unit Unit Sleeplock) Loc (Kernel n Unit Unit Sleeplock)

/-- After `initsleeplock`. -/
def boot : System n where
  g := bootKernel pid ⟨false, 0⟩
  thr := fun _ => .ret (.user false none)

/-- The lock as it is when a process has it, or none. -/
def lockOf : Option (Fin n) → Sleeplock
  | none => ⟨false, 0⟩
  | some p => ⟨true, pid p⟩

structure Owned (o : Option (Fin n)) (s : System n) : Prop where
  data : s.g.data = lockOf pid o
  holder : ∀ p a, s.thr (.proc p) = .ret (.user true a) → o = some p
  answer : ∀ p b r, s.thr (.proc p) = .ret (.user b (some r)) → r = b
  asleep : s.g.lock () = none → ∀ p, (s.g.proc p).state = .sleeping →
    ∃ q, o = some q ∧ (s.g.proc q).state ≠ .sleeping

def Marked (lk : Sleeplock) (holds : Thread n → Bool) : Prop :=
  ∃ o, lk = lockOf pid o ∧ ∀ t, holds t = true ↔ o.map .proc = some t

def monitor : Monitor n Unit Unit Sleeplock Sleeplock Bool where
  k := ()
  view := id
  cond := fun _ lk => lk.locked = true
  sleeper := fun _ holds => holds = false
  own := fun _ => True
  extra := Marked pid

inductive Rest : Loc → Ghost n Unit Sleeplock Bool → Prop where
  | user (b : Bool) (a : Option Bool) (h : ∀ r, a = some r → r = b) :
      Rest (.user b a) ⟨none, none, none, b⟩
  | waiting : Rest .waiting ⟨none, none, some ((), true), false⟩

def busy (lk : Sleeplock) (due : Due n Unit) (holds : Bool) : Ghost n Unit Sleeplock Bool :=
  ⟨some (lk, due), none, none, holds⟩

abbrev Does (t : Thread n) {α : Type} (c : LockCode n α) (ℓ : Ghost n Unit Sleeplock Bool)
    (Q : α → Ghost n Unit Sleeplock Bool → Prop) : Prop :=
  Ok (monitor pid) (Calls pid) always (fun _ => Rest) t c ℓ Q

variable {pid} {p : Fin n} {lk : Sleeplock} {holds : Thread n → Bool} {due : Due n Unit}

theorem Marked.taking (h : Marked pid lk holds) (hfree : lk.locked ≠ true) :
    Marked pid ⟨true, pid p⟩ (update holds (.proc p) true) := by
  obtain ⟨o, rfl, ho⟩ := h
  cases o with
  | some q => exact absurd rfl hfree
  | none =>
    refine ⟨some p, rfl, fun t => ?_⟩
    by_cases ht : t = .proc p
    · simp [ht]
    · rw [update_of_ne ht, ho]
      simp [Ne.symm ht]

theorem Marked.giving (h : Marked pid lk holds) (hp : holds (.proc p) = true) :
    Marked pid ⟨false, 0⟩ (update holds (.proc p) false) := by
  obtain ⟨o, -, ho⟩ := h
  refine ⟨none, rfl, fun t => ?_⟩
  by_cases ht : t = .proc p
  · simp [ht]
  · rw [update_of_ne ht, ho, (ho _).1 hp]
    simp [Ne.symm ht]

theorem Marked.answer (h : Marked pid lk holds) (hpid : Injective pid) :
    (lk.locked && lk.pid == pid p) = holds (.proc p) := by
  obtain ⟨o, rfl, ho⟩ := h
  rw [Bool.eq_iff_iff, ho]
  cases o with
  | none => simp [lockOf]
  | some q => simp [lockOf, hpid.eq_iff]

theorem ok_lock {b : Bool} : Does pid (.proc p) (act (.acquire (.data ()))) ⟨none, none, none, b⟩
    fun _ ℓ' => ∃ lk, ℓ' = busy lk (fun _ _ => False) b := by
  refine (ok_acquire (M := monitor pid) (by rfl)).mono ?_
  rintro _ _ ⟨lk, -, rfl⟩
  exact ⟨lk, rfl⟩

theorem ok_leave {b : Bool} {a : Option Bool} (hdue : ∀ χ q, ¬ due χ q)
    (ha : ∀ r, a = some r → r = b) :
    Does pid (.proc p) (do act (.release (.data ())); return .user b a) (busy lk due b) Rest := by
  refine (ok_release (M := monitor pid) (by rfl) trivial ?_).next fun _ => ?_
  · exact fun χ q hd => absurd hd (hdue χ q)
  · exact .user b a ha

theorem ok_acquiresleepLoop :
    Does pid (.proc p) (acquiresleepLoop pid p) (busy lk (fun _ _ => False) false) Rest := by
  refine (ok_read (fun d b d' hd => by cases hd; rfl) (by rfl)).seq ?_
  rintro b _ ⟨d, ext, rfl, -, -, hb, rfl⟩
  cases hb
  split_ifs with hlocked
  · refine (ok_sleep (M := monitor pid) (by rfl) (by rfl) (by rfl) trivial ?_ hlocked
      (by rfl)).next fun _ => ?_
    · rintro _ _ ⟨⟨⟩, -⟩
    · exact .waiting
  · refine Valid.seq (Q := fun _ ℓ' => ∃ due, ℓ' = busy ⟨true, pid p⟩ due true ∧
      ∀ χ q, ¬ due χ q) (ok_data (by rfl) (by rfl) fun d' ext hd hx _ b d'' hb => ?_) ?_
    · cases hb
      cases hd
      exact ⟨true, _, fun _ _ hdue => hdue, fun _ _ hc => absurd hc hlocked, hx.taking hlocked, _,
        rfl, fun _ _ hdue => hdue.1⟩
    · rintro _ _ ⟨due, rfl, hdue⟩
      exact ok_leave hdue fun _ hr => by cases hr

theorem ok_releasesleep : Does pid (.proc p) releasesleep ⟨none, none, none, true⟩ Rest := by
  refine ok_lock.seq ?_
  rintro _ _ ⟨lk, rfl⟩
  refine Valid.seq (Q := fun _ ℓ' => ℓ' = busy ⟨false, 0⟩ (fun _ _ => True) false)
    (ok_data (by rfl) (by rfl) fun d ext _ hx ht b d' hb => ?_) ?_
  · cases hb
    exact ⟨false, _, fun _ _ hdue => hdue.elim, fun _ _ _ => .inr trivial, hx.giving ht, rfl⟩
  · rintro _ _ rfl
    refine (ok_wakeup (by rfl) (by rfl) (by rfl)).seq ?_
    rintro _ _ ⟨due, rfl, hdue⟩
    exact ok_leave (fun χ q hd => (hdue χ q hd).2 rfl) fun _ hr => by cases hr

theorem ok_holdingsleep (hpid : Injective pid) (b : Bool) :
    Does pid (.proc p) (holdingsleep pid p b) ⟨none, none, none, b⟩ Rest := by
  refine ok_lock.seq ?_
  rintro _ _ ⟨lk, rfl⟩
  refine (ok_read (fun d b d' hd => by cases hd; rfl) (by rfl)).seq ?_
  rintro r _ ⟨d, ext, -, hx, ht, hr, rfl⟩
  cases hr
  refine ok_leave (fun _ _ hd => hd.1) fun r hr => ?_
  cases hr
  exact (Marked.answer hx hpid).trans ht

theorem ok_call (hpid : Injective pid) {t : Thread n} {l : Loc} {c : LockCode n Loc}
    {ℓ : Ghost n Unit Sleeplock Bool} (hc : Calls pid t l c) (hℓ : Rest l ℓ) :
    Does pid t c ℓ Rest := by
  cases hc with
  | acquire p a =>
    cases hℓ
    refine ok_lock.seq ?_
    rintro _ _ ⟨lk, rfl⟩
    exact ok_acquiresleepLoop
  | acquireOn p =>
    cases hℓ
    refine (ok_awake (M := monitor pid) (by rfl) (by rfl)).seq ?_
    rintro _ _ ⟨lk, -, rfl⟩
    exact ok_acquiresleepLoop
  | release p a =>
    cases hℓ
    exact ok_releasesleep
  | holding p b a =>
    cases hℓ
    exact ok_holdingsleep hpid b
  | kill p b a k =>
    cases hℓ
    refine (ok_kill k (by rfl) (by rfl)).next fun _ => ?_
    exact .user _ _ fun _ hr => by cases hr

/-- In every run one process at most has the lock, `holdingsleep` tells it from the others, and
    who sleeps waits for a process that has the lock and is not asleep. -/
theorem sleeplock_excludes (hpid : Injective pid) {s : System n}
    (h : Reach (sleepers (Calls pid)) always (boot pid) s) : ∃ o, Owned pid o s := by
  have hboot : Holds (sleepers (Calls pid)) always (outline (monitor pid) fun _ => Rest)
      (boot pid) fun _ => ⟨none, none, none, false⟩ := by
    refine ⟨inv_boot trivial ⟨none, rfl, fun t => ?_⟩, fun _ => Rest.user _ _ fun _ hr => ?_⟩
    · simp
    · cases hr
  obtain ⟨Λ, hI, hrest⟩ := Holds.reach (fun _ _ _ _ => ok_call hpid)
    (fun _ _ _ _ hno => absurd hno not_false) hboot h
  have hat : ∀ p b a, s.thr (.proc p) = .ret (.user b a) →
      (Λ (.proc p)).ext = b ∧ ∀ r, a = some r → r = b := by
    intro p b a ha
    have hp : Valid _ _ _ _ (s.thr (.proc p)) _ _ := hrest (.proc p)
    rw [ha] at hp
    generalize Λ (.proc p) = ℓ at hp
    cases (hp : Rest _ ℓ) with
    | user _ _ hb => exact ⟨rfl, hb⟩
  obtain ⟨o, hdata, ho⟩ : Marked pid s.g.data fun t => (Λ t).ext := hI.extra
  refine ⟨o, hdata, fun p a ha => ?_, fun p b r hr => (hat p b _ hr).2 r rfl, fun hfree p hp => ?_⟩
  · obtain ⟨q, rfl, hq⟩ := Option.map_eq_some_iff.1 ((ho (.proc p)).1 (hat p true a ha).1)
    cases hq
    rfl
  · obtain ⟨⟨⟩, hbed⟩ := hI.asleep p hp
    have hlocked : s.g.data.locked = true := (hI.sleeper hfree hp ((hI.lies p _ _ hbed).1 rfl)).2
    cases o with
    | none =>
      rw [hdata] at hlocked
      cases hlocked
    | some q =>
      refine ⟨q, rfl, fun hsleep => ?_⟩
      obtain ⟨χ, hq⟩ := hI.asleep q hsleep
      have hnot : (Λ (.proc q)).ext = false := hI.sleeps q χ true hq
      cases hnot.symm.trans ((ho (.proc q)).2 rfl)

def sleeps (p : Fin n) (s : System n) : Bool :=
  s.g.lock () = none ∧ (s.g.proc p).state = .sleeping

theorem sleeplock_excludes_two : ∃ s : System 2, (s.g.proc 1).state = .sleeping ∧
    ∃ q, Owned Fin.val (some q) s := by
  obtain ⟨s, hs, htest⟩ := exists_of_freely (S := sleepers (Calls (n := 2) Fin.val))
    [.start (.proc 0) (.user false none) _ (Calls.acquire 0 none), .acts (.proc 0) 4,
      .start (.proc 1) (.user false none) _ (Calls.acquire 1 none), .acts (.proc 1) 7]
    (boot Fin.val) (sleeps 1) (by decide +kernel)
  obtain ⟨hfree, hsleep⟩ := of_decide_eq_true htest
  obtain ⟨o, ho⟩ := sleeplock_excludes Fin.val_injective hs
  obtain ⟨q, rfl, -⟩ := ho.asleep hfree 1 hsleep
  exact ⟨s, hsleep, q, ho⟩

end Xv6.SleepLocks
