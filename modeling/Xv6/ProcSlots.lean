import Xv6.ProcSystem
import Xv6.Scripts

set_option autoImplicit false

namespace Xv6.ProcSlots
open Interleaving ProcCode ProcInvariant
open LogCode (Proc)

variable {n : ℕ} {lockOf : ℕ → ℕ} {cond : ℕ → Bool} {s : Sys (Thread n) Act Loc (State n)}

/-- `allocproc` always gets a page for the trapframe. -/
def paged : Opts := ⟨True, False, False⟩

/-- Free slots are clean, if `allocproc` always gets a page for the trapframe. -/
theorem free_slot_clean (h : Reach (kernel n lockOf) (Good paged) (boot n cond) s) (q : Proc)
    (hst : (s.g.entry q).state = .unused) (hfree : s.g.lock (.proc q) = none) :
    Clean (s.g.entry q) := by
  obtain ⟨Λ, hΛ⟩ := holds_of_reach h
  have hI : Inv lockOf paged s.g Λ := hΛ.1
  rcases hI.tidy trivial q hst with hclean | ⟨u, r, hu⟩
  · exact hclean
  -- Whoever sets the slot up has its lock.
  obtain ⟨-, -, -, -, hmem⟩ := hI.at_job hu
  obtain ⟨c, hc⟩ := Option.ne_none_iff_exists'.1 (hI.on_of_not_calm hu id)
  rw [(hI.harts.lock_iff hc _).2 hmem] at hfree
  cases hfree

def pages {n : ℕ} (_ : Thread n) {β : Type} (a : Act β) (_ : State n) : Bool :=
  match a with
  | .set _ (.trapframe ok) => ok
  | _ => true

theorem good_of_pages (t : Thread n) (β : Type) (a : Act β) (g : State n)
    (h : pages t a g = true) : Good paged t a g := by
  cases a with
  | set q w =>
    cases w with
    | trapframe ok => exact fun _ => h
    | _ => trivial
  | kill q k => exact False.elim
  | acquireParent v => exact False.elim
  | _ => trivial

/-- The first process runs and calls `fork`. -/
def firstForks (mem : Memory) (k : ℕ) : List (Move (kernel 1 id)) :=
  [.start (.cpu 0) .idle scheduler .scheduler, .acts (.cpu 0) 4,
    .start (.proc 0) .dead (newborn 0) .newborn, .acts (.proc 0) 3,
    .start (.proc 0) .user (sysFork mem) (.fork mem), .acts (.proc 0) k]

theorem free_slot_clean_no_pagetable :
    ∃ s, Reach (kernel 1 id) (Good paged) (boot 1 fun _ => false) s ∧ s.g.nextpid = 3 ∧
      Clean (s.g.entry 1) := by
  obtain ⟨s, hreach, htest⟩ := exists_of_play good_of_pages
    (firstForks ⟨true, false, true⟩ 16) (boot 1 fun _ => false)
    (fun s => s.g.nextpid = 3 ∧ (s.g.entry 1).state = .unused ∧ s.g.lock (.proc 1) = none)
    (by decide +kernel)
  obtain ⟨hnext, hst, hfree⟩ := of_decide_eq_true htest
  exact ⟨s, hreach, hnext, free_slot_clean hreach 1 hst hfree⟩

/-- Without a page for the trapframe the slot keeps the process id of the failed `fork`. -/
theorem free_slot_keeps_pid :
    ∃ s, Reach (kernel 1 id) always (boot 1 fun _ => false) s ∧
      (s.g.entry 1).state = .unused ∧ s.g.lock (.proc 1) = none ∧ (s.g.entry 1).pid = 2 ∧
      ¬ Clean (s.g.entry 1) := by
  obtain ⟨s, hreach, htest⟩ := exists_of_freely (firstForks ⟨false, true, true⟩ 14)
    (boot 1 fun _ => false)
    (fun s => (s.g.entry 1).state = .unused ∧ s.g.lock (.proc 1) = none ∧ (s.g.entry 1).pid = 2)
    (by decide +kernel)
  obtain ⟨hst, hfree, hpid⟩ := of_decide_eq_true htest
  refine ⟨s, hreach, hst, hfree, hpid, fun hclean => ?_⟩
  have := hclean.pid
  omega

/-- Moreover `kill` is not called with 0. -/
def aimed : Opts := ⟨True, True, False⟩

structure Killing (s : Sys (Thread n) Act Loc (State n)) : Prop where
  /-- Whoever is marked as killed was marked since it was made. -/
  marked : ∀ q, (s.g.entry q).state ≠ .unused → (s.g.entry q).killed = true →
    Marked s.g.trace q (s.g.entry q).pid
  /-- `kill` marks only a live process with the process id it was called with. -/
  live : ∀ t q k next g', s.thr t = .act (.kill q k) next → k ≠ 0 →
    exec t (.kill q k) s.g = .done true g' →
    (s.g.entry q).state ≠ .unused ∧ ((s.g.entry q).pid : ℤ) = k
  /-- Where it does not find that process id it changes nothing. -/
  same : ∀ t q k g', exec t (.kill q k) s.g = .done false g' → g' = s.g
  /-- It returns -1 unless it has marked a process. -/
  account : Account s.g.trace

theorem exec_kill {t : Thread n} {q : Proc} {k : ℤ} {b : Bool} {g g' : State n}
    (h : exec t (.kill q k) g = .done b g') :
    g.hart t ≠ none ∧ (b = true ∧ ((g.entry q).pid : ℤ) = k ∨ b = false ∧ g' = g) := by
  unfold exec at h
  cases hart : g.hart t with
  | none =>
    rw [hart] at h
    cases h
  | some c =>
    rw [hart] at h
    refine ⟨Option.some_ne_none c, ?_⟩
    change (if ((g.entry q).pid : ℤ) = k then _ else _) = _ at h
    split at h
    · rename_i hpid
      cases h
      exact .inl ⟨rfl, hpid⟩
    · cases h
      exact .inr ⟨rfl, rfl⟩

/-- No process is born killed, if `allocproc` always gets a page for the trapframe and `kill` is
    not called with 0. -/
theorem not_born_killed (h : Reach (kernel n lockOf) (Good aimed) (boot n cond) s) : Killing s := by
  obtain ⟨Λ, hΛ⟩ := holds_of_reach h
  have hI : Inv lockOf aimed s.g Λ := hΛ.1
  constructor
  · intro q _ hkilled
    exact (hI.kills trivial trivial q hkilled).2
  · intro t q k next g' hnext hk hdone
    obtain ⟨hon, hpid | hfalse⟩ := exec_kill hdone
    · have hsafe : Safe aimed t (.kill q k) s.g Λ := hΛ.safe hnext
      exact ⟨hsafe.aimed trivial trivial (fun _ => hk) hon hpid.2, hpid.2⟩
    · cases hfalse.1
  · intro t q k g' hdone
    obtain ⟨-, htrue | hfalse⟩ := exec_kill hdone
    · cases htrue.1
    · exact hfalse.2
  · exact hI.history.account

def aims {n : ℕ} (_ : Thread n) {β : Type} (a : Act β) (_ : State n) : Bool :=
  match a with
  | .set _ (.trapframe ok) => ok
  | .kill _ k => k != 0
  | _ => true

theorem good_of_aims (t : Thread n) (β : Type) (a : Act β) (g : State n)
    (h : aims t a g = true) : Good aimed t a g := by
  cases a with
  | set q w =>
    cases w with
    | trapframe ok => exact fun _ => h
    | _ => trivial
  | kill q k => exact fun _ => bne_iff_ne.1 h
  | acquireParent v => exact False.elim
  | _ => trivial

def childKilled : List (Move (kernel 1 id)) :=
  firstForks ⟨true, true, true⟩ 21 ++
    [.start (.proc 0) .user (sysKill 2) (.kill 2), .acts (.proc 0) 10]

theorem not_born_killed_child :
    ∃ s, Reach (kernel 1 id) (Good aimed) (boot 1 fun _ => false) s ∧
      (s.g.entry 1).killed = true ∧ Marked s.g.trace 1 (s.g.entry 1).pid := by
  obtain ⟨s, hreach, htest⟩ := exists_of_play good_of_aims childKilled (boot 1 fun _ => false)
    (fun s => (s.g.entry 1).state ≠ .unused ∧ (s.g.entry 1).killed = true) (by decide +kernel)
  obtain ⟨hst, hkilled⟩ := of_decide_eq_true htest
  exact ⟨s, hreach, hkilled, (not_born_killed hreach).marked 1 hst hkilled⟩

/-- The first process calls `kill(0)` and then makes another one. -/
def killsNobody : List (Move (kernel 1 id)) :=
  [.start (.cpu 0) .idle scheduler .scheduler, .acts (.cpu 0) 4,
    .start (.proc 0) .dead (newborn 0) .newborn, .acts (.proc 0) 3,
    .start (.proc 0) .user (sysKill 0) (.kill 0), .acts (.proc 0) 10,
    .start (.proc 0) .user (sysFork ⟨true, true, true⟩) (.fork _), .acts (.proc 0) 21]

/-- The new process is killed although nobody has killed it. -/
theorem born_killed :
    ∃ s, Reach (kernel 1 id) always (boot 1 fun _ => false) s ∧
      s.g.trace = [.kill 0 1 0, .ret 0 0, .fork 0 1 1 2] ∧
      (s.g.entry 1).state = .runnable ∧ (s.g.entry 1).killed = true ∧
      ¬ Marked s.g.trace 1 (s.g.entry 1).pid := by
  obtain ⟨s, hreach, htest⟩ := exists_of_freely killsNobody (boot 1 fun _ => false)
    (fun s => s.g.trace = [.kill 0 1 0, .ret 0 0, .fork 0 1 1 2] ∧
      (s.g.entry 1).state = .runnable ∧ (s.g.entry 1).killed = true ∧ (s.g.entry 1).pid = 2)
    (by decide +kernel)
  obtain ⟨htrace, hst, hkilled, hpid⟩ := of_decide_eq_true htest
  refine ⟨s, hreach, htrace, hst, hkilled, ?_⟩
  rintro ⟨before, after, heq, -, hmark⟩
  have hmem (e : Event) (he : e ∈ after) : e ∈ s.g.trace := by
    rw [heq]
    exact List.mem_append_right _ he
  rw [hpid] at hmark
  rw [htrace] at hmem
  rcases hmark with ⟨p, hp⟩ | hp
  · have := hmem _ hp
    simp at this
  · have := hmem _ hp
    simp at this

end Xv6.ProcSlots
