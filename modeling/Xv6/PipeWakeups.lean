import Xv6.PipeSleep

set_option autoImplicit false

namespace Xv6.PipeWakeups
open Interleaving SleepCode SleepRules PipeSleep
open PipeCode (Pipe PIPESIZE)
open Function (update update_eq_self update_of_ne update_self)

variable {n : ℕ} {p q : Fin n} {t : Thread n} {v : Pipe} {due due' : Due n Chan}

inductive Use where
  | none
  | uses (writable : Bool)
  | closes (writable : Bool)

variable {use : Use}

def Finds : Chan → Pipe → Prop
  | .nread, pi => pi.nread = pi.nwrite ∧ pi.writeopen = true
  | .nwrite, pi => full pi ∧ pi.readopen = true

structure Descriptors (d : Data n) (use : Thread n → Use) : Prop where
  uses : ∀ p w, use (.proc p) = .uses w → 0 < d.fds p w
  closes : ∀ t w, use t = .closes w → ∀ q, d.fds q w = 0
  readopen : d.pipe.readopen = false → ∀ q, d.fds q false = 0

def monitor (n : ℕ) : Monitor n Unit Chan (Data n) Pipe Use where
  k := ()
  view := Data.pipe
  cond := Finds
  sleeper := fun χ use => χ = .nread → use = .uses false
  own := fun _ => True
  extra := Descriptors

def busy (v : Pipe) (due : Due n Chan) (use : Use) : Ghost n Chan Pipe Use :=
  ⟨some (v, due), none, none, use⟩

inductive Rest : Loc → Ghost n Chan Pipe Use → Prop where
  | user (r : ℤ) (use : Use) : Rest (.user r) ⟨none, none, none, use⟩
  | writing (src : List UInt8) (m : ℤ) (i : ℕ) :
      Rest (.writing src m i) ⟨none, none, some (.nwrite, true), .uses true⟩
  | reading (m : ℤ) (room : ℕ) :
      Rest (.reading m room) ⟨none, none, some (.nread, true), .uses false⟩

abbrev Does (t : Thread n) {α : Type} (c : PipeProg n α) (ℓ : Ghost n Chan Pipe Use)
    (Q : α → Ghost n Chan Pipe Use → Prop) : Prop :=
  Ok (monitor n) Calls Alive (fun _ => Rest) t c ℓ Q

theorem ok_pipe :
    Does t pipe (busy v due use) fun pi ℓ' => pi = v ∧ ∃ due', ℓ' = busy v due' use ∧
      (∀ χ p, due' χ p → due χ p) ∧ (v.readopen = false → ∀ p, ¬ due' .nread p) := by
  refine (ok_read (fun d b d' hd => ?_) (by rfl)).mono ?_
  · unfold onPipe at hd
    split at hd
    · cases hd
    · cases hd
      rfl
  · rintro pi _ ⟨d, ext, hv, hx, -, hd, rfl⟩
    unfold onPipe at hd
    split at hd
    · cases hd
    · cases hd
      refine ⟨hv, _, rfl, fun χ p hdue => hdue.1, fun hclosed p hdue => ?_⟩
      have hfds := hx.uses p false (hdue.2 rfl)
      rw [hx.readopen (by rwa [show d.pipe = v from hv]) p] at hfds
      omega

theorem ok_setPipe (due' : Due n Chan) (f : Pipe → Pipe)
    (hread : (f v).readopen = v.readopen ∨ use = .closes false) (hdue : ∀ χ p, due χ p → due' χ p)
    (hcond : ∀ χ p, Finds χ v → Finds χ (f v) ∨ due' χ p) :
    Does t (setPipe f) (busy v due use) fun _ ℓ' => ℓ' = busy (f v) due' use := by
  refine ok_data (by rfl) (by rfl) fun d ext hv hx ht b d' hd => ?_
  unfold onPipe at hd
  split at hd
  · cases hd
  cases hd
  have hv' : d.pipe = v := hv
  refine ⟨use, due', hdue, fun χ p hc => ?_, ?_, ?_⟩
  · change Finds χ (f d.pipe) ∨ _
    rw [hv']
    exact hcond χ p hc
  · rw [show use = ext t from ht.symm, update_eq_self]
    refine ⟨hx.uses, hx.closes, fun hclosed => ?_⟩
    rcases hread with hsame | rfl
    · refine hx.readopen ?_
      rw [hv', ← hsame, ← hv']
      exact hclosed
    · exact hx.closes t false ht
  · change busy (f d.pipe) due' use = _
    rw [hv']

theorem not_full_of_finds (h : Finds .nread v) : ¬ full v := by
  intro hf
  rw [full, ← h.1] at hf
  have hz : UInt32.ofNat PIPESIZE = 0 := by
    simpa using hf.symm
  exact absurd hz (by decide)

theorem ok_giveUp (h : ∀ χ p, due χ p → Finds χ v) : Does t giveUp (busy v due use) Rest := by
  refine (ok_release (M := monitor n) (by rfl) trivial h).next fun _ => ?_
  exact .user _ _

theorem ok_pipewriteEnd (i : ℕ) (h : ∀ p, ¬ due .nwrite p) :
    Does t (pipewriteEnd i) (busy v due use) Rest := by
  refine (ok_wakeup (by rfl) (by rfl) (by rfl)).seq ?_
  rintro _ _ ⟨due', rfl, hdue⟩
  refine (ok_release (M := monitor n) (by rfl) trivial fun χ p hd => ?_).seq ?_
  · cases χ with
    | nread => exact absurd rfl (hdue _ p hd).2
    | nwrite => exact absurd (hdue _ p hd).1 (h p)
  · rintro _ _ rfl
    exact .user _ _

theorem ok_pipewriteFrom (src : List UInt8) (m : ℤ) (fuel i : ℕ) (h : ∀ p, ¬ due .nwrite p) :
    Does (.proc p) (pipewriteFrom p src m fuel i) (busy v due (.uses true)) Rest := by
  induction fuel generalizing i v due with
  | zero => exact ok_pipewriteEnd i h
  | succ fuel ih =>
    refine ok_pipe.seq ?_
    rintro pi _ ⟨rfl, due', rfl, hdue, hclosed⟩
    have h' : ∀ p, ¬ due' .nwrite p := fun p hd => h p (hdue _ p hd)
    split_ifs with hfull hopen
    · refine ok_giveUp fun χ p hd => ?_
      cases χ with
      | nread => exact absurd hd (hclosed hopen p)
      | nwrite => exact absurd hd (h' p)
    · refine (ok_killed (Q := fun b => b = false) fun g Λ b hI hΛ hc hk => ?_).seq ?_
      · have hv : g.data.pipe = pi := Facts.view hI (.proc p) pi due' (by rw [hΛ]; rfl)
        rw [← hk]
        exact hc (by rwa [hv])
      · rintro b _ ⟨rfl, rfl⟩
        rw [if_neg (by decide)]
        refine (ok_wakeup (by rfl) (by rfl) (by rfl)).seq ?_
        rintro _ _ ⟨due'', rfl, hdue'⟩
        have hfinds : Finds .nwrite pi := ⟨hfull, by simpa using hopen⟩
        refine (ok_sleep (M := monitor n) (χ := .nwrite) (v := pi) (by rfl) (by rfl) (by rfl)
          trivial (fun χ p hd => ?_) hfinds (fun hχ => by cases hχ)).seq ?_
        · cases χ with
          | nread => exact absurd rfl (hdue' _ p hd).2
          | nwrite => exact absurd (hdue' _ p hd).1 (h' p)
        · rintro _ _ rfl
          exact .writing ..
    · split
      · exact ok_pipewriteEnd i h'
      next b _ =>
      refine (ok_setPipe (fun χ p => due' χ p ∨ χ = .nread) (fun pi => pi.put b)
        (.inl rfl) (fun χ p hd => .inl hd) fun χ p hc => ?_).seq ?_
      · cases χ with
        | nread => exact .inr (.inr rfl)
        | nwrite => exact absurd hc.1 hfull
      · rintro _ _ rfl
        refine ih (i + 1) fun p hd => ?_
        rcases hd with hd | hd
        · exact h' p hd
        · cases hd

theorem ok_pipereadEnd (i : ℕ) (h : ∀ p, ¬ due .nread p) :
    Does t (pipereadFrom.pipereadEnd i) (busy v due use) Rest := by
  refine (ok_wakeup (by rfl) (by rfl) (by rfl)).seq ?_
  rintro _ _ ⟨due', rfl, hdue⟩
  refine (ok_release (M := monitor n) (by rfl) trivial fun χ p hd => ?_).seq ?_
  · cases χ with
    | nread => exact absurd (hdue _ p hd).1 (h p)
    | nwrite => exact absurd rfl (hdue _ p hd).2
  · rintro _ _ rfl
    exact .user _ _

theorem ok_pipereadFrom (room fuel i : ℕ) (h : ∀ p, ¬ due .nread p) :
    Does t (pipereadFrom room fuel i) (busy v due use) Rest := by
  induction fuel generalizing i v due with
  | zero => exact ok_pipereadEnd i h
  | succ fuel ih =>
    refine ok_pipe.seq ?_
    rintro pi _ ⟨rfl, due', rfl, hdue, -⟩
    have h' : ∀ p, ¬ due' .nread p := fun p hd => h p (hdue _ p hd)
    by_cases hempty : pi.nread = pi.nwrite
    · rw [if_pos hempty]
      exact ok_pipereadEnd i h'
    rw [if_neg hempty]
    refine (ok_setPipe (fun χ p => due' χ p ∨ χ = .nwrite)
      (fun pi => { pi with nread := pi.nread + 1 })
      (.inl rfl) (fun χ p hd => .inl hd) fun χ p hc => ?_).seq ?_
    · cases χ with
      | nread => exact absurd hc.1 hempty
      | nwrite => exact .inr (.inr rfl)
    · rintro _ _ rfl
      have h'' : ∀ p, ¬ (due' .nread p ∨ Chan.nread = .nwrite) := by
        rintro p (hd | hd)
        · exact h' p hd
        · cases hd
      split_ifs
      · exact ih (i + 1) h''
      · exact ok_pipereadEnd i h''

theorem ok_pipereadLoop (m : ℤ) (room : ℕ) (h : ∀ χ p, ¬ due χ p) :
    Does (.proc p) (pipereadLoop p m room) (busy v due (.uses false)) Rest := by
  refine ok_pipe.seq ?_
  rintro pi _ ⟨rfl, due', rfl, hdue, -⟩
  have h' : ∀ χ p, ¬ due' χ p := fun χ p hd => h χ p (hdue χ p hd)
  split_ifs with hempty
  · refine (ok_killed (Q := fun _ => True) fun _ _ _ _ _ _ _ => trivial).seq ?_
    rintro b _ ⟨rfl, -⟩
    split_ifs
    · exact ok_giveUp fun χ p hd => absurd hd (h' χ p)
    · refine (ok_sleep (M := monitor n) (χ := .nread) (v := pi) (by rfl) (by rfl) (by rfl) trivial
        (fun χ p hd => absurd hd (h' χ p)) hempty (fun _ => rfl)).next fun _ => ?_
      exact .reading ..
  · exact ok_pipereadFrom room _ 0 (h' _)

theorem ok_lock :
    Does t (act (.acquire (.data ()))) ⟨none, none, none, use⟩ fun _ ℓ' =>
      ∃ v, ℓ' = busy v (fun _ _ => False) use := by
  refine (ok_acquire (M := monitor n) (by rfl)).mono ?_
  rintro _ _ ⟨v, -, rfl⟩
  exact ⟨v, rfl⟩

theorem ok_awake_pipe (χ : Chan) :
    Does (.proc p) (awake p ()) ⟨none, none, some (χ, true), use⟩ fun _ ℓ' =>
      ∃ v, ℓ' = busy v (fun _ _ => False) use := by
  refine (ok_awake (M := monitor n) (by rfl) (by rfl)).mono ?_
  rintro _ _ ⟨v, -, rfl⟩
  exact ⟨v, rfl⟩

theorem ok_pipeclose (w : Bool) :
    Does t (pipeclose w) ⟨none, none, none, .closes w⟩ fun _ ℓ' =>
      ℓ' = ⟨none, none, none, .closes w⟩ := by
  refine ok_lock.seq ?_
  rintro _ _ ⟨v, rfl⟩
  have hread : (v.closed w).readopen = v.readopen ∨ Use.closes w = .closes false := by
    cases w
    · exact .inr rfl
    · exact .inl rfl
  refine (ok_setPipe (fun χ _ => χ = if w then .nread else .nwrite) (fun pi => pi.closed w)
    hread (fun _ _ hd => hd.elim) fun χ p hc => ?_).seq ?_
  · cases w with
    | false =>
      cases χ with
      | nread => exact .inl hc
      | nwrite => exact .inr rfl
    | true =>
      cases χ with
      | nread => exact .inr rfl
      | nwrite => exact .inl hc
  · rintro _ _ rfl
    refine (ok_wakeup (by rfl) (by rfl) (by rfl)).seq ?_
    rintro _ _ ⟨due', rfl, hdue⟩
    refine ok_pipe.seq ?_
    rintro pi _ ⟨rfl, due'', rfl, hdue', -⟩
    have hnone : ∀ χ p, due'' χ p → Finds χ (v.closed w) := by
      intro χ p hd
      have := hdue χ p (hdue' χ p hd)
      exact absurd this.1 this.2
    by_cases hboth : (v.closed w).readopen = false ∧ (v.closed w).writeopen = false
    · rw [if_pos hboth]
      refine (ok_release (M := monitor n) (by rfl) trivial hnone).next fun _ => ?_
      refine ok_aside (by rfl) fun d ext hx ht b d' hd => ?_
      cases hd
      refine ⟨.closes w, rfl, ?_, rfl⟩
      rw [show Use.closes w = ext t from ht.symm, update_eq_self]
      exact { hx with }
    · rw [if_neg hboth]
      refine (ok_release (M := monitor n) (by rfl) trivial hnone).mono fun _ ℓ' hℓ => ?_
      rw [hℓ]
      rfl

theorem setFds_self (d : Data n) (p : Fin n) (w : Bool) (k : ℕ) : (d.setFds p w k).fds p w = k := by
  simp [Data.setFds]

theorem setFds_of_ne (d : Data n) {w w' : Bool} (k : ℕ) (h : ¬ (q = p ∧ w' = w)) :
    (d.setFds p w k).fds q w' = d.fds q w' := by
  change update d.fds p (update (d.fds p) w k) q w' = _
  by_cases hq : q = p
  · subst hq
    have hw : w' ≠ w := fun hw => h ⟨rfl, hw⟩
    rw [update_self, update_of_ne hw]
  · rw [update_of_ne hq]

theorem ok_argfd (w : Bool) :
    Does (.proc p) (argfd p w) ⟨none, none, none, use⟩ fun b ℓ' =>
      ℓ' = ⟨none, none, none, if b then .uses w else .none⟩ := by
  refine ok_aside (by rfl) fun d ext hx ht b d' hd => ?_
  cases hd
  refine ⟨if 0 < d.fds p w then .uses w else .none, rfl, ⟨fun q w' hq => ?_, fun u w' hu => ?_,
    hx.readopen⟩, ?_⟩
  · have hold := hx.uses
    grind
  · grind [hx.closes]
  · simp only [decide_eq_true_eq]

theorem ok_share (w : Bool) :
    Does (.proc p) (PipeSleep.share p q w) ⟨none, none, none, use⟩ Rest := by
  refine (ok_aside (Q := fun _ ℓ' => ∃ u, ℓ' = ⟨none, none, none, u⟩) (by rfl)
    fun d ext hx ht b d' hd => ?_).seq ?_
  · cases hd
    refine ⟨use, ?_, ?_, use, rfl⟩
    · dsimp only
      split_ifs <;> rfl
    · rw [show use = ext (.proc p) from ht.symm, update_eq_self]
      dsimp only
      split_ifs with hpos
      · have hsame : ∀ r w', w' = w ∨ (d.setFds q w (d.fds q w + 1)).fds r w' = d.fds r w' := by
          intro r w'
          by_cases hw : w' = w
          · exact .inl hw
          · exact .inr (setFds_of_ne d _ fun h => hw h.2)
        refine ⟨fun r w' hr => ?_, fun u w' hu r => ?_, fun hclosed r => ?_⟩
        · by_cases h : r = q ∧ w' = w
          · obtain ⟨rfl, rfl⟩ := h
            rw [setFds_self]
            omega
          · rw [setFds_of_ne d _ h]
            exact hx.uses r w' hr
        · rcases hsame r w' with rfl | hs
          · have := hx.closes u w' hu p
            omega
          · rw [hs]
            exact hx.closes u w' hu r
        · rcases hsame r false with rfl | hs
          · have := hx.readopen hclosed p
            omega
          · rw [hs]
            exact hx.readopen hclosed r
      · exact hx
  · rintro _ _ ⟨u, rfl⟩
    exact .user _ _

theorem ok_fileclose (w : Bool) :
    Does (.proc p) (PipeSleep.fileclose p w) ⟨none, none, none, use⟩ fun b ℓ' =>
      ℓ' = ⟨none, none, none, if b then .closes w else .none⟩ := by
  refine ok_aside (by rfl) fun d ext hx ht b d' hd => ?_
  split_ifs at hd with hpos
  · cases hd
    have hle : ∀ r w', (d.setFds p w (d.fds p w - 1)).fds r w' ≤ d.fds r w' := by
      intro r w'
      by_cases h : r = p ∧ w' = w
      · obtain ⟨rfl, rfl⟩ := h
        rw [setFds_self]
        omega
      · rw [setFds_of_ne d _ h]
    refine ⟨if ∀ q, (d.setFds p w (d.fds p w - 1)).fds q w = 0 then .closes w else .none, rfl,
      ⟨fun q w' hq => ?_, fun u w' hu r => ?_, fun hclosed r => ?_⟩, ?_⟩
    · have hqp : q ≠ p := by
        rintro rfl
        rw [update_self] at hq
        split_ifs at hq
      rw [update_of_ne (fun he => hqp (Thread.proc.inj he))] at hq
      rw [setFds_of_ne d _ fun h => hqp h.1]
      exact hx.uses q w' hq
    · grind [hx.closes]
    · have h1 := hx.readopen hclosed r
      have h2 := hle r false
      omega
    · simp only [decide_eq_true_eq]
  · cases hd
    refine ⟨.none, rfl, ⟨fun q w' hq => ?_, fun u w' hu => ?_, hx.readopen⟩, rfl⟩
    · have hold := hx.uses
      grind
    · grind [hx.closes]

theorem ok_call {l : Loc} {c : PipeProg n Loc} {ℓ : Ghost n Chan Pipe Use} (h : Calls t l c)
    (hℓ : Rest l ℓ) : Does t c ℓ Rest := by
  cases h with
  | write p r src m =>
    cases hℓ
    refine (ok_argfd true).next fun b => ?_
    split_ifs
    · refine ok_lock.seq ?_
      rintro _ _ ⟨v, rfl⟩
      exact ok_pipewriteFrom src m _ 0 fun _ hd => hd
    · exact .user _ _
  | writeOn p src m i =>
    cases hℓ
    refine (ok_awake_pipe .nwrite).seq ?_
    rintro _ _ ⟨v, rfl⟩
    exact ok_pipewriteFrom src m _ i fun _ hd => hd
  | read p r m room =>
    cases hℓ
    refine (ok_argfd false).next fun b => ?_
    split_ifs
    · refine ok_lock.seq ?_
      rintro _ _ ⟨v, rfl⟩
      exact ok_pipereadLoop m room fun _ _ hd => hd
    · exact .user _ _
  | readOn p m room =>
    cases hℓ
    refine (ok_awake_pipe .nread).seq ?_
    rintro _ _ ⟨v, rfl⟩
    exact ok_pipereadLoop m room fun _ _ hd => hd
  | close p r w =>
    cases hℓ
    refine (ok_fileclose w).next fun b => ?_
    split_ifs
    · refine (ok_pipeclose w).next fun _ => ?_
      exact .user _ _
    · exact .user _ _
  | share p q r w =>
    cases hℓ
    exact ok_share w
  | kill p r pid =>
    cases hℓ
    refine (ok_kill pid (by rfl) (by rfl)).next fun _ => ?_
    exact .user _ _

theorem asleep_of_inv {g : Kernel n Unit Chan (Data n)} {Λ : Thread n → Ghost n Chan Pipe Use}
    (hI : Inv (monitor n) g Λ) (hfree : g.lock () = none) : Asleep g where
  reader := fun _ hs hχ => (hI.sleeper hfree hs hχ).2
  writer := fun _ hs hχ => (hI.sleeper hfree hs hχ).2
  notBoth := by
    intro p q hp hχ hq hχ'
    have hempty : Finds .nread g.data.pipe := (hI.sleeper hfree hp hχ).2
    have hfull : Finds .nwrite g.data.pipe := (hI.sleeper hfree hq hχ').2
    exact not_full_of_finds hempty hfull.1

/-- In every run in which no writer that finds the pipe full finds itself killed, whoever
    sleeps on the pipe while its lock is free could not go on. -/
theorem pipe_sleepers_wait (bytes : Fin PIPESIZE → UInt8) (pid : Fin n → ℕ)
    (fds : Fin n → Bool → ℕ)
    {s : Sys (Thread n) (Act n Unit Chan (Data n)) Loc (Kernel n Unit Chan (Data n))}
    (h : Reach (pipeUsers n) Alive (boot bytes pid fds) s) (hfree : s.g.lock () = none) :
    Asleep s.g := by
  have hboot : Holds (pipeUsers n) Alive (outline (monitor n) fun _ => Rest)
      (boot bytes pid fds) fun _ => ⟨none, none, none, .none⟩ := by
    refine ⟨inv_boot trivial ⟨nofun, nofun, nofun⟩, fun _ => ?_⟩
    exact Rest.user 0 .none
  obtain ⟨Λ, hI, -⟩ := Holds.reach (fun _ _ _ _ => ok_call)
    (fun _ _ _ _ hno => absurd hno not_false) hboot h
  exact asleep_of_inv hI hfree

def aliveTest : Thread n → {β : Type} → Act n Unit Chan (Data n) β → Kernel n Unit Chan (Data n) →
    Bool
  | .proc p, _, .proc .killed, g => decide (full g.data.pipe → (g.proc p).killed = false)
  | _, _, _, _ => true

theorem alive_of_test (t : Thread n) (β : Type) (a : Act n Unit Chan (Data n) β)
    (g : Kernel n Unit Chan (Data n)) (h : aliveTest t a g = true) : Alive t a g := by
  unfold Alive
  split
  · exact of_decide_eq_true h
  · trivial

def readerSleeps (p : Fin n)
    (s : Sys (Thread n) (Act n Unit Chan (Data n)) Loc (Kernel n Unit Chan (Data n))) : Bool :=
  s.g.lock () = none ∧ (s.g.proc p).state = .sleeping ∧ (s.g.proc p).chan = some .nread

theorem pipe_sleepers_wait_one :
    ∃ s, Reach (pipeUsers 2) Alive (boot (fun _ => 0) (fun p => p.val + 1) fun _ _ => 1) s ∧
      (s.g.proc 0).state = .sleeping ∧ Asleep s.g := by
  obtain ⟨s, hs, htest⟩ := exists_of_play (S := pipeUsers 2) alive_of_test
    [.start (.proc 0) (.user 0) _ (Calls.read 0 0 1 1), .acts (.proc 0) 9]
    (boot (fun _ => 0) (fun p => p.val + 1) fun _ _ => 1) (readerSleeps 0) (by decide +kernel)
  have hfacts := of_decide_eq_true htest
  exact ⟨s, hs, hfacts.2.1, pipe_sleepers_wait _ _ _ hs hfacts.1⟩

def readerStuck (p : Fin n)
    (s : Sys (Thread n) (Act n Unit Chan (Data n)) Loc (Kernel n Unit Chan (Data n))) : Bool :=
  readerSleeps p s ∧ s.g.data.pipe.nread ≠ s.g.data.pipe.nwrite

/-- A reader goes to sleep; a third process kills the writer after its first byte, and the writer
    fills the pipe and returns. -/
theorem killed_writer_leaves_reader :
    ∃ s, Reach (pipeUsers 3) always (boot (fun _ => 0) (fun p => p.val + 1) fun _ _ => 1) s ∧
      s.g.lock () = none ∧ ¬ Asleep s.g := by
  obtain ⟨s, hs, htest⟩ := exists_of_freely (S := pipeUsers 3)
    [.start (.proc 0) (.user 0) _ (Calls.read 0 0 1 1), .acts (.proc 0) 9,
      .start (.proc 1) (.user 0) _ (Calls.write 1 0 (List.replicate 513 0) 513),
      .acts (.proc 1) 4,
      .start (.proc 2) (.user 0) _ (Calls.kill 2 0 2), .acts (.proc 2) 8,
      .acts (.proc 1) 1025]
    (boot (fun _ => 0) (fun p => p.val + 1) fun _ _ => 1) (readerStuck 0) (by decide +kernel)
  have hstuck := of_decide_eq_true htest
  have hsleep := of_decide_eq_true hstuck.1
  exact ⟨s, hs, hsleep.1, fun h => hstuck.2 (h.reader 0 hsleep.2.1 hsleep.2.2).1⟩

end Xv6.PipeWakeups
