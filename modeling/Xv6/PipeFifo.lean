import Mathlib.Algebra.BigOperators.Ring.Finset
import Xv6.Counting
import Xv6.PipeCode
import Xv6.RingBuffer

set_option autoImplicit false

namespace Xv6.PipeFifo
open Resumption Interleaving Accounting PipeCode RingBuffer
open Function (update update_eq_self update_of_ne update_self)

variable {pi : Pipe} {w : Bool} {r n : ℤ} {src : ℕ → UInt8} {fds : Bool → ℕ}

structure Ghost where
  fds : Bool → ℕ
  held : Option Pipe
  /-- The end whose last descriptor the process has given up and that it has not closed yet. -/
  closing : Option Bool
  freeing : Bool
  call : Option Call
  done : List UInt8

variable {ℓ' ℓ : Ghost}

def Ghost.Stake (ℓ : Ghost) (w : Bool) : Prop := 0 < ℓ.fds w ∨ ℓ.closing = some w

def isOpen (pi : Pipe) : Bool → Bool
  | true => pi.writeopen
  | false => pi.readopen

def allClosed (pi : Pipe) : Prop := ∀ w, isOpen pi w = false

variable {T : Type}
variable {s : State T} {Λ : T → Ghost} {t : T} {l : List (Event T)}

structure Record [DecidableEq T] (s : State T) (Λ : T → Ghost) : Prop where
  ring : Ring (2 ^ 32) s.pipe.data s.pipe.nread.toNat s.pipe.nwrite.toNat
    (stored s.trace) (fetched s.trace)
  account : Account s.trace
  call : ∀ t, progress t s.trace = ((Λ t).call, (Λ t).done)
  closed : s.pipe.writeopen = false → .close true ∈ s.trace

structure Ends [Fintype T] (s : State T) (Λ : T → Ghost) : Prop where
  lock : ∀ t, s.lock = some t ↔ (Λ t).held ≠ none
  held : ∀ t pi, (Λ t).held = some pi → pi = s.pipe
  ref : ∀ w, s.ref w = ∑ t, (Λ t).fds w
  stake : ∀ w, isOpen s.pipe w = true ↔ ∃ t, (Λ t).Stake w
  closing : ∀ t w, (Λ t).closing = some w → s.ref w = 0 ∧ ∀ u, (Λ u).closing = some w → u = t
  last : allClosed s.pipe → ∀ t, (Λ t).held ≠ none → (Λ t).freeing = true
  freeing : ∀ t, (Λ t).freeing = true →
    allClosed s.pipe ∧ s.freed = false ∧ ∀ u, (Λ u).freeing = true → u = t
  freed : s.freed = true → allClosed s.pipe

structure Inv [DecidableEq T] [Fintype T] (s : State T) (Λ : T → Ghost) : Prop where
  record : Record s Λ
  ends : Ends s Λ

section Record

variable [DecidableEq T]

theorem progress_snoc (t : T) (l : List (Event T)) (e : Event T) :
    progress t (l ++ [e]) = advance t (progress t l) e := List.foldl_concat ..

omit [DecidableEq T] in
theorem stored_snoc (l : List (Event T)) (e : Event T) :
    stored (l ++ [e]) = stored l ++ e.stored.toList := by
  unfold stored
  rw [List.filterMap_append]
  cases he : e.stored <;> simp [he]

omit [DecidableEq T] in
theorem fetched_snoc (l : List (Event T)) (e : Event T) :
    fetched (l ++ [e]) = fetched l ++ e.fetched.toList := by
  unfold fetched
  rw [List.filterMap_append]
  cases he : e.fetched <;> simp [he]

def By (t : T) (e : Event T) : Prop := ∀ u p, u ≠ t → advance u p e = p

theorem by_call (t : T) (c : Call) : By t (.call t c) := fun _ _ hu => if_neg hu.symm

theorem by_store (t : T) (b : UInt8) : By t (.store t b) := fun _ _ hu => if_neg hu.symm

theorem by_fetch (t : T) (b : UInt8) : By t (.fetch t b) := fun _ _ hu => if_neg hu.symm

theorem Record.snoc {e : Event T}
    (h : Record s Λ) (hby : By t e)
    (hring : Ring (2 ^ 32) pi.data pi.nread.toNat pi.nwrite.toNat
      (stored (s.trace ++ [e])) (fetched (s.trace ++ [e])))
    (hright : Right s.trace e)
    (hcall : advance t ((Λ t).call, (Λ t).done) e = (ℓ'.call, ℓ'.done))
    (hclosed : pi.writeopen = false → s.pipe.writeopen = false ∨ e = .close true) :
    Record { s with pipe := pi, trace := s.trace ++ [e] } (update Λ t ℓ') where
  ring := hring
  account := Accounted.snoc h.account hright
  call := by
    intro u
    change progress u (s.trace ++ [e]) = _
    rw [progress_snoc, h.call u]
    by_cases hu : u = t
    · subst hu
      rw [update_self]
      exact hcall
    · rw [update_of_ne hu]
      exact hby u _ hu
  closed := by
    intro hw
    rcases hclosed hw with hw' | he
    · exact List.mem_append_left _ (h.closed hw')
    · subst he
      exact List.mem_append_right _ (List.mem_singleton.2 rfl)

theorem Record.same {s' : State T} (h : Record s Λ) (hpipe : s'.pipe = s.pipe)
    (htrace : s'.trace = s.trace) (hcall : ℓ'.call = (Λ t).call) (hdone : ℓ'.done = (Λ t).done) :
    Record s' (update Λ t ℓ') where
  ring := by
    rw [hpipe, htrace]
    exact h.ring
  account := by
    rw [htrace]
    exact h.account
  call := by
    intro u
    rw [htrace, h.call u]
    grind
  closed := by
    rw [hpipe, htrace]
    exact h.closed

end Record

variable [Fintype T]

theorem Ends.not_allClosed (h : Ends s Λ) (hs : (Λ t).Stake w) : ¬ allClosed s.pipe := by
  intro hover
  have hopen : isOpen s.pipe w = true := (h.stake w).2 ⟨t, hs⟩
  rw [hover w] at hopen
  cases hopen

theorem Ends.not_freed_of_stake (h : Ends s Λ) (hs : (Λ t).Stake w) : s.freed = false := by
  cases hfreed : s.freed with
  | false => rfl
  | true => exact absurd (h.freed hfreed) (h.not_allClosed hs)

theorem Ends.not_freed_of_held (h : Ends s Λ) (hheld : (Λ t).held ≠ none) : s.freed = false := by
  cases hfreed : s.freed with
  | false => rfl
  | true =>
    have hlast := h.last (h.freed hfreed) t hheld
    rw [(h.freeing t hlast).2.1] at hfreed
    cases hfreed

variable [DecidableEq T]

theorem Ends.hold {s' : State T} (h : Ends s Λ) (hfreed : s'.freed = s.freed)
    (href : s'.ref = s.ref) (hopen : ∀ w, isOpen s'.pipe w = isOpen s.pipe w)
    (hlock : s'.lock = some t ↔ ℓ'.held ≠ none)
    (hothers : ∀ u, u ≠ t → (s'.lock = some u ↔ s.lock = some u))
    (hheld : ∀ pi, ℓ'.held = some pi → pi = s'.pipe) (hpipe : s'.pipe = s.pipe ∨ s.lock = some t)
    (hlast : allClosed s.pipe → ℓ'.held ≠ none → (Λ t).freeing = true) (hfds : ℓ'.fds = (Λ t).fds)
    (hclosing : ℓ'.closing = (Λ t).closing) (hfreeing : ℓ'.freeing = (Λ t).freeing) :
    Ends s' (update Λ t ℓ') := by
  have hover : allClosed s'.pipe ↔ allClosed s.pipe := by
    unfold allClosed
    simp only [hopen]
  have hF (u : T) : (update Λ t ℓ' u).fds = (Λ u).fds :=
    proj_update Ghost.fds hfds u
  have hC (u : T) : (update Λ t ℓ' u).closing = (Λ u).closing :=
    proj_update Ghost.closing hclosing u
  have hR (u : T) : (update Λ t ℓ' u).freeing = (Λ u).freeing :=
    proj_update Ghost.freeing hfreeing u
  constructor
  · intro u
    grind [h.lock]
  · intro u pi hu'
    have hheld := h.held
    have hlock := h.lock
    -- Only the holder of the lock knows anything of the pipe.
    grind
  · intro w
    simp only [href, hF]
    exact h.ref w
  · intro w
    simp only [hopen, Ghost.Stake, hF, hC]
    exact h.stake w
  · intro u w
    simp only [hC, href]
    exact h.closing u w
  · intro ho u hu'
    rw [hR]
    grind [h.last]
  · intro u
    simp only [hR, hover, hfreed]
    exact h.freeing u
  · rw [hfreed, hover]
    exact h.freed

def Rest (l : Loc) (ℓ : Ghost) : Prop :=
  ℓ.fds = l.fds ∧ ℓ.held = none ∧ ℓ.closing = none ∧ ℓ.freeing = false ∧
    match l.work with
    | .idle => True
    | .writing src n i => 0 < ℓ.fds true ∧ i ≤ n.toNat ∧ ℓ.call = some (.write src n) ∧
        ℓ.done = (List.range i).map src
    | .reading n => 0 < ℓ.fds false ∧ ℓ.call = some (.read n) ∧ ℓ.done = []

def outline : Outline T Act Loc (State T) Ghost where
  I := Inv
  safe := fun t _ a s _ => exec t a s ≠ .undefined ∧ ∀ msg, exec t a s ≠ .panic msg
  rest := fun _ => Rest

abbrev Ok {α : Type} (t : T) (p : Prog Act α) (ℓ : Ghost) (Q : α → Ghost → Prop) : Prop :=
  Valid (pipeSystem T) always outline t p ℓ Q

theorem ok_act {β : Type} {a : Act β} {Q : β → Ghost → Prop}
    (h : ∀ s (Λ : T → Ghost), Λ t = ℓ → Inv s Λ → ∃ b s' ℓ', exec t a s = .done b s' ∧
      Inv s' (update Λ t ℓ') ∧ Q b ℓ') : Ok t (act a) ℓ Q := by
  apply Valid.perform
  intro s Λ hl hI
  obtain ⟨b, s', ℓ', hexec, hI', hQ⟩ := h s Λ hl hI
  change (exec t a s ≠ _ ∧ ∀ msg, exec t a s ≠ _) ∧ (_ → ∀ b' g', exec t a s = _ → _)
  rw [hexec]
  constructor
  · exact ⟨nofun, fun _ => nofun⟩
  · intro _ b' g' hdone
    cases hdone
    exact ⟨ℓ', hI', hQ⟩

omit [Fintype T] [DecidableEq T] in
theorem access_of_not_freed {β : Type} (h : s.freed = false) (r : Outcome β (State T)) :
    access s r = r := by
  unfold access
  rw [h]
  rfl

theorem ok_call (c : Call) :
    Ok t (act (.call c)) ℓ fun _ ℓ' => ℓ' = { ℓ with call := some c, done := [] } := by
  apply ok_act
  intro s Λ hl hI
  subst hl
  refine ⟨(), _, _, rfl, ⟨?_, ?_⟩, rfl⟩
  · apply hI.record.snoc (by_call t c)
    · simpa only [stored_snoc, fetched_snoc, Event.stored, Event.fetched, Option.toList_none,
        List.append_nil] using hI.record.ring
    · trivial
    · exact if_pos rfl
    · exact Or.inl
  · exact hI.ends.hold rfl rfl (fun _ => rfl) (hI.ends.lock t) (fun _ _ => Iff.rfl)
      (hI.ends.held t) (.inl rfl) (fun ho => hI.ends.last ho t) rfl rfl rfl

theorem ok_acquire (hs : ℓ.Stake w) :
    Ok t (act .acquire) ℓ fun _ ℓ' => ∃ pi, ℓ' = { ℓ with held := some pi } := by
  apply Valid.perform
  intro s Λ hl hI
  subst hl
  change (exec t .acquire s ≠ _ ∧ ∀ msg, exec t .acquire s ≠ _) ∧
    (_ → ∀ b' g', exec t .acquire s = _ → _)
  simp only [exec, access_of_not_freed (hI.ends.not_freed_of_stake hs)]
  split_ifs with hlock
  · constructor
    · exact ⟨nofun, fun _ => nofun⟩
    · intro _ b g' hdone
      cases hdone
      refine ⟨_, ⟨?_, ?_⟩, s.pipe, rfl⟩
      · exact hI.record.same rfl rfl rfl rfl
      · refine hI.ends.hold rfl rfl (fun _ => rfl) ?_ ?_ ?_ (.inl rfl) ?_ rfl rfl rfl
        · exact iff_of_true rfl (Option.some_ne_none _)
        · intro u hu
          rw [hlock]
          exact iff_of_false (fun h => hu (Option.some.inj h).symm) nofun
        · intro pi hpi
          exact (Option.some.inj hpi).symm
        · intro ho
          exact absurd ho (hI.ends.not_allClosed hs)
  · exact ⟨⟨nofun, fun _ => nofun⟩, nofun⟩

theorem ok_release (hh : ℓ.held ≠ none) :
    Ok t (act .release) ℓ fun _ ℓ' => ℓ' = { ℓ with held := none } := by
  apply ok_act
  intro s Λ hl hI
  subst hl
  have hlock : s.lock = some t := (hI.ends.lock t).2 hh
  refine ⟨(), { s with lock := none }, _, ?_, ⟨?_, ?_⟩, rfl⟩
  · simp only [exec, access_of_not_freed (hI.ends.not_freed_of_held hh), if_pos hlock]
  · exact hI.record.same rfl rfl rfl rfl
  · refine hI.ends.hold rfl rfl (fun _ => rfl) ?_ ?_ nofun (.inl rfl) ?_ rfl rfl rfl
    · exact iff_of_false nofun (fun h => h rfl)
    · intro u hu
      rw [hlock]
      exact iff_of_false nofun (fun h => hu (Option.some.inj h).symm)
    · intro _ h
      exact absurd rfl h

theorem ok_get {x : Pipe} (hh : ℓ.held = some x) :
    Ok t (act .get) ℓ fun b ℓ' => b = x ∧ ℓ' = ℓ := by
  apply ok_act
  intro s Λ hl hI
  have hpi : x = s.pipe := hI.ends.held t x (by rw [hl, hh])
  have hne : (Λ t).held ≠ none := by
    rw [hl, hh]
    exact Option.some_ne_none x
  refine ⟨s.pipe, s, ℓ, ?_, ?_, hpi.symm, rfl⟩
  · simp only [exec, access_of_not_freed (hI.ends.not_freed_of_held hne)]
  · rw [← hl, update_eq_self]
    exact hI

theorem Inv.turn {e : Event T}
    (hI : Inv s Λ) (hh : (Λ t).held ≠ none) (hby : By t e)
    (hring : Ring (2 ^ 32) pi.data pi.nread.toNat pi.nwrite.toNat
      (stored (s.trace ++ [e])) (fetched (s.trace ++ [e])))
    (hright : Right s.trace e)
    (hcall : advance t ((Λ t).call, (Λ t).done) e = (ℓ'.call, ℓ'.done))
    (hopen : ∀ w, isOpen pi w = isOpen s.pipe w) (hheld : ℓ'.held = some pi)
    (hfds : ℓ'.fds = (Λ t).fds) (hclosing : ℓ'.closing = (Λ t).closing)
    (hfreeing : ℓ'.freeing = (Λ t).freeing) :
    Inv { s with pipe := pi, trace := s.trace ++ [e] } (update Λ t ℓ') := by
  have hlock : s.lock = some t := (hI.ends.lock t).2 hh
  have hne : ℓ'.held ≠ none := by
    rw [hheld]
    exact Option.some_ne_none pi
  constructor
  · apply hI.record.snoc hby hring hright hcall
    intro hw
    exact .inl ((hopen true).symm.trans hw)
  · refine hI.ends.hold rfl rfl hopen ?_ (fun _ _ => Iff.rfl) ?_ (.inr hlock) ?_ hfds hclosing
      hfreeing
    · exact iff_of_true hlock hne
    · intro pi' h
      rw [hheld] at h
      exact (Option.some.inj h).symm
    · intro ho _
      exact hI.ends.last ho t hh

theorem toNat_succ (n : UInt32) : (n + 1).toNat = (n.toNat + 1) % 2 ^ 32 := UInt32.toNat_add n 1

theorem full_iff (pi : Pipe) : pi.nwrite = pi.nread + UInt32.ofNat PIPESIZE ↔
    pi.nwrite.toNat = (pi.nread.toNat + PIPESIZE) % 2 ^ 32 := by
  rw [← UInt32.toNat_inj, UInt32.toNat_add]
  rfl

theorem ok_store (b : UInt8) (hh : ℓ.held = some pi)
    (hroom : pi.nwrite ≠ pi.nread + UInt32.ofNat PIPESIZE) :
    Ok t (act (.store b)) ℓ fun _ ℓ' =>
      ∃ pi', ℓ' = { ℓ with held := some pi', done := ℓ.done ++ [b] } := by
  apply ok_act
  intro s Λ hl hI
  subst hl
  have hpi : pi = s.pipe := hI.ends.held t pi hh
  have hne : (Λ t).held ≠ none := by
    rw [hh]
    exact Option.some_ne_none pi
  subst hpi
  have hlt : (stored s.trace).length < (fetched s.trace).length + PIPESIZE := by
    apply Nat.lt_of_le_of_ne hI.record.ring.room
    intro hfull
    exact hroom ((full_iff _).2 ((hI.record.ring.full_iff (by decide)).2 hfull))
  have hpush := hI.record.ring.push (by decide) hlt b
  refine ⟨(), _, _, access_of_not_freed (hI.ends.not_freed_of_held hne) _, ?_, s.pipe.put b, rfl⟩
  · refine hI.turn hne (by_store t b) ?_ ?_ ?_ (fun w => by cases w <;> rfl) rfl rfl rfl rfl
    · simp only [stored_snoc, fetched_snoc, Event.stored, Event.fetched, Option.toList_none,
        Option.toList_some, List.append_nil, Pipe.put, toNat_succ]
      exact hpush
    · trivial
    · exact if_pos rfl

theorem ok_fetch (hh : ℓ.held = some pi) (hsome : pi.nread ≠ pi.nwrite) :
    Ok t (act .fetch) ℓ fun _ ℓ' =>
      ∃ pi' b, ℓ' = { ℓ with held := some pi', done := ℓ.done ++ [b] } := by
  apply ok_act
  intro s Λ hl hI
  subst hl
  have hpi : pi = s.pipe := hI.ends.held t pi hh
  have hne : (Λ t).held ≠ none := by
    rw [hh]
    exact Option.some_ne_none pi
  subst hpi
  have hleft : fetched s.trace ≠ stored s.trace := by
    intro heq
    exact hsome (UInt32.toNat_inj.1 ((hI.record.ring.empty_iff (by decide)).2 heq))
  have hpop := hI.record.ring.pop (by decide) hleft
  refine ⟨(), _, _, access_of_not_freed (hI.ends.not_freed_of_held hne) _, ?_,
    { s.pipe with nread := s.pipe.nread + 1 }, s.pipe.data (slot s.pipe.nread), rfl⟩
  · refine hI.turn hne (by_fetch t _) ?_ ?_ ?_ (fun w => by cases w <;> rfl) rfl rfl rfl rfl
    · simp only [stored_snoc, fetched_snoc, Event.stored, Event.fetched, Option.toList_none,
        Option.toList_some, List.append_nil, toNat_succ]
      exact hpop
    · trivial
    · exact if_pos rfl

theorem ok_ret (hright : ∀ s (Λ : T → Ghost), Λ t = ℓ → Inv s Λ → Right s.trace (.ret t r)) :
    Ok t (act (.ret r)) ℓ fun _ ℓ' => ℓ' = ℓ := by
  apply ok_act
  intro s Λ hl hI
  refine ⟨(), _, ℓ, rfl, ⟨?_, ?_⟩, rfl⟩
  · apply hI.record.snoc (fun _ _ _ => rfl) _ (hright s Λ hl hI) _ Or.inl
    · simpa only [stored_snoc, fetched_snoc, Event.stored, Event.fetched, Option.toList_none,
        List.append_nil] using hI.record.ring
    · rw [hl]
      rfl
  · subst hl
    exact hI.ends.hold rfl rfl (fun _ => rfl) (hI.ends.lock t) (fun _ _ => Iff.rfl)
      (hI.ends.held t) (.inl rfl) (fun ho => hI.ends.last ho t) rfl rfl rfl

theorem isOpen_closed (pi : Pipe) (w v : Bool) :
    isOpen (pi.closed w) v = if v = w then false else isOpen pi v := by
  cases w <;> cases v <;> rfl

omit [DecidableEq T] in
theorem Ends.fds_le (h : Ends s Λ) (t : T) (w : Bool) : (Λ t).fds w ≤ s.ref w := by
  rw [h.ref w]
  exact Counting.le_sum (Finset.mem_univ t) fun u => (Λ u).fds w

theorem Ends.close {f : Bool} (h : Ends s Λ) (hh : (Λ t).held ≠ none) (hc : (Λ t).closing = some w)
    (hfds : ℓ'.fds = (Λ t).fds) (hheld : ℓ'.held = some (s.pipe.closed w))
    (hclosing : ℓ'.closing = none) (hfreeing : ℓ'.freeing = f)
    (hf : f = true ↔ allClosed (s.pipe.closed w)) :
    Ends { s with pipe := s.pipe.closed w, trace := l } (update Λ t ℓ') := by
  obtain ⟨href, honly⟩ := h.closing t w hc
  have hnot : ¬ allClosed s.pipe := h.not_allClosed (Or.inr hc)
  have hfree (u : T) : (Λ u).freeing ≠ true := fun hu => hnot (h.freeing u hu).1
  have hlock : s.lock = some t := (h.lock t).2 hh
  have hother {u : T} (hu : u ≠ t) : (Λ u).held = none := by
    by_contra hne
    have := (h.lock u).2 hne
    rw [hlock] at this
    exact hu (Option.some.inj this).symm
  have hF (u : T) : (update Λ t ℓ' u).fds = (Λ u).fds :=
    proj_update Ghost.fds hfds u
  constructor
  · intro u
    grind [h.lock]
  · intro u pi hu'
    grind
  · intro v
    simp only [hF]
    exact h.ref v
  · intro v
    rw [isOpen_closed]
    split_ifs with hv
    · subst hv
      refine iff_of_false nofun ?_
      rintro ⟨u, hu' | hu'⟩
      · rw [hF] at hu'
        have := h.fds_le u v
        omega
      · grind
    · rw [h.stake v]
      refine exists_congr fun u => ?_
      unfold Ghost.Stake
      rw [hF]
      grind
  · intro u v hu'
    grind [h.closing]
  · intro ho u hu'
    grind
  · intro u hu'
    grind [h.not_freed_of_held]
  · intro hfreed
    change s.freed = true at hfreed
    rw [h.not_freed_of_held hh] at hfreed
    cases hfreed

theorem ok_close {x : Pipe} (hh : ℓ.held = some x) (hc : ℓ.closing = some w) :
    Ok t (act (.close w)) ℓ fun _ ℓ' => ∃ f, (f = true ↔ allClosed (x.closed w)) ∧
      ℓ' = { ℓ with held := some (x.closed w), closing := none, freeing := f } := by
  apply ok_act
  intro s Λ hl hI
  subst hl
  have hpi : x = s.pipe := hI.ends.held t x hh
  have hne : (Λ t).held ≠ none := by
    rw [hh]
    exact Option.some_ne_none x
  subst hpi
  have hdec : ∃ f : Bool, f = true ↔ allClosed (s.pipe.closed w) := by
    by_cases ho : allClosed (s.pipe.closed w)
    · exact ⟨true, iff_of_true rfl ho⟩
    · exact ⟨false, iff_of_false nofun ho⟩
  obtain ⟨f, hf⟩ := hdec
  refine ⟨(), _, _, access_of_not_freed (hI.ends.not_freed_of_held hne) _, ⟨?_, ?_⟩, f, hf, rfl⟩
  · refine hI.record.snoc (fun _ _ _ => rfl) ?_ trivial rfl ?_
    · simp only [stored_snoc, fetched_snoc, Event.stored, Event.fetched, Option.toList_none,
        List.append_nil]
      cases w <;> exact hI.record.ring
    · intro hw
      cases w with
      | true => exact .inr rfl
      | false => exact .inl hw
  · exact hI.ends.close hne hc rfl rfl rfl rfl hf

theorem ok_kfree (hf : ℓ.freeing = true) (hh : ℓ.held = none) :
    Ok t (act .kfree) ℓ fun _ ℓ' => ℓ' = { ℓ with freeing := false } := by
  apply ok_act
  intro s Λ hl hI
  subst hl
  obtain ⟨hover, -, honly⟩ := hI.ends.freeing t hf
  have hnone (u : T) : (update Λ t { Λ t with freeing := false } u).freeing = false := by
    grind
  have hheld (u : T) := proj_update Ghost.held (Λ := Λ) (ℓ := { Λ t with freeing := false }) rfl u
  have hF (u : T) := proj_update Ghost.fds (Λ := Λ) (ℓ := { Λ t with freeing := false }) rfl u
  have hC (u : T) := proj_update Ghost.closing (Λ := Λ) (ℓ := { Λ t with freeing := false }) rfl u
  refine ⟨(), _, { Λ t with freeing := false }, rfl, ⟨hI.record.same rfl rfl rfl rfl, ?_⟩, rfl⟩
  constructor
  · simp only [hheld]
    exact hI.ends.lock
  · simp only [hheld]
    exact hI.ends.held
  · simp only [hF]
    exact hI.ends.ref
  · simp only [Ghost.Stake, hF, hC]
    exact hI.ends.stake
  · simp only [hC]
    exact hI.ends.closing
  · intro _ u hu
    -- A process that held the lock now would be the one that frees the pipe.
    rw [hheld] at hu
    have := honly u (hI.ends.last hover u hu)
    rw [this, hh] at hu
    exact absurd rfl hu
  · intro u hu
    rw [hnone] at hu
    cases hu
  · exact fun _ => hover

theorem Ends.count {m k : ℕ} {c : Option Bool} (h : Ends s Λ) (hpos : 0 < (Λ t).fds w)
    (hclosing : (Λ t).closing = none) (hk : k + (Λ t).fds w = s.ref w + m)
    (hc : c = none ∧ 0 < k ∨ c = some w ∧ k = 0) (hfds : ℓ'.fds = update (Λ t).fds w m)
    (hcl : ℓ'.closing = c) (hh : ℓ'.held = (Λ t).held) (hf : ℓ'.freeing = (Λ t).freeing) :
    Ends { s with ref := update s.ref w k } (update Λ t ℓ') := by
  have hfw : ℓ'.fds w = m := by rw [hfds, update_self]
  have hfv {v : Bool} (hv : v ≠ w) : ℓ'.fds v = (Λ t).fds v := by
    rw [hfds, update_of_ne hv]
  have hheld (u : T) := proj_update Ghost.held hh u
  have hfree (u : T) := proj_update Ghost.freeing hf u
  have hnone (u : T) : (Λ u).closing ≠ some w := by
    intro hu
    have hzero := (h.closing u w hu).1
    have hle := h.fds_le t w
    omega
  have hsum : k = ∑ u, (update Λ t ℓ' u).fds w := by
    have := Counting.sum_update (Finset.mem_univ t) (fun (_ : T) (ℓ : Ghost) => ℓ.fds w)
      Λ ℓ'
    rw [hfw, ← h.ref w] at this
    omega
  constructor
  · simp only [hheld]
    exact h.lock
  · simp only [hheld]
    exact h.held
  · intro v
    grind [h.ref v]
  · intro v
    change isOpen s.pipe v = true ↔ _
    by_cases hv : v = w
    · rw [hv]
      refine iff_of_true ((h.stake w).2 ⟨t, .inl hpos⟩) ?_
      rcases hc with ⟨-, hk0⟩ | ⟨hc, -⟩
      · rw [hsum] at hk0
        obtain ⟨u, -, hu⟩ := Finset.exists_ne_zero_of_sum_ne_zero hk0.ne'
        exact ⟨u, .inl (Nat.pos_of_ne_zero hu)⟩
      · refine ⟨t, .inr ?_⟩
        rw [update_self, hcl, hc]
    · rw [h.stake v]
      refine exists_congr fun u => ?_
      by_cases hu : u = t
      · have hcv : c ≠ some v := by
          rcases hc with ⟨hc, -⟩ | ⟨hc, -⟩
          · rw [hc]
            exact nofun
          · rw [hc]
            exact fun h => hv (Option.some.inj h).symm
        unfold Ghost.Stake
        rw [hu, update_self, hfv hv, hcl, hclosing]
        exact or_congr_right (iff_of_false nofun hcv)
      · rw [update_of_ne hu]
  · intro u v hu'
    change update s.ref w k v = 0 ∧ _
    by_cases hu : u = t
    · -- the last reference of `w` has gone, and only `t` closes it
      rw [hu, update_self, hcl] at hu'
      grind
    · rw [update_of_ne hu] at hu'
      have hv : v ≠ w := fun hv => hnone u (hv ▸ hu')
      rw [update_of_ne hv]
      grind [h.closing u v hu']
  · intro ho u
    rw [hheld, hfree]
    exact h.last ho u
  · simp only [hfree]
    exact h.freeing
  · exact h.freed

theorem ok_filedup (hpos : 0 < ℓ.fds w) (hc : ℓ.closing = none) :
    Ok t (act (.filedup w)) ℓ fun _ ℓ' =>
      ℓ' = { ℓ with fds := update ℓ.fds w (ℓ.fds w + 1) } := by
  apply ok_act
  intro s Λ hl hI
  subst hl
  have hle := hI.ends.fds_le t w
  refine ⟨(), _, { Λ t with fds := update (Λ t).fds w ((Λ t).fds w + 1) },
    if_neg (by omega), ⟨hI.record.same rfl rfl rfl rfl, ?_⟩, rfl⟩
  exact hI.ends.count hpos hc (by omega) (.inl ⟨hc, Nat.succ_pos _⟩) rfl rfl rfl rfl

theorem ok_drop (hpos : 0 < ℓ.fds w) (hc : ℓ.closing = none) :
    Ok t (act (.drop w)) ℓ fun last ℓ' =>
      ℓ' = { ℓ with
        fds := update ℓ.fds w (ℓ.fds w - 1)
        closing := if last then some w else none } := by
  apply ok_act
  intro s Λ hl hI
  subst hl
  have hle := hI.ends.fds_le t w
  refine ⟨decide (s.ref w - 1 = 0), _, { Λ t with
    fds := update (Λ t).fds w ((Λ t).fds w - 1)
    closing := if decide (s.ref w - 1 = 0) then some w else none },
    if_neg (by omega), ⟨hI.record.same rfl rfl rfl rfl, ?_⟩, rfl⟩
  refine hI.ends.count hpos hc (by omega) ?_ rfl rfl rfl rfl
  by_cases hlast : s.ref w - 1 = 0
  · exact .inr ⟨if_pos (decide_eq_true hlast), hlast⟩
  · exact .inl ⟨if_neg (fun h => hlast (of_decide_eq_true h)), Nat.pos_of_ne_zero hlast⟩

def Idle (fds : Bool → ℕ) (ℓ : Ghost) : Prop := Rest ⟨fds, .idle⟩ ℓ

omit [Fintype T] in
theorem right_of_write {bs : List UInt8} (hp : progress t l = (some (.write src n), bs))
    (h : 0 ≤ r → r = max n 0 ∧ bs = (List.range n.toNat).map src) : Right l (.ret t r) := by
  constructor
  · intro src' n' heq hr
    rw [hp] at heq ⊢
    cases heq
    exact h hr
  · intro n' heq
    rw [hp] at heq
    cases heq

omit [Fintype T] in
theorem right_of_read {b : List UInt8} (hp : progress t l = (some (.read n), b))
    (hlen : max r 0 = b.length) (hlow : -1 ≤ r) (hhigh : r ≤ max n 0)
    (h : 0 < n → r = 0 → .close true ∈ l ∧ fetched l = stored l) : Right l (.ret t r) := by
  constructor
  · intro src' n' heq
    rw [hp] at heq
    cases heq
  · intro n' heq
    rw [hp] at heq ⊢
    cases heq
    exact ⟨hlen, hlow, hhigh, h⟩

theorem ok_finish {x : Work} {Q : Work → Ghost → Prop} (hh : ℓ.held ≠ none)
    (hright : ∀ s (Λ : T → Ghost), Λ t = ℓ → Inv s Λ → Right s.trace (.ret t r))
    (hQ : Q x { ℓ with held := none }) :
    Ok t (do act (.ret r); act .release; return x) ℓ Q := by
  apply (ok_ret hright).seq
  rintro _ ℓ' rfl
  apply (ok_release hh).seq
  rintro _ ℓ' rfl
  exact hQ

theorem ok_pipewriteFrom (killed : Bool) :
    ∀ (fuel i : ℕ) (ℓ : Ghost) (pi : Pipe), fuel = n.toNat - i → i ≤ n.toNat →
      ℓ.held = some pi → ℓ.closing = none → ℓ.freeing = false → 0 < ℓ.fds true →
      ℓ.call = some (.write src n) → ℓ.done = (List.range i).map src →
      Ok t (pipewriteFrom src n killed fuel i) ℓ fun work ℓ' => Rest ⟨ℓ.fds, work⟩ ℓ' := by
  intro fuel
  induction fuel with
  | zero =>
    intro i ℓ pi hfuel hi hh hc hf hw hcall hdone
    have heq : i = n.toNat := by omega
    apply ok_finish
    · rw [hh]
      exact Option.some_ne_none pi
    · intro s Λ hl hI
      apply right_of_write (by rw [hI.record.call t, hl, hcall])
      intro _
      rw [hdone, heq]
      exact ⟨Int.toNat_eq_max n, rfl⟩
    · exact ⟨rfl, rfl, hc, hf, trivial⟩
  | succ fuel ih =>
    intro i ℓ pi hfuel hi hh hc hf hw hcall hdone
    have hne : ℓ.held ≠ none := by
      rw [hh]
      exact Option.some_ne_none pi
    apply (ok_get hh).seq
    rintro pi ℓ ⟨rfl, rfl⟩
    split_ifs with hfull hdead
    · apply ok_finish hne
      · intro s Λ hl hI
        apply right_of_write (by rw [hI.record.call t, hl, hcall])
        intro h
        omega
      · exact ⟨rfl, rfl, hc, hf, trivial⟩
    · apply (ok_release hne).seq
      rintro _ ℓ' rfl
      exact ⟨rfl, rfl, hc, hf, hw, hi, hcall, hdone⟩
    · apply (ok_store (src i) hh hfull).seq
      rintro _ ℓ' ⟨pi', rfl⟩
      refine ih (i + 1) _ pi' (by omega) (by omega) rfl hc hf hw hcall ?_
      rw [hdone, List.range_succ, List.map_append, List.map_singleton]

theorem ok_pipewriteLoop {i : ℕ} (killed : Bool) (h : Rest ⟨fds, .writing src n i⟩ ℓ) :
    Ok t (pipewriteLoop src n killed i) ℓ fun work ℓ' => Rest ⟨fds, work⟩ ℓ' := by
  obtain ⟨rfl, -, hc, hf, hw, hi, hcall, hdone⟩ := h
  apply (ok_acquire (.inl hw)).seq
  rintro _ ℓ' ⟨pi, rfl⟩
  exact ok_pipewriteFrom killed _ i _ pi rfl hi rfl hc hf hw hcall hdone

theorem ok_pipewrite (killed : Bool) (h : Idle fds ℓ) (hw : 0 < fds true) :
    Ok t (pipewrite src n killed) ℓ fun work ℓ' => Rest ⟨fds, work⟩ ℓ' := by
  obtain ⟨rfl, hh, hc, hf, -⟩ := h
  apply (ok_call (.write src n)).seq
  rintro _ ℓ' rfl
  apply ok_pipewriteLoop
  exact ⟨rfl, hh, hc, hf, hw, Nat.zero_le _, rfl, rfl⟩

theorem ok_pipereadFrom :
    ∀ (fuel i : ℕ) (ℓ : Ghost) (pi : Pipe), fuel + i = n.toNat →
      (i = 0 → pi.nread = pi.nwrite → pi.writeopen = false) →
      ℓ.held = some pi → ℓ.closing = none → ℓ.freeing = false → ℓ.call = some (.read n) →
      ℓ.done.length = i → Ok t (pipereadFrom fuel i) ℓ fun work ℓ' => Rest ⟨ℓ.fds, work⟩ ℓ' := by
  intro fuel
  induction fuel with
  | zero =>
    intro i ℓ pi hfuel hend hh hc hf hcall hdone
    apply ok_finish
    · rw [hh]
      exact Option.some_ne_none pi
    · intro s Λ hl hI
      refine right_of_read (by rw [hI.record.call t, hl, hcall]) (by omega) (by omega) (by omega) ?_
      intro hn hi
      omega
    · exact ⟨rfl, rfl, hc, hf, trivial⟩
  | succ fuel ih =>
    intro i ℓ pi hfuel hend hh hc hf hcall hdone
    have hne : ℓ.held ≠ none := by
      rw [hh]
      exact Option.some_ne_none pi
    apply (ok_get hh).seq
    rintro pi ℓ ⟨rfl, rfl⟩
    split_ifs with hempty
    · apply ok_finish hne
      · intro s Λ hl hI
        refine right_of_read (by rw [hI.record.call t, hl, hcall]) (by omega) (by omega)
          (by omega) ?_
        intro _ hi
        have hpi : pi = s.pipe := hI.ends.held t pi (by rw [hl, hh])
        have hi0 : i = 0 := by omega
        subst hpi
        constructor
        · exact hI.record.closed (hend hi0 hempty)
        · exact (hI.record.ring.empty_iff (by decide)).1 (congrArg UInt32.toNat hempty)
      · exact ⟨rfl, rfl, hc, hf, trivial⟩
    · apply (ok_fetch hh hempty).seq
      rintro _ ℓ' ⟨pi', b, rfl⟩
      refine ih (i + 1) _ pi' (by omega) (by omega) rfl hc hf hcall ?_
      rw [List.length_append, hdone, List.length_singleton]

theorem ok_pipereadLoop (killed : Bool) (h : Rest ⟨fds, .reading n⟩ ℓ) :
    Ok t (pipereadLoop n killed) ℓ fun work ℓ' => Rest ⟨fds, work⟩ ℓ' := by
  obtain ⟨rfl, -, hc, hf, hr, hcall, hdone⟩ := h
  apply (ok_acquire (.inl hr)).seq
  rintro _ ℓ' ⟨pi, rfl⟩
  refine Valid.seq (ok_get (x := pi) rfl) ?_
  rintro pi _ ⟨rfl, rfl⟩
  split_ifs with hempty hkilled
  · apply ok_finish (Option.some_ne_none _)
    · intro s Λ hl hI
      refine right_of_read (b := []) (by rw [hI.record.call t, hl, ← hcall, ← hdone]) rfl le_rfl
        (by omega) ?_
      intro _ h
      omega
    · exact ⟨rfl, rfl, hc, hf, trivial⟩
  · apply (ok_release (Option.some_ne_none _)).seq
    rintro _ ℓ' rfl
    exact ⟨rfl, rfl, hc, hf, hr, hcall, hdone⟩
  · refine ok_pipereadFrom n.toNat 0 _ pi (Nat.add_zero _) ?_ rfl hc hf hcall
      (congrArg List.length hdone)
    intro _ heq
    cases hopen : pi.writeopen with
    | false => rfl
    | true => exact absurd ⟨heq, hopen⟩ hempty

theorem ok_piperead (killed : Bool) (h : Idle fds ℓ) (hr : 0 < fds false) :
    Ok t (piperead n killed) ℓ fun work ℓ' => Rest ⟨fds, work⟩ ℓ' := by
  obtain ⟨rfl, hh, hc, hf, -⟩ := h
  apply (ok_call (.read n)).seq
  rintro _ ℓ' rfl
  apply ok_pipereadLoop
  exact ⟨rfl, hh, hc, hf, hr, rfl, rfl⟩

theorem allClosed_iff (pi : Pipe) : allClosed pi ↔ pi.readopen = false ∧ pi.writeopen = false := by
  unfold allClosed
  constructor
  · intro h
    exact ⟨h false, h true⟩
  · rintro ⟨hr, hw⟩ w
    cases w with
    | false => exact hr
    | true => exact hw

theorem ok_pipeclose (hc : ℓ.closing = some w) (hf : ℓ.freeing = false) (hh : ℓ.held = none) :
    Ok t (pipeclose w) ℓ fun _ ℓ' => ℓ' = { ℓ with closing := none } := by
  apply (ok_acquire (.inr hc)).seq
  rintro _ ℓ' ⟨pi, rfl⟩
  refine Valid.seq (ok_close (x := pi) rfl hc) ?_
  rintro _ ℓ' ⟨f, hfree, rfl⟩
  refine Valid.seq (ok_get (x := pi.closed w) rfl) ?_
  rintro _ ℓ' ⟨rfl, rfl⟩
  rw [allClosed_iff] at hfree
  split_ifs with hover
  · apply (ok_release (Option.some_ne_none _)).seq
    rintro _ ℓ' rfl
    apply (ok_kfree (hfree.2 hover) rfl).mono
    rintro _ ℓ' rfl
    rw [← hf, ← hh]
  · apply (ok_release (Option.some_ne_none _)).mono
    rintro _ ℓ' rfl
    have hff : f = false := by
      cases f with
      | false => rfl
      | true => exact absurd (hfree.1 rfl) hover
    rw [hff, ← hf, ← hh]

theorem ok_fileclose (h : Idle fds ℓ) (hpos : 0 < fds w) :
    Ok t (fileclose w) ℓ fun _ ℓ' =>
      ℓ' = { ℓ with fds := update ℓ.fds w (ℓ.fds w - 1) } := by
  obtain ⟨rfl, hh, hc, hf, -⟩ := h
  apply (ok_drop hpos hc).seq
  rintro last ℓ' rfl
  cases last with
  | false =>
    change _ = _
    rw [hc]
    rfl
  | true =>
    refine Valid.mono (ok_pipeclose (w := w) rfl hf hh) ?_
    rintro _ ℓ' rfl
    rw [← hc]

theorem ok_calls {l : Loc} {p : Prog Act Loc} (hp : Calls l p) (h : Rest l ℓ) : Ok t p ℓ Rest := by
  cases hp with
  | write src n killed hw => exact (ok_pipewrite killed h hw).seq fun _ _ h' => h'
  | wakeWriter src n i killed => exact (ok_pipewriteLoop killed h).seq fun _ _ h' => h'
  | read n killed hr => exact (ok_piperead killed h hr).seq fun _ _ h' => h'
  | wakeReader n killed => exact (ok_pipereadLoop killed h).seq fun _ _ h' => h'
  | dup w hw =>
    obtain ⟨rfl, hh, hc, hf, -⟩ := h
    apply (ok_filedup hw hc).seq
    rintro _ ℓ' rfl
    exact ⟨rfl, hh, hc, hf, trivial⟩
  | close w hw =>
    apply (ok_fileclose h hw).seq
    rintro _ ℓ' rfl
    obtain ⟨rfl, hh, hc, hf, -⟩ := h
    exact ⟨rfl, hh, hc, hf, trivial⟩

theorem boot_holds (data : Fin PIPESIZE → UInt8) (share : Share T) :
    Holds (pipeSystem T) always outline (boot data share)
      fun t => ⟨share.fds t, none, none, false, none, []⟩ := by
  refine ⟨⟨⟨?_, ?_, fun _ => rfl, nofun⟩, ?_⟩, fun t => ⟨rfl, rfl, rfl, rfl, trivial⟩⟩
  · exact Ring.empty (2 ^ 32) data
  · exact Accounted.nil
  · have hnot : ¬ allClosed (boot data share).g.pipe := fun ho => Bool.noConfusion (ho true)
    refine ⟨fun _ => iff_of_false nofun (fun h => h rfl), nofun, fun _ => rfl, fun w => ?_, nofun,
      fun ho => absurd ho hnot, nofun, nofun⟩
    obtain ⟨t, ht⟩ := share.both w
    refine iff_of_true ?_ ⟨t, .inl ht⟩
    cases w <;> rfl

theorem reach_holds {data : Fin PIPESIZE → UInt8} {share : Share T}
    {s : Sys T Act Loc (State T)}
    (hreach : Reach (pipeSystem T) always (boot data share) s) :
    ∃ Λ, Holds (pipeSystem T) always outline s Λ :=
  (boot_holds data share).reach (fun _ _ _ _ hp h => ok_calls hp h) (fun _ _ _ _ h => h.elim)
    hreach

/-- In every run what was read is an initial part of what was written, the counters are at most
    `PIPESIZE` apart, and every call returns what it should. No process touches a pipe that was
    freed. -/
theorem pipe_fifo {data : Fin PIPESIZE → UInt8} {share : Share T} {s : Sys T Act Loc (State T)}
    (hreach : Reach (pipeSystem T) always (boot data share) s) :
    fetched s.g.trace <+: stored s.g.trace ∧
    (s.g.pipe.nwrite - s.g.pipe.nread).toNat ≤ PIPESIZE ∧
    Account s.g.trace ∧
    ∀ (t : T) (β : Type) (a : Act β) (k : β → Prog Act Loc), s.thr t = .act a k →
      exec t a s.g ≠ .undefined ∧ ∀ msg, exec t a s.g ≠ .panic msg := by
  obtain ⟨Λ, h⟩ := reach_holds hreach
  have hring := h.1.record.ring
  refine ⟨hring.order, ?_, h.1.record.account, fun t β a k next => h.safe next⟩
  have hsize := hring.size (by decide)
  have hsub : (s.g.pipe.nwrite - s.g.pipe.nread).toNat =
      (2 ^ 32 - s.g.pipe.nread.toNat + s.g.pipe.nwrite.toNat) % 2 ^ 32 :=
    UInt32.toNat_sub ..
  rw [hsub, hsize]
  have := hring.room
  omega

def oneEach : Share Bool where
  fds := fun t w => if t = w then 1 else 0
  both := by decide

/-- Two bytes are written, the write end is closed, and the reader finds the bytes and then the
    end of the file. -/
def wholeLife : List (Event Bool) :=
  [.call true (.write UInt8.ofNat 2), .store true 0, .store true 1, .ret true 2, .close true,
    .call false (.read 5), .fetch false 0, .fetch false 1, .ret false 2,
    .call false (.read 5), .ret false 0]

set_option maxRecDepth 4000 in
theorem reach_wholeLife : ∃ s, Reach (pipeSystem Bool) always (boot (fun _ => 0) oneEach) s ∧
    s.g.trace = wholeLife := by
  let thr0 := (boot (fun _ => 0) oneEach).thr
  let thr1 := update thr0 true (.ret ⟨oneEach.fds true, .idle⟩)
  let thr2 := update thr1 true (.ret (Loc.less ⟨oneEach.fds true, .idle⟩ true))
  let thr3 := update thr2 false (.ret ⟨oneEach.fds false, .idle⟩)
  have hread : Calls ⟨oneEach.fds false, .idle⟩ (piperead 5 false >>= fun work =>
      .ret ⟨oneEach.fds false, work⟩) := .read 5 false Nat.one_pos
  obtain ⟨_, g1, ⟨rfl, hg1⟩, h1⟩ := reach_call (S := pipeSystem Bool) (t := true)
    (s := boot (fun _ => 0) oneEach) (Q := fun work g => work = .idle ∧ g = _) rfl
    (.write UInt8.ofNat 2 false Nat.one_pos) (total_iff_run.2 ⟨_, _, rfl, rfl, rfl⟩)
  obtain ⟨_, g2, hg2, h2⟩ := reach_call (S := pipeSystem Bool) (t := true) (s := ⟨g1, thr1⟩)
    (Q := fun _ g => g = _) rfl (.close true Nat.one_pos)
    (by rw [hg1]; exact total_iff_run.2 ⟨_, _, rfl, rfl⟩)
  obtain ⟨_, g3, ⟨rfl, hg3⟩, h3⟩ := reach_call (S := pipeSystem Bool) (t := false)
    (s := ⟨g2, thr2⟩) (Q := fun work g => work = .idle ∧ g = _) rfl hread
    (by rw [hg2]; exact total_iff_run.2 ⟨_, _, rfl, rfl, rfl⟩)
  obtain ⟨_, g4, hg4, h4⟩ := reach_call (S := pipeSystem Bool) (t := false) (s := ⟨g3, thr3⟩)
    (Q := fun _ g => g = _) rfl hread (by rw [hg3]; exact total_iff_run.2 ⟨_, _, rfl, rfl⟩)
  exact ⟨_, ((h1.trans h2).trans h3).trans h4, congrArg State.trace hg4⟩

theorem pipe_fifo_whole_life :
    ∃ s, Reach (pipeSystem Bool) always (boot (fun _ => 0) oneEach) s ∧
      s.g.trace = wholeLife ∧ Account wholeLife ∧ fetched wholeLife <+: stored wholeLife := by
  obtain ⟨s, hreach, htrace⟩ := reach_wholeLife
  have h := pipe_fifo hreach
  rw [htrace] at h
  exact ⟨s, hreach, htrace, h.2.2.1, h.1⟩

end Xv6.PipeFifo
