import Xv6.ConsoleCode
import Xv6.RingBuffer
import Xv6.Scripts
import Xv6.SleepRules

set_option autoImplicit false

namespace Xv6.ConsoleDiscipline
open Resumption Interleaving SleepCode SleepRules ConsoleCode RingBuffer
open Function (update update_eq_self update_of_ne update_self)

variable {n : ℕ}
variable {m room : ℕ} {bs : List UInt8} {target : ℤ}

/-- Where a process is in its calls of `consoleread`: outside, in a read of `m` bytes that has
    the bytes `bs`, or at the end of one. -/
inductive Session where
  | idle
  | reading (m : ℕ) (bs : List UInt8)
  | ended (bs : List UInt8)
  deriving DecidableEq

def Session.next : Session → Note → Option Session
  | .idle, .call m => some (if 0 < m then .reading m.toNat [] else .ended [])
  | .reading m bs, .got c =>
    if c = ctrl 'D' then none
    else some (if c = newline ∨ bs.length + 1 = m then .ended (bs ++ [c])
      else .reading m (bs ++ [c]))
  -- the mark is kept exactly when the read has bytes already
  | .reading _ bs, .eof kept => if kept = !bs.isEmpty then some (.ended bs) else none
  | .reading _ _, .ret r => if r = -1 then some .idle else none
  | .ended bs, .ret r => if r = bs.length then some .idle else none
  | _, _ => none

def sessionOf (p : Fin n) : List (Fin n × Note) → Option Session :=
  List.foldl (fun σ ν => if ν.1 = p then σ.bind fun σ => σ.next ν.2 else σ) (some .idle)

def taken (notes : List (Fin n × Note)) : List UInt8 :=
  notes.flatMap fun ν =>
    match ν.2 with
    | .got c => [c]
    | .eof false => [ctrl 'D']
    | _ => []

variable {p q : Fin n} {σ σ' : Session} {notes : List (Fin n × Note)} {ν : Note}

theorem sessionOf_append_self (h : sessionOf p notes = some σ) :
    sessionOf p (notes ++ [(p, ν)]) = σ.next ν := by
  unfold sessionOf at h ⊢
  rw [List.foldl_append, h]
  simp

theorem sessionOf_append_of_ne (h : q ≠ p) :
    sessionOf p (notes ++ [(q, ν)]) = sessionOf p notes := by
  unfold sessionOf
  rw [List.foldl_append]
  simp [h]

structure Counters (d : Data n) : Prop where
  r : d.cons.r = UInt32.ofNat d.rCount
  w : d.cons.w = UInt32.ofNat d.wCount
  e : d.cons.e = UInt32.ofNat d.eCount
  r_le_w : d.rCount ≤ d.wCount
  w_le_e : d.wCount ≤ d.eCount
  room : d.eCount ≤ d.rCount + INPUT_BUF
  /-- The buffer holds what was not read. -/
  text : ∀ i, d.rCount ≤ i → i < d.eCount → d.cons.buf (Fin.ofNat INPUT_BUF i) = d.text i

theorem ofNat_eq_iff {a b : ℕ} (hle : a ≤ b) (hlt : b ≤ a + INPUT_BUF) :
    UInt32.ofNat a = UInt32.ofNat b ↔ a = b := by
  constructor
  · intro h
    have hmod : a % 2 ^ 32 = b % 2 ^ 32 := by
      have := congrArg UInt32.toNat h
      rwa [UInt32.toNat_ofNat', UInt32.toNat_ofNat'] at this
    refine eq_of_mod_eq hle (Nat.lt_of_le_of_lt hlt ?_) hmod
    unfold INPUT_BUF
    omega
  · rintro rfl
    rfl

theorem place_ofNat (k : ℕ) :
    Fin.ofNat INPUT_BUF (UInt32.ofNat k).toNat = Fin.ofNat INPUT_BUF k := by
  rw [UInt32.toNat_ofNat']
  exact place_mod (by decide) k

variable {d d' : Data n}

theorem Counters.empty_iff (h : Counters d) : d.cons.r = d.cons.w ↔ d.rCount = d.wCount := by
  have := h.w_le_e
  have := h.room
  rw [h.r, h.w]
  exact ofNat_eq_iff h.r_le_w (by omega)

theorem Counters.clean_iff (h : Counters d) : d.cons.e = d.cons.w ↔ d.eCount = d.wCount := by
  have := h.r_le_w
  have := h.room
  rw [h.w, h.e, eq_comm, ofNat_eq_iff h.w_le_e (by omega), eq_comm]

theorem Counters.full_iff (h : Counters d) :
    d.cons.e = d.cons.r + UInt32.ofNat INPUT_BUF ↔ d.eCount = d.rCount + INPUT_BUF := by
  have := h.r_le_w
  have := h.w_le_e
  rw [h.r, h.e, ← UInt32.ofNat_add]
  exact ofNat_eq_iff h.room (by omega)

theorem Counters.space_iff (h : Counters d) :
    d.cons.e - d.cons.r < UInt32.ofNat INPUT_BUF ↔ d.eCount < d.rCount + INPUT_BUF := by
  have h1 := h.r_le_w
  have h2 := h.w_le_e
  have h3 := h.room
  have hsub : d.cons.e - d.cons.r = UInt32.ofNat (d.eCount - d.rCount) := by
    have hsum : d.eCount = d.eCount - d.rCount + d.rCount := by omega
    rw [h.r, h.e, hsum, UInt32.ofNat_add, UInt32.add_sub_cancel, Nat.add_sub_cancel]
  have hlt : (UInt32.ofNat (d.eCount - d.rCount)).toNat = d.eCount - d.rCount := by
    apply UInt32.toNat_ofNat_of_lt'
    change _ < 4294967296
    unfold INPUT_BUF at h3
    omega
  rw [hsub, UInt32.lt_iff_toNat_lt, hlt]
  change _ < 128 ↔ _ < _ + 128
  omega

theorem Counters.next (h : Counters d) (hne : d.rCount ≠ d.wCount) :
    d.cons.at d.cons.r = d.text d.rCount := by
  have := h.r_le_w
  have := h.w_le_e
  unfold Cons.at
  rw [h.r, place_ofNat]
  exact h.text d.rCount (Nat.le_refl _) (by omega)

theorem Counters.take (h : Counters d) (hne : d.rCount ≠ d.wCount) : Counters d.take where
  r := by
    change d.cons.r + 1 = UInt32.ofNat (d.rCount + 1)
    rw [h.r, UInt32.ofNat_add]
    rfl
  w := h.w
  e := h.e
  r_le_w := Nat.lt_of_le_of_ne h.r_le_w hne
  w_le_e := h.w_le_e
  room := by
    have := h.room
    change d.eCount ≤ d.rCount + 1 + INPUT_BUF
    omega
  text := fun i hi => h.text i (Nat.le_of_succ_le hi)

theorem untake_take (d : Data n) : d.take.untake = d := by
  unfold Data.take Data.untake
  simp

theorem Counters.note (h : Counters d) (p : Fin n) (ν : Note) : Counters (d.note p ν) :=
  { h with }

theorem Counters.erase (h : Counters d) (hne : d.eCount ≠ d.wCount) : Counters d.erase where
  r := h.r
  w := h.w
  e := by
    have hpos : d.eCount = d.eCount - 1 + 1 := by
      have := h.w_le_e
      omega
    change d.cons.e - 1 = UInt32.ofNat (d.eCount - 1)
    rw [h.e]
    conv_lhs => rw [hpos, UInt32.ofNat_add]
    exact UInt32.add_sub_cancel ..
  r_le_w := h.r_le_w
  w_le_e := by
    have := h.w_le_e
    change d.wCount ≤ d.eCount - 1
    omega
  room := Nat.le_trans (Nat.sub_le ..) h.room
  text := fun i hi hlt => h.text i hi (Nat.lt_of_lt_of_le hlt (Nat.sub_le ..))

theorem Counters.store (h : Counters d) (hroom : d.eCount < d.rCount + INPUT_BUF) (c : UInt8) :
    Counters (d.store c) where
  r := h.r
  w := h.w
  e := by
    change d.cons.e + 1 = UInt32.ofNat (d.eCount + 1)
    rw [h.e, UInt32.ofNat_add]
    rfl
  r_le_w := h.r_le_w
  w_le_e := Nat.le_succ_of_le h.w_le_e
  room := hroom
  text := by
    intro i hi hlt
    change d.rCount ≤ i at hi
    change update d.cons.buf (Fin.ofNat INPUT_BUF d.cons.e.toNat) c _ =
      update d.text d.eCount c i
    rw [h.e, place_ofNat]
    by_cases hlast : i = d.eCount
    · rw [hlast, update_self, update_self]
    · have hbefore : i < d.eCount := Nat.lt_of_le_of_ne (Nat.le_of_lt_succ hlt) hlast
      rw [update_of_ne (place_ne hbefore (by omega)), update_of_ne hlast]
      exact h.text i hi hbefore

theorem Counters.commit (h : Counters d) : Counters d.commit :=
  ⟨h.r, h.e, h.e, Nat.le_trans h.r_le_w h.w_le_e, Nat.le_refl _, h.room, h.text⟩

structure Settled (d : Data n) : Prop where
  counters : Counters d
  /-- A full buffer has something to read. -/
  full : d.eCount = d.rCount + INPUT_BUF → d.wCount = d.eCount
  /-- Each character before the read counter was taken once, in order. -/
  delivered : taken d.notes = (List.range d.rCount).map d.text

def monitor (n : ℕ) : Monitor n Unit Unit (Data n) (Data n) Session where
  k := ()
  view := id
  cond := fun _ _ => True
  sleeper := fun _ _ => True
  own := Settled
  extra := fun d sessions => Counters d ∧ ∀ p, sessionOf p d.notes = some (sessions (.proc p))

structure Progress (target : ℤ) (m room : ℕ) (bs : List UInt8) : Prop where
  left : (bs.length : ℤ) + m = target
  room : m ≤ room

inductive Rest : Loc → Ghost n Unit (Data n) Session → Prop where
  | user (r : ℤ) : Rest (.user r) ⟨none, none, none, .idle⟩
  | reading (target : ℤ) (m room : ℕ) (bs : List UInt8) (h : Progress target m room bs)
      (hpos : 0 < m) :
      Rest (.reading target m room) ⟨none, none, some ((), true), .reading target.toNat bs⟩

inductive Calls : Thread n → Loc → ConsProg n Loc → Prop where
  /-- The whole destination can be written. -/
  | read (p : Fin n) (r m : ℤ) : Calls (.proc p) (.user r) (consoleread p m m.toNat)
  | readOn (p : Fin n) (target : ℤ) (m room : ℕ) : Calls (.proc p) (.reading target m room) do
      awake p ()
      consolereadFrom p target m room
  | kill (p : Fin n) (r : ℤ) (pid : ℕ) : Calls (.proc p) (.user r) do
      return .user (← SleepCode.kill pid)
  | intr (i : ℕ) (r : ℤ) (c : UInt8) : Calls (.intr i) (.user r) do
      consoleintr c
      return .user 0

def consoleUsers (n : ℕ) : Setting (Thread n) (Act n Unit Unit (Data n)) Loc
    (Kernel n Unit Unit (Data n)) := sleepers Calls

def boot (pid : Fin n → ℕ) (buf : Fin INPUT_BUF → UInt8) :
    Sys (Thread n) (Act n Unit Unit (Data n)) Loc (Kernel n Unit Unit (Data n)) where
  g := bootKernel pid ⟨⟨buf, 0, 0, 0⟩, 0, 0, 0, fun _ => 0, []⟩
  thr := fun _ => .ret (.user 0)

variable {t : Thread n} {v v' : Data n} {ℓ : Ghost n Unit (Data n) Session}
  {due : Due n Unit}

abbrev Does (t : Thread n) {α : Type} (c : ConsProg n α) (ℓ : Ghost n Unit (Data n) Session)
    (Q : α → Ghost n Unit (Data n) Session → Prop) : Prop :=
  Ok (monitor n) Calls always (fun _ => Rest) t c ℓ Q

def Busy (v : Data n) (σ : Session) (ℓ : Ghost n Unit (Data n) Session) : Prop :=
  ∃ due, ℓ = ⟨some (v, due), none, none, σ⟩

theorem ok_lock :
    Does t (act (.acquire (.data ()))) ⟨none, none, none, σ⟩ fun _ ℓ' =>
      ∃ v, Settled v ∧ Busy v σ ℓ' := by
  refine (ok_acquire (M := monitor n) (by rfl)).mono ?_
  rintro _ _ ⟨v, hv, rfl⟩
  exact ⟨v, hv, _, rfl⟩

theorem ok_unlock (hℓ : Busy v σ ℓ) (hv : Settled v) :
    Does t (act (.release (.data ()))) ℓ fun _ ℓ' => ℓ' = ⟨none, none, none, σ⟩ := by
  obtain ⟨due, rfl⟩ := hℓ
  refine (ok_release (M := monitor n) (by rfl) hv fun _ _ _ => trivial).mono fun _ ℓ' hℓ => ?_
  rw [hℓ]

theorem ok_cons (hℓ : Busy v σ ℓ) : Does t cons ℓ fun k ℓ' => k = v.cons ∧ Busy v σ ℓ' := by
  obtain ⟨due, rfl⟩ := hℓ
  refine (ok_read (fun d b d' hd => by cases hd; rfl) (by rfl)).mono ?_
  rintro k _ ⟨d, ext, hv, -, -, hd, rfl⟩
  cases hd
  exact ⟨congrArg Data.cons hv, _, rfl⟩

theorem ok_change {β : Type} {f : Data n → Outcome β (Data n)} {b : β} (hℓ : Busy v σ ℓ)
    (hf : f v = .done b v') (hcount : Counters v') (hnotes : v'.notes = v.notes) :
    Does t (data f) ℓ fun b' ℓ' => b' = b ∧ Busy v' σ ℓ' := by
  obtain ⟨due, rfl⟩ := hℓ
  refine ok_data (by rfl) (by rfl) fun d ext hv hx ht b' d' hd => ?_
  obtain rfl : d = v := hv
  rw [hf] at hd
  cases hd
  refine ⟨σ, due, fun _ _ h => h, fun _ _ _ => .inl trivial, ⟨hcount, fun p => ?_⟩, rfl, due, rfl⟩
  rw [show σ = ext t from ht.symm, update_eq_self, hnotes]
  exact hx.2 p

theorem ok_note {f : Data n → Data n} (hℓ : Busy v σ ℓ) (hcount : Counters (f v))
    (hnotes : (f v).notes = v.notes ++ [(p, ν)]) (hnext : σ.next ν = some σ') :
    Does (.proc p) (modify f) ℓ fun _ ℓ' => Busy (f v) σ' ℓ' := by
  obtain ⟨due, rfl⟩ := hℓ
  refine ok_data (by rfl) (by rfl) fun d ext hv hx ht b' d' hd => ?_
  obtain rfl : d = v := hv
  cases hd
  refine ⟨σ', due, fun _ _ h => h, fun _ _ _ => .inl trivial, ⟨hcount, fun q => ?_⟩, due, rfl⟩
  have ht' : ext (.proc p) = σ := ht
  change sessionOf q (f d).notes = _
  rw [hnotes]
  by_cases hq : q = p
  · subst hq
    rw [update_self, sessionOf_append_self (hx.2 q), ht', hnext]
  · rw [update_of_ne fun he => hq (Thread.proc.inj he), sessionOf_append_of_ne (Ne.symm hq)]
    exact hx.2 q

theorem Settled.note (h : Settled d) (p : Fin n) (hν : taken [(p, ν)] = []) :
    Settled (d.note p ν) := by
  refine ⟨h.counters.note p ν, h.full, ?_⟩
  change taken (d.notes ++ [(p, ν)]) = _
  unfold taken at hν ⊢
  rw [List.flatMap_append, hν, List.append_nil]
  exact h.delivered

theorem Settled.take_note (h : Settled d) (hne : d.rCount ≠ d.wCount) (p : Fin n)
    (hν : taken [(p, ν)] = [d.cons.at d.cons.r]) : Settled (d.take.note p ν) := by
  refine ⟨(h.counters.take hne).note p ν, fun hfull => ?_, ?_⟩
  · have := h.counters.room
    change d.eCount = d.rCount + 1 + INPUT_BUF at hfull
    omega
  · change taken (d.notes ++ [(p, ν)]) = (List.range (d.rCount + 1)).map d.text
    have hbefore := h.delivered
    unfold taken at hν hbefore ⊢
    rw [List.flatMap_append, hν, hbefore, List.range_succ, List.map_append, h.counters.next hne]
    rfl

theorem ok_finish (r : ℤ) (hℓ : Busy v σ ℓ) (hv : Settled v)
    (hnext : σ.next (.ret r) = some .idle) : Does (.proc p) (finish p r) ℓ Rest := by
  refine (ok_note hℓ (hv.counters.note p _) rfl hnext).seq ?_
  intro _ ℓ' hℓ'
  refine (ok_unlock hℓ' (hv.note p rfl)).next fun _ => ?_
  exact Rest.user r

def reads (target : ℤ) (m : ℕ) (bs : List UInt8) : Session :=
  if m = 0 then .ended bs else .reading target.toNat bs

theorem next_got {c : UInt8} (hD : c ≠ ctrl 'D') :
    (Session.reading m bs).next (.got c) =
      some (if c = newline ∨ bs.length + 1 = m then .ended (bs ++ [c])
        else .reading m (bs ++ [c])) := if_neg hD

theorem reads_got {c : UInt8} (h : Progress target (m + 1) room bs) (hD : c ≠ ctrl 'D')
    (hnl : c ≠ newline) :
    (Session.reading target.toNat bs).next (.got c) = some (reads target m (bs ++ [c])) := by
  have := h.left
  unfold reads
  rw [next_got hD]
  by_cases hm : m = 0
  · rw [if_pos (.inr (by omega)), if_pos hm]
  · rw [if_neg (by simp only [hnl, false_or]; omega), if_neg hm]

theorem reads_eof (h : Progress target (m + 1) room bs) :
    (Session.reading target.toNat bs).next (.eof (decide (((m + 1 : ℕ) : ℤ) < target))) =
      some (.ended bs) := by
  have hleft := h.left
  refine if_pos ?_
  cases bs with
  | nil =>
    rw [List.length_nil] at hleft
    exact decide_eq_false (by omega)
  | cons =>
    rw [List.length_cons] at hleft
    exact decide_eq_true (by omega)

theorem ok_eof (hp : Progress target (m + 1) room bs) (hv : Settled v) (hne : v.rCount ≠ v.wCount)
    (hD : v.cons.at v.cons.r = ctrl 'D') (hℓ : Busy v.take (.reading target.toNat bs) ℓ) :
    Does (.proc p) (do
      if ((m + 1 : ℕ) : ℤ) < target then modify fun d => d.untake.note p (.eof true)
      else modify fun d => d.note p (.eof false)
      finish p (target - (m + 1 : ℕ))) ℓ Rest := by
  have hnext := reads_eof hp
  have hret : (Session.ended bs).next (.ret (target - (m + 1 : ℕ))) = some .idle := by
    have := hp.left
    exact if_pos (by omega)
  by_cases hbytes : ((m + 1 : ℕ) : ℤ) < target
  · rw [decide_eq_true hbytes] at hnext
    rw [if_pos hbytes]
    have hback : v.take.untake.note p (.eof true) = v.note p (.eof true) := by rw [untake_take]
    have hcount : Counters (v.take.untake.note p (.eof true)) := by
      rw [hback]
      exact hv.counters.note p _
    refine (ok_note (f := fun d => d.untake.note p (.eof true)) hℓ hcount rfl hnext).seq ?_
    intro _ ℓ' hℓ'
    rw [hback] at hℓ'
    exact ok_finish _ hℓ' (hv.note p rfl) hret
  · rw [decide_eq_false hbytes] at hnext
    rw [if_neg hbytes]
    refine (ok_note hℓ ((hv.counters.take hne).note p _) rfl hnext).seq ?_
    intro _ ℓ' hℓ'
    refine ok_finish _ hℓ' (hv.take_note hne p ?_) hret
    rw [hD]
    rfl

theorem ok_consolereadFrom (target : ℤ) (m room : ℕ) (bs : List UInt8)
    (hp : Progress target m room bs) (hℓ : Busy v (reads target m bs) ℓ) (hv : Settled v) :
    Does (.proc p) (consolereadFrom p target m room) ℓ Rest := by
  induction m generalizing room bs v ℓ with
  | zero =>
    refine ok_finish target hℓ hv ?_
    have := hp.left
    exact if_pos (by omega)
  | succ m ih =>
    have hleft := hp.left
    have hroom := hp.room
    refine (ok_cons hℓ).seq ?_
    rintro k ℓ1 ⟨rfl, hℓ1⟩
    by_cases hempty : v.cons.r = v.cons.w
    · rw [if_pos hempty]
      refine (ok_killed (Q := fun _ => True) fun _ _ _ _ _ _ _ => trivial).seq ?_
      rintro killed _ ⟨rfl, -⟩
      cases killed with
      | true => exact ok_finish (-1) hℓ1 hv rfl
      | false =>
        obtain ⟨due, rfl⟩ := hℓ1
        refine (ok_sleep (M := monitor n) (by rfl) (by rfl) (by rfl) hv (fun _ _ _ => trivial)
          trivial trivial).next fun _ => ?_
        exact Rest.reading target (m + 1) room bs hp (Nat.succ_pos m)
    · rw [if_neg hempty]
      have hne : v.rCount ≠ v.wCount := fun he => hempty (hv.counters.empty_iff.2 he)
      refine (ok_change (f := fun d => .done (d.cons.at d.cons.r) d.take) hℓ1 rfl
        (hv.counters.take hne) rfl).seq ?_
      rintro c ℓ2 ⟨hc, hℓ2⟩
      by_cases hD : c = ctrl 'D'
      · rw [if_pos hD]
        exact ok_eof hp hv hne (hc.symm.trans hD) hℓ2
      rw [if_neg hD, if_neg (by omega)]
      have hset : Settled (v.take.note p (.got c)) := by
        refine hv.take_note hne p ?_
        rw [← hc]
        rfl
      by_cases hnl : c = newline
      · have hnext : (Session.reading target.toNat bs).next (.got c) =
            some (.ended (bs ++ [c])) := by
          rw [next_got hD, if_pos (.inl hnl)]
        refine (ok_note hℓ2 hset.counters rfl hnext).seq ?_
        intro _ ℓ3 hℓ3
        rw [if_pos hnl]
        refine ok_finish _ hℓ3 hset (if_pos ?_)
        rw [List.length_append, List.length_singleton]
        omega
      · refine (ok_note hℓ2 hset.counters rfl (reads_got hp hD hnl)).seq ?_
        intro _ ℓ3 hℓ3
        rw [if_neg hnl]
        refine ih (room - 1) (bs ++ [c]) ⟨?_, by omega⟩ hℓ3 hset
        rw [List.length_append, List.length_singleton]
        omega

theorem ok_consoleread (m : ℤ) :
    Does (.proc p) (consoleread p m m.toNat) ⟨none, none, none, .idle⟩ Rest := by
  refine ok_lock.seq ?_
  rintro _ ℓ ⟨v, hv, hℓ⟩
  refine (ok_note (ν := .call m) hℓ (hv.counters.note p _) rfl rfl).seq ?_
  intro _ ℓ' hℓ'
  have hset : Settled (v.note p (.call m)) := hv.note p rfl
  by_cases hm : 0 < m
  · rw [if_pos hm] at hℓ' ⊢
    refine ok_consolereadFrom m m.toNat m.toNat [] ⟨?_, Nat.le_refl _⟩ ?_ hset
    · rw [List.length_nil]
      omega
    · unfold reads
      rwa [if_neg (by omega)]
  · rw [if_neg hm] at hℓ' ⊢
    exact ok_finish 0 hℓ' hset rfl

abbrev Edited (σ : Session) (_ : Unit) (ℓ : Ghost n Unit (Data n) Session) : Prop :=
  ∃ v, Settled v ∧ Busy v σ ℓ

theorem Settled.erase (h : Settled d) (hne : d.eCount ≠ d.wCount) : Settled d.erase := by
  refine ⟨h.counters.erase hne, fun hfull => ?_, h.delivered⟩
  have hle := h.counters.w_le_e
  have hroom := h.counters.room
  change d.eCount - 1 = d.rCount + INPUT_BUF at hfull
  omega

theorem ok_erase (hℓ : Busy v σ ℓ) (hv : Settled v) (hne : v.cons.e ≠ v.cons.w) :
    Does t (modify Data.erase) ℓ (Edited σ) := by
  have hset := hv.erase fun he => hne (hv.counters.clean_iff.2 he)
  refine (ok_change (f := fun d => .done () d.erase) hℓ rfl hset.counters rfl).mono ?_
  rintro _ ℓ' ⟨-, hℓ'⟩
  exact ⟨_, hset, hℓ'⟩

theorem ok_backspace (hℓ : Busy v σ ℓ) (hv : Settled v) : Does t backspace ℓ (Edited σ) := by
  refine (ok_cons hℓ).seq ?_
  rintro k ℓ1 ⟨rfl, hℓ1⟩
  by_cases hne : v.cons.e ≠ v.cons.w
  · rw [if_pos hne]
    exact ok_erase hℓ1 hv hne
  · rw [if_neg hne]
    exact ⟨v, hv, hℓ1⟩

theorem ok_killLine (rounds : ℕ) (hℓ : Busy v σ ℓ) (hv : Settled v) :
    Does t (killLine rounds) ℓ (Edited σ) := by
  induction rounds generalizing v ℓ with
  | zero => exact ⟨v, hv, hℓ⟩
  | succ rounds ih =>
    refine (ok_cons hℓ).seq ?_
    rintro k ℓ1 ⟨rfl, hℓ1⟩
    by_cases hmore : v.cons.e ≠ v.cons.w ∧ v.cons.at (v.cons.e - 1) ≠ newline
    · rw [if_pos hmore]
      refine (ok_erase hℓ1 hv hmore.1).seq ?_
      rintro _ ℓ2 ⟨v2, hv2, hℓ2⟩
      exact ih hℓ2 hv2
    · rw [if_neg hmore]
      exact ⟨v, hv, hℓ1⟩

theorem Settled.delivered_store (h : Settled d) (c : UInt8) :
    taken d.notes = (List.range d.rCount).map (update d.text d.eCount c) := by
  have hlt : ∀ i ∈ List.range d.rCount, update d.text d.eCount c i = d.text i := by
    intro i hi
    have := h.counters.r_le_w
    have := h.counters.w_le_e
    have := List.mem_range.1 hi
    exact update_of_ne (by omega) ..
  rw [h.delivered, List.map_congr_left hlt]

theorem Settled.store (h : Settled d) (c : UInt8) (hroom : d.eCount < d.rCount + INPUT_BUF)
    (hnot : (d.store c).eCount ≠ (d.store c).rCount + INPUT_BUF) : Settled (d.store c) :=
  ⟨h.counters.store hroom c, fun hfull => absurd hfull hnot, h.delivered_store c⟩

theorem Settled.store_commit (h : Settled d) (c : UInt8)
    (hroom : d.eCount < d.rCount + INPUT_BUF) : Settled (d.store c).commit :=
  ⟨(h.counters.store hroom c).commit, fun _ => rfl, h.delivered_store c⟩

theorem ok_insert (c : UInt8) (hℓ : Busy v σ ℓ) (hv : Settled v) :
    Does t (insert c) ℓ (Edited σ) := by
  refine (ok_cons hℓ).seq ?_
  rintro k ℓ1 ⟨rfl, hℓ1⟩
  by_cases hspace : c ≠ 0 ∧ v.cons.e - v.cons.r < UInt32.ofNat INPUT_BUF
  · have hroom := hv.counters.space_iff.1 hspace.2
    rw [if_pos hspace]
    generalize (if c = carriageReturn then newline else c) = c
    have hcount := hv.counters.store hroom c
    refine (ok_change (f := fun d => .done () (d.store c)) hℓ1 rfl hcount rfl).seq ?_
    rintro _ ℓ2 ⟨-, hℓ2⟩
    refine (ok_cons hℓ2).seq ?_
    rintro k ℓ3 ⟨rfl, hℓ3⟩
    by_cases hend : c = newline ∨ c = ctrl 'D' ∨
        (v.store c).cons.e = (v.store c).cons.r + UInt32.ofNat INPUT_BUF
    · have hset := hv.store_commit c hroom
      rw [if_pos hend]
      refine (ok_change (f := fun d => .done () d.commit) hℓ3 rfl hset.counters rfl).seq ?_
      rintro _ _ ⟨-, due, rfl⟩
      refine (ok_wakeup (by rfl) (by rfl) (by rfl)).mono ?_
      rintro _ _ ⟨due', rfl, -⟩
      exact ⟨_, hset, due', rfl⟩
    · rw [if_neg hend]
      refine ⟨_, hv.store c hroom fun hfull => hend (.inr (.inr ?_)), hℓ3⟩
      exact hcount.full_iff.2 hfull
  · rw [if_neg hspace]
    exact ⟨v, hv, hℓ1⟩

theorem ok_edit (c : UInt8) (hℓ : Busy v σ ℓ) (hv : Settled v) : Does t (edit c) ℓ (Edited σ) := by
  unfold edit
  split_ifs
  · exact ⟨v, hv, hℓ⟩
  · refine (ok_cons hℓ).seq ?_
    rintro k ℓ1 ⟨rfl, hℓ1⟩
    exact ok_killLine _ hℓ1 hv
  · exact ok_backspace hℓ hv
  · exact ok_insert c hℓ hv

theorem ok_consoleintr (c : UInt8) :
    Does t (consoleintr c) ⟨none, none, none, σ⟩ fun _ ℓ' => ℓ' = ⟨none, none, none, σ⟩ := by
  refine ok_lock.seq ?_
  rintro _ ℓ ⟨v, hv, hℓ⟩
  refine (ok_edit c hℓ hv).seq ?_
  rintro _ ℓ1 ⟨v1, hv1, hℓ1⟩
  exact ok_unlock hℓ1 hv1

theorem ok_call {loc : Loc} {c : ConsProg n Loc} (hc : Calls t loc c) (hrest : Rest loc ℓ) :
    Does t c ℓ Rest := by
  cases hc with
  | read p r m =>
    cases hrest
    exact ok_consoleread m
  | readOn p target m room =>
    cases hrest with
    | reading _ _ _ bs hp hpos =>
      refine (ok_awake (M := monitor n) (by rfl) (by rfl)).seq ?_
      rintro _ _ ⟨v, hv, rfl⟩
      refine ok_consolereadFrom target m room bs hp ?_ hv
      unfold reads
      rw [if_neg (by omega)]
      exact ⟨_, rfl⟩
  | kill p r pid =>
    cases hrest
    refine (ok_kill pid (by rfl) (by rfl)).next fun r => ?_
    exact Rest.user r
  | intr i r c =>
    cases hrest
    refine (ok_consoleintr c).next fun _ => ?_
    exact Rest.user 0

structure Later (d d' : Data n) : Prop where
  commits : d.wCount ≤ d'.wCount
  text : ∀ i < d.wCount, d'.text i = d.text i
  notes : d.notes <+: d'.notes

theorem Later.refl (d : Data n) : Later d d := ⟨Nat.le_refl _, fun _ _ => rfl, List.prefix_refl _⟩

theorem Later.trans {d'' : Data n} (h : Later d d') (h' : Later d' d'') : Later d d'' where
  commits := Nat.le_trans h.commits h'.commits
  text := fun i hi => (h'.text i (Nat.lt_of_lt_of_le hi h.commits)).trans (h.text i hi)
  notes := h.notes.trans h'.notes

def Lasts (β : Type) : Act n Unit Unit (Data n) β → Prop
  | .proc _ => True
  | .data f => ∀ d b d', Counters d → f d = .done b d' → Later d d'

theorem lasts_modify {f : Data n → Data n} (h : ∀ d, Counters d → Later d (f d)) :
    Only Lasts (modify f : ConsProg n Unit) := by
  refine only_perform fun d b d' hd hf => ?_
  cases hf
  exact h d hd

theorem lasts_cons : Only Lasts (cons : ConsProg n Cons) := by
  refine only_perform fun d b d' _ hf => ?_
  cases hf
  exact .refl d

theorem lasts_act {β : Type} (a : ProcAct n Unit Unit β) :
    Only Lasts (act a : ConsProg n β) := only_perform trivial

theorem lasts_wakeupFrom (qs : List (Fin n)) : Only Lasts (wakeupFrom () qs : ConsProg n Unit) := by
  induction qs with
  | nil => trivial
  | cons q qs ih =>
    refine (lasts_act _).bind fun _ => (lasts_act _).bind fun _ => (lasts_act _).bind fun _ => ?_
    exact ih

theorem lasts_killFrom (pid : ℕ) (qs : List (Fin n)) :
    Only Lasts (killFrom pid qs : ConsProg n ℤ) := by
  induction qs with
  | nil => trivial
  | cons q qs ih =>
    refine (lasts_act _).bind fun _ => (lasts_act _).bind fun k => ?_
    split_ifs
    · exact (lasts_act _).bind fun _ => (lasts_act _).bind fun _ =>
        (lasts_act _).bind fun _ => trivial
    · exact (lasts_act _).bind fun _ => ih

theorem lasts_sleep : Only Lasts (sleep p () () : ConsProg n Unit) :=
  (lasts_act _).bind fun _ => (lasts_act _).bind fun _ => (lasts_act _).bind fun _ =>
    (lasts_act _).bind fun _ => lasts_act _

theorem lasts_awake : Only Lasts (awake p () : ConsProg n Unit) :=
  (lasts_act _).bind fun _ => (lasts_act _).bind fun _ => (lasts_act _).bind fun _ => lasts_act _

theorem later_note (d : Data n) (p : Fin n) (ν : Note) : Later d (d.note p ν) :=
  ⟨Nat.le_refl _, fun _ _ => rfl, List.prefix_append _ _⟩

theorem lasts_finish (r : ℤ) : Only Lasts (finish p r) :=
  (lasts_modify fun d _ => later_note d p _).bind fun _ => (lasts_act _).bind fun _ => trivial

theorem lasts_consolereadFrom (target : ℤ) (m room : ℕ) :
    Only Lasts (consolereadFrom p target m room) := by
  induction m generalizing room with
  | zero => exact lasts_finish target
  | succ m ih =>
    have hnote : ∀ ν, Only Lasts (modify fun d : Data n => d.note p ν) := fun ν =>
      lasts_modify fun d _ => later_note d p ν
    refine lasts_cons.bind fun k => ?_
    by_cases hempty : k.r = k.w
    · rw [if_pos hempty]
      refine (lasts_act _).bind fun killed => ?_
      cases killed with
      | true => exact lasts_finish _
      | false => exact lasts_sleep.bind fun _ => trivial
    rw [if_neg hempty]
    refine Only.bind (only_perform fun d b d' _ hf => ?_) fun c => ?_
    · cases hf
      exact ⟨Nat.le_refl _, fun _ _ => rfl, List.prefix_refl _⟩
    · by_cases hD : c = ctrl 'D'
      · rw [if_pos hD]
        by_cases hbytes : ((m + 1 : ℕ) : ℤ) < target
        · rw [if_pos hbytes]
          refine (lasts_modify fun d _ => ?_).bind fun _ => lasts_finish _
          exact ⟨Nat.le_refl _, fun _ _ => rfl, List.prefix_append _ _⟩
        · rw [if_neg hbytes]
          exact (hnote _).bind fun _ => lasts_finish _
      rw [if_neg hD]
      by_cases hroom : room = 0
      · rw [if_pos hroom]
        exact lasts_finish _
      · rw [if_neg hroom]
        refine (hnote _).bind fun _ => ?_
        split_ifs
        · exact lasts_finish _
        · exact ih _

theorem lasts_consoleread (m : ℤ) (room : ℕ) : Only Lasts (consoleread p m room) := by
  refine (lasts_act _).bind fun _ => (lasts_modify fun d _ => later_note d p _).bind fun _ => ?_
  split_ifs
  · exact lasts_consolereadFrom m _ room
  · exact lasts_finish 0

theorem lasts_erase : Only Lasts (modify Data.erase : ConsProg n Unit) :=
  lasts_modify fun _ _ => ⟨Nat.le_refl _, fun _ _ => rfl, List.prefix_refl _⟩

theorem lasts_killLine (rounds : ℕ) : Only Lasts (killLine rounds : ConsProg n Unit) := by
  induction rounds with
  | zero => trivial
  | succ rounds ih =>
    refine lasts_cons.bind fun k => ?_
    split_ifs
    · exact lasts_erase.bind fun _ => ih
    · trivial

theorem lasts_insert (c : UInt8) : Only Lasts (insert c : ConsProg n Unit) := by
  refine lasts_cons.bind fun k => ?_
  by_cases hspace : c ≠ 0 ∧ k.e - k.r < UInt32.ofNat INPUT_BUF
  · rw [if_pos hspace]
    generalize (if c = carriageReturn then newline else c) = c
    refine (lasts_modify (f := fun d => d.store c)
      fun d hd => ⟨Nat.le_refl _, fun i hi => ?_, List.prefix_refl _⟩).bind
      fun _ => lasts_cons.bind fun k' => ?_
    · have := hd.w_le_e
      exact update_of_ne (by omega) ..
    · split_ifs
      · refine (lasts_modify fun d hd => ?_).bind fun _ => lasts_wakeupFrom _
        exact ⟨hd.w_le_e, fun _ _ => rfl, List.prefix_refl _⟩
      · trivial
  · rw [if_neg hspace]
    trivial

theorem lasts_consoleintr (c : UInt8) : Only Lasts (consoleintr c : ConsProg n Unit) := by
  refine (lasts_act _).bind fun _ => Only.bind ?_ fun _ => lasts_act _
  unfold edit
  split_ifs
  · trivial
  · exact lasts_cons.bind fun k => lasts_killLine _
  · refine lasts_cons.bind fun k => ?_
    split_ifs
    · exact lasts_erase
    · trivial
  · exact lasts_insert c

theorem lasts_call {loc : Loc} {c : ConsProg n Loc} (hc : Calls t loc c) : Only Lasts c := by
  cases hc with
  | read p r m => exact lasts_consoleread m _
  | readOn p target m room => exact lasts_awake.bind fun _ => lasts_consolereadFrom target m room
  | kill p r pid => exact (lasts_killFrom pid _).bind fun _ => trivial
  | intr i r c => exact (lasts_consoleintr c).bind fun _ => trivial

theorem holds_boot (pid : Fin n → ℕ) (buf : Fin INPUT_BUF → UInt8) :
    Holds (consoleUsers n) always (outline (monitor n) fun _ => Rest) (boot pid buf)
      fun _ => ⟨none, none, none, .idle⟩ := by
  have hcount : Counters (⟨⟨buf, 0, 0, 0⟩, 0, 0, 0, fun _ => 0, []⟩ : Data n) :=
    ⟨rfl, rfl, rfl, Nat.le_refl _, Nat.le_refl _, Nat.zero_le _,
      fun _ _ hi => absurd hi (Nat.not_lt_zero _)⟩
  refine ⟨inv_boot ⟨hcount, fun hfull => ?_, rfl⟩ ⟨hcount, fun _ => rfl⟩, fun _ => ?_⟩
  · cases hfull
  · exact Rest.user 0

/-- The indices are in order, what has not been read is in the buffer, and each process has done
    what a read may do. While the lock is free, the readers have taken the text before the read
    counter. -/
theorem console_line_discipline (pid : Fin n → ℕ) (buf : Fin INPUT_BUF → UInt8)
    {s s' : Sys (Thread n) (Act n Unit Unit (Data n)) Loc (Kernel n Unit Unit (Data n))}
    (h : Reach (consoleUsers n) always (boot pid buf) s)
    (h' : Reach (consoleUsers n) always s s') :
    Counters s.g.data ∧ (∀ p, (sessionOf p s.g.data.notes).isSome) ∧
      (s.g.lock () = none → Settled s.g.data) ∧ Later s.g.data s'.g.data := by
  have hinv : ∀ u, Reach (consoleUsers n) always (boot pid buf) u →
      ∃ Λ, Inv (monitor n) u.g Λ := by
    intro u hu
    obtain ⟨Λ, hI, -⟩ := Holds.reach (fun _ _ _ _ => ok_call)
      (fun _ _ _ _ hno => absurd hno not_false) (holds_boot pid buf) hu
    exact ⟨Λ, hI⟩
  obtain ⟨Λ, hI⟩ := hinv s h
  have hx := Facts.extra hI
  refine ⟨hx.1, fun p => ?_, fun hfree => Facts.own hI hfree, ?_⟩
  · rw [hx.2 p]
    rfl
  · have hthreads := only_reach (P := Lasts) (fun _ _ _ => lasts_call)
      (fun _ _ _ hno => absurd hno not_false) (s := boot pid buf) (fun _ => trivial) h
    refine Reach.related (P := Lasts) (J := fun g => Counters g.data)
      (R := fun g g' => Later g.data g'.data) (fun g => .refl _) (fun _ _ _ => Later.trans)
      (fun t β a g b g' ha hg hdone => ?_) (fun _ _ _ => lasts_call)
      (fun _ _ _ hno => absurd hno not_false) hthreads (fun u hu => ?_) h'
    · cases a with
      | proc a =>
        rw [execProc_data hdone]
        exact .refl _
      | data f =>
        obtain ⟨d', hd, rfl⟩ := exec_data (t := t) hdone
        exact ha _ _ _ hg hd
    · obtain ⟨Λ', hI'⟩ := hinv u (h.trans hu)
      exact (Facts.extra hI').1

/-- The line `a` is typed and read, and a control-D after it is kept for the next read. -/
def eofKept (p : Fin n)
    (s : Sys (Thread n) (Act n Unit Unit (Data n)) Loc (Kernel n Unit Unit (Data n))) : Bool :=
  s.g.lock () = none ∧ s.g.data.notes =
    [(p, .call 5), (p, .got 97), (p, .eof true), (p, .ret 1),
      (p, .call 5), (p, .eof false), (p, .ret 0)]

theorem console_line_discipline_eof :
    ∃ s, Reach (consoleUsers 1) always (boot (fun _ => 1) fun _ => 0) s ∧ eofKept 0 s = true ∧
      Settled s.g.data := by
  obtain ⟨s, hs, htest⟩ := exists_of_freely (S := consoleUsers 1)
    [.start (.intr 0) (.user 0) _ (Calls.intr 0 0 97), .acts (.intr 0) 5,
      .start (.intr 0) (.user 0) _ (Calls.intr 0 0 4), .acts (.intr 0) 9,
      .start (.proc 0) (.user 0) _ (Calls.read 0 0 5), .acts (.proc 0) 10,
      .start (.proc 0) (.user 1) _ (Calls.read 0 1 5), .acts (.proc 0) 7]
    (boot (fun _ => 1) fun _ => 0) (eofKept 0) (by decide +kernel)
  have hfacts := of_decide_eq_true htest
  exact ⟨s, hs, htest, (console_line_discipline _ _ hs .refl).2.2.1 hfacts.1⟩

end Xv6.ConsoleDiscipline
