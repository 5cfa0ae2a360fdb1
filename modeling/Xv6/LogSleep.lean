import Mathlib.Data.Fintype.Card
import Mathlib.Algebra.Order.Ring.Int
import Xv6.LogCode
import Xv6.Scripts
import Xv6.SleepRules

set_option autoImplicit false

/-! `begin_op`, `log_write` and `end_op` with their sleeps and wakeups. What a transaction writes is
reduced to the list of block numbers in the header. `ops` and `committer` are not part of the log:
they record which processes are in an operation and which one is committing. -/
namespace Xv6.LogSleep
open Resumption Interleaving SleepCode SleepRules
open LogCode (MAXOPBLOCKS LOGSIZE)
open Function (update update_eq_self update_of_ne)

structure Log (n : ℕ) where
  size : ℕ
  outstanding : ℤ
  committing : Bool
  lh : List ℕ
  ops : Fin n → Bool
  committer : Option (Fin n)

variable {n : ℕ}

abbrev LogProg (n : ℕ) (α : Type) := Code n Unit Unit (Log n) α

inductive Loc where
  | user
  | beginning
  | op
  deriving DecidableEq

/-- `begin_op` must wait for space. -/
def crowded (lg : Log n) : Prop :=
  lg.lh.length + (lg.outstanding + 1) * (MAXOPBLOCKS : ℤ) > LOGSIZE

instance (lg : Log n) : Decidable (crowded lg) := inferInstanceAs (Decidable (_ > _))

def beginLoop (p : Fin n) : LogProg n Loc := do
  let lg ← read id
  if lg.committing then
    sleep p () ()
    return .beginning
  else if crowded lg then
    sleep p () ()
    return .beginning
  else
    modify fun lg => { lg with
      outstanding := lg.outstanding + 1, ops := update lg.ops p true }
    act (.release (.data ()))
    return .op

def beginOp (p : Fin n) : LogProg n Loc := do
  act (.acquire (.data ()))
  beginLoop p

def logWrite (b : ℕ) : LogProg n Unit := do
  let lg ← read id
  if lg.lh.length ≥ LOGSIZE ∨ lg.lh.length + 1 ≥ lg.size then
    data fun _ => .panic "too big a transaction"
  else
    let lg ← read id
    if lg.outstanding < 1 then data fun _ => .panic "log_write outside of trans"
    else
      act (.acquire (.data ()))
      modify fun lg => if b ∈ lg.lh then lg else { lg with lh := lg.lh ++ [b] }
      act (.release (.data ()))

def endCommit : LogProg n Unit := do
  act (.acquire (.data ()))
  modify fun lg => { lg with committing := false, committer := none }
  wakeup ()
  act (.release (.data ()))

def commit : LogProg n Unit := do
  let lg ← read id
  if 0 < lg.lh.length then modify fun lg => { lg with lh := [] }

def endOp (p : Fin n) : LogProg n Unit := do
  act (.acquire (.data ()))
  modify fun lg => { lg with
    outstanding := lg.outstanding - 1, ops := update lg.ops p false }
  let lg ← read id
  if lg.committing then data fun _ => .panic "log.committing"
  else if lg.outstanding = 0 then
    modify fun lg => { lg with committing := true, committer := some p }
    act (.release (.data ()))
    commit
    endCommit
  else
    wakeup ()
    act (.release (.data ()))

inductive Calls : Thread n → Loc → LogProg n Loc → Prop where
  | beginOp (p : Fin n) : Calls (.proc p) .user (LogSleep.beginOp p)
  | beginOn (p : Fin n) : Calls (.proc p) .beginning do
      awake p ()
      beginLoop p
  | logWrite (p : Fin n) (b : ℕ) : Calls (.proc p) .op do
      LogSleep.logWrite b
      return .op
  | endOp (p : Fin n) : Calls (.proc p) .op do
      LogSleep.endOp p
      return .user
  | kill (p : Fin n) (pid : ℕ) : Calls (.proc p) .user do
      let _ ← SleepCode.kill pid
      return .user

def logUsers (n : ℕ) : Setting (Thread n) (Act n Unit Unit (Log n)) Loc
    (Kernel n Unit Unit (Log n)) := sleepers Calls

def boot (pid : Fin n → ℕ) (size : ℕ) :
    Sys (Thread n) (Act n Unit Unit (Log n)) Loc (Kernel n Unit Unit (Log n)) where
  g := bootKernel pid ⟨size, 0, false, [], fun _ => false, none⟩
  thr := fun _ => .ret .user

structure Guarded where
  outstanding : ℤ
  committing : Bool
  lh : List ℕ

def guarded (lg : Log n) : Guarded :=
  ⟨lg.outstanding, lg.committing, if lg.committing then [] else lg.lh⟩

def Finds (v : Guarded) : Prop :=
  v.committing = true ∨
    1 ≤ v.outstanding ∧ v.lh.length + (v.outstanding + 1) * (MAXOPBLOCKS : ℤ) > LOGSIZE

inductive Work where
  | none
  | op
  | commits (cleared : Bool)
  deriving DecidableEq

structure Working (lg : Log n) (work : Thread n → Work) : Prop where
  ops : ∀ p, lg.ops p = true ↔ work (.proc p) = .op
  outstanding : lg.outstanding = (Finset.univ.filter fun p => lg.ops p = true).card
  committer : ∀ p, lg.committer = some p ↔ ∃ c, work (.proc p) = .commits c
  committing : lg.committing = true ↔ lg.committer ≠ none
  quiet : lg.committing = true → lg.outstanding = 0
  cleared : ∀ p, work (.proc p) = .commits true → lg.lh = []

def Empty (v : Guarded) : Prop := v.committing = false → v.outstanding = 0 → v.lh = []

def monitor (n : ℕ) : Monitor n Unit Unit (Log n) Guarded Work where
  k := ()
  view := guarded
  cond := fun _ => Finds
  sleeper := fun _ work => work = .none
  own := Empty
  extra := Working

inductive Rest : Loc → Ghost n Unit Guarded Work → Prop where
  | user : Rest .user ⟨none, none, none, .none⟩
  | beginning : Rest .beginning ⟨none, none, some ((), true), .none⟩
  | op : Rest .op ⟨none, none, none, .op⟩

variable {p q : Fin n} {t : Thread n} {v : Guarded} {due due' : Due n Unit} {work : Work}

abbrev Does (t : Thread n) {α : Type} (c : LogProg n α) (ℓ : Ghost n Unit Guarded Work)
    (Q : α → Ghost n Unit Guarded Work → Prop) : Prop :=
  Ok (monitor n) Calls always (fun _ => Rest) t c ℓ Q

def busy (v : Guarded) (due : Due n Unit) (work : Work) : Ghost n Unit Guarded Work :=
  ⟨some (v, due), none, none, work⟩

theorem ok_lock :
    Does t (act (.acquire (.data ()))) ⟨none, none, none, work⟩ fun _ ℓ' =>
      ∃ v, Empty v ∧ ℓ' = busy v (fun _ _ => False) work := by
  refine (ok_acquire (M := monitor n) (by rfl)).mono ?_
  rintro _ _ ⟨v, hv, rfl⟩
  exact ⟨v, hv, rfl⟩

theorem ok_unlock (hempty : Empty v) (h : ∀ χ p, due χ p → Finds v) :
    Does t (act (.release (.data ()))) (busy v due work) fun _ ℓ' =>
      ℓ' = ⟨none, none, none, work⟩ := by
  refine (ok_release (M := monitor n) (by rfl) hempty h).mono fun _ ℓ' hℓ => ?_
  rw [hℓ]
  rfl

theorem ok_look :
    Does t (read id) (busy v due work) fun lg ℓ' => guarded lg = v ∧
      ∃ ext due', Working lg ext ∧ ext t = work ∧ ℓ' = busy v due' work ∧
        ∀ χ p, due' χ p → due χ p := by
  refine (ok_read (fun d b d' hd => by cases hd; rfl) (by rfl)).mono ?_
  rintro lg _ ⟨d, ext, hv, hx, ht, hd, rfl⟩
  cases hd
  exact ⟨hv, ext, _, hx, ht, rfl, fun χ p hdue => hdue.1⟩

theorem ok_glance {β : Type} (f : Log n → β) :
    Does t (read f) ⟨none, none, none, work⟩ fun _ ℓ' => ℓ' = ⟨none, none, none, work⟩ := by
  refine ok_aside (by rfl) fun d ext hx ht b d' hd => ?_
  cases hd
  refine ⟨work, rfl, ?_, rfl⟩
  rw [show work = ext t from ht.symm, update_eq_self]
  exact hx

theorem ok_set (due' : Due n Unit) (f : Log n → Log n) (work' : Work)
    (hwork : ∀ lg ext, guarded lg = v → Working lg ext → ext t = work →
      Working (f lg) (update ext t work'))
    (hsub : ∀ χ p, due χ p → due' χ p)
    (hfinds : ∀ lg, guarded lg = v → Finds v → Finds (guarded (f lg)) ∨ ∀ p, due' () p) :
    Does t (modify f) (busy v due work) fun _ ℓ' =>
      ∃ lg ext, guarded lg = v ∧ Working lg ext ∧ ext t = work ∧
        ℓ' = busy (guarded (f lg)) due' work' := by
  refine ok_data (by rfl) (by rfl) fun lg ext hv hx ht b d' hd => ?_
  cases hd
  refine ⟨work', due', hsub, fun _ p hc => ?_, hwork lg ext hv hx ht, lg, ext, hv, hx, ht, rfl⟩
  rcases hfinds lg hv hc with h | h
  · exact .inl h
  · exact .inr (h p)

variable {lg : Log n} {ext : Thread n → Work}

theorem update_iff {P : Work → Prop} {w : Work} (h : ¬ P (ext t)) (hw : ¬ P w) (u : Thread n) :
    P (update ext t w u) ↔ P (ext u) := by
  grind

section

variable (h : Working lg ext)
include h

theorem Working.nonneg : 0 ≤ lg.outstanding := by
  rw [h.outstanding]
  exact Int.natCast_nonneg _

theorem Working.op_pos (hp : ext (.proc p) = .op) : 1 ≤ lg.outstanding := by
  have hmem : p ∈ Finset.univ.filter fun q => lg.ops q = true := by simpa using (h.ops p).2 hp
  have hpos := Finset.card_pos.2 ⟨p, hmem⟩
  rw [h.outstanding]
  omega

theorem Working.not_committing (hp : ext (.proc p) = .op) : lg.committing = false := by
  by_contra hcom
  have h1 := h.op_pos hp
  have h2 := h.quiet (by simpa using hcom)
  omega

theorem Working.enter (hp : ext (.proc p) = .none) (hcom : lg.committing = false) :
    Working { lg with
      outstanding := lg.outstanding + 1, ops := update lg.ops p true }
      (update ext (.proc p) .op) := by
  have hout : lg.ops p ≠ true := by
    rw [ne_eq, h.ops p, hp]
    decide
  refine ⟨fun q => ?_, ?_, fun q => (h.committer q).trans ?_, h.committing, fun hc => ?_,
    fun q hq => h.cleared q ?_⟩
  · grind [h.ops]
  · have hset : (Finset.univ.filter fun q => update lg.ops p true q = true) =
        insert p (Finset.univ.filter fun q => lg.ops q = true) := by
      ext q
      by_cases hq : q = p <;> simp [hq]
    change lg.outstanding + 1 = _
    rw [hset, Finset.card_insert_of_notMem (by simpa using hout), h.outstanding]
    push_cast
    rfl
  · exact (update_iff (P := fun w => ∃ c, w = .commits c) (by simp [hp]) (by simp) _).symm
  · exact absurd (hcom.symm.trans hc) nofun
  · exact (update_iff (P := fun w => w = .commits true) (by simp [hp]) (by simp) _).1 hq

theorem Working.leave (hp : ext (.proc p) = .op) :
    Working { lg with
      outstanding := lg.outstanding - 1, ops := update lg.ops p false }
      (update ext (.proc p) .none) := by
  refine ⟨fun q => ?_, ?_, fun q => (h.committer q).trans ?_, h.committing, fun hc => ?_,
    fun q hq => h.cleared q ?_⟩
  · grind [h.ops]
  · have hset : (Finset.univ.filter fun q => update lg.ops p false q = true) =
        (Finset.univ.filter fun q => lg.ops q = true).erase p := by
      ext q
      by_cases hq : q = p <;> simp [hq]
    have hmem : p ∈ Finset.univ.filter fun q => lg.ops q = true := by
      simpa using (h.ops p).2 hp
    have hpos := Finset.card_pos.2 ⟨p, hmem⟩
    change lg.outstanding - 1 = _
    rw [hset, Finset.card_erase_of_mem hmem, h.outstanding]
    omega
  · exact (update_iff (P := fun w => ∃ c, w = .commits c) (by simp [hp]) (by simp) _).symm
  · exact absurd ((h.not_committing hp).symm.trans hc) nofun
  · exact (update_iff (P := fun w => w = .commits true) (by simp [hp]) (by simp) _).1 hq

theorem Working.startCommit (hp : ext (.proc p) = .none) (hnot : lg.committing = false)
    (h0 : lg.outstanding = 0) :
    Working { lg with committing := true, committer := some p }
      (update ext (.proc p) (.commits false)) := by
  have hnone : lg.committer = none := by
    by_contra hne
    rw [h.committing.2 hne] at hnot
    cases hnot
  refine ⟨fun q => (h.ops q).trans ?_, h.outstanding, fun q => ?_, ⟨fun _ => nofun, fun _ => rfl⟩,
    fun _ => h0, fun q hq => h.cleared q ?_⟩
  · exact (update_iff (P := fun w => w = .op) (by simp [hp]) (by simp) _).symm
  · by_cases hq : q = p
    · subst hq
      simp
    · rw [update_of_ne (fun he => hq (Thread.proc.inj he)), ← h.committer q, hnone]
      simp [Ne.symm hq]
  · exact (update_iff (P := fun w => w = .commits true) (by simp [hp]) (by simp) _).1 hq

theorem Working.endCommit {c : Bool} (hp : ext (.proc p) = .commits c) :
    Working { lg with committing := false, committer := none }
      (update ext (.proc p) .none) := by
  have hcom : lg.committer = some p := (h.committer p).2 ⟨c, hp⟩
  have hother : ∀ q c', update ext (.proc p) .none (.proc q) ≠ .commits c' := by
    intro q c' hq
    grind [h.committer q]
  refine ⟨fun q => (h.ops q).trans ?_, h.outstanding, fun q => ⟨nofun, fun ⟨c', hc⟩ => ?_⟩,
    ⟨nofun, fun hne => absurd rfl hne⟩, nofun, fun q hq => absurd hq (hother q true)⟩
  · exact (update_iff (P := fun w => w = .op) (by simp [hp]) (by simp) _).symm
  · exact absurd hc (hother q c')

theorem Working.clear {c : Bool} (hp : ext (.proc p) = .commits c) :
    Working { lg with lh := [] } (update ext (.proc p) (.commits true)) := by
  refine ⟨fun q => (h.ops q).trans ?_, h.outstanding, fun q => (h.committer q).trans ?_,
    h.committing, h.quiet, fun _ _ => rfl⟩
  · exact (update_iff (P := fun w => w = .op) (by simp [hp]) (by simp) _).symm
  · grind

theorem Working.append (hp : ext (.proc p) = .op) (l : List ℕ) :
    Working { lg with lh := l } ext := by
  refine ⟨h.ops, h.outstanding, h.committer, h.committing, h.quiet, fun q hq => ?_⟩
  have hcom := h.committing.2 (by rw [(h.committer q).2 ⟨true, hq⟩]; nofun)
  rw [h.not_committing hp] at hcom
  cases hcom

theorem finds_of_crowded (hempty : Empty (guarded lg)) (hcom : lg.committing = false)
    (hcrowd : crowded lg) : Finds (guarded lg) := by
  have hlh : (guarded lg).lh = lg.lh := by
    unfold guarded
    rw [hcom]
    rfl
  refine .inr ⟨?_, ?_⟩
  · by_contra hlt
    have h0 := h.nonneg
    have hzero : lg.outstanding = 0 := by
      change ¬ 1 ≤ lg.outstanding at hlt
      omega
    have hnil := hempty hcom hzero
    rw [hlh] at hnil
    unfold crowded at hcrowd
    rw [hzero, hnil] at hcrowd
    exact absurd hcrowd (by decide)
  · rw [hlh]
    exact hcrowd

end

theorem ok_beginSleep (hempty : Empty v) (h : ∀ χ p, ¬ due χ p) (hfinds : Finds v) :
    Does (.proc p) (do
      sleep p () ()
      return .beginning) (busy v due .none) Rest := by
  have hwork : (monitor n).sleeper () Work.none := rfl
  refine (ok_sleep (M := monitor n) (χ := ()) (v := v) (by rfl) (by rfl) (by rfl) hempty
    (fun χ p hd => absurd hd (h χ p)) hfinds (by exact hwork)).next fun _ => ?_
  exact .beginning

theorem finds_enter {lh : List ℕ} {o : ℤ} (h : Finds ⟨o, false, lh⟩) : Finds
    ⟨o + 1, false, lh⟩ := by
  rcases h with h | ⟨h1, h2⟩
  · cases h
  have hM : (MAXOPBLOCKS : ℤ) = 10 := rfl
  refine .inr ⟨?_, ?_⟩
  · change 1 ≤ o + 1
    change 1 ≤ o at h1
    omega
  · dsimp only at h2 ⊢
    rw [hM] at h2 ⊢
    omega

theorem ok_beginLoop (hempty : Empty v) :
    Does (.proc p) (beginLoop p) (busy v (fun _ _ => False) .none) Rest := by
  refine ok_look.seq ?_
  rintro lg _ ⟨rfl, ext, due', hx, hp, rfl, hdue⟩
  split_ifs with hcom hcrowd
  · exact ok_beginSleep hempty hdue (.inl hcom)
  · exact ok_beginSleep hempty hdue (finds_of_crowded hx hempty (by simpa using hcom) hcrowd)
  · have hfalse : lg.committing = false := by simpa using hcom
    have hsame : ∀ lg' : Log n, guarded lg' = guarded lg → lg'.committing = false ∧
        guarded lg' = ⟨lg'.outstanding, false, lg'.lh⟩ := by
      intro lg' hv
      have hc : lg'.committing = false := (congrArg Guarded.committing hv).trans hfalse
      refine ⟨hc, ?_⟩
      unfold guarded
      rw [hc]
      rfl
    refine (ok_set _ _ .op (fun lg' ext' hv hx' hp' => hx'.enter hp' (hsame lg' hv).1)
      (fun _ _ hd => hd) fun lg' hv hf => .inl ?_).seq ?_
    · rw [← hv, (hsame lg' hv).2] at hf
      have := finds_enter hf
      unfold guarded
      dsimp only
      rw [(hsame lg' hv).1]
      exact this
    · rintro _ _ ⟨lg', ext', hv, hx', -, rfl⟩
      refine (ok_unlock (fun _ h0 => ?_) fun χ p hd => absurd (hdue χ p hd) not_false).seq ?_
      · have hn := hx'.nonneg
        change lg'.outstanding + 1 = 0 at h0
        omega
      · rintro _ _ rfl
        exact .op

theorem guarded_of_not (h : lg.committing = false) :
    guarded lg = ⟨lg.outstanding, false, lg.lh⟩ := by
  unfold guarded
  rw [h]
  rfl

theorem finds_append {lh l : List ℕ} {o : ℤ} (h : Finds ⟨o, false, lh⟩) :
    Finds ⟨o, false, lh ++ l⟩ := by
  rcases h with h | ⟨h1, h2⟩
  · cases h
  · refine .inr ⟨h1, ?_⟩
    dsimp only at h2 ⊢
    rw [List.length_append]
    push_cast
    omega

theorem ok_logWrite (b : ℕ) :
    Does (.proc p) (logWrite b) ⟨none, none, none, .op⟩ fun _ ℓ' =>
      ℓ' = ⟨none, none, none, .op⟩ := by
  have hpanic : ∀ msg, Does (.proc p) (data fun _ => .panic msg : LogProg n Unit)
      ⟨none, none, none, .op⟩ fun _ ℓ' => ℓ' = ⟨none, none, none, .op⟩ :=
    fun msg => ok_aside (by rfl) fun _ _ _ _ _ _ hd => by cases hd
  refine (ok_glance id).next fun lg => ?_
  split_ifs
  · exact hpanic _
  · refine (ok_glance id).next fun lg => ?_
    split_ifs
    · exact hpanic _
    · refine ok_lock.seq ?_
      rintro _ _ ⟨v, -, rfl⟩
      refine (ok_set _ _ .op (fun lg ext hv hx hp => ?_) (fun _ _ hd => hd)
        fun lg hv hf => .inl ?_).seq ?_
      · rw [← hp, update_eq_self]
        split_ifs
        · exact hx
        · exact hx.append hp _
      · split_ifs
        · rwa [hv]
        · cases hc : lg.committing with
          | true => exact .inl rfl
          | false =>
            rw [← hv, guarded_of_not hc] at hf
            exact finds_append hf
      · rintro _ _ ⟨lg, ext, hv, hx, hp, rfl⟩
        refine ok_unlock (fun _ h0 => ?_) fun χ p hd => absurd hd not_false
        have hpos := hx.op_pos hp
        have hsame : (guarded (if b ∈ lg.lh then lg else
          { lg with lh := lg.lh ++ [b] })).outstanding =
            lg.outstanding := by
          split_ifs <;> rfl
        rw [hsame] at h0
        omega

theorem ok_wakeup_unlock (hempty : Empty v) :
    Does t (do
      wakeup ()
      act (.release (.data ()))) (busy v due work) fun _ ℓ' => ℓ' = ⟨none, none, none, work⟩ := by
  refine (ok_wakeup (by rfl) (by rfl) (by rfl)).seq ?_
  rintro _ _ ⟨due', rfl, hdue⟩
  exact ok_unlock hempty fun χ p hd => absurd rfl (hdue χ p hd).2

theorem ok_endCommit :
    Does (.proc p) endCommit ⟨none, none, none, .commits true⟩ fun _ ℓ' =>
      ℓ' = ⟨none, none, none, .none⟩ := by
  refine ok_lock.seq ?_
  rintro _ _ ⟨v, -, rfl⟩
  refine (ok_set (fun _ _ => True) _ .none (fun lg ext _ hx hp => hx.endCommit hp)
    (fun _ _ _ => trivial) fun _ _ _ => .inr fun _ => trivial).seq ?_
  rintro _ _ ⟨lg, ext, -, hx, hp, rfl⟩
  exact ok_wakeup_unlock fun _ _ => hx.cleared p hp

theorem ok_commit :
    Does (.proc p) commit ⟨none, none, none, .commits false⟩ fun _ ℓ' =>
      ℓ' = ⟨none, none, none, .commits true⟩ := by
  refine (ok_aside (Q := fun lg ℓ' => ℓ' = ⟨none, none, none, .commits (decide (lg.lh = []))⟩)
    (by rfl) fun lg ext hx hp b d' hd => ?_).seq ?_
  · cases hd
    refine ⟨.commits (decide (lg.lh = [])), rfl, ?_, rfl⟩
    by_cases hnil : lg.lh = []
    · have hsame : { lg with lh := [] } = lg := by rw [← hnil]
      have hclear := hx.clear hp
      rw [hsame] at hclear
      rw [decide_eq_true hnil]
      exact hclear
    · rw [decide_eq_false hnil, ← show ext (.proc p) = .commits false from hp, update_eq_self]
      exact hx
  · rintro lg _ rfl
    split_ifs with hpos
    · refine ok_aside (by rfl) fun lg' ext hx hp b d' hd => ?_
      cases hd
      have hcom : lg'.committing = true :=
        hx.committing.2 (by rw [(hx.committer p).2 ⟨_, hp⟩]; exact Option.some_ne_none p)
      refine ⟨.commits true, ?_, hx.clear hp, rfl⟩
      change guarded { lg' with lh := [] } = guarded lg'
      simp only [guarded, hcom, ↓reduceIte]
    · have hnil : lg.lh = [] := List.eq_nil_of_length_eq_zero (by omega)
      rw [decide_eq_true hnil]
      rfl

theorem ok_endOp :
    Does (.proc p) (endOp p) ⟨none, none, none, .op⟩ fun _ ℓ' => ℓ' =
    ⟨none, none, none, .none⟩ := by
  refine ok_lock.seq ?_
  rintro _ _ ⟨v, -, rfl⟩
  refine (ok_set (fun _ _ => True) _ .none (fun lg ext _ hx hp => hx.leave hp)
    (fun _ _ _ => trivial) fun _ _ _ => .inr fun _ => trivial).seq ?_
  rintro _ _ ⟨lg0, ext0, -, -, -, rfl⟩
  refine ok_look.seq ?_
  rintro lg _ ⟨hv, ext, due', hx, hp, rfl, -⟩
  rw [← hv]
  split_ifs with hcom hzero
  · exact ok_data (by rfl) (by rfl) fun _ _ _ _ _ _ _ hd => by cases hd
  · refine (ok_set (fun _ _ => True) _ (.commits false) (fun lg' ext' hv' hx' hp' => ?_)
      (fun _ _ _ => trivial) fun _ _ _ => .inr fun _ => trivial).seq ?_
    · refine hx'.startCommit hp' ?_ ?_
      · have : lg'.committing = lg.committing := congrArg Guarded.committing hv'
        rw [this]
        simpa using hcom
      · have : lg'.outstanding = lg.outstanding := congrArg Guarded.outstanding hv'
        rw [this]
        exact hzero
    · rintro _ _ ⟨lg', ext', -, -, -, rfl⟩
      refine (ok_unlock (fun hc => by cases hc) fun _ _ _ => .inl rfl).next fun _ => ?_
      refine ok_commit.next fun _ => ?_
      exact ok_endCommit
  · exact ok_wakeup_unlock fun _ h0 => absurd h0 hzero

theorem ok_call {l : Loc} {c : LogProg n Loc} {ℓ : Ghost n Unit Guarded Work} (h : Calls t l c)
    (hℓ : Rest l ℓ) : Does t c ℓ Rest := by
  cases h with
  | beginOp p =>
    cases hℓ
    refine ok_lock.seq ?_
    rintro _ _ ⟨v, hv, rfl⟩
    exact ok_beginLoop hv
  | beginOn p =>
    cases hℓ
    refine (ok_awake (M := monitor n) (by rfl) (by rfl)).seq ?_
    rintro _ _ ⟨v, hv, rfl⟩
    exact ok_beginLoop hv
  | logWrite p b =>
    cases hℓ
    refine (ok_logWrite b).next fun _ => ?_
    exact .op
  | endOp p =>
    cases hℓ
    refine ok_endOp.next fun _ => ?_
    exact .user
  | kill p pid =>
    cases hℓ
    refine (ok_kill pid (by rfl) (by rfl)).next fun _ => ?_
    exact .user

structure Served (g : Kernel n Unit Unit (Log n)) : Prop where
  /-- Whoever sleeps on the log finds a commit going on or no space. -/
  waits : ∀ p, (g.proc p).state = .sleeping → (g.proc p).chan = some () →
    g.data.committing = true ∨ 1 ≤ g.data.outstanding ∧ crowded g.data
  /-- Another process commits or is in an operation. -/
  other : ∀ p, (g.proc p).state = .sleeping → (g.proc p).chan = some () →
    (∃ q, q ≠ p ∧ g.data.committer = some q) ∨ ∃ q, q ≠ p ∧ g.data.ops q = true
  /-- The count is that of the processes in an operation. -/
  counts : g.data.outstanding = (Finset.univ.filter fun p => g.data.ops p = true).card ∧
    (g.data.committing = true ↔ ∃ q, g.data.committer = some q)
  /-- With no operation in progress nobody sleeps. -/
  idle : (∀ q, g.data.ops q = false) → g.data.committer = none →
    ∀ p, (g.proc p).state = .sleeping → (g.proc p).chan ≠ some ()

theorem served_of_inv {g : Kernel n Unit Unit (Log n)} {Λ : Thread n → Ghost n Unit Guarded Work}
    (hI : Inv (monitor n) g Λ) (hfree : g.lock () = none) : Served g := by
  have hx : Working g.data fun t => (Λ t).ext := Facts.extra hI
  have hwaits : ∀ p, (g.proc p).state = .sleeping → (g.proc p).chan = some () →
      g.data.committing = true ∨ 1 ≤ g.data.outstanding ∧ crowded g.data := by
    intro p hs hχ
    have hfinds : Finds (guarded g.data) := (hI.sleeper hfree hs hχ).2
    cases hc : g.data.committing with
    | true => exact .inl rfl
    | false =>
      rw [guarded_of_not hc] at hfinds
      rcases hfinds with hcom | hno
      · cases hcom
      · exact .inr hno
  have hother : ∀ p, (g.proc p).state = .sleeping → (g.proc p).chan = some () →
      (∃ q, q ≠ p ∧ g.data.committer = some q) ∨ ∃ q, q ≠ p ∧ g.data.ops q = true := by
    intro p hs hχ
    have hbed := (hI.sleeper hfree hs hχ).1
    have hnone : (Λ (.proc p)).ext = .none := Facts.sleeps hI p () true hbed
    rcases hwaits p hs hχ with hcom | ⟨hpos, -⟩
    · obtain ⟨q, hq⟩ := Option.ne_none_iff_exists'.1 (hx.committing.1 hcom)
      refine .inl ⟨q, ?_, hq⟩
      rintro rfl
      obtain ⟨c, hc⟩ := (hx.committer q).1 hq
      rw [hnone] at hc
      cases hc
    rw [hx.outstanding] at hpos
    obtain ⟨q, hq⟩ := Finset.card_pos.1 (by omega :
      0 < (Finset.univ.filter fun p => g.data.ops p = true).card)
    have hop : g.data.ops q = true := by simpa using hq
    refine .inr ⟨q, ?_, hop⟩
    rintro rfl
    have := (hx.ops q).1 hop
    rw [hnone] at this
    cases this
  refine ⟨hwaits, hother, ⟨hx.outstanding, ?_⟩, fun hops hcom p hs hχ => ?_⟩
  · rw [hx.committing, Option.ne_none_iff_exists']
  · rcases hother p hs hχ with ⟨q, -, hq⟩ | ⟨q, -, hq⟩
    · rw [hcom] at hq
      cases hq
    · rw [hops q] at hq
      cases hq

theorem holds_boot (pid : Fin n → ℕ) (size : ℕ) :
    Holds (logUsers n) always (outline (monitor n) fun _ => Rest) (boot pid size)
      fun _ => ⟨none, none, none, .none⟩ := by
  refine ⟨inv_boot (fun _ _ => rfl) ⟨?_, ?_, ?_, ⟨nofun, fun h => absurd rfl h⟩, nofun, nofun⟩,
    fun _ => .user⟩
  · intro p
    simp
  · simp
  · intro p
    simp

section Wakes

variable {g : Kernel n Unit Unit (Log n)}

abbrev Leads (t : Thread n) (c : LogProg n Unit) (Q : Kernel n Unit Unit (Log n) → Prop) :
    Kernel n Unit Unit (Log n) → Prop :=
  Total (logUsers n).toMachine t c fun _ => Q

theorem leads_wakeup_unlock (hlock : g.lock () = some t) (hfree : ∀ q, g.plock q = none)
    (hs : (g.proc p).state = .sleeping) (hχ : (g.proc p).chan = some ()) :
    Leads t (do
      wakeup ()
      act (.release (.data ()))) (fun g' => (g'.proc p).state = .runnable) g := by
  refine total_bind (total_wakeup g hfree ?_)
  refine total_act (b := ()) (h := _) (if_pos hlock) ?_
  change (woken () (g.proc p)).state = .runnable
  unfold woken
  rw [if_pos ⟨hs, hχ⟩]

theorem leads_endCommit (hlock : g.lock () = none) (hfree : ∀ q, g.plock q = none)
    (hs : (g.proc p).state = .sleeping) (hχ : (g.proc p).chan = some ()) :
    Leads t endCommit (fun g' => (g'.proc p).state = .runnable) g := by
  refine total_act (b := ()) (h := g.setLock (some t) (.data ())) (if_pos hlock) ?_
  have hheld : (g.setLock (some t) (.data ())).lock () = some t := setLock_lock ..
  refine total_act (b := ()) (h := _) rfl ?_
  exact leads_wakeup_unlock hheld hfree hs hχ

theorem leads_commit {Q : Kernel n Unit Unit (Log n) → Prop}
    (h : ∀ l, Q { g with data := { g.data with lh := l } }) : Leads t commit Q g := by
  refine total_act (b := g.data) (h := g) rfl ?_
  split_ifs
  · exact total_act (k := .ret) (b := ()) (h := _) rfl (h [])
  · exact h g.data.lh

theorem leads_endOp (hlock : g.lock () = none) (hfree : ∀ q, g.plock q = none)
    (hcom : g.data.committing = false)
    (hs : (g.proc p).state = .sleeping) (hχ : (g.proc p).chan = some ()) :
    Leads t (endOp q) (fun g' => (g'.proc p).state = .runnable) g := by
  have hheld : (g.setLock (some t) (.data ())).lock () = some t := setLock_lock ..
  refine total_act (b := ()) (h := g.setLock (some t) (.data ())) (if_pos hlock) ?_
  refine total_act (b := ()) (h := _) rfl ?_
  refine total_act (b := _) (h := _) rfl ?_
  have hnot : (g.setLock (some t) (.data ())).data.committing ≠ true := by
    change g.data.committing ≠ true
    rw [hcom]
    decide
  dsimp only [id]
  rw [if_neg hnot]
  split_ifs
  · refine total_act (b := ()) (h := _) rfl ?_
    refine total_act (b := ()) (h := _) (if_pos hheld) ?_
    refine total_bind (leads_commit fun l => ?_)
    exact leads_endCommit (by simp only [setLock_lock]) hfree hs hχ
  · exact leads_wakeup_unlock hheld hfree hs hχ

end Wakes

/-- While the lock is free, whoever sleeps in `begin_op` waits for a process that commits or
    is in an operation, and the end of that commit or operation wakes it. -/
theorem begin_op_served (pid : Fin n → ℕ) (size : ℕ)
    {s : Sys (Thread n) (Act n Unit Unit (Log n)) Loc (Kernel n Unit Unit (Log n))}
    (h : Reach (logUsers n) always (boot pid size) s) (hfree : s.g.lock () = none) :
    Served s.g ∧ ∀ p, (s.g.proc p).state = .sleeping → (s.g.proc p).chan = some () →
      (∀ q, s.g.plock q = none) →
      (∀ q, s.g.data.committer = some q →
        Leads (.proc q) endCommit (fun g' => (g'.proc p).state = .runnable) s.g) ∧
      ∀ q, s.g.data.ops q = true →
        Leads (.proc q) (endOp q) (fun g' => (g'.proc p).state = .runnable) s.g := by
  obtain ⟨Λ, hI, -⟩ := Holds.reach (fun _ _ _ _ => ok_call)
    (fun _ _ _ _ hno => absurd hno not_false) (holds_boot pid size) h
  have hx : Working s.g.data fun t => (Λ t).ext := Facts.extra hI
  refine ⟨served_of_inv hI hfree, fun p hs hχ hlocks => ⟨fun q _ => ?_, fun q hq => ?_⟩⟩
  · exact leads_endCommit hfree hlocks hs hχ
  · exact leads_endOp hfree hlocks (hx.not_committing ((hx.ops q).1 hq)) hs hχ

def fourthSleeps (s : Sys (Thread 4) (Act 4 Unit Unit (Log 4)) Loc (Kernel 4 Unit Unit (Log 4))) :
    Bool :=
  s.g.lock () = none ∧ (s.g.proc 3).state = .sleeping ∧ (s.g.proc 3).chan = some ()

theorem begin_op_served_fourth :
    ∃ s, Reach (logUsers 4) always (boot (fun p => p.val + 1) 30) s ∧
      (s.g.proc 3).state = .sleeping ∧ Served s.g := by
  obtain ⟨s, hs, htest⟩ := exists_of_freely (S := logUsers 4)
    [.start (.proc 0) .user _ (Calls.beginOp 0), .acts (.proc 0) 4,
      .start (.proc 1) .user _ (Calls.beginOp 1), .acts (.proc 1) 4,
      .start (.proc 2) .user _ (Calls.beginOp 2), .acts (.proc 2) 4,
      .start (.proc 3) .user _ (Calls.beginOp 3), .acts (.proc 3) 7]
    (boot (fun p => p.val + 1) 30) fourthSleeps (by decide +kernel)
  have hfacts := of_decide_eq_true htest
  exact ⟨s, hs, hfacts.2.1, (begin_op_served _ _ hs hfacts.1).1⟩

end Xv6.LogSleep
