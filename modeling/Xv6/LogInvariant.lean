import Mathlib.Algebra.BigOperators.Pi
import Xv6.Counting
import Xv6.LogActions
import Xv6.LogSystem

set_option autoImplicit false

namespace Xv6.LogInvariant
open LogCode LogHeader LogSystem
open Function (update update_of_ne update_self)

variable {w : UInt32 → Block} {f : Buf}

/-- A locked buffer: its block, whether `bread` has filled it, and the contents the
    process has stored in it and neither logged nor written. -/
structure Hold where
  block : UInt32
  filled : Bool
  mine : Option Block

variable {x : Hold}

structure Own where
  hold : Option Hold
  loose : Option UInt32

variable {own : Proc → Own}

def Own.none : Own := ⟨.none, .none⟩

def Own.refs (o : Own) : ℕ := (if o.hold.isSome then 1 else 0) + if o.loose.isSome then 1 else 0

@[ext] structure Progress where
  bs : List UInt32
  new : UInt32 → Block
  /-- Log blocks, headers and home blocks written, and home blocks unpinned. -/
  filled : ℕ
  heads : ℕ
  written : ℕ
  unpinned : ℕ
  emptied : Bool

inductive Role where
  | idle
  | op (logged : List UInt32)
  | commit (c : Progress)

structure Ghost where
  own : BufId → Own
  role : Role

def Ghost.set (ℓ : Ghost) (i : BufId) (o : Own) : Ghost :=
  { ℓ with own := update ℓ.own i o }

def owners (Λ : Proc → Ghost) (i : BufId) : Proc → Own := fun p => (Λ p).own i

def roles (Λ : Proc → Ghost) : Proc → Role := fun p => (Λ p).role

def Role.ops : Role → ℕ
  | .op _ => 1
  | _ => 0

def Role.spare : Role → ℕ
  | .op L => MAXOPBLOCKS - 1 - L.length
  | _ => 0

structure LogOk (start : UInt32) (may : List UInt32 → Prop) (c : Progress) (log : Log)
    (ρ : Proc → Role) : Prop where
  area : log.start = start
  size : log.size = LOGSIZE
  dev : log.dev = ROOTDEV
  lh : log.lh = if c.emptied then [] else c.bs
  nodup : c.bs.Nodup
  home : ∀ b ∈ c.bs, ¬ InLog start LOGSIZE b
  len : c.bs.length ≤ LOGSIZE
  count : log.outstanding = ((∑ p, (ρ p).ops : ℕ) : ℤ)
  busy : log.committing = true ↔ ∃ p c', ρ p = .commit c'
  agree : ∀ p c', ρ p = .commit c' → c' = c
  alone : ∀ p q c', ρ p = .commit c' → ρ q ≠ .idle → q = p
  zero : log.committing = false →
    c.filled = 0 ∧ c.heads = 0 ∧ c.written = 0 ∧ c.unpinned = 0 ∧ c.emptied = false
  fresh : log.committing = false → log.outstanding = 0 → c.bs = []
  unpin : c.unpinned ≤ c.written
  mine : ∀ p L, ρ p = .op L → (L = [] ∨ may L) ∧ ∀ b ∈ L, b ∈ c.bs
  room : (∀ L, may L → L.length < MAXOPBLOCKS) →
    c.bs.length + ∑ p, (ρ p).spare ≤ LOGSIZE - 2

structure TraceOk (start : UInt32) (d₀ : UInt32 → Block) (c : Progress) (tr : List Event)
    (ρ : Proc → Role) : Prop where
  new : c.new = latest d₀ tr
  op : ∀ p, opOpen p tr = true ↔ ∃ L, ρ p = .op L
  com : ∀ p, inCommit p tr = true ↔ ∃ c', ρ p = .commit c'
  tx : ∀ b, b ∈ transaction tr ↔ b ∈ c.bs
  heads : headWrites start tr = c.heads
  inst : ∀ b, b ∈ installed start tr ↔ b ∈ c.bs.take c.written
  unsealed : ∀ b ∈ unsealed start tr, b ∈ c.bs ∧ c.heads = 0
  uninst : ∀ b ∈ uninstalled tr, b ∈ c.bs.drop c.written
  dur : c.heads ≠ 0 → durable start d₀ tr = c.new
  ok : ∀ e tr', (e :: tr') <:+ tr → Fitting start e tr'

def want (start : UInt32) (c : Progress) (disk : UInt32 → Block) (b : UInt32) : Block :=
  if InLog start LOGSIZE b then disk b else c.new b

def pin (c : Progress) (f : Buf) : ℕ :=
  if f.dev = ROOTDEV ∧ f.blockno ∈ c.bs.drop c.unpinned then 1 else 0

structure BufOk (c : Progress) (want : UInt32 → Block) (f : Buf) (own : Proc → Own) : Prop where
  count : f.refcnt.toNat = ∑ p, (own p).refs + pin c f
  lock : ∀ p, f.lock = some p ↔ (own p).hold.isSome = true
  hold : ∀ p h, (own p).hold = some h →
    f.dev = ROOTDEV ∧ f.blockno = h.block ∧ (h.filled = true → f.valid = true)
  loose : ∀ p b, (own p).loose = some b → f.dev = ROOTDEV ∧ f.blockno = b
  cached : f.dev = ROOTDEV → f.valid = true → (∀ p h, (own p).hold = some h → h.mine = none) →
    f.data = want f.blockno
  stored : ∀ p h d, (own p).hold = some h → h.mine = some d → f.data = d

structure DiskOk (start : UInt32) (d₀ : UInt32 → Block) (c : Progress) (disk : UInt32 → Block)
    (tr : List Event) : Prop where
  home : ∀ b, ¬ InLog start LOGSIZE b → b ∉ c.bs.drop c.written → disk b = c.new b
  old : c.heads = 0 → ∀ b, ¬ InLog start LOGSIZE b → disk b = durable start d₀ tr b
  filled : ∀ j (hj : j < c.bs.length), j < c.filled → disk (slot start j) = c.new c.bs[j]
  head : headList (disk start) = if c.heads = 1 then c.bs else []
  sealed : c.heads ≠ 0 → c.bs.length ≤ c.filled ∧ c.bs.length < LOGSIZE
  cleared : c.heads = 2 → c.bs.length ≤ c.written
  bound : c.heads ≤ 2

structure Inv (start : UInt32) (may : List UInt32 → Prop) (d₀ : UInt32 → Block) (c : Progress)
    (g : Kern) (Λ : Proc → Ghost) : Prop where
  log : LogOk start may c g.log (roles Λ)
  tr : TraceOk start d₀ c g.trace (roles Λ)
  lru : ∀ i, i ∈ g.lru
  uniq : ∀ i j, (g.buf i).dev = ROOTDEV → (g.buf j).dev = ROOTDEV →
    (g.buf i).blockno = (g.buf j).blockno → i = j
  buf : ∀ i, BufOk c (want start c g.disk) (g.buf i) (owners Λ i)
  resident : ∀ b ∈ c.bs.drop c.unpinned, ∃ i,
    (g.buf i).dev = ROOTDEV ∧ (g.buf i).blockno = b ∧ (g.buf i).valid = true
  disk : DiskOk start d₀ c g.disk g.trace

variable {start : UInt32} {may : List UInt32 → Prop} {d₀ : UInt32 → Block} {c : Progress}
  {g g' : Kern} {Λ : Proc → Ghost} {p : Proc}

theorem roles_update {ℓ : Ghost} (h : ℓ.role = (Λ p).role) : roles (update Λ p ℓ) = roles Λ := by
  funext q
  by_cases hq : q = p
  · subst hq
    simp only [roles, update_self, h]
  · simp only [roles, update_of_ne hq]

theorem roles_set (i : BufId) (o : Own) : roles (update Λ p ((Λ p).set i o)) = roles Λ :=
  roles_update rfl

theorem roles_update_role (ℓ : Ghost) : roles (update Λ p ℓ) = update (roles Λ) p ℓ.role := by
  funext q
  by_cases hq : q = p
  · subst hq
    simp only [roles, update_self]
  · simp only [roles, update_of_ne hq]

theorem owners_update_role (r : Role) (i : BufId) :
    owners (update Λ p ⟨(Λ p).own, r⟩) i = owners Λ i := by
  funext q
  by_cases hq : q = p
  · subst hq
    simp only [owners, update_self]
  · simp only [owners, update_of_ne hq]

theorem owners_update_self (i : BufId) (o : Own) (r : Role) :
    owners (update Λ p ⟨update (Λ p).own i o, r⟩) i =
      update (owners Λ i) p o := by
  funext q
  by_cases hq : q = p
  · subst hq
    simp only [owners, update_self]
  · simp only [owners, update_of_ne hq]

theorem owners_update_of_ne {i j : BufId} (hj : j ≠ i) (o : Own) (r : Role) :
    owners (update Λ p ⟨update (Λ p).own i o, r⟩) j = owners Λ j := by
  funext q
  by_cases hq : q = p
  · subst hq
    simp only [owners, update_self, update_of_ne hj]
  · simp only [owners, update_of_ne hq]

theorem sum_update {α : Type} (f : α → ℕ) (s : Proc → α) (p : Proc) (a : α) :
    ∑ q, f (update s p a q) + f (s p) = ∑ q, f (s q) + f a :=
  Counting.sum_update (Finset.mem_univ p) (fun _ => f) s a

theorem Own.refs_le (o : Own) : o.refs ≤ 2 := by
  unfold Own.refs
  split_ifs <;> omega

theorem BufOk.count_le (h : BufOk c w f own) : f.refcnt.toNat ≤ 2 * NPROC + 1 := by
  have hs : ∑ q, (own q).refs ≤ ∑ _q : Proc, 2 := Finset.sum_le_sum fun q _ => (own q).refs_le
  have hc : ∑ _q : Proc, 2 = 2 * NPROC := by simp [mul_comm]
  have hp : pin c f ≤ 1 := by
    unfold pin
    split_ifs <;> omega
  have := h.count
  omega

theorem BufOk.refs_le_count (h : BufOk c w f own) (q : Proc) : (own q).refs ≤ f.refcnt.toNat := by
  have hle := Finset.single_le_sum (f := fun q => (own q).refs) (fun _ _ => Nat.zero_le _)
    (Finset.mem_univ q)
  rw [h.count]
  exact hle.trans (Nat.le_add_right _ _)

theorem BufOk.mine_none (h : BufOk c w f own) {q : Proc} (hx : (own q).hold = some x)
    (hm : x.mine = none) (r : Proc) (y : Hold) (hy : (own r).hold = some y) : y.mine = none := by
  have hq := (h.lock q).2 (by rw [hx]; rfl)
  have hr := (h.lock r).2 (by rw [hy]; rfl)
  rw [hq] at hr
  cases hr
  rw [hx] at hy
  cases hy
  exact hm

section Counts

variable {w : UInt32 → Block} {f f' : Buf} {own : Proc → Own} {o : Own}

theorem toNat_succ {n : UInt32} (h : n.toNat ≤ 2 * NPROC + 1) : (n + 1).toNat = n.toNat + 1 := by
  have hN : NPROC = 64 := rfl
  have h1 : (1 : UInt32).toNat = 1 := rfl
  rw [UInt32.toNat_add, h1]
  exact Nat.mod_eq_of_lt (by omega)

theorem toNat_pred {n : UInt32} (h : 0 < n.toNat) : (n - 1).toNat = n.toNat - 1 := by
  rw [UInt32.toNat_sub_of_le]
  · rfl
  · rw [UInt32.le_iff_toNat_le]
    exact h

theorem update_some {α : Type} {x : α} (sel : Own → Option α) {q : Proc}
    (h : sel (update own p o q) = some x) :
    (q = p ∧ sel o = some x) ∨ (q ≠ p ∧ sel (own q) = some x) := by
  grind

section

variable (h : BufOk c w f own)
include h

theorem BufOk.take (hl : (own p).loose = none) (hd : f.dev = ROOTDEV) :
    BufOk c w { f with refcnt := f.refcnt + 1 }
      (update own p ⟨(own p).hold, some f.blockno⟩) := by
  have hholds : ∀ q x, (update own p ⟨(own p).hold, some f.blockno⟩ q).hold = some x →
      (own q).hold = some x := by
    intro q x hx
    rcases update_some Own.hold hx with ⟨rfl, hx⟩ | ⟨-, hx⟩
    · exact hx
    · exact hx
  refine ⟨?_, ?_, fun q x hx => h.hold q x (hholds q x hx), ?_, ?_,
    fun q x d hx => h.stored q x d (hholds q x hx)⟩
  · have hsum := sum_update Own.refs own p ⟨(own p).hold, some f.blockno⟩
    have hrefs : Own.refs ⟨(own p).hold, some f.blockno⟩ = (own p).refs + 1 := by
      simp [Own.refs, hl]
    have hpin : pin c { f with refcnt := f.refcnt + 1 } = pin c f := rfl
    have hcount := h.count
    have hsucc := toNat_succ h.count_le
    simp only [hpin, hsucc]
    omega
  · grind [h.lock]
  · grind [h.loose]
  · grind [h.cached]

theorem BufOk.recycle (h0 : f.refcnt = 0) (b : UInt32) (hb : b ∉ c.bs.drop c.unpinned) :
    BufOk c w { f with dev := ROOTDEV, blockno := b, valid := false, refcnt := 1 }
      (update own p ⟨(own p).hold, some b⟩) := by
  have hz : ∀ q, (own q).refs = 0 := by
    intro q
    have := h.refs_le_count q
    rw [h0] at this
    exact Nat.le_zero.1 this
  have hnone : ∀ q, (own q).hold = none ∧ (own q).loose = none := by
    intro q
    have := hz q
    unfold Own.refs at this
    constructor
    · by_contra hne
      rw [if_pos (Option.isSome_iff_ne_none.2 hne)] at this
      omega
    · by_contra hne
      rw [if_pos (Option.isSome_iff_ne_none.2 hne)] at this
      omega
  have hholds : ∀ q, (update own p ⟨(own p).hold, some b⟩ q).hold = none := by
    intro q
    grind
  refine ⟨?_, ?_, ?_, ?_, fun _ hv => absurd hv Bool.false_ne_true, ?_⟩
  · have hsum := sum_update Own.refs own p ⟨(own p).hold, some b⟩
    have hrefs : Own.refs ⟨(own p).hold, some b⟩ = 1 := by simp [Own.refs, (hnone p).1]
    have hpin : pin c { f with dev := ROOTDEV, blockno := b, valid := false, refcnt := 1 } = 0 :=
      if_neg fun hp => hb hp.2
    have hall : ∑ q, (own q).refs = 0 := Finset.sum_eq_zero fun q _ => hz q
    have hp := hz p
    have h1 : (1 : UInt32).toNat = 1 := rfl
    simp only [hpin, h1]
    omega
  · intro q
    rw [show ({ f with dev := ROOTDEV, blockno := b, valid := false, refcnt := 1 } : Buf).lock =
      f.lock from rfl, h.lock q, hholds q, (hnone q).1]
  · intro q x hx
    rw [hholds q] at hx
    cases hx
  · grind
  · intro q x d hx
    rw [hholds q] at hx
    cases hx

theorem BufOk.acquire (hf : f.lock = none) {b : UInt32} (hl : (own p).loose = some b) :
    (own p).hold = none ∧ BufOk c w { f with lock := some p }
      (update own p ⟨some ⟨b, false, none⟩, none⟩) := by
  have hfree : ∀ q, (own q).hold = none := by
    intro q
    by_contra hne
    have := (h.lock q).2 (Option.isSome_iff_ne_none.2 hne)
    rw [hf] at this
    cases this
  refine ⟨hfree p, ?_, ?_, ?_, ?_, ?_, ?_⟩
  · have hsum := sum_update Own.refs own p ⟨some ⟨b, false, none⟩, none⟩
    have hrefs : (own p).refs = 1 := by simp [Own.refs, hl, hfree p]
    have hrefs' : Own.refs ⟨some ⟨b, false, none⟩, none⟩ = 1 := rfl
    have hpin : pin c { f with lock := some p } = pin c f := rfl
    have hcount := h.count
    simp only [hpin]
    omega
  · intro q
    grind
  · grind [h.loose]
  · grind [h.loose]
  · intro hd hv _
    refine h.cached hd hv fun q x hx => ?_
    rw [hfree q] at hx
    cases hx
  · grind

theorem BufOk.hold_step {c' : Progress} {w' : UInt32 → Block} {y : Hold}
    (hx : own p = ⟨some x, none⟩) (hy : y.block = x.block) (hdev : f'.dev = f.dev)
    (hb : f'.blockno = f.blockno) (hlock : f'.lock = f.lock)
    (href : f'.refcnt.toNat + pin c f = f.refcnt.toNat + pin c' f')
    (hvalid : y.filled = true → f'.valid = true) (hsome : ∀ d, y.mine = some d → f'.data = d)
    (hnone : y.mine = none → f'.valid = true → f'.data = w' f.blockno) :
    BufOk c' w' f' (update own p ⟨some y, none⟩) := by
  have hp : (own p).hold = some x := by rw [hx]
  have honly : ∀ q z, (update own p ⟨some y, none⟩ q).hold = some z → q = p ∧ z = y := by
    intro q z hz
    rcases update_some Own.hold hz with ⟨rfl, he⟩ | ⟨hq, hz⟩
    · cases he
      exact ⟨rfl, rfl⟩
    · -- the sleep-lock has one holder
      have h1 := (h.lock q).2 (by rw [hz]; rfl)
      rw [(h.lock p).2 (by rw [hp]; rfl)] at h1
      cases h1
      exact absurd rfl hq
  refine ⟨?_, ?_, ?_, ?_, ?_, ?_⟩
  · have hsum := sum_update Own.refs own p ⟨some y, none⟩
    have hrefs : (own p).refs = 1 := by rw [hx]; rfl
    have hrefs' : Own.refs ⟨some y, none⟩ = 1 := rfl
    have hcount := h.count
    omega
  · intro q
    rw [hlock, h.lock q]
    grind
  · intro q z hz
    obtain ⟨rfl, rfl⟩ := honly q z hz
    obtain ⟨h1, h2, -⟩ := h.hold q x hp
    exact ⟨hdev.trans h1, (hb.trans h2).trans hy.symm, hvalid⟩
  · grind [h.loose]
  · intro _ hv hm
    rw [hb]
    exact hnone (hm p y (by rw [update_self])) hv
  · intro q z d hz
    obtain ⟨rfl, rfl⟩ := honly q z hz
    exact hsome d

theorem BufOk.congr {c' : Progress} {w' : UInt32 → Block} (hpin : pin c' f = pin c f)
    (hw : f.dev = ROOTDEV → w' f.blockno = w f.blockno) :
    BufOk c' w' f own := by
  refine ⟨by rw [hpin]; exact h.count, h.lock, h.hold, h.loose, ?_, h.stored⟩
  intro hd hv hm
  rw [hw hd]
  exact h.cached hd hv hm

theorem BufOk.unlock (hx : own p = ⟨some x, none⟩) (hm : x.mine = none) :
    BufOk c w { f with lock := none } (update own p ⟨none, some x.block⟩) := by
  have hp : (own p).hold = some x := by rw [hx]
  have hnone : ∀ q, (update own p ⟨none, some x.block⟩ q).hold = none := by
    intro q
    by_cases hq : q = p
    · subst hq
      rw [update_self]
    · rw [update_of_ne hq]
      by_contra hne
      have h1 := (h.lock q).2 (Option.isSome_iff_ne_none.2 hne)
      rw [(h.lock p).2 (by rw [hp]; rfl)] at h1
      cases h1
      exact hq rfl
  refine ⟨?_, ?_, ?_, ?_, ?_, ?_⟩
  · have hsum := sum_update Own.refs own p ⟨none, some x.block⟩
    have hrefs : (own p).refs = 1 := by rw [hx]; rfl
    have hrefs' : Own.refs ⟨none, some x.block⟩ = 1 := rfl
    have hpin : pin c { f with lock := none } = pin c f := rfl
    have hcount := h.count
    simp only [hpin]
    omega
  · intro q
    rw [hnone q]
    simp
  · intro q z hz
    rw [hnone q] at hz
    cases hz
  · grind [h.hold, h.loose]
  · intro hd hv _
    exact h.cached hd hv (h.mine_none hp hm)
  · intro q z d hz
    rw [hnone q] at hz
    cases hz

theorem BufOk.drop {b : UInt32} (hx : own p = ⟨none, some b⟩) :
    BufOk c w { f with refcnt := f.refcnt - 1 } (update own p Own.none) := by
  have hholds : ∀ q, (update own p Own.none q).hold = (own q).hold := by
    intro q
    by_cases hq : q = p
    · subst hq
      rw [update_self, hx]
      rfl
    · rw [update_of_ne hq]
  refine ⟨?_, ?_, ?_, ?_, ?_, ?_⟩
  · have hsum := sum_update Own.refs own p Own.none
    have hrefs : (own p).refs = 1 := by rw [hx]; rfl
    have hrefs' : Own.refs Own.none = 0 := rfl
    have hpin : pin c { f with refcnt := f.refcnt - 1 } = pin c f := rfl
    have hcount := h.count
    have hle := h.refs_le_count p
    have hpred := toNat_pred (n := f.refcnt) (by omega)
    simp only [hpin, hpred]
    omega
  · intro q
    rw [hholds q]
    exact h.lock q
  · intro q z hz
    rw [hholds q] at hz
    exact h.hold q z hz
  · intro q b' hb'
    rcases update_some Own.loose hb' with ⟨-, hb'⟩ | ⟨-, hb'⟩
    · cases hb'
    · exact h.loose q b' hb'
  · intro hd hv hm
    refine h.cached hd hv fun q z hz => hm q z ?_
    rw [hholds q]
    exact hz
  · intro q z d hz
    rw [hholds q] at hz
    exact h.stored q z d hz

end

end Counts

end Xv6.LogInvariant
