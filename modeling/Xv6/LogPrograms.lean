import Mathlib.Data.Fintype.EquivFin
import Xv6.LogCommitSteps

set_option autoImplicit false

namespace Xv6.LogPrograms
open Resumption Interleaving LogCode LogHeader LogActions LogSystem LogInvariant LogBuffers
  LogTransactions LogCommitSteps
open Function (update update_apply update_eq_self update_idem update_of_ne update_self)

variable {own : BufId → Own} {L : List UInt32} {l : Loc}

/-- The panics that calls by the rules may run into: the cache is too small for the
    blocks in use, and the log for operations that use up their reservation. -/
def Expected (may : List UInt32 → Prop) (msg : String) : Prop :=
  msg = "bget: no buffers" ∨
    (msg = "too big a transaction" ∧ ¬ ∀ L, may L → L.length < MAXOPBLOCKS)

structure Rest (start : UInt32) (l : Loc) (ℓ : Ghost) : Prop where
  loose : ∀ i, (ℓ.own i).loose = none
  free : ∀ i, l.held i = none → (ℓ.own i).hold = none
  held : ∀ i h, l.held i = some h → ¬ InLog start LOGSIZE h.block ∧
    ∃ m, (ℓ.own i).hold = some ⟨h.block, true, m⟩ ∧ (h.dirty = false → m = none)
  role : ℓ.role = if l.inOp then .op l.logged else .idle

def outline (start : UInt32) (may : List UInt32 → Prop) (d₀ : UInt32 → Block) :
    Outline Proc Act Loc Kern Ghost where
  I := fun g Λ => ∃ c, Inv start may d₀ c g Λ
  safe := fun p _ a g _ => ∀ msg, kern.exec p a g = .panic msg → Expected may msg
  rest := fun _ => Rest start

variable {start : UInt32} {may : List UInt32 → Prop} {d₀ : UInt32 → Block} {c : Progress}
  {g g' : Kern} {Λ : Proc → Ghost} {p : Proc} {ℓ : Ghost} {i : BufId} {x : Hold} {α β : Type}

abbrev Ok (start : UInt32) (may : List UInt32 → Prop) (d₀ : UInt32 → Block) (p : Proc)
    (prog : Prog Act α) (ℓ : Ghost) (Q : α → Ghost → Prop) : Prop :=
  Valid (logSetting start may) always (outline start may d₀) p prog ℓ Q

theorem ok_act {a : Act β} {Q : β → Ghost → Prop}
    (h : ∀ c g Λ, Λ p = ℓ → Inv start may d₀ c g Λ →
      (∀ msg, kern.exec p a g = .panic msg → Expected may msg) ∧
      ∀ b g', kern.exec p a g = .done b g' →
        ∃ c' ℓ', Inv start may d₀ c' g' (update Λ p ℓ') ∧ Q b ℓ') :
    Ok start may d₀ p (Prog.perform a) ℓ Q := by
  rintro g Λ hl ⟨c, hI⟩
  obtain ⟨hsafe, hstep⟩ := h c g Λ hl hI
  refine ⟨hsafe, fun _ b g' hb => ?_⟩
  obtain ⟨c', ℓ', hI', hQ⟩ := hstep b g' hb
  exact ⟨ℓ', ⟨c', hI'⟩, hQ⟩

@[simp] theorem set_own_self (ℓ : Ghost) (i : BufId) (o : Own) : (ℓ.set i o).own i = o :=
  update_self ..

theorem set_own_of_ne (ℓ : Ghost) {j : BufId} (h : j ≠ i) (o : Own) :
    (ℓ.set i o).own j = ℓ.own j := update_of_ne h ..

@[simp] theorem set_set (ℓ : Ghost) (i : BufId) (o o' : Own) :
    (ℓ.set i o).set i o' = ℓ.set i o' := by
  simp only [Ghost.set, update_idem]

theorem set_loose (hl : ∀ j, (ℓ.own j).loose = none) {o : Own} (ho : o.loose = none) (j : BufId) :
    ((ℓ.set i o).own j).loose = none := by
  by_cases h : j = i
  · rw [h, set_own_self]
    exact ho
  · rw [set_own_of_ne _ h]
    exact hl j

theorem ok_of_own (own : BufId → Own) {r : Role} {prog : Prog Act α} {Q : α → Ghost → Prop}
    (ho : ∀ k, ℓ.own k = own k) (hr : ℓ.role = r) (h : Ok start may d₀ p prog ⟨own, r⟩ Q) :
    Ok start may d₀ p prog ℓ Q := by
  have he : ℓ = ⟨own, r⟩ := by
    rw [← hr, ← funext ho]
  exact he ▸ h

theorem room_of_bget (hI : Inv start may d₀ c g Λ) {b : UInt32} (h0 : c.unpinned = 0)
    (hb : b ∉ c.bs) (h : kern.exec p (.bget ROOTDEV b) g = .done i g') : c.bs.length < NBUF := by
  by_contra hge
  have hres : ∀ k : Fin c.bs.length, ∃ j, (g.buf j).dev = ROOTDEV ∧
    (g.buf j).blockno = c.bs[k] := by
    intro k
    obtain ⟨j, hj, hjb, -⟩ := hI.resident c.bs[k] (by
      rw [h0, List.drop_zero]
      exact List.getElem_mem k.isLt)
    exact ⟨j, hj, hjb⟩
  choose at_ hat using hres
  have hinj : Function.Injective at_ := by
    intro k k' he
    have h1 := (hat k).2
    rw [he, (hat k').2] at h1
    exact Fin.ext ((hI.log.nodup.getElem_inj_iff).1 h1).symm
  have hle := Fintype.card_le_of_injective at_ hinj
  rw [Fintype.card_fin, Fintype.card_fin] at hle
  have hsurj : Function.Surjective at_ :=
    ((Fintype.bijective_iff_injective_and_card at_).2
      ⟨hinj, by rw [Fintype.card_fin, Fintype.card_fin]; omega⟩).2
  have hall : ∀ j, (g.buf j).dev = ROOTDEV ∧ (g.buf j).blockno ∈ c.bs := by
    intro j
    obtain ⟨k, rfl⟩ := hsurj j
    exact ⟨(hat k).1, by rw [(hat k).2]; exact List.getElem_mem k.isLt⟩
  rcases bget_cases h with ⟨hlook, -⟩ | ⟨-, hvic, -⟩
  · obtain ⟨-, rfl⟩ := lookup_some hlook
    exact hb (hall i).2
  · have hcount := (hI.buf i).count
    rw [victim_some hvic, pin, if_pos (by rw [h0, List.drop_zero]; exact hall i)] at hcount
    have hz : (0 : UInt32).toNat = 0 := rfl
    omega

structure Read (ℓ : Ghost) (b : UInt32) (i : BufId) (ℓ' : Ghost) : Prop where
  free : ℓ.own i = Own.none
  ghost : ℓ' = ℓ.set i ⟨some ⟨b, true, none⟩, none⟩
  room : ∀ c, ℓ.role = .commit c → c.unpinned = 0 → b ∉ c.bs → c.bs.length < NBUF

theorem bread_ok (hl : ∀ j, (ℓ.own j).loose = none) (b : UInt32) :
    Ok start may d₀ p (bread ROOTDEV b) ℓ (Read ℓ b) := by
  refine Valid.seq (Q := fun i ℓ' => ℓ' = ℓ.set i ⟨(ℓ.own i).hold, some b⟩ ∧
    ∀ c, ℓ.role = .commit c → c.unpinned = 0 → b ∉ c.bs → c.bs.length < NBUF) (ok_act ?_) ?_
  · rintro c g Λ rfl hI
    refine ⟨fun msg hm => .inl (bget_panic hm), fun i g' h => ⟨c, _, bget_inv hI hl h, rfl, ?_⟩⟩
    intro c' hr h0 hb
    obtain rfl := hI.log.agree p c' hr
    exact room_of_bget hI h0 hb h
  rintro i ℓ1 ⟨rfl, hroom⟩
  refine Valid.seq (Q := fun _ ℓ' => ℓ.own i = Own.none ∧
    ℓ' = ℓ.set i ⟨some ⟨b, false, none⟩, none⟩) (ok_act ?_) ?_
  · intro c g Λ hΛ hI
    refine ⟨fun msg hm => ?_, fun u g' h => ?_⟩
    · simp only [kern, exec] at hm
      split at hm <;> cases hm
    · obtain ⟨hnone, hI'⟩ := acquiresleep_inv hI (b := b) (by rw [hΛ, set_own_self]) h
      rw [hΛ] at hnone hI'
      rw [set_own_self] at hnone
      rw [set_set] at hI'
      refine ⟨c, _, hI', ?_, rfl⟩
      rw [show ℓ.own i = ⟨(ℓ.own i).hold, (ℓ.own i).loose⟩ from rfl, hnone, hl i]
      rfl
  rintro u ℓ2 ⟨hfree, rfl⟩
  refine Valid.seq (Q := fun _ ℓ' => ℓ' = ℓ.set i ⟨some ⟨b, true, none⟩, none⟩) (ok_act ?_) ?_
  · intro c g Λ hΛ hI
    refine ⟨fun msg hm => ?_, fun u g' h => ?_⟩
    · simp only [kern, exec] at hm
      split at hm <;> cases hm
    · have hI' := fill_inv hI (b := b) (by rw [hΛ, set_own_self]) h
      rw [hΛ, set_set] at hI'
      exact ⟨c, _, hI', rfl⟩
  rintro u ℓ3 rfl
  exact ⟨hfree, rfl, hroom⟩

theorem brelse_ok (hx : ℓ.own i = ⟨some x, none⟩) (hm : x.mine = none) :
    Ok start may d₀ p (brelse i) ℓ (fun _ ℓ' => ℓ' = ℓ.set i Own.none) := by
  refine Valid.seq (Q := fun _ ℓ' => ℓ' = ℓ.set i ⟨none, some x.block⟩) (ok_act ?_) ?_
  · rintro c g Λ rfl hI
    refine ⟨fun msg h => ?_, fun u g' h => ⟨c, _, unlock_inv hI hx hm h, rfl⟩⟩
    exact absurd (lock_eq hI (by rw [hx])) (unlock_panic h)
  rintro u ℓ1 rfl
  refine ok_act fun c g Λ hΛ hI => ⟨fun msg h => ?_, fun u g' h => ?_⟩
  · simp only [kern, exec] at h
    split at h <;> cases h
  · have hI' := unref_inv hI (b := x.block) (by rw [hΛ, set_own_self]) h
    rw [hΛ, set_set] at hI'
    exact ⟨c, _, hI', rfl⟩

theorem setData_ok (hx : ℓ.own i = ⟨some x, none⟩) (hf : x.filled = true) (d : Block) :
    Ok start may d₀ p (Prog.perform (.setData i d)) ℓ
      (fun _ ℓ' => ℓ' = ℓ.set i ⟨some { x with mine := some d }, none⟩) := by
  refine ok_act ?_
  rintro c g Λ rfl hI
  refine ⟨fun msg h => by simp [kern, exec] at h, fun u g' h => ⟨c, _, setData_inv hI hx hf h, rfl⟩⟩

theorem getData_ok (hr : ℓ.role = .commit c) (hx : (ℓ.own i).hold = some x) (hf : x.filled = true)
    (hm : x.mine = none) :
    Ok start may d₀ p (Prog.perform (.getData i)) ℓ (fun d ℓ' => ℓ' = ℓ ∧
      (¬ InLog start LOGSIZE x.block → d = c.new x.block) ∧
      ∀ j (hj : j < c.bs.length), j < c.filled → j + 1 < LOGSIZE → x.block = slot start j →
        d = c.new c.bs[j]) := by
  refine ok_act ?_
  rintro c' g Λ rfl hI
  obtain rfl := hI.log.agree p c hr
  refine ⟨fun msg h => by simp [kern, exec] at h, fun d g' h => ?_⟩
  obtain ⟨rfl, rfl⟩ := getData_done h
  have hd := data_eq hI hx hf hm
  refine ⟨c, Λ p, by rw [update_eq_self]; exact hI, rfl, ?_, ?_⟩
  · intro hn
    rw [hd, want, if_neg hn]
  · intro j hj hjf hjl he
    rw [hd, want, he, if_pos (inLog_slot start hjl)]
    exact hI.disk.filled j hj hjf

theorem getLog_ok (hr : ℓ.role = .commit c) :
    Ok start may d₀ p (Prog.perform .getLog) ℓ (fun log ℓ' => ℓ' = ℓ ∧ log.dev = ROOTDEV ∧
      log.start = start ∧ log.lh = if c.emptied then [] else c.bs) := by
  refine ok_act ?_
  rintro c' g Λ rfl hI
  obtain rfl := hI.log.agree p c hr
  refine ⟨fun msg h => by simp [kern, exec] at h, fun log g' h => ?_⟩
  obtain ⟨rfl, rfl⟩ := getLog_done h
  exact ⟨c, Λ p, by rw [update_eq_self]; exact hI, rfl, hI.log.dev, hI.log.area, hI.log.lh⟩

structure Tx (start : UInt32) (bs : List UInt32) : Prop where
  nodup : bs.Nodup
  home : ∀ b ∈ bs, ¬ InLog start LOGSIZE b
  len : bs.length ≤ LOGSIZE

theorem bwrite_ok {e : Progress} (hr : ℓ.role = .commit c) (hx : ℓ.own i = ⟨some x, none⟩)
    (step : ∀ g g' Λ u, Λ p = ℓ → Inv start may d₀ c g Λ →
      kern.exec p (.bwrite i) g = .done u g' → Inv start may d₀ e g' (update Λ p
        ⟨update (Λ p).own i ⟨some { x with mine := none }, none⟩, .commit e⟩)) :
    Ok start may d₀ p (Prog.perform (.bwrite i)) ℓ (fun _ ℓ' =>
      ℓ' = ⟨(ℓ.set i ⟨some { x with mine := none }, none⟩).own, .commit e⟩) := by
  refine ok_act ?_
  rintro c0 g Λ rfl hI
  obtain rfl := hI.log.agree p c hr
  exact ⟨fun msg h => absurd (lock_eq hI (by rw [hx])) (bwrite_panic h),
    fun u g' h => ⟨e, _, step g g' Λ u rfl hI h, rfl⟩⟩

theorem bunpin_ok (hr : ℓ.role = .commit c) (hk : c.unpinned < c.written)
    (hk' : c.unpinned < c.bs.length) (hx : ℓ.own i = ⟨some x, none⟩) (hf : x.filled = true)
    (hm : x.mine = none) (hb : x.block = c.bs[c.unpinned]) :
    Ok start may d₀ p (Prog.perform (.bunpin i)) ℓ (fun _ ℓ' =>
      ℓ' = ⟨ℓ.own, .commit { c with unpinned := c.unpinned + 1 }⟩) := by
  refine ok_act ?_
  rintro c0 g Λ rfl hI
  obtain rfl := hI.log.agree p c hr
  refine ⟨fun msg h => by simp [kern, exec] at h, fun u g' h => ?_⟩
  have hI' := bunpin_inv hI hr hk hk' hx hf hm hb h
  rw [← hx, update_eq_self] at hI'
  exact ⟨_, _, hI', rfl⟩

theorem writeLogFrom_ok (fuel : ℕ) (hl : ∀ j, (own j).loose = none) (htx : Tx start c.bs)
    (hfuel : c.bs.length ≤ c.filled + fuel) (hle : c.filled ≤ c.bs.length) (hheads : c.heads = 0)
    (hun : c.unpinned = 0) (hem : c.emptied = false)
    (hroom : 0 < c.filled → c.bs.length < LOGSIZE) :
    Ok start may d₀ p (writeLogFrom fuel c.filled) ⟨own, .commit c⟩ (fun _ ℓ' =>
      ℓ' = ⟨own, .commit { c with filled := c.bs.length }⟩ ∧
        (0 < c.bs.length → c.bs.length < LOGSIZE)) := by
  induction fuel generalizing c with
  | zero =>
    have he : c.filled = c.bs.length := by omega
    exact ⟨by rw [← he], fun h => hroom (by omega)⟩
  | succ fuel ih =>
    refine Valid.seq (getLog_ok rfl) ?_
    rintro log ℓ1 ⟨rfl, hdev, hstart, hlh⟩
    rw [hem] at hlh
    rw [hlh, hdev, hstart]
    simp only [Bool.false_eq_true, ↓reduceIte]
    cases hk : c.bs[c.filled]? with
    | none =>
      have he : c.filled = c.bs.length := by
        have := List.getElem?_eq_none_iff.1 hk
        omega
      exact ⟨by rw [← he], fun h => hroom (by omega)⟩
    | some b =>
      obtain ⟨hlt, rfl⟩ := List.getElem?_eq_some_iff.1 hk
      have hL : LOGSIZE = 30 := rfl
      have hN : NBUF = 30 := rfl
      have hhome := htx.home _ (List.getElem_mem hlt)
      refine Valid.seq (bread_ok hl (slot start c.filled)) ?_
      rintro to_ ℓ2 ⟨hfree, rfl, hr⟩
      -- the first log block can be read only if the transaction leaves a buffer free
      have hlen : c.bs.length < LOGSIZE := by
        by_cases h0 : 0 < c.filled
        · exact hroom h0
        · refine hr c rfl hun fun hm => htx.home _ hm (inLog_slot start ?_)
          omega
      refine Valid.seq (bread_ok (set_loose hl rfl) c.bs[c.filled]) ?_
      rintro from_ ℓ3 ⟨hfree', rfl, -⟩
      have hne : from_ ≠ to_ := by
        rintro rfl
        rw [set_own_self] at hfree'
        cases hfree'
      rw [set_own_of_ne _ hne] at hfree'
      refine Valid.bind (Valid.seq (getData_ok (c := c) rfl (by rw [set_own_self]) rfl rfl) ?_)
      rintro d ℓ4 ⟨rfl, hd, -⟩
      obtain rfl := hd hhome
      refine (setData_ok (x := ⟨slot start c.filled, true, none⟩)
        (by rw [set_own_of_ne _ hne.symm, set_own_self]) rfl _).mono ?_
      rintro u ℓ5 rfl
      refine Valid.seq (bwrite_ok (c := c) (e := { c with filled := c.filled + 1 })
        (x := ⟨slot start c.filled, true, some (c.new c.bs[c.filled])⟩) rfl
        (by rw [set_own_self]) fun g g' Λ u hΛ hI h => ?_) ?_
      · exact copy_inv hI (by rw [hΛ]; rfl) hheads hlt hlen (by rw [hΛ, set_own_self]) rfl rfl rfl h
      rintro u ℓ6 rfl
      refine Valid.seq (brelse_ok (x := ⟨c.bs[c.filled], true, none⟩)
        (by simp only [Ghost.set, update_of_ne hne, update_self]) rfl) ?_
      rintro u ℓ7 rfl
      refine Valid.seq (brelse_ok (x := ⟨slot start c.filled, true, none⟩)
        (by simp only [Ghost.set, update_of_ne hne.symm, update_self]) rfl) ?_
      rintro u ℓ8 rfl
      refine ok_of_own own ?_ rfl ((ih (c := { c with filled := c.filled + 1 }) htx
        (by simp only; omega) (by simp only; omega) hheads hun hem fun _ => hlen).mono ?_)
      · intro k
        simp only [Ghost.set, update_apply]
        split_ifs with h1 h2
        · rw [h1, ← hfree]
        · rw [h2, ← hfree']
        · rfl
      · rintro u ℓ9 ⟨rfl, h⟩
        exact ⟨rfl, h⟩

theorem installTransFrom_ok (fuel : ℕ) (hl : ∀ j, (own j).loose = none) (htx : Tx start c.bs)
    (hlen : c.bs.length < LOGSIZE) (hfuel : c.bs.length ≤ c.written + fuel)
    (hle : c.written ≤ c.bs.length) (hheads : c.heads = 1) (hfilled : c.filled = c.bs.length)
    (hun : c.unpinned = c.written) (hem : c.emptied = false) :
    Ok start may d₀ p (installTransFrom fuel c.written) ⟨own, .commit c⟩ (fun _ ℓ' =>
      ℓ' = ⟨own, .commit { c with written := c.bs.length, unpinned := c.bs.length }⟩) := by
  have hend : c.bs.length ≤ c.written →
      { c with written := c.bs.length, unpinned := c.bs.length } = c := by
    intro h
    have he : c.written = c.bs.length := by omega
    exact Progress.ext rfl rfl rfl rfl he.symm (hun.trans he).symm rfl
  induction fuel generalizing c with
  | zero =>
    change _ = _
    rw [hend (by omega)]
  | succ fuel ih =>
    refine Valid.seq (getLog_ok rfl) ?_
    rintro log ℓ1 ⟨rfl, hdev, hstart, hlh⟩
    rw [hem] at hlh
    rw [hlh, hdev, hstart]
    simp only [Bool.false_eq_true, ↓reduceIte]
    cases hk : c.bs[c.written]? with
    | none =>
      change _ = _
      rw [hend (List.getElem?_eq_none_iff.1 hk)]
    | some b =>
      obtain ⟨hlt, rfl⟩ := List.getElem?_eq_some_iff.1 hk
      refine Valid.seq (bread_ok hl (slot start c.written)) ?_
      rintro lbuf ℓ2 ⟨hfree, rfl, -⟩
      refine Valid.seq (bread_ok (set_loose hl rfl) c.bs[c.written]) ?_
      rintro dbuf ℓ3 ⟨hfree', rfl, -⟩
      have hne : dbuf ≠ lbuf := by
        rintro rfl
        rw [set_own_self] at hfree'
        cases hfree'
      rw [set_own_of_ne _ hne] at hfree'
      refine Valid.bind (Valid.seq (getData_ok (c := c)
        (x := ⟨slot start c.written, true, none⟩) rfl
        (by rw [set_own_of_ne _ hne.symm, set_own_self]) rfl rfl) ?_)
      rintro d ℓ4 ⟨rfl, -, hd⟩
      obtain rfl := hd c.written hlt (by omega) (by omega) rfl
      refine (setData_ok (x := ⟨c.bs[c.written], true, none⟩) (by rw [set_own_self]) rfl _).mono ?_
      rintro u ℓ5 rfl
      refine Valid.seq (bwrite_ok (c := c) (e := { c with written := c.written + 1 })
        (x := ⟨c.bs[c.written], true, some (c.new c.bs[c.written])⟩) rfl
        (by rw [set_own_self]) fun g g' Λ u hΛ hI h => ?_) ?_
      · exact install_inv hI (by rw [hΛ]; rfl) hheads hlt hlen
          (by rw [hΛ, set_own_self]) rfl rfl rfl h
      rintro u ℓ6 rfl
      refine Valid.seq (bunpin_ok (c := { c with written := c.written + 1 })
        (x := ⟨c.bs[c.written], true, none⟩) rfl (by simp only; omega) (by simp only; omega)
        (by simp only [Ghost.set, update_self]) rfl rfl (by simp only [hun])) ?_
      rintro u ℓ7 rfl
      refine Valid.seq (brelse_ok (x := ⟨slot start c.written, true, none⟩)
        (by simp only [Ghost.set, update_of_ne hne.symm, update_self]) rfl) ?_
      rintro u ℓ8 rfl
      refine Valid.seq (brelse_ok (x := ⟨c.bs[c.written], true, none⟩)
        (by simp only [Ghost.set, update_of_ne hne, update_self]) rfl) ?_
      rintro u ℓ9 rfl
      refine ok_of_own own ?_ rfl (ih (c := { c with
        written := c.written + 1, unpinned := c.unpinned + 1 }) htx hlen (by simp only; omega)
        (by simp only; omega) hheads hfilled (by simp only; omega) hem ?_)
      · intro k
        simp only [Ghost.set, update_apply]
        split_ifs with h1 h2
        · rw [h1, ← hfree']
        · rw [h2, ← hfree]
        · rfl
      · intro h
        have he : c.written + 1 = c.bs.length := by simp only at h; omega
        simp only [← he, hun]

theorem writeLog_ok (hl : ∀ j, (own j).loose = none) (htx : Tx start c.bs) (hfilled : c.filled = 0)
    (hheads : c.heads = 0) (hun : c.unpinned = 0) (hem : c.emptied = false) :
    Ok start may d₀ p writeLog ⟨own, .commit c⟩ (fun _ ℓ' =>
      ℓ' = ⟨own, .commit { c with filled := c.bs.length }⟩ ∧
        (0 < c.bs.length → c.bs.length < LOGSIZE)) := by
  have h : Ok start may d₀ p (writeLogFrom LOGSIZE c.filled) _ _ := writeLogFrom_ok LOGSIZE hl htx
    (by have := htx.len; omega) (by omega) hheads hun hem (by omega)
  rwa [hfilled] at h

theorem installTrans_ok (hl : ∀ j, (own j).loose = none) (htx : Tx start c.bs)
    (hlen : c.bs.length < LOGSIZE) (hheads : c.heads = 1) (hfilled : c.filled = c.bs.length)
    (hwritten : c.written = 0) (hun : c.unpinned = 0) (hem : c.emptied = false) :
    Ok start may d₀ p installTrans ⟨own, .commit c⟩ (fun _ ℓ' =>
      ℓ' = ⟨own, .commit { c with written := c.bs.length, unpinned := c.bs.length }⟩) := by
  have h : Ok start may d₀ p (installTransFrom LOGSIZE c.written) _ _ :=
    installTransFrom_ok LOGSIZE hl htx hlen (by omega) (by omega) hheads hfilled (by omega) hem
  rwa [hwritten] at h

theorem writeHead_ok {e : Progress} (hl : ∀ j, (own j).loose = none)
    (step : ∀ i d g g' Λ u, (Λ p).role = .commit c →
      (Λ p).own i = ⟨some ⟨start, true, some (putHead (if c.emptied then [] else c.bs) d)⟩, none⟩ →
      Inv start may d₀ c g Λ → kern.exec p (.bwrite i) g = .done u g' →
      Inv start may d₀ e g' (update Λ p
        ⟨update (Λ p).own i ⟨some ⟨start, true, none⟩, none⟩, .commit e⟩)) :
    Ok start may d₀ p writeHead ⟨own, .commit c⟩ (fun _ ℓ' => ℓ' = ⟨own, .commit e⟩) := by
  refine Valid.seq (getLog_ok rfl) ?_
  rintro log ℓ1 ⟨rfl, hdev, hstart, -⟩
  rw [hdev, hstart]
  refine Valid.seq (bread_ok hl start) ?_
  rintro buf ℓ2 ⟨hfree, rfl, -⟩
  refine Valid.seq (getData_ok (c := c) (x := ⟨start, true, none⟩) rfl (by rw [set_own_self])
    rfl rfl) ?_
  rintro d ℓ3 ⟨rfl, -⟩
  refine Valid.seq (getLog_ok (c := c) rfl) ?_
  rintro log' ℓ4 ⟨rfl, -, -, hlh⟩
  rw [hlh]
  refine Valid.seq (setData_ok (x := ⟨start, true, none⟩) (by rw [set_own_self]) rfl _) ?_
  rintro u ℓ5 rfl
  refine Valid.seq (bwrite_ok (c := c) (e := e)
    (x := ⟨start, true, some (putHead (if c.emptied then [] else c.bs) d)⟩) rfl
    (by rw [set_own_self]) fun g g' Λ u hΛ hI h => ?_) ?_
  · exact step buf d g g' Λ u (by rw [hΛ]; rfl) (by rw [hΛ, set_own_self]) hI h
  rintro u ℓ6 rfl
  refine (brelse_ok (x := ⟨start, true, none⟩) (by simp only [Ghost.set, update_self]) rfl).mono ?_
  rintro u ℓ7 rfl
  simp only [Ghost.set, update_idem]
  rw [← hfree, update_eq_self]

structure Over (c : Progress) : Prop where
  lh : c.emptied = true ∨ c.bs = []
  heads : c.heads ≠ 1
  written : c.bs.length ≤ c.written
  unpinned : c.bs.length ≤ c.unpinned
  sealed : c.heads = 0 → c.bs = []

theorem setLh_ok (hr : ℓ.role = .commit c) :
    Ok start may d₀ p (Prog.perform (.setLh [])) ℓ (fun _ ℓ' =>
      ℓ' = ⟨ℓ.own, .commit { c with emptied := true }⟩) := by
  refine ok_act ?_
  rintro c0 g Λ rfl hI
  obtain rfl := hI.log.agree p c hr
  exact ⟨fun msg h => by simp [kern, exec] at h, fun u g' h => ⟨_, _, setLh_inv hI hr h, rfl⟩⟩

theorem commit_ok (hl : ∀ j, (own j).loose = none) (htx : Tx start c.bs)
    (hz : c.filled = 0 ∧ c.heads = 0 ∧ c.written = 0 ∧ c.unpinned = 0 ∧ c.emptied = false) :
    Ok start may d₀ p commit ⟨own, .commit c⟩ (fun _ ℓ' =>
      ∃ c', ℓ' = ⟨own, .commit c'⟩ ∧ Over c') := by
  obtain ⟨hfilled, hheads, hwritten, hun, hem⟩ := hz
  refine Valid.seq (getLog_ok rfl) ?_
  rintro log ℓ1 ⟨rfl, -, -, hlh⟩
  rw [hem] at hlh
  rw [hlh]
  simp only [Bool.false_eq_true, ↓reduceIte, gt_iff_lt]
  split_ifs with hpos
  · refine Valid.seq (writeLog_ok hl htx hfilled hheads hun hem) ?_
    rintro u ℓ2 ⟨rfl, hroom⟩
    have hlt := hroom hpos
    refine Valid.seq (writeHead_ok (e := { c with filled := c.bs.length, heads := 1 }) hl ?_) ?_
    · intro i d g g' Λ u hr hx hI h
      simp only [hem, Bool.false_eq_true, ↓reduceIte] at hx
      exact seal_inv hI hr hheads le_rfl hlt hx rfl rfl rfl h
    rintro u ℓ3 rfl
    refine Valid.seq (installTrans_ok (c := { c with filled := c.bs.length, heads := 1 }) hl htx hlt
      rfl rfl hwritten hun hem) ?_
    rintro u ℓ4 rfl
    refine Valid.seq (setLh_ok rfl) ?_
    rintro u ℓ5 rfl
    refine (writeHead_ok (e := { c with
      filled := c.bs.length, heads := 2, written := c.bs.length, unpinned := c.bs.length,
      emptied := true }) hl ?_).mono ?_
    · intro i d g g' Λ u hr hx hI h
      exact clear_inv hI hr rfl le_rfl hlt hx rfl rfl rfl h
    rintro u ℓ6 rfl
    exact ⟨_, rfl, .inl rfl, by simp, le_rfl, le_rfl, (fun h0 => by cases h0)⟩
  · have hnil : c.bs = [] := List.length_eq_zero_iff.1 (by omega)
    exact ⟨c, rfl, .inr hnil, by omega, by simp [hnil], by simp [hnil], fun _ => hnil⟩

theorem endOp_ok (hl : ∀ j, (ℓ.own j).loose = none) (hr : ℓ.role = .op L) :
    Ok start may d₀ p endOp ℓ (fun _ ℓ' => ℓ' = ⟨ℓ.own, .idle⟩) := by
  refine Valid.seq (Q := fun a ℓ' => (a = false ∧ ℓ' = ⟨ℓ.own, .idle⟩) ∨ (a = true ∧
    ∃ c, ℓ' = ⟨ℓ.own, .commit c⟩ ∧ Tx start c.bs ∧
      c.filled = 0 ∧ c.heads = 0 ∧ c.written = 0 ∧ c.unpinned = 0 ∧ c.emptied = false))
      (ok_act ?_) ?_
  · rintro c g Λ rfl hI
    have hc := not_committing hI.log (ρ := roles Λ) hr
    refine ⟨fun msg h => ?_, fun a g' h => ⟨c, _, endCs_inv hI hr h, ?_⟩⟩
    · rw [endCs_panic h] at hc
      cases hc
    · cases a with
      | false => exact .inl ⟨rfl, rfl⟩
      | true =>
        exact .inr ⟨rfl, c, rfl, { hI.log with }, hI.log.zero hc⟩
  rintro a ℓ1 (⟨rfl, rfl⟩ | ⟨rfl, c, rfl, htx, hz⟩)
  · rfl
  · simp only [↓reduceIte]
    refine Valid.seq (commit_ok hl htx hz) ?_
    rintro u ℓ2 ⟨c', rfl, hover⟩
    refine ok_act ?_
    intro c0 g Λ hΛ hI
    obtain rfl := hI.log.agree p c' (by rw [roles, hΛ])
    refine ⟨fun msg h => by simp [kern, exec] at h, fun u g' h => ?_⟩
    have hI' := endCommit_inv hI (by rw [hΛ]) hover.lh hover.heads hover.written hover.unpinned
      hover.sealed h
    rw [hΛ] at hI'
    exact ⟨_, _, hI', rfl⟩

theorem beginOp_ok (hr : ℓ.role = .idle) :
    Ok start may d₀ p beginOp ℓ (fun _ ℓ' => ℓ' = ⟨ℓ.own, .op []⟩) := by
  refine ok_act ?_
  rintro c g Λ rfl hI
  refine ⟨fun msg h => ?_, fun u g' h => ⟨c, _, enter_inv hI hr h, rfl⟩⟩
  simp only [kern, exec] at h
  split at h
  · cases h
  · split at h <;> cases h

theorem logWrite_ok (hr : ℓ.role = .op L) (hx : ℓ.own i = ⟨some x, none⟩) (hf : x.filled = true)
    (home : ¬ InLog start LOGSIZE x.block) (hmay : may (L.insert x.block)) :
    Ok start may d₀ p (logWrite i) ℓ (fun _ ℓ' =>
      ℓ' = ⟨(ℓ.set i ⟨some { x with mine := none }, none⟩).own, .op (L.insert x.block)⟩) := by
  refine Valid.seq (Q := fun _ ℓ' => ℓ' = ℓ) (ok_act ?_) ?_
  · rintro c g Λ rfl hI
    refine ⟨fun msg h => ?_, fun u g' h => ?_⟩
    · obtain ⟨rfl, hfull⟩ := checkRoom_panic h
      refine .inr ⟨rfl, fun hall => ?_⟩
      have hroom := hI.log.room hall
      have hz := hI.log.zero (not_committing hI.log (ρ := roles Λ) hr)
      have hlh := hI.log.lh
      rw [hz.2.2.2.2] at hlh
      simp only [Bool.false_eq_true, ↓reduceIte] at hlh
      rw [hlh, hI.log.size] at hfull
      have hL : LOGSIZE = 30 := rfl
      omega
    · obtain rfl := checkRoom_done h
      exact ⟨c, Λ p, by rw [update_eq_self]; exact hI, rfl⟩
  rintro u ℓ1 rfl
  refine Valid.seq (Q := fun _ ℓ' => ℓ' = ℓ1) (ok_act ?_) ?_
  · rintro c g Λ rfl hI
    refine ⟨fun msg h => ?_, fun u g' h => ?_⟩
    · have := checkTrans_panic h
      have := outstanding_pos hI.log (ρ := roles Λ) hr
      omega
    · obtain rfl := checkTrans_done h
      exact ⟨c, Λ p, by rw [update_eq_self]; exact hI, rfl⟩
  rintro u ℓ2 rfl
  refine ok_act ?_
  rintro c g Λ rfl hI
  refine ⟨fun msg h => ?_, fun u g' h => ?_⟩
  · simp only [kern, exec] at h
    split at h
    · cases h
    · split at h <;> cases h
  · obtain ⟨c', hI'⟩ := logBlock_inv hI hr hx hf home hmay h
    exact ⟨c', _, hI', rfl⟩

theorem Rest.own_eq (hrest : Rest start l ℓ) {h : Holding} (hh : l.held i = some h) :
    ¬ InLog start LOGSIZE h.block ∧
      ∃ m, ℓ.own i = ⟨some ⟨h.block, true, m⟩, none⟩ ∧ (h.dirty = false → m = none) := by
  obtain ⟨hhome, m, hm, hclean⟩ := hrest.held i h hh
  refine ⟨hhome, m, ?_, hclean⟩
  rw [show ℓ.own i = ⟨(ℓ.own i).hold, (ℓ.own i).loose⟩ from rfl, hm, hrest.loose i]

theorem Rest.set (hrest : Rest start l ℓ) {o : Own} {h : Option Holding}
    (hloose : o.loose = none) (hfree : h = none → o.hold = none)
    (hheld : ∀ k, h = some k → ¬ InLog start LOGSIZE k.block ∧
      ∃ m, o.hold = some ⟨k.block, true, m⟩ ∧ (k.dirty = false → m = none))
    {r : Role} (hr : r = if l.inOp then .op L else .idle) :
    Rest start { l with held := update l.held i h, logged := L }
      ⟨(ℓ.set i o).own, r⟩ := by
  refine ⟨set_loose hrest.loose hloose, ?_, ?_, hr⟩
  · intro j hj
    change update l.held i h j = none at hj
    by_cases he : j = i
    · subst he
      rw [update_self] at hj
      rw [set_own_self]
      exact hfree hj
    · rw [update_of_ne he] at hj
      rw [set_own_of_ne _ he]
      exact hrest.free j hj
  · intro j k hj
    change update l.held i h j = some k at hj
    by_cases he : j = i
    · subst he
      rw [update_self] at hj
      rw [set_own_self]
      exact hheld k hj
    · rw [update_of_ne he] at hj
      rw [set_own_of_ne _ he]
      exact hrest.held j k hj

theorem calls_ok {prog : Prog Act Loc} (call : Calls start may l prog) (hrest : Rest start l ℓ) :
    Ok start may d₀ p prog ℓ (Rest start) := by
  cases call with
  | beginOp out =>
    have hr := hrest.role
    rw [out] at hr
    refine Valid.seq (beginOp_ok hr) ?_
    rintro u ℓ' rfl
    exact ⟨hrest.loose, hrest.free, hrest.held, rfl⟩
  | bread b home =>
    refine Valid.seq (bread_ok hrest.loose b) ?_
    rintro i ℓ' ⟨-, rfl, -⟩
    refine Rest.set (i := i) (o := ⟨some ⟨b, true, none⟩, none⟩) (h := some ⟨b, false⟩)
      (L := l.logged) hrest rfl nofun ?_ hrest.role
    rintro k hk
    cases hk
    exact ⟨home, none, rfl, fun _ => rfl⟩
  | modify i h d op held =>
    obtain ⟨home, m, hown, -⟩ := hrest.own_eq held
    refine Valid.seq (setData_ok hown rfl d) ?_
    rintro u ℓ' rfl
    refine Rest.set (i := i) (o := ⟨some ⟨h.block, true, some d⟩, none⟩)
      (h := some ⟨h.block, true⟩) (L := l.logged) hrest rfl nofun ?_ hrest.role
    rintro k hk
    cases hk
    exact ⟨home, some d, rfl, nofun⟩
  | logWrite i h op held ok =>
    obtain ⟨home, m, hown, -⟩ := hrest.own_eq held
    have hr := hrest.role
    rw [op] at hr
    refine Valid.seq (logWrite_ok hr hown rfl home ok) ?_
    rintro u ℓ' rfl
    refine Rest.set (i := i) (o := ⟨some ⟨h.block, true, none⟩, none⟩)
      (h := some ⟨h.block, false⟩) hrest rfl nofun ?_ (by rw [op]; rfl)
    rintro k hk
    cases hk
    exact ⟨home, none, rfl, fun _ => rfl⟩
  | brelse i h held clean =>
    obtain ⟨-, m, hown, hm⟩ := hrest.own_eq held
    refine Valid.seq (brelse_ok hown (hm clean)) ?_
    rintro u ℓ' rfl
    exact Rest.set (i := i) (o := Own.none) (h := none) (L := l.logged) hrest rfl (fun _ => rfl)
      nofun hrest.role
  | endOp op clean =>
    have hr := hrest.role
    rw [op] at hr
    refine Valid.seq (endOp_ok hrest.loose hr) ?_
    rintro u ℓ' rfl
    exact ⟨hrest.loose, hrest.free, hrest.held, rfl⟩

def Ghost.idle : Ghost := ⟨fun _ => Own.none, .idle⟩

theorem quiet_inv (h : Quiet start g) :
    Inv start may g.disk ⟨[], g.disk, 0, 0, 0, 0, false⟩ g fun _ => Ghost.idle := by
  have hown : ∀ i q, owners (fun _ => Ghost.idle) i q = Own.none := fun _ _ => rfl
  have hrole : ∀ q, roles (fun _ => Ghost.idle) q = .idle := fun _ => rfl
  refine ⟨?_, ?_, h.lru, h.uniq, ?_, (fun _ hb => by cases hb), ?_⟩
  · rw [h.log]
    refine ⟨rfl, rfl, rfl, rfl, List.nodup_nil, (fun _ hb => by cases hb), Nat.zero_le _, ?_, ?_,
      (fun _ _ hq => by cases hq), (fun _ _ _ hq => by cases hq),
      fun _ => ⟨rfl, rfl, rfl, rfl, rfl⟩, fun _ _ => rfl, le_rfl, (fun _ _ hq => by cases hq), ?_⟩
    · simp [hrole, Role.ops]
    · constructor
      · intro hc
        cases hc
      · rintro ⟨q, c', hq⟩
        cases hq
    · intro _
      simp [hrole, Role.spare]
  · rw [h.trace]
    refine ⟨rfl, fun q => ?_, fun q => ?_, fun b => Iff.rfl, rfl, fun b => Iff.rfl,
      (fun _ hb => by cases hb), (fun _ hb => by cases hb), fun h0 => absurd rfl h0,
      fun e tr' hs => ?_⟩
    · simp [opOpen, hrole]
    · simp [inCommit, hrole]
    · exact absurd (List.suffix_nil.1 hs) (List.cons_ne_nil e tr')
  · intro i
    obtain ⟨hz, hl⟩ := h.free i
    refine ⟨?_, ?_, (fun _ _ hq => by cases hq), (fun _ _ hq => by cases hq), ?_,
      (fun _ _ _ hq => by cases hq)⟩
    · rw [hz]
      simp [hown, Own.refs, Own.none, pin]
    · intro q
      rw [hl]
      simp [hown, Own.none]
    · intro hd hv _
      rw [h.clean i hd hv]
      simp [want]
  · rw [h.trace]
    exact ⟨fun b _ _ => rfl, fun _ b _ => rfl, fun _ hj => absurd hj (Nat.not_lt_zero _), h.head,
      fun h1 => absurd rfl h1, (fun h2 => by cases h2), Nat.zero_le 2⟩

theorem invariant {s : Sys Proc Act Loc Kern} (h : Quiet start g)
    (reach : Reach (logSetting start may) always (launch g) s) :
    ∃ Λ, Holds (logSetting start may) always (outline start may g.disk) s Λ := by
  refine Holds.reach (Λ := fun _ => Ghost.idle) (s := launch g) ?_ ?_ ⟨⟨_, quiet_inv h⟩, ?_⟩ reach
  · exact fun p l prog ℓ call hrest => calls_ok call hrest
  · exact fun p g h Λ hi => hi.elim
  · exact fun p => ⟨fun _ => rfl, fun _ _ => rfl, nofun, rfl⟩

end Xv6.LogPrograms
