import Mathlib.Algebra.BigOperators.Ring.Finset
import Xv6.LogBuffers

set_option autoImplicit false

namespace Xv6.LogTransactions
open LogCode LogHeader LogActions LogSystem LogInvariant LogBuffers
open Function (forall_update_iff update update_idem update_of_ne update_self)

variable {start : UInt32} {may : List UInt32 → Prop} {d₀ : UInt32 → Block} {c c' : Progress}
  {log : Log} {tr : List Event} {ρ : Proc → Role} {p : Proc}
variable {L : List UInt32} {g g' : Kern} {Λ : Proc → Ghost} {u : Unit} {b : UInt32} {v : Block}

theorem not_committing (h : LogOk start may c log ρ) (hp : ρ p = .op L) :
    log.committing = false := by
  by_contra hc
  obtain ⟨q, c', hq⟩ := h.busy.1 (by simpa using hc)
  have := h.alone q p c' hq (hp.trans_ne nofun)
  rw [this, hq] at hp
  cases hp

theorem no_commit (h : LogOk start may c log ρ) (hc : log.committing = false) (q : Proc)
    (c' : Progress) : ρ q ≠ .commit c' := by
  intro hq
  have := h.busy.2 ⟨q, c', hq⟩
  rw [hc] at this
  cases this

theorem ops_pos (hp : ρ p = .op L) : 1 ≤ ∑ q, (ρ q).ops := by
  have := Finset.single_le_sum (f := fun q => (ρ q).ops) (fun _ _ => Nat.zero_le _)
    (Finset.mem_univ p)
  simp only [hp] at this
  exact this

theorem no_ops (h : ∑ q, (ρ q).ops = 0) (q : Proc) (L : List UInt32) : ρ q ≠ .op L := by
  intro hq
  have := ops_pos hq
  omega

theorem spare_le : ∑ q, (ρ q).spare ≤ 9 * ∑ q, (ρ q).ops := by
  rw [Finset.mul_sum]
  refine Finset.sum_le_sum fun q _ => ?_
  cases ρ q with
  | idle => exact Nat.le_refl 0
  | op L => exact Nat.sub_le 9 L.length
  | commit c => exact Nat.le_refl 0

theorem outstanding_pos (h : LogOk start may c log ρ) (hp : ρ p = .op L) : 1 ≤ log.outstanding := by
  have := ops_pos hp
  have := h.count
  omega

theorem op_update {tr' : List Event} {r : Role} (h : TraceOk start d₀ c tr ρ)
    (hp : opOpen p tr' = true ↔ ∃ L, r = .op L) (hq : ∀ q, q ≠ p → opOpen q tr' = opOpen q tr)
    (q : Proc) : opOpen q tr' = true ↔ ∃ L, update ρ p r q = .op L := by
  refine (forall_update_iff ρ fun q r => opOpen q tr' = true ↔ ∃ L, r = .op L).2 ⟨hp, ?_⟩ q
  intro q he
  rw [hq q he]
  exact h.op q

theorem com_update {tr' : List Event} {r : Role} (h : TraceOk start d₀ c tr ρ)
    (hp : inCommit p tr' = true ↔ ∃ c', r = .commit c')
    (hq : ∀ q, q ≠ p → inCommit q tr' = inCommit q tr) (q : Proc) :
    inCommit q tr' = true ↔ ∃ c', update ρ p r q = .commit c' := by
  refine (forall_update_iff ρ fun q r => inCommit q tr' = true ↔ ∃ c, r = .commit c).2 ⟨hp, ?_⟩ q
  intro q he
  rw [hq q he]
  exact h.com q

theorem fitting_cons {e : Event}
    (h : ∀ e tr', (e :: tr') <:+ tr → Fitting start e tr') (he : Fitting start e tr) :
    ∀ e' tr', (e' :: tr') <:+ (e :: tr) → Fitting start e' tr' := by
  intro e' tr' hs
  rcases List.suffix_cons_iff.1 hs with heq | hs
  · cases heq
    exact he
  · exact h e' tr' hs

theorem no_inCommit (h : TraceOk start d₀ c tr ρ) (hl : LogOk start may c log ρ)
    (hc : log.committing = false) (q : Proc) : inCommit q tr = false := by
  by_contra hne
  obtain ⟨c', hq⟩ := (h.com q).1 (by simpa using hne)
  exact no_commit hl hc q c' hq

theorem no_commit_update {r : Role} (h : LogOk start may c log ρ) (hc : log.committing = false)
    (hr : ∀ c', r ≠ .commit c') : ∀ q c', update ρ p r q ≠ .commit c' :=
  (forall_update_iff ρ fun _ r => ∀ c', r ≠ .commit c').2 ⟨hr, fun q _ => no_commit h hc q⟩

theorem sole_update {r : Role} (hidle : ∀ q, q ≠ p → ρ q = .idle) {q : Proc}
    (hq : update ρ p r q ≠ .idle) : q = p := by
  by_contra he
  rw [update_of_ne he] at hq
  exact hq (hidle q he)

theorem enter_log (h : LogOk start may c log ρ) (hp : ρ p = .idle) (hc : log.committing = false)
    (room : (log.lh.length : ℤ) + (log.outstanding + 1) * MAXOPBLOCKS ≤ LOGSIZE) :
    LogOk start may c { log with outstanding := log.outstanding + 1 }
      (update ρ p (.op [])) := by
  have hnone := no_commit_update (p := p) (r := .op []) h hc nofun
  have hops := sum_update Role.ops ρ p (.op [])
  have hspare := sum_update Role.spare ρ p (.op [])
  have hcount := h.count
  rw [hp] at hops hspare
  have h1 : Role.ops (.op []) = 1 := rfl
  have h0 : Role.ops .idle = 0 := rfl
  have h1' : Role.spare (.op []) = 9 := rfl
  have h0' : Role.spare .idle = 0 := rfl
  refine ⟨h.area, h.size, h.dev, h.lh, h.nodup, h.home, h.len, ?_, ?_, fun q c' hq =>
    absurd hq (hnone q c'),
    fun q _ c' hq => absurd hq (hnone q c'), h.zero, ?_, h.unpin, ?_, ?_⟩
  · simp only
    omega
  · refine ⟨fun hb => ?_, fun ⟨q, c', hq⟩ => absurd hq (hnone q c')⟩
    rw [show ({ log with outstanding := log.outstanding + 1 } : Log).committing = log.committing
      from rfl, hc] at hb
    cases hb
  · intro _ hz
    simp only at hz
    omega
  · intro q L hq
    grind [h.mine]
  · -- with one operation open at most ten blocks are used up, with two none
    intro hmay
    have hlh : log.lh = c.bs := by rw [h.lh, (h.zero hc).2.2.2.2]; rfl
    have hle := spare_le (ρ := ρ)
    have hL : LOGSIZE = 30 := rfl
    have hM : ((MAXOPBLOCKS : ℕ) : ℤ) = 10 := rfl
    rw [hlh, hM] at room
    by_cases hz : log.outstanding = 0
    · have hbs := h.fresh hc hz
      rw [hbs, List.length_nil]
      omega
    · omega

theorem enter_trace (h : TraceOk start d₀ c tr ρ) (hp : ρ p = .idle)
    (hc : ∀ q, inCommit q tr = false) :
    TraceOk start d₀ c (.began p :: tr) (update ρ p (.op [])) := by
  refine ⟨h.new, op_update h ?_ ?_, com_update h ?_ fun _ _ => rfl, h.tx, h.heads, h.inst,
    h.unsealed, h.uninst, h.dur, fitting_cons h.ok ⟨?_, hc⟩⟩
  · simp [opOpen]
  · intro q hq
    simp [opOpen, Ne.symm hq]
  · have := h.com p
    rw [hp] at this
    simpa [inCommit] using this
  · by_contra hne
    obtain ⟨L, hL⟩ := (h.op p).1 (by simpa using hne)
    rw [hp] at hL
    cases hL

theorem enter_inv (hI : Inv start may d₀ c g Λ) (hp : (Λ p).role = .idle)
    (h : kern.exec p .enter g = .done u g') :
    Inv start may d₀ c g' (update Λ p ⟨(Λ p).own, .op []⟩) := by
  obtain ⟨hc, hroom, rfl⟩ := enter_done h
  exact role_inv hI rfl rfl rfl (enter_log hI.log hp hc hroom)
    (enter_trace hI.tr hp (no_inCommit hI.tr hI.log hc)) rfl rfl
    { hI.disk with }

theorem log_log (h : LogOk start may c log ρ) (hp : ρ p = .op L) (hmay : may (L.insert b))
    (hb : ¬ InLog start LOGSIZE b) (bs : List UInt32)
    (hbs : (b ∈ c.bs ∧ bs = c.bs) ∨ (b ∉ c.bs ∧ c.bs.length < LOGSIZE ∧ bs = c.bs ++ [b])) :
    LogOk start may { c with bs := bs, new := update c.new b v } { log with lh := bs }
      (update ρ p (.op (L.insert b))) := by
  have hc := not_committing h hp
  obtain ⟨hz1, hz2, hz3, hz4, hz5⟩ := h.zero hc
  have hmem : ∀ x, x ∈ bs ↔ x ∈ c.bs ∨ x = b := by
    intro x
    rcases hbs with ⟨hin, rfl⟩ | ⟨-, -, rfl⟩
    · exact ⟨.inl, fun hx => hx.elim id fun he => he ▸ hin⟩
    · rw [List.mem_append, List.mem_singleton]
  have hnone := no_commit_update (p := p) (r := .op (L.insert b)) h hc nofun
  have hops := sum_update Role.ops ρ p (.op (L.insert b))
  have hspare := sum_update Role.spare ρ p (.op (L.insert b))
  have hcount := h.count
  have hpos := outstanding_pos h hp
  rw [hp] at hops hspare
  have h1 : ∀ L, Role.ops (.op L) = 1 := fun _ => rfl
  rw [h1, h1] at hops
  refine ⟨h.area, h.size, h.dev, ?_, ?_, ?_, ?_, ?_, ?_, fun q c' hq => absurd hq (hnone q c'),
    fun q _ c' hq => absurd hq (hnone q c'), fun _ => ⟨hz1, hz2, hz3, hz4, hz5⟩, ?_,
    h.unpin, ?_, ?_⟩
  · simp only [hz5, Bool.false_eq_true, ↓reduceIte]
  · rcases hbs with ⟨-, rfl⟩ | ⟨hnot, -, rfl⟩
    · exact h.nodup
    · exact List.nodup_append.2 ⟨h.nodup, List.nodup_singleton b, fun x hx y hy => by
        rw [List.mem_singleton] at hy
        exact fun he => hnot (hy ▸ he ▸ hx)⟩
  · intro x hx
    rcases (hmem x).1 hx with hx | rfl
    · exact h.home x hx
    · exact hb
  · rcases hbs with ⟨-, rfl⟩ | ⟨-, hlen, rfl⟩
    · exact h.len
    · simp only [List.length_append, List.length_singleton]
      omega
  · simp only
    omega
  · refine ⟨fun hbusy => ?_, fun ⟨q, c', hq⟩ => absurd hq (hnone q c')⟩
    rw [show ({ log with lh := bs } : Log).committing = log.committing from rfl, hc] at hbusy
    cases hbusy
  · intro _ hz
    simp only at hz
    omega
  · intro q L' hq
    by_cases he : q = p
    · rw [he, update_self] at hq
      cases hq
      refine ⟨.inr hmay, fun x hx => (hmem x).2 ?_⟩
      rcases List.mem_insert_iff.1 hx with rfl | hx
      · exact .inr rfl
      · exact .inl ((h.mine p L hp).2 x hx)
    · rw [update_of_ne he] at hq
      obtain ⟨h1, h2⟩ := h.mine q L' hq
      exact ⟨h1, fun x hx => (hmem x).2 (.inl (h2 x hx))⟩
  · intro hall
    have hroom := h.room hall
    have hlt := hall _ hmay
    have hM : MAXOPBLOCKS = 10 := rfl
    have hs : ∀ L, Role.spare (.op L) = 9 - L.length := fun _ => rfl
    rw [hs, hs] at hspare
    rcases hbs with ⟨-, rfl⟩ | ⟨hnot, -, rfl⟩
    · have hle : L.length ≤ (L.insert b).length := List.length_le_length_insert
      simp only
      omega
    · have hnL : b ∉ L := fun hm => hnot ((h.mine p L hp).2 b hm)
      have hlen : (L.insert b).length = L.length + 1 := by
        rw [List.insert_of_not_mem hnL, List.length_cons]
      simp only [List.length_append, List.length_singleton]
      omega

theorem log_trace (h : TraceOk start d₀ c tr ρ) (hp : ρ p = .op L)
    (hcom : ∀ q, inCommit q tr = false) (hz : c.heads = 0 ∧ c.written = 0) {bs : List UInt32}
    (hmem : ∀ x, x ∈ bs ↔ x ∈ c.bs ∨ x = b) :
    TraceOk start d₀ { c with bs := bs, new := update c.new b v } (.logged p b v :: tr)
      (update ρ p (.op (L.insert b))) := by
  have hopen : opOpen p tr = true := (h.op p).2 ⟨L, hp⟩
  refine ⟨?_, op_update h ?_ fun _ _ => rfl, com_update h ?_ fun _ _ => rfl, ?_,
    h.heads, ?_, ?_, ?_,
    fun hne => absurd hz.1 hne, fitting_cons h.ok ⟨hopen, hcom⟩⟩
  · simp only [latest, h.new]
  · simpa [opOpen] using hopen
  · simpa [inCommit] using hcom p
  · intro x
    simp only [transaction, List.mem_cons, h.tx, hmem]
    exact or_comm
  · intro x
    have := h.inst x
    rw [hz.2, List.take_zero] at this
    simpa only [hz.2, List.take_zero, installed] using this
  · intro x hx
    simp only [unsealed, List.mem_cons] at hx
    rcases hx with rfl | hx
    · exact ⟨(hmem x).2 (.inr rfl), hz.1⟩
    · exact ⟨(hmem x).2 (.inl (h.unsealed x hx).1), hz.1⟩
  · intro x hx
    have hun := h.uninst x
    simp only [hz.2, List.drop_zero, uninstalled, List.mem_cons] at hx hun ⊢
    rcases hx with rfl | hx
    · exact (hmem x).2 (.inr rfl)
    · exact (hmem x).2 (.inl (hun hx))

theorem want_log {disk : UInt32 → Block} {x : UInt32} {bs : List UInt32} (hx : x ≠ b) :
    want start { c with bs := bs, new := update c.new b v } disk x =
      want start c disk x := by
  simp only [want, update_of_ne hx]

theorem logBlock_inv {i : BufId} {x : Hold} (hI : Inv start may d₀ c g Λ) (hp : (Λ p).role = .op L)
    (hx : (Λ p).own i = ⟨some x, none⟩) (hf : x.filled = true)
    (home : ¬ InLog start LOGSIZE x.block) (hmay : may (L.insert x.block))
    (h : kern.exec p (.logBlock i) g = .done u g') :
    ∃ c', Inv start may d₀ c' g' (update Λ p
      ⟨update (Λ p).own i ⟨some { x with mine := none }, none⟩, .op
      (L.insert x.block)⟩) := by
  obtain ⟨hd, hb, hv⟩ := (hI.buf i).hold p x (by rw [owners, hx])
  have hc := not_committing hI.log (ρ := roles Λ) hp
  obtain ⟨hz1, hz2, hz3, hz4, hz5⟩ := hI.log.zero hc
  have hlh : g.log.lh = c.bs := by rw [hI.log.lh, hz5]; rfl
  have hcom := no_inCommit hI.tr hI.log hc
  have hcases := logBlock_cases h
  rw [hb] at hcases
  -- what the disk holds is not touched; the block joins those the disk need not have
  have hdisk : ∀ bs, (∀ y, y ∈ bs ↔ y ∈ c.bs ∨ y = x.block) →
      DiskOk start d₀ { c with bs := bs, new := update c.new x.block (g.buf i).data }
        g.disk (.logged p x.block (g.buf i).data :: g.trace) := by
    intro bs hmem
    refine ⟨?_, hI.disk.old, fun j hj hj' => ?_, ?_, fun h => absurd hz2 h, ?_, hI.disk.bound⟩
    · intro y hy hn
      simp only [hz3, List.drop_zero] at hn
      have hne : y ≠ x.block := fun he => hn ((hmem y).2 (.inr he))
      simp only [update_of_ne hne]
      refine hI.disk.home y hy fun hm => hn ((hmem y).2 (.inl ?_))
      rwa [hz3, List.drop_zero] at hm
    · simp only [hz1] at hj'
      omega
    · have := hI.disk.head
      simp only [hz2] at this ⊢
      exact this
    · intro h
      simp only [hz2] at h
      omega
  have hwant : ∀ bs, (g.buf i).data = want start
      { c with bs := bs, new := update c.new x.block (g.buf i).data } g.disk
        x.block := by
    intro bs
    simp only [want, if_neg home, update_self]
  have hpin : ∀ (bs : List UInt32) (nw : UInt32 → Block) (f : Buf), f.dev = ROOTDEV →
      pin { c with bs := bs, new := nw } f = if f.blockno ∈ bs then 1 else 0 := by
    intro bs nw f hf
    simp only [pin, hf, true_and, hz4, List.drop_zero]
  rcases hcases with ⟨hin, rfl⟩ | ⟨hnot, hlen, rfl⟩
  · rw [hlh] at hin
    have hmem : ∀ y, y ∈ c.bs ↔ y ∈ c.bs ∨ y = x.block :=
      fun y => ⟨.inl, fun hy => hy.elim id fun he => he ▸ hin⟩
    refine ⟨{ c with
      bs := c.bs, new := update c.new x.block (g.buf i).data }, ?_⟩
    have hl := log_log hI.log (v := (g.buf i).data) hp hmay home c.bs (.inl ⟨hin, rfl⟩)
    rw [show ({ g.log with lh := c.bs } : Log) = g.log by rw [← hlh]] at hl
    refine hold_inv hI hx rfl (fun _ _ => rfl) rfl rfl id hl
      (log_trace hI.tr hp hcom ⟨hz2, hz3⟩ hmem) ?_ (fun _ _ => Iff.rfl) (fun y hy => want_log hy)
      (fun _ => hv hf) (hdisk c.bs hmem)
    refine (hI.buf i).hold_step hx rfl rfl rfl rfl rfl (fun _ => hv hf) (fun _ h => by cases h)
      fun _ _ => ?_
    rw [hb]
    exact hwant _
  · rw [hlh] at hnot hlen
    have hmem : ∀ y, y ∈ c.bs ++ [x.block] ↔ y ∈ c.bs ∨ y = x.block := by
      intro y
      rw [List.mem_append, List.mem_singleton]
    refine ⟨{ c with
      bs := c.bs ++ [x.block]
      new := update c.new x.block (g.buf i).data }, ?_⟩
    have hl := log_log hI.log (v := (g.buf i).data) hp hmay home
      (c.bs ++ [x.block]) (.inr ⟨hnot, hlen, rfl⟩)
    refine hold_inv hI hx rfl (fun j hj => update_of_ne hj ..) ?_ ?_ ?_ ?_
      (log_trace hI.tr hp hcom ⟨hz2, hz3⟩ hmem) ?_ ?_ (fun y hy => want_log hy) ?_ (hdisk _ hmem)
    · simp
    · simp
    · simp
    · simpa [hlh] using hl
    · simp only [note_buf, modLog_buf, modBuf_self]
      refine (hI.buf i).hold_step hx rfl rfl rfl rfl ?_ (fun _ => hv hf) (fun _ h => by cases h)
        fun _ _ => ?_
      · have hp0 : pin c (g.buf i) = 0 := by
          rw [show c = { c with bs := c.bs, new := c.new } from rfl, hpin _ _ _ hd, hb, if_neg hnot]
        rw [hp0, hpin _ _ { g.buf i with refcnt := (g.buf i).refcnt + 1 } hd,
          if_pos ((hmem _).2 (.inr hb))]
        exact toNat_succ (hI.buf i).count_le
      · rw [hb]
        exact hwant _
    · intro y hy
      simp only [hz4, List.drop_zero, hmem]
      exact or_iff_left hy
    · intro _
      simpa using hv hf

theorem end_log (h : LogOk start may c log ρ) (hp : ρ p = .op L) (hout : log.outstanding ≠ 1) :
    LogOk start may c { log with outstanding := log.outstanding - 1 }
      (update ρ p .idle) := by
  have hc := not_committing h hp
  have hnone := no_commit_update (p := p) (r := .idle) h hc nofun
  have hops := sum_update Role.ops ρ p .idle
  have hspare := sum_update Role.spare ρ p .idle
  have hcount := h.count
  rw [hp] at hops hspare
  have h1 : Role.ops (.op L) = 1 := rfl
  have h0 : Role.ops .idle = 0 := rfl
  have h0' : Role.spare .idle = 0 := rfl
  refine ⟨h.area, h.size, h.dev, h.lh, h.nodup, h.home, h.len, ?_, ?_, fun q c' hq =>
    absurd hq (hnone q c'),
    fun q _ c' hq => absurd hq (hnone q c'), h.zero, ?_, h.unpin, ?_, ?_⟩
  · simp only
    omega
  · refine ⟨fun hb => ?_, fun ⟨q, c', hq⟩ => absurd hq (hnone q c')⟩
    rw [show ({ log with outstanding := log.outstanding - 1 } : Log).committing = log.committing
      from rfl, hc] at hb
    cases hb
  · intro _ hz
    simp only at hz
    omega
  · intro q L' hq
    grind [h.mine]
  · intro hmay
    have := h.room hmay
    omega

theorem close_log (h : LogOk start may c log ρ) (hp : ρ p = .op L) (hout : log.outstanding = 1) :
    LogOk start may c { log with outstanding := log.outstanding - 1, committing := true }
      (update ρ p (.commit c)) := by
  have hc := not_committing h hp
  have hops := sum_update Role.ops ρ p (.commit c)
  have hspare := sum_update Role.spare ρ p (.commit c)
  have hcount := h.count
  rw [hp] at hops hspare
  have h1 : Role.ops (.op L) = 1 := rfl
  have h0 : Role.ops (.commit c) = 0 := rfl
  have h0' : Role.spare (.commit c) = 0 := rfl
  have hidle : ∀ q, q ≠ p → ρ q = .idle := by
    intro q hq
    cases hr : ρ q with
    | idle => rfl
    | op L' =>
      have hz : ∑ q, (update ρ p (.commit c) q).ops = 0 := by omega
      exact absurd ((update_of_ne hq ..).trans hr) (no_ops hz q L')
    | commit c' => exact absurd hr (no_commit h hc q c')
  refine ⟨h.area, h.size, h.dev, h.lh, h.nodup, h.home, h.len, ?_, ?_, ?_, ?_, nofun, nofun,
    h.unpin, ?_, ?_⟩
  · simp only
    omega
  · exact ⟨fun _ => ⟨p, c, update_self ..⟩, fun _ => rfl⟩
  · intro q c' hq
    rw [sole_update hidle (hq.trans_ne nofun), update_self] at hq
    cases hq
    rfl
  · intro q r c' hq hr
    rw [sole_update hidle hr, sole_update hidle (hq.trans_ne nofun)]
  · intro q L' hq
    rw [sole_update hidle (hq.trans_ne nofun), update_self] at hq
    cases hq
  · intro hmay
    have := h.room hmay
    omega

theorem end_trace (h : TraceOk start d₀ c tr ρ) (hp : ρ p = .op L)
    (hcom : ∀ q, inCommit q tr = false) :
    TraceOk start d₀ c (.ended p :: tr) (update ρ p .idle) := by
  refine ⟨h.new, op_update h ?_ ?_, com_update h ?_ fun _ _ => rfl, h.tx, h.heads, h.inst,
    h.unsealed, h.uninst, h.dur, fitting_cons h.ok ⟨(h.op p).2 ⟨L, hp⟩, hcom⟩⟩
  · simp [opOpen]
  · intro q hq
    simp [opOpen, Ne.symm hq]
  · simpa [inCommit] using hcom p

theorem close_trace (h : TraceOk start d₀ c tr ρ) (hp : ρ p = .op L)
    (hcom : ∀ q, inCommit q tr = false) (honly : ∀ q L', ρ q = .op L' → q = p) :
    TraceOk start d₀ c (.commits p :: .ended p :: tr) (update ρ p (.commit c)) := by
  have he := end_trace h hp hcom
  have hnone : ∀ q, opOpen q (.ended p :: tr) = false := by
    intro q
    by_contra hne
    obtain ⟨L', hq⟩ := (he.op q).1 (by simpa using hne)
    grind
  rw [← update_idem (.idle : Role) (.commit c) ρ]
  refine ⟨he.new, op_update he ?_ fun _ _ => rfl, com_update he ?_ ?_, he.tx, he.heads, he.inst,
    he.unsealed, he.uninst, he.dur, fitting_cons he.ok ⟨hnone, hcom⟩⟩
  · simp [opOpen]
  · simp [inCommit]
  · intro q hq
    simp [inCommit, Ne.symm hq]

theorem only_op (h : LogOk start may c log ρ) (hp : ρ p = .op L) (hout : log.outstanding = 1)
    (q : Proc) (L' : List UInt32) (hq : ρ q = .op L') : q = p := by
  by_contra he
  have hops := sum_update Role.ops ρ p .idle
  have hcount := h.count
  rw [hp] at hops
  have h1 : Role.ops (.op L) = 1 := rfl
  have h0 : Role.ops .idle = 0 := rfl
  have hz : ∑ q, (update ρ p .idle q).ops = 0 := by omega
  exact no_ops hz q L' ((update_of_ne he ..).trans hq)

theorem endCs_inv {a : Bool} (hI : Inv start may d₀ c g Λ) (hp : (Λ p).role = .op L)
    (h : kern.exec p .endCs g = .done a g') :
    Inv start may d₀ c g'
      (update Λ p ⟨(Λ p).own, if a then .commit c else .idle⟩) := by
  obtain ⟨hc, hcase⟩ := endCs_cases h
  have hcom := no_inCommit hI.tr hI.log hc
  rcases hcase with ⟨hout, rfl, rfl⟩ | ⟨hout, rfl, rfl⟩
  · exact role_inv hI rfl rfl rfl (close_log hI.log hp hout)
      (close_trace hI.tr hp hcom (only_op hI.log hp hout)) rfl rfl
      { hI.disk with }
  · exact role_inv hI rfl rfl rfl (end_log hI.log hp hout) (end_trace hI.tr hp hcom) rfl rfl
      { hI.disk with }

theorem progress_log {log' : Log} (h : LogOk start may c log ρ) (hp : ρ p = .commit c)
    (hbs : c'.bs = c.bs) (hlh : log'.lh = if c'.emptied then [] else c'.bs)
    (hlog : { log' with lh := log.lh } = log) (hun : c'.unpinned ≤ c'.written) :
    LogOk start may c' log' (update ρ p (.commit c')) := by
  have hbusy : log.committing = true := h.busy.2 ⟨p, c, hp⟩
  have hidle : ∀ q, q ≠ p → ρ q = .idle := by
    intro q hq
    by_contra hne
    exact hq (h.alone p q c hp hne)
  have hops := sum_update Role.ops ρ p (.commit c')
  have hspare := sum_update Role.spare ρ p (.commit c')
  rw [hp] at hops hspare
  have h0 : ∀ c, Role.ops (.commit c) = 0 := fun _ => rfl
  have h0' : ∀ c, Role.spare (.commit c) = 0 := fun _ => rfl
  rw [h0, h0] at hops
  rw [h0', h0'] at hspare
  have hcommitting : log'.committing = true := by rw [← hbusy, ← hlog]
  refine ⟨?_, ?_, ?_, hlh, hbs ▸ h.nodup, hbs ▸ h.home, hbs ▸ h.len, ?_, ?_, ?_, ?_, ?_,
    ?_, hun, ?_, ?_⟩
  · rw [← h.area, ← hlog]
  · rw [← h.size, ← hlog]
  · rw [← h.dev, ← hlog]
  · have hcount := h.count
    rw [← hlog] at hcount
    simp only at hcount
    omega
  · exact ⟨fun _ => ⟨p, c', update_self ..⟩, fun _ => hcommitting⟩
  · intro q c'' hq
    rw [sole_update hidle (hq.trans_ne nofun), update_self] at hq
    cases hq
    rfl
  · intro q r c'' hq hr
    rw [sole_update hidle hr, sole_update hidle (hq.trans_ne nofun)]
  · intro hf
    rw [hcommitting] at hf
    cases hf
  · intro hf
    rw [hcommitting] at hf
    cases hf
  · intro q L hq
    rw [sole_update hidle (hq.trans_ne nofun), update_self] at hq
    cases hq
  · intro hmay
    have := h.room hmay
    rw [hbs]
    omega

theorem wrote_trace (h : TraceOk start d₀ c tr ρ) (hp : ρ p = .commit c) (hbs : c'.bs = c.bs)
    (hnew : c'.new = c.new) (heads : headWrites start (.wrote b v :: tr) = c'.heads)
    (inst : ∀ x, x ∈ installed start (.wrote b v :: tr) ↔ x ∈ c.bs.take c'.written)
    (open_ : ∀ x ∈ unsealed start (.wrote b v :: tr), c'.heads = 0)
    (uninst : ∀ x, x ∈ c.bs.drop c.written → x ≠ b → x ∈ c.bs.drop c'.written)
    (dur : c'.heads ≠ 0 → durable start d₀ (.wrote b v :: tr) = c.new)
    (fit : Fitting start (.wrote b v) tr) :
    TraceOk start d₀ c' (.wrote b v :: tr) (update ρ p (.commit c')) := by
  refine ⟨hnew.trans h.new, op_update h ?_ fun _ _ => rfl, com_update h ?_ fun _ _ => rfl,
    fun x => hbs ▸ h.tx x, heads, fun x => hbs ▸ inst x, ?_, ?_, fun hne => hnew ▸ dur hne,
    fitting_cons h.ok fit⟩
  · have := h.op p
    rw [hp] at this
    simpa [opOpen] using this
  · have := h.com p
    rw [hp] at this
    simpa [inCommit] using this
  · intro x hx
    refine ⟨?_, open_ x hx⟩
    rw [hbs]
    simp only [unsealed] at hx
    split_ifs at hx with hs
    · exact absurd hx List.not_mem_nil
    · exact (h.unsealed x hx).1
  · intro x hx
    simp only [uninstalled, List.mem_filter, decide_eq_true_eq] at hx
    exact hbs ▸ uninst x (h.uninst x hx.1) hx.2

theorem bwrite_inv {i : BufId} {x : Hold} (hI : Inv start may d₀ c g Λ)
    (hp : (Λ p).role = .commit c) (hx : (Λ p).own i = ⟨some x, none⟩) (hf : x.filled = true)
    (hm : x.mine = some v) (hbs : c'.bs = c.bs) (hnew : c'.new = c.new)
    (hem : c'.emptied = c.emptied) (hun : c'.unpinned = c.unpinned) (hle : c.unpinned ≤ c'.written)
    (tr : TraceOk start d₀ c' (.wrote x.block v :: g.trace) (update (roles Λ) p (.commit c')))
    (disk : DiskOk start d₀ c' (update g.disk x.block v) (.wrote x.block v :: g.trace))
    (fine : ¬ InLog start LOGSIZE x.block → v = c.new x.block)
    (h : kern.exec p (.bwrite i) g = .done u g') :
    Inv start may d₀ c' g' (update Λ p
      ⟨update (Λ p).own i ⟨some { x with mine := none }, none⟩, .commit c'⟩) := by
  have hown : (owners Λ i p).hold = some x := by rw [owners, hx]
  obtain ⟨hd, hb, hv⟩ := (hI.buf i).hold p x hown
  have hdata := (hI.buf i).stored p x v hown hm
  obtain ⟨-, hg⟩ := bwrite_done h
  rw [hb, hdata] at hg
  subst hg
  refine hold_inv hI hx rfl (fun _ _ => rfl) rfl rfl id ?_ tr ?_ ?_ ?_ (fun _ => hv hf) disk
  · refine progress_log hI.log hp hbs ?_ rfl (hun ▸ hle)
    rw [hem, hbs]
    exact hI.log.lh
  · refine (hI.buf i).hold_step hx rfl rfl rfl rfl ?_ (fun _ => hv hf) (fun _ h => by cases h)
      fun _ _ => ?_
    · simp only [pin, hbs, hun, note_buf]
    · rw [hb]
      simp only [note_buf, note_disk, want, hdata, hnew, update_self]
      split_ifs with hlog
      · rfl
      · exact fine hlog
  · intro b _
    rw [hbs, hun]
  · intro b hne
    simp only [want, note_disk, update_of_ne hne, hnew]

end Xv6.LogTransactions
