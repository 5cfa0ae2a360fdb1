import Xv6.LogTransactions

set_option autoImplicit false

namespace Xv6.LogCommitSteps
open LogCode LogHeader LogActions LogSystem LogInvariant LogBuffers
  LogTransactions
open Function (update update_of_ne update_self)

variable {start : UInt32} {may : List UInt32 → Prop} {d₀ : UInt32 → Block} {c : Progress}
  {g g' : Kern} {Λ : Proc → Ghost} {p : Proc} {u : Unit} {i : BufId} {x : Hold}

section

variable (hI : Inv start may d₀ c g Λ)
include hI

theorem home_ne_slot {j : ℕ} (hj : j + 1 < LOGSIZE) {b : UInt32}
    (hb : b ∈ c.bs) : b ≠ slot start j :=
  fun he => hI.log.home b hb (he ▸ inLog_slot start hj)

theorem home_ne_start {b : UInt32} (hb : b ∈ c.bs) : b ≠ start :=
  fun he => hI.log.home b hb (he ▸ inLog_start start (by decide))

variable (hp : (Λ p).role = .commit c)
include hp

theorem copy_inv (hheads : c.heads = 0) (hk : c.filled < c.bs.length)
    (hlen : c.bs.length < LOGSIZE) (hx : (Λ p).own i = ⟨some x, none⟩) (hf : x.filled = true)
    (hb : x.block = slot start c.filled) (hm : x.mine = some (c.new c.bs[c.filled]))
    (h : kern.exec p (.bwrite i) g = .done u g') :
    Inv start may d₀ { c with filled := c.filled + 1 } g' (update Λ p
      ⟨update (Λ p).own i ⟨some { x with mine := none }, none⟩,
        .commit { c with filled := c.filled + 1 }⟩) := by
  have hslot : slot start c.filled ≠ start := slot_ne_start (by omega)
  have hh : headWrites start g.trace = 0 := hI.tr.heads.trans hheads
  have hin : InLog start LOGSIZE (slot start c.filled) := inLog_slot start (by omega)
  refine bwrite_inv hI hp hx hf hm rfl rfl rfl rfl hI.log.unpin ?_ ?_
    (fun hn => absurd (hb ▸ hin) hn) h
  · rw [hb]
    refine wrote_trace hI.tr hp rfl rfl ?_ ?_ ?_ (fun y hy _ => hy)
      (fun hne => absurd hheads hne) ?_
    · rw [headWrites, if_neg hslot]
      exact hI.tr.heads
    · intro y
      rw [installed, if_neg fun hc => by omega]
      exact hI.tr.inst y
    · exact fun _ _ => hheads
    · exact ⟨fun _ => .inr ⟨c.filled, by omega, rfl⟩, fun hn => absurd hin hn⟩
  · rw [hb]
    refine ⟨?_, ?_, ?_, ?_, fun h => absurd hheads h, fun h => by simp only at h; omega,
      hI.disk.bound⟩
    · intro y hy hn
      rw [update_of_ne fun he : y = _ => hy (he ▸ hin)]
      exact hI.disk.home y hy hn
    · intro _ y hy
      rw [update_of_ne fun he : y = _ => hy (he ▸ hin), durable, if_neg fun hc => hslot hc.1]
      exact hI.disk.old hheads y hy
    · intro j hj hj'
      by_cases he : j = c.filled
      · subst he
        rw [update_self]
      · rw [update_of_ne fun hs => he (slot_injective (by simp only at hj; omega)
          (by omega) hs)]
        exact hI.disk.filled j hj (by simp only at hj'; omega)
    · rw [update_of_ne hslot.symm]
      exact hI.disk.head

theorem seal_inv (hheads : c.heads = 0)
    (hfilled : c.bs.length ≤ c.filled) (hlen : c.bs.length < LOGSIZE) {d : Block}
    (hx : (Λ p).own i = ⟨some x, none⟩) (hf : x.filled = true) (hb : x.block = start)
    (hm : x.mine = some (putHead c.bs d)) (h : kern.exec p (.bwrite i) g = .done u g') :
    Inv start may d₀ { c with heads := 1 } g' (update Λ p
      ⟨update (Λ p).own i ⟨some { x with mine := none }, none⟩,
        .commit { c with heads := 1 }⟩) := by
  have hh : headWrites start g.trace = 0 := hI.tr.heads.trans hheads
  have hin : InLog start LOGSIZE start := inLog_start start (by decide)
  refine bwrite_inv hI hp hx hf hm rfl rfl rfl rfl hI.log.unpin ?_ ?_
    (fun hn => absurd (hb ▸ hin) hn) h
  · rw [hb]
    refine wrote_trace hI.tr hp rfl rfl ?_ ?_ ?_ (fun y hy _ => hy) ?_ ?_
    · rw [headWrites, if_pos rfl, hh]
    · intro y
      rw [installed, if_neg fun hc => hc.1 rfl]
      exact hI.tr.inst y
    · intro y hy
      rw [unsealed, if_pos ⟨rfl, hh⟩] at hy
      exact absurd hy List.not_mem_nil
    · intro _
      rw [durable, if_pos ⟨rfl, hh⟩, hI.tr.new]
    · exact ⟨fun _ => .inl rfl, fun hn => absurd hin hn⟩
  · rw [hb]
    refine ⟨?_, (fun h0 => by cases h0), ?_, ?_, fun _ => ⟨hfilled, hlen⟩,
      (fun h2 => by cases h2), by simp⟩
    · intro y hy hn
      rw [update_of_ne fun he : y = _ => hy (he ▸ hin)]
      exact hI.disk.home y hy hn
    · intro j hj hj'
      rw [update_of_ne (slot_ne_start (by simp only at hj; omega))]
      exact hI.disk.filled j hj hj'
    · rw [update_self, headList_putHead _ _ hlen.le, if_pos rfl]

theorem install_inv (hheads : c.heads = 1)
    (hk : c.written < c.bs.length) (hlen : c.bs.length < LOGSIZE)
    (hx : (Λ p).own i = ⟨some x, none⟩) (hf : x.filled = true) (hb : x.block = c.bs[c.written])
    (hm : x.mine = some (c.new c.bs[c.written])) (h : kern.exec p (.bwrite i) g = .done u g') :
    Inv start may d₀ { c with written := c.written + 1 } g' (update Λ p
      ⟨update (Λ p).own i ⟨some { x with mine := none }, none⟩,
        .commit { c with written := c.written + 1 }⟩) := by
  have hmem := List.getElem_mem hk
  have hstart := home_ne_start hI hmem
  have hhome := hI.log.home _ hmem
  have hh : headWrites start g.trace = 1 := hI.tr.heads.trans hheads
  have hdrop : ∀ y, y ∈ c.bs.drop c.written → y ≠ c.bs[c.written] → y ∈ c.bs.drop
    (c.written + 1) := by
    intro y hy hne
    rw [List.drop_eq_getElem_cons hk] at hy
    exact (List.mem_cons.1 hy).resolve_left hne
  have hclosed : ∀ y, y ∉ unsealed start g.trace := by
    intro y hy
    have := (hI.tr.unsealed y hy).2
    omega
  refine bwrite_inv hI hp hx hf hm rfl rfl rfl rfl (hI.log.unpin.trans (Nat.le_succ _)) ?_ ?_
    (fun _ => by rw [hb]) h
  · rw [hb]
    refine wrote_trace hI.tr hp rfl rfl ?_ ?_ ?_ hdrop ?_ ?_
    · rw [headWrites, if_neg hstart]
      exact hI.tr.heads
    · intro y
      rw [installed, if_pos ⟨hstart, hh⟩, List.mem_cons, hI.tr.inst y,
        List.take_succ_eq_append_getElem hk, List.mem_append, List.mem_singleton]
      exact or_comm
    · intro y hy
      rw [unsealed, if_neg fun hc => hstart hc.1] at hy
      exact absurd hy (hclosed y)
    · intro hne
      rw [durable, if_neg fun hc => hstart hc.1]
      exact hI.tr.dur hne
    · exact ⟨fun h0 => by omega, fun _ => hclosed _⟩
  · rw [hb]
    refine ⟨?_, fun h0 => by simp only at h0; omega, ?_, ?_, hI.disk.sealed,
      fun h => by simp only at h; omega, hI.disk.bound⟩
    · intro y hy hn
      by_cases he : y = c.bs[c.written]
      · rw [he, update_self]
      · rw [update_of_ne he]
        exact hI.disk.home y hy fun hm => hn (hdrop y hm he)
    · intro j hj hj'
      rw [update_of_ne (home_ne_slot hI (by simp only at hj; omega) hmem).symm]
      exact hI.disk.filled j hj hj'
    · rw [update_of_ne hstart.symm]
      exact hI.disk.head

theorem clear_inv (hheads : c.heads = 1)
    (hwritten : c.bs.length ≤ c.written) (hlen : c.bs.length < LOGSIZE) {d : Block}
    (hx : (Λ p).own i = ⟨some x, none⟩) (hf : x.filled = true) (hb : x.block = start)
    (hm : x.mine = some (putHead [] d)) (h : kern.exec p (.bwrite i) g = .done u g') :
    Inv start may d₀ { c with heads := 2 } g' (update Λ p
      ⟨update (Λ p).own i ⟨some { x with mine := none }, none⟩,
        .commit { c with heads := 2 }⟩) := by
  have hh : headWrites start g.trace = 1 := hI.tr.heads.trans hheads
  have hin : InLog start LOGSIZE start := inLog_start start (by decide)
  have hnot : ¬ (start = start ∧ headWrites start g.trace = 0) := by omega
  refine bwrite_inv hI hp hx hf hm rfl rfl rfl rfl hI.log.unpin ?_ ?_
    (fun hn => absurd (hb ▸ hin) hn) h
  · rw [hb]
    refine wrote_trace hI.tr hp rfl rfl ?_ ?_ ?_ (fun y hy _ => hy) ?_ ?_
    · rw [headWrites, if_pos rfl, hh]
    · intro y
      rw [installed, if_neg fun hc => hc.1 rfl]
      exact hI.tr.inst y
    · intro y hy
      rw [unsealed, if_neg hnot] at hy
      have := (hI.tr.unsealed y hy).2
      omega
    · intro _
      rw [durable, if_neg hnot]
      exact hI.tr.dur (by omega)
    · exact ⟨fun h0 => by omega, fun hn => absurd hin hn⟩
  · rw [hb]
    refine ⟨?_, (fun h0 => by cases h0), ?_, ?_, fun _ => hI.disk.sealed (by omega),
      fun _ => hwritten, by simp⟩
    · intro y hy hn
      rw [update_of_ne fun he : y = _ => hy (he ▸ hin)]
      exact hI.disk.home y hy hn
    · intro j hj hj'
      rw [update_of_ne (slot_ne_start (by simp only at hj; omega))]
      exact hI.disk.filled j hj hj'
    · rw [update_self, headList_putHead _ _ (by decide)]
      rfl

theorem bunpin_inv (hk : c.unpinned < c.written)
    (hk' : c.unpinned < c.bs.length) (hx : (Λ p).own i = ⟨some x, none⟩) (hf : x.filled = true)
    (hm : x.mine = none) (hb : x.block = c.bs[c.unpinned])
    (h : kern.exec p (.bunpin i) g = .done u g') :
    Inv start may d₀ { c with unpinned := c.unpinned + 1 } g' (update Λ p
      ⟨update (Λ p).own i ⟨some x, none⟩, .commit
      { c with unpinned := c.unpinned + 1 }⟩) := by
  have hown : (owners Λ i p).hold = some x := by rw [owners, hx]
  obtain ⟨hd, hbn, hv⟩ := (hI.buf i).hold p x hown
  have hdrop : c.bs.drop c.unpinned = c.bs[c.unpinned] :: c.bs.drop (c.unpinned + 1) :=
    List.drop_eq_getElem_cons hk'
  have hnot : c.bs[c.unpinned] ∉ c.bs.drop (c.unpinned + 1) := by
    have hnd := hI.log.nodup.sublist (List.drop_sublist c.unpinned c.bs)
    rw [hdrop] at hnd
    exact (List.nodup_cons.1 hnd).1
  have hpin : pin c (g.buf i) = 1 := by
    rw [pin, if_pos ⟨hd, by rw [hbn, hb, hdrop]; exact List.mem_cons_self ..⟩]
  have hdata := data_eq hI (by rw [hx]) hf hm
  obtain rfl := bunpin_done h
  refine hold_inv hI hx rfl (fun j hj => modBuf_of_ne _ _ hj) (by simp) (by simp)
    (by simp) ?_ ?_ ?_ ?_
    (fun _ _ => rfl) (fun _ => by simpa using hv hf)
    { hI.disk with }
  · refine progress_log hI.log hp rfl ?_ rfl hk
    exact hI.log.lh
  · have := hI.tr
    refine ⟨this.new, op_update this ?_ fun _ _ => rfl, com_update this ?_ fun _ _ => rfl, this.tx,
      this.heads, this.inst, this.unsealed, this.uninst, this.dur, this.ok⟩
    · have := this.op p
      rw [show roles Λ p = .commit c from hp] at this
      simpa using this
    · have := this.com p
      rw [show roles Λ p = .commit c from hp] at this
      simpa using this
  · rw [modBuf_self]
    refine (hI.buf i).hold_step hx rfl rfl rfl rfl ?_ (fun _ => hv hf) ?_ fun _ _ => ?_
    · have hpin' : pin { c with unpinned := c.unpinned + 1 }
          { g.buf i with refcnt := (g.buf i).refcnt - 1 } = 0 := by
        refine if_neg fun hc => hnot ?_
        rw [← hb, ← hbn]
        exact hc.2
      have hcount := (hI.buf i).count
      have hpred := toNat_pred (n := (g.buf i).refcnt) (by omega)
      simp only [hpin, hpin', hpred]
      omega
    · intro d hd'
      rw [hm] at hd'
      cases hd'
    · rw [hbn]
      exact hdata
  · intro y hy
    rw [hb] at hy
    rw [hdrop, List.mem_cons]
    exact ⟨.inr, fun h => h.resolve_left hy⟩

theorem setLh_inv (h : kern.exec p (.setLh []) g = .done u g') :
    Inv start may d₀ { c with emptied := true } g'
      (update Λ p ⟨(Λ p).own, .commit { c with emptied := true }⟩) := by
  obtain ⟨-, rfl⟩ := setLh_done h
  have htr := hI.tr
  refine role_inv hI rfl rfl rfl (progress_log hI.log hp rfl rfl rfl hI.log.unpin) ?_ rfl rfl
    { hI.disk with }
  refine ⟨htr.new, op_update htr ?_ fun _ _ => rfl, com_update htr ?_ fun _ _ => rfl, htr.tx,
    htr.heads, htr.inst, htr.unsealed, htr.uninst, htr.dur, htr.ok⟩
  · have := htr.op p
    rw [show roles Λ p = .commit c from hp] at this
    simpa using this
  · have := htr.com p
    rw [show roles Λ p = .commit c from hp] at this
    simpa using this

/-- While one process commits, the others are idle; when it has done so, all are. -/
theorem idle_of_commit (q : Proc) :
    update (roles Λ) p .idle q = .idle := by
  by_cases he : q = p
  · rw [he, update_self]
  · rw [update_of_ne he]
    by_contra hne
    exact he (hI.log.alone p q c hp hne)

theorem endCommit_log (hlh : c.emptied = true ∨ c.bs = []) :
    LogOk start may ⟨[], c.new, 0, 0, 0, 0, false⟩ { g.log with committing := false }
      (update (roles Λ) p .idle) := by
  have hlog := hI.log
  have hall := idle_of_commit hI hp
  have hnone {q : Proc} {r : Role} (hq : update (roles Λ) p .idle q = r) : r = .idle :=
    hq.symm.trans (hall q)
  refine ⟨hlog.area, hlog.size, hlog.dev, ?_, List.nodup_nil, (fun _ hb => by cases hb),
    Nat.zero_le _, ?_, ?_, ?_, ?_, fun _ => ⟨rfl, rfl, rfl, rfl, rfl⟩, fun _ _ => rfl,
    Nat.le_refl 0, ?_, ?_⟩
  · have := hlog.lh
    rcases hlh with he | hbs
    · rw [he] at this
      exact this
    · rw [hbs] at this
      simpa using this
  · have hops := sum_update Role.ops (roles Λ) p .idle
    rw [show roles Λ p = .commit c from hp] at hops
    have h0 : Role.ops (.commit c) = 0 := rfl
    have h0' : Role.ops .idle = 0 := rfl
    have := hlog.count
    dsimp only
    omega
  · refine ⟨(fun hc => by cases hc), ?_⟩
    rintro ⟨q, c', hq⟩
    cases hnone hq
  · exact fun q c' hq => by cases hnone hq
  · exact fun q r c' hq => by cases hnone hq
  · exact fun q L hq => by cases hnone hq
  · intro _
    have hz : ∑ q, (update (roles Λ) p .idle q).spare = 0 :=
      Finset.sum_eq_zero fun q _ => by rw [hall q]; rfl
    rw [hz]
    exact Nat.zero_le _

theorem endCommit_trace (hw : c.bs.length ≤ c.written)
    (hseal : c.heads = 0 → c.bs = []) :
    TraceOk start d₀ ⟨[], c.new, 0, 0, 0, 0, false⟩ (.committed p :: g.trace)
      (update (roles Λ) p .idle) := by
  have htr := hI.tr
  have hnoop : ∀ q, opOpen q g.trace = false := by
    intro q
    by_contra hne
    obtain ⟨L, hq⟩ := (htr.op q).1 (by simpa using hne)
    have hqp : q = p := hI.log.alone p q c hp (by rw [hq]; exact nofun)
    rw [hqp, show roles Λ p = .commit c from hp] at hq
    cases hq
  refine ⟨htr.new, op_update htr ?_ fun _ _ => rfl, com_update htr ?_ ?_, ?_, rfl, ?_,
    ?_, ?_, fun h0 => absurd rfl h0, fitting_cons htr.ok ⟨(htr.com p).2 ⟨c, hp⟩, hnoop, ?_⟩⟩
  · simpa [opOpen] using hnoop p
  · simp [inCommit]
  · intro q hq
    simp [inCommit, Ne.symm hq]
  · intro y
    simp [transaction]
  · intro y
    simp [installed]
  · intro y hy
    obtain ⟨hin, h0⟩ := htr.unsealed y hy
    rw [hseal h0] at hin
    exact absurd hin List.not_mem_nil
  · intro y hy
    have := htr.uninst y hy
    rw [List.drop_eq_nil_of_le hw] at this
    exact absurd this List.not_mem_nil
  · intro y
    rw [htr.inst y, htr.tx y, List.take_of_length_le hw]

omit hp in
theorem endCommit_disk (hheads : c.heads ≠ 1) (hw : c.bs.length ≤ c.written) :
    DiskOk start d₀ ⟨[], c.new, 0, 0, 0, 0, false⟩ g.disk (.committed p :: g.trace) := by
  have hdisk := hI.disk
  have hhome (y : UInt32) (hy : ¬ InLog start LOGSIZE y) : g.disk y = c.new y :=
    hdisk.home y hy (by rw [List.drop_eq_nil_of_le hw]; exact List.not_mem_nil)
  refine ⟨fun y hy _ => hhome y hy, ?_, fun _ hj => absurd hj (Nat.not_lt_zero _), ?_,
    fun h1 => absurd rfl h1, (fun h2 => by cases h2), Nat.zero_le 2⟩
  · intro _ y hy
    by_cases h0 : c.heads = 0
    · exact hdisk.old h0 y hy
    · rw [hhome y hy]
      exact (congrFun (hI.tr.dur h0) y).symm
  · have := hdisk.head
    rw [if_neg hheads] at this
    rw [this]
    rfl

theorem endCommit_inv (hlh : c.emptied = true ∨ c.bs = [])
    (hheads : c.heads ≠ 1) (hw : c.bs.length ≤ c.written) (hu : c.bs.length ≤ c.unpinned)
    (hseal : c.heads = 0 → c.bs = []) (h : kern.exec p .endCommit g = .done u g') :
    Inv start may d₀ ⟨[], c.new, 0, 0, 0, 0, false⟩ g'
      (update Λ p ⟨(Λ p).own, .idle⟩) := by
  obtain rfl := endCommit_done h
  have htrace := endCommit_trace hI hp hw hseal
  have hdisk := endCommit_disk (p := p) hI hheads hw
  refine role_inv hI rfl rfl rfl (endCommit_log hI hp hlh) htrace ?_ rfl hdisk
  rw [List.drop_eq_nil_of_le hu]
  rfl

end

end Xv6.LogCommitSteps
