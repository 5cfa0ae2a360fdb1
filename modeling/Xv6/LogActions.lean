import Xv6.LogCode

set_option autoImplicit false

namespace Xv6.LogActions
open Resumption LogCode

variable {p : Proc} {g g' : Kern}
variable {dev b : UInt32} {i : BufId} {msg : String} {u : Unit}

theorem lookup_some (h : lookup g dev b = some i) :
    (g.buf i).dev = dev ∧ (g.buf i).blockno = b := by
  simpa using List.find?_some h

theorem lookup_none (h : lookup g dev b = none) (i : BufId) (hi : i ∈ g.lru) :
    ¬ ((g.buf i).dev = dev ∧ (g.buf i).blockno = b) := by
  have := List.find?_eq_none.1 h i hi
  simpa using this

theorem victim_some (h : victim g = some i) : (g.buf i).refcnt = 0 := by
  simpa using List.find?_some h

theorem victim_none (h : victim g = none) (i : BufId) (hi : i ∈ g.lru) : (g.buf i).refcnt ≠ 0 := by
  have := List.find?_eq_none.1 h i (List.mem_reverse.2 hi)
  simpa using this

theorem bget_cases (h : kern.exec p (.bget dev b) g = .done i g') :
    (lookup g dev b = some i ∧ g' = g.modBuf i fun f => { f with refcnt := f.refcnt + 1 }) ∨
    (lookup g dev b = none ∧ victim g = some i ∧ g' = g.modBuf i fun f =>
      { f with dev := dev, blockno := b, valid := false, refcnt := 1 }) := by
  simp only [kern, exec] at h
  cases hl : lookup g dev b with
  | some j =>
    simp only [hl, Outcome.done.injEq] at h
    obtain ⟨rfl, rfl⟩ := h
    exact .inl ⟨rfl, rfl⟩
  | none =>
    cases hv : victim g with
    | none => simp [hl, hv] at h
    | some j =>
      simp only [hl, hv, Outcome.done.injEq] at h
      obtain ⟨rfl, rfl⟩ := h
      exact .inr ⟨rfl, rfl, rfl⟩

theorem bget_panic (h : kern.exec p (.bget dev b) g = .panic msg) : msg = "bget: no buffers" := by
  simp only [kern, exec] at h
  split at h
  · cases h
  · split at h
    · cases h
    · simp only [Outcome.panic.injEq] at h
      exact h.symm

theorem acquiresleep_done (h : kern.exec p (.acquiresleep i) g = .done u g') :
    (g.buf i).lock = none ∧ g' = g.modBuf i fun f => { f with lock := some p } := by
  simp only [kern, exec] at h
  cases hl : (g.buf i).lock with
  | none =>
    simp only [hl, Outcome.done.injEq] at h
    exact ⟨rfl, h.2.symm⟩
  | some q => simp [hl] at h

theorem fill_cases (h : kern.exec p (.fill i) g = .done u g') :
    ((g.buf i).valid = true ∧ g' = g) ∨
    ((g.buf i).valid = false ∧
      g' = g.modBuf i fun f => { f with valid := true, data := g.disk f.blockno }) := by
  simp only [kern, exec] at h
  cases hv : (g.buf i).valid with
  | true =>
    simp only [hv, ↓reduceIte, Outcome.done.injEq] at h
    exact .inl ⟨rfl, h.2.symm⟩
  | false =>
    simp only [hv, Bool.false_eq_true, ↓reduceIte, Outcome.done.injEq] at h
    exact .inr ⟨rfl, h.2.symm⟩

theorem getData_done {d : Block} (h : kern.exec p (.getData i) g = .done d g') :
    d = (g.buf i).data ∧ g' = g := by
  simp only [kern, exec, Outcome.done.injEq] at h
  exact ⟨h.1.symm, h.2.symm⟩

theorem setData_done {d : Block} (h : kern.exec p (.setData i d) g = .done u g') :
    g' = g.modBuf i fun f => { f with data := d } := by
  simp only [kern, exec, Outcome.done.injEq] at h
  exact h.2.symm

theorem bwrite_done (h : kern.exec p (.bwrite i) g = .done u g') :
    (g.buf i).lock = some p ∧
      g' = { g with disk := Function.update g.disk (g.buf i).blockno (g.buf i).data }.note
        (.wrote (g.buf i).blockno (g.buf i).data) := by
  simp only [kern, exec] at h
  split at h
  · simp only [Outcome.done.injEq] at h
    exact ⟨‹_›, h.2.symm⟩
  · cases h

theorem bwrite_panic (h : kern.exec p (.bwrite i) g = .panic msg) : (g.buf i).lock ≠ some p := by
  simp only [kern, exec] at h
  split at h
  · cases h
  · assumption

theorem unlock_panic (h : kern.exec p (.unlock i) g = .panic msg) : (g.buf i).lock ≠ some p := by
  simp only [kern, exec] at h
  split at h
  · cases h
  · assumption

theorem unlock_done (h : kern.exec p (.unlock i) g = .done u g') :
    (g.buf i).lock = some p ∧ g' = g.modBuf i fun f => { f with lock := none } := by
  simp only [kern, exec] at h
  split at h
  · simp only [Outcome.done.injEq] at h
    exact ⟨‹_›, h.2.symm⟩
  · cases h

def unrefLru (g : Kern) (i : BufId) : List BufId :=
  if (g.buf i).refcnt - 1 = 0 then i :: g.lru.erase i else g.lru

theorem unref_done (h : kern.exec p (.unref i) g = .done u g') :
    g' = { g.modBuf i fun f => { f with refcnt := f.refcnt - 1 } with lru := unrefLru g i } := by
  simp only [kern, exec, modBuf_self] at h
  split at h
  · simp only [Outcome.done.injEq] at h
    rw [← h.2, unrefLru, if_pos ‹_›]
  · simp only [Outcome.done.injEq] at h
    rw [← h.2, unrefLru, if_neg ‹_›]
    rfl

theorem mem_unrefLru (g : Kern) (i j : BufId) (h : j ∈ g.lru) : j ∈ unrefLru g i := by
  unfold unrefLru
  split
  · by_cases hj : j = i
    · simp [hj]
    · exact List.mem_cons_of_mem _ ((List.mem_erase_of_ne hj).2 h)
  · exact h

theorem bunpin_done (h : kern.exec p (.bunpin i) g = .done u g') :
    g' = g.modBuf i fun f => { f with refcnt := f.refcnt - 1 } := by
  simp only [kern, exec, Outcome.done.injEq] at h
  exact h.2.symm

theorem getLog_done {l : Log} (h : kern.exec p .getLog g = .done l g') : l = g.log ∧ g' = g := by
  simp only [kern, exec, Outcome.done.injEq] at h
  exact ⟨h.1.symm, h.2.symm⟩

theorem setLog_done {start : UInt32} {size : ℤ}
    (h : kern.exec p (.setLog dev start size) g = .done u g') :
    g' = g.modLog fun l => { l with start := start, size := size, dev := dev } := by
  simp only [kern, exec, Outcome.done.injEq] at h
  exact h.2.symm

theorem setLh_done {lh : List UInt32} (h : kern.exec p (.setLh lh) g = .done u g') :
    lh.length ≤ LOGSIZE ∧ g' = g.modLog fun l => { l with lh := lh } := by
  simp only [kern, exec] at h
  split at h
  · simp only [Outcome.done.injEq] at h
    exact ⟨‹_›, h.2.symm⟩
  · cases h

theorem enter_done (h : kern.exec p .enter g = .done u g') :
    g.log.committing = false ∧
      (g.log.lh.length : ℤ) + (g.log.outstanding + 1) * MAXOPBLOCKS ≤ LOGSIZE ∧
      g' = (g.modLog fun l => { l with outstanding := l.outstanding + 1 }).note (.began p) := by
  simp only [kern, exec] at h
  split at h
  · cases h
  · split at h
    · cases h
    · simp only [Outcome.done.injEq] at h
      exact ⟨by simpa using ‹¬ g.log.committing = true›, not_lt.1 ‹_›, h.2.symm⟩

theorem checkRoom_done (h : kern.exec p .checkRoom g = .done u g') : g' = g := by
  simp only [kern, exec] at h
  split at h
  · cases h
  · simp only [Outcome.done.injEq] at h
    exact h.2.symm

theorem checkRoom_panic (h : kern.exec p .checkRoom g = .panic msg) :
    msg = "too big a transaction" ∧
      (g.log.lh.length ≥ LOGSIZE ∨ (g.log.lh.length : ℤ) ≥ g.log.size - 1) := by
  simp only [kern, exec] at h
  split at h
  · simp only [Outcome.panic.injEq] at h
    exact ⟨h.symm, ‹_›⟩
  · cases h

theorem checkTrans_done (h : kern.exec p .checkTrans g = .done u g') : g' = g := by
  simp only [kern, exec] at h
  split at h
  · cases h
  · simp only [Outcome.done.injEq] at h
    exact h.2.symm

theorem checkTrans_panic (h : kern.exec p .checkTrans g = .panic msg) : g.log.outstanding < 1 := by
  simp only [kern, exec] at h
  split at h
  · assumption
  · cases h

theorem logBlock_cases (h : kern.exec p (.logBlock i) g = .done u g') :
    ((g.buf i).blockno ∈ g.log.lh ∧
      g' = g.note (.logged p (g.buf i).blockno (g.buf i).data)) ∨
    ((g.buf i).blockno ∉ g.log.lh ∧ g.log.lh.length < LOGSIZE ∧
      g' = ((g.modBuf i fun f => { f with refcnt := f.refcnt + 1 }).modLog
        fun l => { l with lh := l.lh ++ [(g.buf i).blockno] }).note
          (.logged p (g.buf i).blockno (g.buf i).data)) := by
  simp only [kern, exec] at h
  split at h
  · simp only [Outcome.done.injEq] at h
    exact .inl ⟨‹_›, h.2.symm⟩
  · split at h
    · simp only [Outcome.done.injEq] at h
      exact .inr ⟨‹_›, ‹_›, h.2.symm⟩
    · cases h

theorem endCs_cases {a : Bool} (h : kern.exec p .endCs g = .done a g') :
    g.log.committing = false ∧
    ((g.log.outstanding = 1 ∧ a = true ∧ g' = ((g.modLog fun l =>
        { l with outstanding := l.outstanding - 1, committing := true }).note (.ended p)).note
          (.commits p)) ∨
      (g.log.outstanding ≠ 1 ∧ a = false ∧
        g' = (g.modLog fun l => { l with outstanding := l.outstanding - 1 }).note (.ended p))) := by
  simp only [kern, exec] at h
  split at h
  · cases h
  · refine ⟨by simpa using ‹¬ g.log.committing = true›, ?_⟩
    split at h
    · simp only [Outcome.done.injEq] at h
      exact .inl ⟨by omega, h.1.symm, h.2.symm⟩
    · simp only [Outcome.done.injEq] at h
      exact .inr ⟨by omega, h.1.symm, h.2.symm⟩

theorem endCs_panic (h : kern.exec p .endCs g = .panic msg) : g.log.committing = true := by
  simp only [kern, exec] at h
  split at h
  · assumption
  · split at h <;> cases h

theorem endCommit_done (h : kern.exec p .endCommit g = .done u g') :
    g' = (g.modLog fun l => { l with committing := false }).note (.committed p) := by
  simp only [kern, exec, Outcome.done.injEq] at h
  exact h.2.symm

end Xv6.LogActions
