import Xv6.GroupCommit
import Xv6.LogCommit

set_option autoImplicit false

namespace Xv6.CacheRefinement
open Resumption CrashLogic Interleaving RedoLog LogCode LogHeader LogSystem LogInvariant
  LogBuffers LogPrograms SequentialCache LogRecovery BootRecovery LogCommit GroupCommit

variable {start : UInt32} {may : List UInt32 → Prop} {g : Kern} {s : Sys Proc Act Loc Kern}
variable {c : Progress} {Λ : Proc → Ghost}

theorem holder_sees_latest {p : Proc} {l : Loc} {i : BufId} {h : Holding}
    (hI : Inv start may g.disk c s.g Λ) (hrest : Rest start l (Λ p)) (held : l.held i = some h) :
    IsBuf s.g i ROOTDEV h.block ∧
      (h.dirty = false → (s.g.buf i).data = latest g.disk s.g.trace h.block) := by
  obtain ⟨home, m, hown, hm⟩ := hrest.held i h held
  obtain ⟨hd, hb, hv⟩ := (hI.buf i).hold p _ hown
  refine ⟨⟨hd, hb, hv rfl⟩, fun hclean => ?_⟩
  rw [data_eq hI hown rfl (hm hclean), want, if_neg home, hI.tr.new]

theorem uninstalled_resident (hI : Inv start may g.disk c s.g Λ) {b : UInt32}
    (hb : b ∈ uninstalled s.g.trace) :
    ∃ i, IsBuf s.g i ROOTDEV b ∧ (s.g.buf i).refcnt ≠ 0 := by
  have hpin : b ∈ c.bs.drop c.unpinned :=
    (List.drop_sublist_drop_left c.bs hI.log.unpin).subset (hI.tr.uninst b hb)
  obtain ⟨i, hd, rfl, hv⟩ := hI.resident b hpin
  refine ⟨i, ⟨hd, rfl, hv⟩, fun h0 => ?_⟩
  have hcount := (hI.buf i).count
  rw [h0, pin, if_pos ⟨hd, hpin⟩] at hcount
  have hz : (0 : UInt32).toNat = 0 := rfl
  omega

/-- A process that holds an unchanged buffer finds in it the contents last logged; a logged block
    stays in the cache until it is installed, and is not installed before the header that commits
    it. -/
theorem cache_refines_map (start : UInt32) (may : List UInt32 → Prop) (g : Kern)
    (s : Sys Proc Act Loc Kern) (quiet : Quiet start g)
    (reach : Reach (logSetting start may) always (launch g) s) :
    (∀ p l i h, s.thr p = .ret l → l.held i = some h → IsBuf s.g i ROOTDEV h.block ∧
      (h.dirty = false → (s.g.buf i).data = latest g.disk s.g.trace h.block)) ∧
    (∀ b ∈ uninstalled s.g.trace, ∃ i, IsBuf s.g i ROOTDEV b ∧ (s.g.buf i).refcnt ≠ 0) ∧
    (∀ b d tr, (.wrote b d :: tr) <:+ s.g.trace → ¬ InLog start LOGSIZE b →
      b ∉ unsealed start tr) := by
  obtain ⟨Λ, ⟨c, hI⟩, hvalid⟩ := invariant quiet reach
  refine ⟨?_, fun b hb => uninstalled_resident hI hb, ?_⟩
  · intro p l i h hl held
    have hrest := hvalid p
    rw [hl] at hrest
    exact holder_sees_latest hI hrest held
  · exact fun b d tr hs home => (hI.tr.ok _ tr hs).2 home

section Reread

variable (p q : Proc) (i j : BufId)

def reader : Loc := { Loc.idle with held := Function.update (fun _ => none) i (some ⟨45, false⟩) }

/-- After the commit `p` reads block 45 and keeps it. Then `q` logs block 46 once more, and `p`
    reads that too. -/
def rereads : List (Move (logSetting 2 fun _ => True)) :=
  commitsBoth p q i j ++
    [.start p .idle _ (.bread 45 home_45), .acts p 3] ++ logs q j 46 (fun _ => 9) home_46 ++
    [.start p (reader i) _ (.bread 46 home_46), .acts p 3]

def reread : Proc → Loc :=
  Function.update (Function.update (fun _ => Loc.idle) q (inside [46])) p
    { reader i with held := Function.update (reader i).held j (some ⟨46, false⟩) }

end Reread

theorem reach_rereads :
    let g := fresh 2 fun _ _ => 0
    ∃ s, Reach (logSetting 2 fun _ => True) always (launch g) s ∧
      (∀ p, s.thr p = .ret (reread 0 1 0 1 p)) ∧ s.g.log.lh = [46] ∧
      (s.g.buf 0).blockno = 45 ∧ (s.g.buf 1).dev = ROOTDEV ∧ (s.g.buf 1).blockno = 46 ∧
      latest g.disk s.g.trace 45 = (fun _ => 7) ∧ latest g.disk s.g.trace 46 = (fun _ => 9) ∧
      46 ∈ uninstalled s.g.trace := by
  intro g
  obtain ⟨s, reach, hs⟩ := exists_of_freely (rereads 0 1 0 1) (launch g)
    (fun s => decide ((∀ p, answer (s.thr p) = some (reread 0 1 0 1 p)) ∧ s.g.log.lh = [46] ∧
      (s.g.buf 0).blockno = 45 ∧ (s.g.buf 1).dev = ROOTDEV ∧ (s.g.buf 1).blockno = 46 ∧
      latest (fun _ _ => 0) s.g.trace 45 = (fun _ => 7) ∧
      latest (fun _ _ => 0) s.g.trace 46 = (fun _ => 9) ∧ 46 ∈ uninstalled s.g.trace))
    (by decide +kernel)
  obtain ⟨hloc, rest⟩ := of_decide_eq_true hs
  exact ⟨s, reach, fun p => eq_ret_of_answer (hloc p), rest⟩

theorem cache_refines_map_reread :
    ∃ s l, Reach (logSetting 2 fun _ => True) always (launch (fresh 2 fun _ _ => 0)) s ∧
      s.thr 0 = .ret l ∧ l.held 0 = some ⟨45, false⟩ ∧ l.held 1 = some ⟨46, false⟩ ∧
      ((s.g.buf 0).data = fun _ => 7) ∧ ((s.g.buf 1).data = fun _ => 9) ∧
      46 ∈ uninstalled s.g.trace ∧ ∃ i, IsBuf s.g i ROOTDEV 46 ∧ (s.g.buf i).refcnt ≠ 0 := by
  obtain ⟨s, reach, hloc, -, -, -, -, h7, h9, hun⟩ := reach_rereads
  obtain ⟨hheld, hkept, -⟩ := cache_refines_map 2 (fun _ => True) _ s
    (quiet_fresh (headList_of_zero rfl)) reach
  refine ⟨s, _, reach, hloc 0, rfl, rfl, ?_, ?_, hun, hkept 46 hun⟩
  · rw [(hheld 0 _ 0 ⟨45, false⟩ (hloc 0) rfl).2 rfl, h7]
  · rw [(hheld 0 _ 1 ⟨46, false⟩ (hloc 0) rfl).2 rfl, h9]

theorem recoverable {d0 : UInt32 → Block} (hI : Inv start may d0 c g Λ) :
    Recoverable start (durable start d0 g.trace) g.disk := by
  have hhead := hI.disk.head
  by_cases h1 : c.heads = 1
  · rw [if_pos h1] at hhead
    obtain ⟨hfilled, hlen⟩ := hI.disk.sealed (by omega)
    refine ⟨?_, ?_⟩
    · rw [hhead]
      exact ⟨hI.log.nodup, hlen, hI.log.home⟩
    · intro b home
      rw [hhead, replay_filled (c := c.new) fun j hj => hI.disk.filled j hj (by omega), override,
        hI.tr.dur (by omega)]
      split_ifs with hb
      · rfl
      · exact hI.disk.home b home fun hm => hb (List.mem_of_mem_drop hm)
  · rw [if_neg h1] at hhead
    refine ⟨by rw [hhead]; exact headOk_nil, fun b home => ?_⟩
    rw [hhead, replay_nil]
    by_cases h0 : c.heads = 0
    · exact hI.disk.old h0 b home
    have h2 : c.heads = 2 := by
      have := hI.disk.bound
      omega
    rw [hI.tr.dur h0]
    refine hI.disk.home b home fun hm => ?_
    rw [List.drop_eq_nil_of_le (hI.disk.cleared h2)] at hm
    exact List.not_mem_nil hm

/-- After a crash in any reachable state, and in any recoveries, the next recovery finishes and
    leaves, outside the log, the contents as of the last header written. -/
theorem crash_keeps_durable (quiet : Quiet start g)
    (reach : Reach (logSetting start may) always (launch g) s) (p : Proc) {d : UInt32 → Block}
    (restarts : Relation.ReflTransGen (Crashed kern p boot Kern.disk (recovery start))
      s.g.disk d) :
    (∃ d', Recovered kern p boot Kern.disk (recovery start) d d') ∧
      ∀ d', Recovered kern p boot Kern.disk (recovery start) d d' →
        Clean start (durable start g.disk s.g.trace) d' := by
  obtain ⟨Λ, ⟨c, hI⟩, -⟩ := invariant quiet reach
  exact recovered_clean (recoverable hI) restarts

/-- The commit of block 45 stops when its header is written, and the recovery when the block is
    at its home location. -/
theorem crash_keeps_durable_stopped :
    ∃ s d d', Reach (logSetting 2 fun _ => True) always (launch (fresh 2 fun _ _ => 0)) s ∧
      (s.g.disk 45 = fun _ => 0) ∧ Crashed kern 0 boot Kern.disk (recovery 2) s.g.disk d ∧
      headList (d 2) = [45] ∧ Recovered kern 0 boot Kern.disk (recovery 2) d d' ∧
      headList (d' 2) = [] ∧ d' 45 = fun _ => 7 := by
  obtain ⟨s, reach, hs⟩ := exists_of_freely
    (logs 0 0 45 (fun _ => 7) home_45 ++ ends 0 45 27)
    (launch (fresh 2 fun _ _ => 0))
    (fun s => decide (s.g.disk 45 = (fun _ => 0) ∧
      durable 2 (fun _ _ => 0) s.g.trace 45 = fun _ => 7) &&
      (advance kern freely 0 19 (recovery 2) (boot s.g.disk)).any
        fun x : Prog Act Unit × Kern => headList (x.2.disk 2) == [45]) (by decide +kernel)
  rw [Bool.and_eq_true, decide_eq_true_eq] at hs
  obtain ⟨⟨hold, hdur⟩, hstop⟩ := hs
  obtain ⟨q, g1, steps, hg1⟩ := exists_of_advance 0 19 (recovery 2) (boot s.g.disk)
    (fun g1 => headList (g1.disk 2) == [45]) hstop
  have crash : Crashed kern 0 boot Kern.disk (recovery 2) s.g.disk g1.disk := ⟨q, g1, steps, rfl⟩
  obtain ⟨⟨d', hd'⟩, hall⟩ := crash_keeps_durable (quiet_fresh (headList_of_zero rfl)) reach 0
    (.single crash)
  have hclean := hall d' hd'
  exact ⟨s, _, d', reach, hold, crash, beq_iff_eq.1 hg1, hd', headList_of_zero hclean.empty,
    (hclean.contents 45 home_45).trans hdur⟩

/-- While no process is in a call, the count of a buffer is the number of processes that hold it,
    and one more if its block is logged. -/
theorem counts_exact (quiet : Quiet start g)
    (reach : Reach (logSetting start may) always (launch g) s) {loc : Proc → Loc}
    (hloc : ∀ p, s.thr p = .ret (loc p)) (i : BufId) :
    (∀ p, (s.g.buf i).lock = some p ↔ ((loc p).held i).isSome) ∧
    (s.g.buf i).refcnt.toNat = (Finset.univ.filter fun p => ((loc p).held i).isSome).card +
      (if (s.g.buf i).dev = ROOTDEV ∧ (s.g.buf i).blockno ∈ s.g.log.lh then 1 else 0) ∧
    ∀ j, (s.g.buf i).dev = ROOTDEV → (s.g.buf j).dev = ROOTDEV →
      (s.g.buf i).blockno = (s.g.buf j).blockno → i = j := by
  obtain ⟨Λ, ⟨c, hI⟩, hvalid⟩ := invariant quiet reach
  have hrest : ∀ p, Rest start (loc p) (Λ p) := by
    intro p
    have hp := hvalid p
    rw [hloc p] at hp
    exact hp
  have hholds : ∀ p, (owners Λ i p).hold.isSome = ((loc p).held i).isSome := by
    intro p
    cases hh : (loc p).held i with
    | none => simp only [owners, (hrest p).free i hh, Option.isSome_none]
    | some h =>
      obtain ⟨-, m, hm, -⟩ := (hrest p).held i h hh
      simp only [owners, hm, Option.isSome_some]
  have hidle : s.g.log.committing = false := by
    refine Bool.eq_false_iff.2 fun hcom => ?_
    obtain ⟨p, c', hp⟩ := hI.log.busy.1 hcom
    have hrole := (hrest p).role
    rw [show (Λ p).role = _ from hp] at hrole
    split_ifs at hrole
  have hrefs : ∀ p, (owners Λ i p).refs = if ((loc p).held i).isSome then 1 else 0 := by
    intro p
    have hloose : (owners Λ i p).loose = none := (hrest p).loose i
    rw [Own.refs, hholds, hloose]
    rfl
  obtain ⟨-, -, -, hunpinned, hemptied⟩ := hI.log.zero hidle
  have hlh : s.g.log.lh = c.bs.drop c.unpinned := by
    rw [hI.log.lh, hemptied, hunpinned]
    rfl
  refine ⟨fun p => ?_, ?_, fun j => hI.uniq i j⟩
  · rw [(hI.buf i).lock, hholds]
  · rw [(hI.buf i).count, pin, hlh, Finset.card_filter, Finset.sum_congr rfl fun p _ => hrefs p]

theorem counts_exact_reread :
    ∃ s, Reach (logSetting 2 fun _ => True) always (launch (fresh 2 fun _ _ => 0)) s ∧
      s.g.log.lh = [46] ∧ (s.g.buf 0).blockno = 45 ∧ (s.g.buf 0).lock = some 0 ∧
      (s.g.buf 0).refcnt.toNat = 1 ∧ (s.g.buf 1).blockno = 46 ∧ (s.g.buf 1).lock = some 0 ∧
      (s.g.buf 1).refcnt.toNat = 2 := by
  obtain ⟨s, reach, hloc, hlh, h45, hdev, h46, -⟩ := reach_rereads
  have hcount := counts_exact (quiet_fresh (headList_of_zero rfl)) reach hloc
  refine ⟨s, reach, hlh, h45, ((hcount 0).1 0).2 rfl, ?_, h46, ((hcount 1).1 0).2 rfl, ?_⟩
  · rw [(hcount 0).2.1, hlh, h45, if_neg fun h => absurd h.2 (by decide)]
    decide
  · rw [(hcount 1).2.1, hlh, h46, if_pos ⟨hdev, List.mem_singleton_self 46⟩]
    decide

theorem initlog_quiet (p : Proc) {d : UInt32 → Block} (h : headList (d start) = []) :
    ∃ g', run kern p (initlog ROOTDEV start LOGSIZE) (boot d) = .done () g' ∧
      Quiet start { g' with trace := [] } := by
  have hok : HeadOk start (headList (d start)) := h ▸ headOk_nil
  have hrec : Recoverable start d d := ⟨hok, fun b _ => by rw [h, replay_nil]⟩
  obtain ⟨u, g', hrun, hc⟩ := total_iff_run.1 (initlog_total p hok)
  have hb := (initlog_safe p hrec).returned hrun
  obtain ⟨V, X, hcached⟩ := hb.cached
  refine ⟨g', hrun, hc.lru, hc.uniq, fun i => ⟨?_, ?_⟩, ?_, hb.log, hb.head, rfl⟩
  · rw [hc.count i, h]
    exact ite_id 0
  · rw [hc.lock i]
    exact ite_id none
  · intro i hd hv
    rw [hcached.data i hd hv]
    exact (hcached.clean fun hf => hf).symm

end Xv6.CacheRefinement
