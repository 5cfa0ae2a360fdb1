import Xv6.BootRecovery
import Xv6.Scripts

set_option autoImplicit false

namespace Xv6.LogCommit
open Resumption CrashLogic Interleaving ByteFields RedoLog
open LogCode LogHeader LogActions SequentialCache LogRecovery BootRecovery

/-- The state in which `commit` is called: the header on the disk is empty, and the
    blocks of the transaction are in the cache, pinned, with the contents `c`. -/
structure CommitReady (start : UInt32) (c : UInt32 → Block) (g : Kern) : Prop where
  dev : g.log.dev = ROOTDEV
  area : g.log.start = start
  head : HeadOk start g.log.lh
  empty : getU32 (g.disk start) 0 = 0
  lru : ∀ i, i ∈ g.lru
  uniq : ∀ i j, (g.buf i).dev = ROOTDEV → (g.buf j).dev = ROOTDEV →
    (g.buf i).blockno = (g.buf j).blockno → i = j
  counts : ∀ i, (g.buf i).dev = ROOTDEV → (g.buf i).refcnt.toNat < 2 ^ 31
  clean : ∀ i, (g.buf i).dev = ROOTDEV → (g.buf i).valid = true → (g.buf i).blockno ∉ g.log.lh →
    (g.buf i).data = g.disk (g.buf i).blockno
  pinned : ∀ b ∈ g.log.lh, ∃ i, IsBuf g i ROOTDEV b ∧ (g.buf i).data = c b ∧
    0 < (g.buf i).refcnt.toNat

variable {start : UInt32} {c : UInt32 → Block} {g : Kern} {p : Proc}

theorem CommitReady.cached (h : CommitReady start c g) :
    Cached ROOTDEV (override g.log.lh c g.disk) (· ∈ g.log.lh) (fun _ => False) noRefs g := by
  have here : ∀ i, (g.buf i).dev = ROOTDEV → (g.buf i).blockno ∈ g.log.lh →
      (g.buf i).data = c (g.buf i).blockno ∧ 0 < (g.buf i).refcnt.toNat := by
    intro i hd hm
    obtain ⟨j, hj, hdata, href⟩ := h.pinned _ hm
    rw [h.uniq i j hd hj.1 hj.2.1.symm]
    exact ⟨hj.2.1 ▸ hdata, href⟩
  refine ⟨h.lru, h.uniq, ?_, ?_, ?_, fun i hd hm => (here i hd hm).2, ?_⟩
  · intro i hd hv
    unfold override
    split_ifs with hm
    · exact (here i hd hm).1
    · exact h.clean i hd hv hm
  · intro b hne
    by_contra hm
    exact hne (if_neg hm).symm
  · intro i hd _
    have := h.counts i hd
    exact ⟨Nat.zero_le _, by simpa using this⟩
  · rintro b (hm | h0)
    · obtain ⟨i, hi, -⟩ := h.pinned b hm
      exact ⟨fun h => h, i, hi⟩
    · exact absurd h0 (Nat.lt_irrefl 0)

def HeaderWritten (start : UInt32) (tr tr' : List Event) : Prop :=
  ∃ es, tr' = es ++ tr ∧ ∃ v, .wrote start v ∈ es

theorem HeaderWritten.cons {tr tr' : List Event} (h : HeaderWritten start tr tr') (e : Event) :
    HeaderWritten start tr (e :: tr') := by
  obtain ⟨es, rfl, v, hv⟩ := h
  exact ⟨e :: es, rfl, v, List.mem_cons_of_mem e hv⟩

def Before (start : UInt32) (g : Kern) (d : UInt32 → Block) (tr : List Event) : Prop :=
  (∃ es, tr = es ++ g.trace ∧ ∀ v, .wrote start v ∉ es) ∧ Recoverable start g.disk d

def After (start : UInt32) (c : UInt32 → Block) (g : Kern) (d : UInt32 → Block)
    (tr : List Event) : Prop :=
  HeaderWritten start g.trace tr ∧ Recoverable start (override g.log.lh c g.disk) d

theorem Before.not_headerWritten {d : UInt32 → Block} {tr : List Event}
    (h : Before start g d tr) : ¬ HeaderWritten start g.trace tr := by
  obtain ⟨⟨es, rfl, hno⟩, -⟩ := h
  rintro ⟨es', he, v, hv⟩
  exact hno v (List.append_cancel_right he ▸ hv)

theorem Before.fill (hok : HeadOk start g.log.lh) (d : UInt32 → Block) (tr : List Event) (j : ℕ)
    (v : Block) (hj : j < g.log.lh.length) (hnil : headList (d start) = [])
    (h : Before start g d tr) :
    Before start g (Function.update d (slot start j) v) (.wrote (slot start j) v :: tr) := by
  have hfits := hok.fits
  obtain ⟨⟨es, rfl, hno⟩, hrec⟩ := h
  refine ⟨⟨.wrote (slot start j) v :: es, rfl, fun w hw => ?_⟩, hrec.fill hnil (by omega) v⟩
  rcases List.mem_cons.1 hw with he | hw
  · have heq : start = slot start j := (Event.wrote.inj he).1
    exact slot_ne_start (by omega) heq.symm
  · exact hno w hw

theorem After.install (d : UInt32 → Block) (tr : List Event) (j : ℕ) (hj : j < g.log.lh.length)
    (hbs : headList (d start) = g.log.lh) (h : After start c g d tr) :
    After start c g (Function.update d g.log.lh[j] (d (slot start j)))
      (.wrote g.log.lh[j] (d (slot start j)) :: tr) :=
  ⟨h.1.cons _, h.2.install hbs hj⟩

theorem install_safe {g0 : Kern} (hok : HeadOk start g0.log.lh) (hdev : g.log.dev = ROOTDEV)
    (hstart : g.log.start = start) (hlh : g.log.lh = g0.log.lh)
    (hhead : headList (g.disk start) = g0.log.lh) {V : UInt32 → Block}
    (hc : Cached ROOTDEV V (· ∈ g0.log.lh) (fun _ => False) noRefs g)
    (hK : After start c g0 g.disk g.trace) :
    CrashSafe kern p (fun g => After start c g0 g.disk g.trace)
      (installTrans >>= fun _ => Prog.perform (.setLh []) >>= fun _ => writeHead)
      (fun _ g' => Clean start (override g0.log.lh c g0.disk) g'.disk) g := by
  refine CrashSafe.bind ((installTransFrom_safe start g0.log.lh LOGSIZE 0
    (by have := hok.fits; omega) hok ⟨hc, hdev, hstart, hlh, hhead, fun b hb => hb,
    fun b hb => hb.elim, fun j hj h0 => absurd h0 (by omega)⟩ hK After.install).mono ?_)
  rintro u g1 hK1 ⟨⟨V', X, hc1, hX⟩, hinst, hhead1, hlog1⟩
  refine CrashSafe.act hK1 fun u g2 h2 => ?_
  obtain ⟨-, rfl⟩ := setLh_done h2
  have hc2 : Cached ROOTDEV V' (fun _ => False) X noRefs (g1.modLog fun l => { l with lh := [] }) :=
    { hc1 with }
  have hstart2 : (g1.modLog fun l => { l with lh := [] }).log.start = start := by
    rw [modLog_log, hlog1, hstart]
  have hclear := hK1.2.clear (by rw [hhead1]; exact hinst)
  refine (writeHead_safe hc2 (by rw [modLog_log, hlog1, hdev]) ?_ (fun h => h) hK1 ?_).mono ?_
  · rw [hstart2]
    exact fun hx => hok.start_notMem (hX _ hx)
  · rw [hstart2]
    exact ⟨hK1.1.cons _, (hclear _).1⟩
  · intro u g3 _ hw
    rw [hw.disk, hstart2]
    refine ⟨?_, (hclear _).2⟩
    rw [Function.update_self]
    exact getU32_putHead_zero [] _

theorem commit_safe (h : CommitReady start c g) :
    CrashSafe kern p
      (fun g' => Before start g g'.disk g'.trace ∨ After start c g g'.disk g'.trace) commit
      (fun _ g' => Clean start (override g.log.lh c g.disk) g'.disk) g := by
  have hnil := headList_of_zero h.empty
  have hK : Before start g g.disk g.trace := by
    refine ⟨⟨[], rfl, fun v => List.not_mem_nil⟩, ?_, ?_⟩
    · rw [hnil]
      exact headOk_nil
    · intro b _
      rw [hnil, replay_nil]
  refine CrashSafe.act (.inl hK) fun l g0 h₀ => ?_
  obtain ⟨hl, hg⟩ := getLog_done h₀
  rw [hl, hg]
  split_ifs with hlen
  · have hfits := h.head.fits
    -- write_log
    have hwrite : CrashSafe kern p (fun g' => Before start g g'.disk g'.trace) writeLog
        (fun _ g' => Before start g g'.disk g'.trace ∧
          Filled ROOTDEV start (override g.log.lh c g.disk) (· ∈ g.log.lh) (fun _ => False)
            g.log.lh g g') g :=
      (writeLogFrom_safe LOGSIZE 0 (by omega) h.cached h.dev h.area rfl h.head hnil
        (fun b hb => hb) hK (Before.fill h.head) fun j hj h0 => absurd h0 (by omega)).mono
        fun _ _ hK hf => ⟨hK, hf⟩
    refine CrashSafe.bind ((hwrite.weaken fun _ => .inl).mono ?_)
    rintro u g1 - ⟨hK1, ⟨V, hc1, hV⟩, hfill, hhead1, hlog1⟩
    have hstart1 : g1.log.start = start := by rw [hlog1, h.area]
    have hlh1 : g1.log.lh = g.log.lh := by rw [hlog1]
    -- the first write_head: the transaction takes effect
    have hcommit : After start c g
        (Function.update g1.disk start (putHead g.log.lh (g1.disk start)))
        (.wrote start (putHead g.log.lh (g1.disk start)) :: g1.trace) := by
      obtain ⟨⟨es, he, -⟩, hrec⟩ := hK1
      refine ⟨⟨_ :: es, by rw [he]; rfl, _, List.mem_cons_self ..⟩, ?_⟩
      refine hrec.commit hhead1 h.head (fun j hj => ?_) _
      rw [hfill j hj, override, if_pos (List.getElem_mem hj)]
    refine CrashSafe.bind ((writeHead_safe
      (K := fun d tr => Before start g d tr ∨ After start c g d tr) hc1
      (by rw [hlog1, h.dev]) (fun h => h) ?_ (.inl hK1) ?_).mono ?_)
    · rw [hstart1]
      exact h.head.start_notMem
    · rw [hstart1, hlh1]
      exact .inr hcommit
    intro u g2 _ hw
    have hdisk := hw.disk
    have htrace := hw.trace
    rw [hstart1, hlh1] at hdisk htrace
    refine CrashSafe.weaken (install_safe h.head (by rw [hw.log, hlog1, h.dev])
      (by rw [hw.log, hstart1]) (by rw [hw.log, hlh1]) ?_ hw.cached ?_) fun _ => .inr
    · rw [hdisk, Function.update_self, headList_putHead _ _ hfits.le]
    · rw [hdisk, htrace]
      exact hcommit
  · refine ⟨.inl hK, h.empty, fun b _ => ?_⟩
    rw [List.eq_nil_of_length_eq_zero (Nat.eq_zero_of_not_pos hlen)]
    rfl

/-- Nobody but the commit uses the cache: no buffer is locked, and each counts its pin. -/
def Unused (g : Kern) : Prop :=
  ∀ i, (g.buf i).lock = none ∧ (g.buf i).refcnt =
    if (g.buf i).dev = ROOTDEV ∧ (g.buf i).blockno ∈ g.log.lh then 1 else 0

theorem CommitReady.counted (h : CommitReady start c g) (unused : Unused g) :
    Counted ROOTDEV (BootRecovery.counts 1 g.log.lh 0) noLock g := by
  refine ⟨h.lru, h.uniq, fun i => ?_, fun i => ?_, fun b hb => ?_⟩
  · rw [(unused i).2, ite_and]
    rfl
  · rw [(unused i).1]
    exact (ite_id none).symm
  · have hm : b ∈ g.log.lh := by_contra fun hm => hb (counts_of_notMem hm)
    obtain ⟨i, hi, -⟩ := h.pinned b hm
    exact ⟨i, hi.1, hi.2.1⟩

theorem commit_total (h : CommitReady start c g) (unused : Unused g) :
    Total kern p commit (fun _ _ => True) g := by
  have hfits := h.head.fits
  have room : ∀ n, Room (counts 1 g.log.lh n) :=
    fun n => room_of_subset hfits fun b => counts_of_notMem
  have hzero : ∀ n, counts 1 g.log.lh n start = 0 :=
    fun n => counts_of_notMem h.head.start_notMem
  refine total_act (show kern.exec p .getLog g = .done g.log g from rfl) ?_
  split_ifs
  · refine total_bind (total_mono (writeLogFrom_total start g.log.lh LOGSIZE 0 (by omega)
      (h.counted unused) h.dev h.area rfl h.head) ?_)
    rintro u g1 ⟨hc1, hlog1⟩
    refine total_bind (total_mono (writeHead_total hc1 (room 0) (by rw [hlog1, h.dev])
      (by rw [hlog1, h.area, hzero])) ?_)
    rintro u g2 ⟨hc2, hlog2⟩
    rw [hlog1] at hlog2
    refine total_bind (total_mono (installTransFrom_total start g.log.lh LOGSIZE 0 (by omega) hc2
      (by rw [hlog2, h.dev]) (by rw [hlog2, h.area]) (by rw [hlog2]) h.head) ?_)
    rintro u g3 ⟨⟨n, -, hc3⟩, hlog3⟩
    rw [hlog2] at hlog3
    refine total_act (h := g3.modLog fun l => { l with lh := [] }) rfl ?_
    refine total_mono (writeHead_total { hc3 with } (room n) ?_ ?_) fun _ _ _ => trivial
    · rw [modLog_log, hlog3, h.dev]
    · rw [modLog_log, hlog3, h.area, hzero]
  · exact trivial

abbrev recovery (start : UInt32) : Prog Act Unit := initlog ROOTDEV start LOGSIZE

theorem recovered_clean {D d d' : UInt32 → Block} (h : Recoverable start D d)
    (restarts : Relation.ReflTransGen (Crashed kern p boot Kern.disk (recovery start)) d d') :
    (∃ e, Recovered kern p boot Kern.disk (recovery start) d' e) ∧
      ∀ e, Recovered kern p boot Kern.disk (recovery start) d' e → Clean start D e := by
  have keeps : ∀ d, Recoverable start D d → CrashSafe kern p
      (fun g => Recoverable start D g.disk) (recovery start)
      (fun _ g => Clean start D g.disk) (boot d) :=
    fun d hd => (initlog_safe p hd).mono fun _ _ _ hb => hb.clean
  have hd' : Recoverable start D d' := crash_invariant keeps h restarts
  constructor
  · obtain ⟨u, g', hrun, -⟩ := total_iff_run.1 (initlog_total p hd'.head)
    exact ⟨g'.disk, u, g', hrun, rfl⟩
  · exact fun e he => recovered_of_crash_invariant keeps h restarts he

/-- A commit is stopped at any point and the recoveries after it at any of theirs. The next
    recovery finishes, and it leaves the new contents of all blocks of the transaction if the
    header had been written, and the old ones of all if not. A commit that is not stopped returns
    and leaves the new ones. -/
theorem commit_crash_atomic (p : Proc) (start : UInt32) (c : UInt32 → Block) (g g' : Kern)
    (rest : Prog Act Unit) (d : UInt32 → Block) (ready : CommitReady start c g)
    (stopped : Steps kern p commit g rest g')
    (restarts : Relation.ReflTransGen (Crashed kern p boot Kern.disk (recovery start))
      g'.disk d) :
    (∃ d', Recovered kern p boot Kern.disk (recovery start) d d') ∧
      (∀ d', Recovered kern p boot Kern.disk (recovery start) d d' →
        getU32 (d' start) 0 = 0 ∧
        (∀ b, b ∉ g.log.lh → ¬ InLog start LOGSIZE b → d' b = g.disk b) ∧
        (HeaderWritten start g.trace g'.trace → ∀ b ∈ g.log.lh, d' b = c b) ∧
        (¬ HeaderWritten start g.trace g'.trace → ∀ b ∈ g.log.lh, d' b = g.disk b)) ∧
      (Unused g → ∃ e, run kern p commit g = .done () e ∧ getU32 (e.disk start) 0 = 0 ∧
        (∀ b, b ∉ g.log.lh → ¬ InLog start LOGSIZE b → e.disk b = g.disk b) ∧
        ∀ b ∈ g.log.lh, e.disk b = c b) := by
  have outside : ∀ b, b ∉ g.log.lh → override g.log.lh c g.disk b = g.disk b :=
    fun b hb => if_neg hb
  have inside : ∀ b ∈ g.log.lh, override g.log.lh c g.disk b = c b := fun b hb => if_pos hb
  refine and_assoc.1 ⟨?_, fun unused => ?_⟩
  swap
  · obtain ⟨u, e, hrun, -⟩ := total_iff_run.1 (commit_total (p := p) ready unused)
    have hclean := (commit_safe ready).returned hrun
    exact ⟨e, hrun, hclean.empty, fun b hb hlog => by rw [hclean.contents b hlog, outside b hb],
      fun b hb => by rw [hclean.contents b (ready.head.home b hb), inside b hb]⟩
  rcases ((commit_safe ready).steps stopped).here with hK | hK
  · obtain ⟨hex, hall⟩ := recovered_clean hK.2 restarts
    refine ⟨hex, fun d' hd' => ?_⟩
    have hclean := hall d' hd'
    exact ⟨hclean.empty, fun b _ hb => hclean.contents b hb,
      fun hw => absurd hw hK.not_headerWritten,
      fun _ b hb => hclean.contents b (ready.head.home b hb)⟩
  obtain ⟨hex, hall⟩ := recovered_clean hK.2 restarts
  refine ⟨hex, fun d' hd' => ?_⟩
  have hclean := hall d' hd'
  refine ⟨hclean.empty, ?_, ?_, fun hw => absurd hK.1 hw⟩
  · intro b hb hlog
    rw [hclean.contents b hlog, outside b hb]
  · intro _ b hb
    rw [hclean.contents b (ready.head.home b hb), inside b hb]

def oneLogged : Kern :=
  { binit.modBuf 0 fun _ => ⟨true, ROOTDEV, 45, none, 1, fun _ => 7⟩ with
    log := ⟨2, LOGSIZE, 0, true, ROOTDEV, [45]⟩ }

theorem oneLogged_buf (i : BufId) (h : (oneLogged.buf i).dev = ROOTDEV) : i = 0 := by
  by_contra hi
  have hbuf : oneLogged.buf i = binit.buf i := Function.update_of_ne hi ..
  rw [hbuf] at h
  exact absurd h (show (0 : UInt32) ≠ 1 by decide)

theorem oneLogged_ready : CommitReady 2 (fun _ _ => 7) oneLogged where
  dev := rfl
  area := rfl
  head := by
    refine ⟨List.nodup_singleton 45, by decide, fun b hb => ?_⟩
    rw [List.mem_singleton.1 hb]
    exact not_inLog_of_le (by decide)
  empty := rfl
  lru := fun i => List.mem_reverse.2 (List.mem_finRange i)
  uniq := fun i j hi hj _ => (oneLogged_buf i hi).trans (oneLogged_buf j hj).symm
  counts := by
    intro i hi
    rw [oneLogged_buf i hi]
    decide
  clean := by
    intro i hi _ hm
    rw [oneLogged_buf i hi] at hm
    exact absurd (List.mem_singleton_self 45) hm
  pinned := by
    intro b hb
    rw [List.mem_singleton.1 hb]
    exact ⟨0, ⟨rfl, rfl, rfl⟩, rfl, by decide⟩

theorem oneLogged_unused : Unused oneLogged := by
  intro i
  by_cases hi : i = 0
  · subst hi
    exact ⟨rfl, rfl⟩
  · have hbuf : oneLogged.buf i = binit.buf i := Function.update_of_ne hi ..
    rw [hbuf]
    exact ⟨rfl, rfl⟩

theorem commit_crash_atomic_oneLogged :
    (∃ rest g' q g1 d', Steps kern 0 commit oneLogged rest g' ∧
      HeaderWritten 2 oneLogged.trace g'.trace ∧ g'.disk 45 = oneLogged.disk 45 ∧
      Steps kern 0 (recovery 2) (boot g'.disk) q g1 ∧ headList (g1.disk 2) = [45] ∧
      (g1.disk 45 = fun _ => 7) ∧ Recovered kern 0 boot Kern.disk (recovery 2) g1.disk d' ∧
      getU32 (d' 2) 0 = 0 ∧ d' 45 = fun _ => 7) ∧
    ∃ e, run kern 0 commit oneLogged = .done () e ∧ e.disk 45 = fun _ => 7 := by
  -- the commit stops when the header is written, and the recovery when block 45 is
  obtain ⟨rest, g', steps, hg'⟩ := exists_of_advance (M := kern) 0 24 commit oneLogged
    (fun g' => (g'.trace.any fun e => e.casesOn (fun _ => false) (fun _ _ _ => false)
        (fun _ => false) (fun _ => false) (fun b _ => b == 2) fun _ => false) &&
      decide (g'.disk 45 = oneLogged.disk 45) &&
      (advance kern freely 0 19 (recovery 2) (boot g'.disk)).any
        fun x : Prog Act Unit × Kern =>
          decide (headList (x.2.disk 2) = [45] ∧ x.2.disk 45 = fun _ => 7)) (by decide +kernel)
  rw [Bool.and_eq_true, Bool.and_eq_true, decide_eq_true_eq] at hg'
  obtain ⟨⟨hhead, hold⟩, hstop⟩ := hg'
  have hw : HeaderWritten 2 oneLogged.trace g'.trace := by
    obtain ⟨e, he, hb⟩ := List.any_eq_true.1 hhead
    cases e with
    | wrote b v => exact ⟨_, (List.append_nil _).symm, v, beq_iff_eq.1 hb ▸ he⟩
    | _ => cases hb
  obtain ⟨q, g1, again, hg1⟩ := exists_of_advance 0 19 (recovery 2) (boot g'.disk)
    (fun g1 => decide (headList (g1.disk 2) = [45] ∧ g1.disk 45 = fun _ => 7)) hstop
  obtain ⟨hlist, hhome⟩ := of_decide_eq_true hg1
  obtain ⟨⟨d', hd'⟩, hall, hrun⟩ := commit_crash_atomic 0 2 (fun _ _ => 7) oneLogged g' rest
    g1.disk oneLogged_ready steps (.single ⟨q, g1, again, rfl⟩)
  have hmem : 45 ∈ oneLogged.log.lh := List.mem_singleton_self 45
  obtain ⟨hz, -, hnew, -⟩ := hall d' hd'
  obtain ⟨e, he, -, -, hc⟩ := hrun oneLogged_unused
  exact ⟨⟨rest, g', q, g1, d', steps, hw, hold, again, hlist, hhome, hd', hz, hnew hw 45 hmem⟩,
    e, he, hc 45 hmem⟩

end Xv6.LogCommit
