import Xv6.GroupCommit

set_option autoImplicit false

namespace Xv6.LogSpace
open Resumption Interleaving LogCode LogHeader LogSystem LogPrograms
  SequentialCache LogRecovery BootRecovery GroupCommit
open Function (update update_eq_self update_idem update_of_ne update_self)

variable {start : UInt32} {may : List UInt32 → Prop} {p : Proc} {lh : List UInt32} {out : ℤ}
  {g : Kern}
variable {b : UInt32} {s : Sys Proc Act Loc Kern}

def pins (lh : List UInt32) (b : UInt32) : UInt32 := if b ∈ lh then 1 else 0

structure Open (start : UInt32) (lh : List UInt32) (out : ℤ) (g : Kern) : Prop where
  counted : Counted ROOTDEV (pins lh) noLock g
  log : g.log = ⟨start, LOGSIZE, out, false, ROOTDEV, lh⟩

theorem room_pins (h : lh.length < NBUF) : Room (pins lh) :=
  room_of_subset h fun _ hb => if_neg hb

theorem beginOp_open (h : Open start lh out g)
    (room : (lh.length : ℤ) + (out + 1) * MAXOPBLOCKS ≤ LOGSIZE) :
    Total kern p beginOp (fun _ => Open start lh (out + 1)) g := by
  have henter : kern.exec p .enter g = .done ()
      ((g.modLog fun l => { l with outstanding := l.outstanding + 1 }).note (.began p)) := by
    have hnot : ¬ ((lh.length : ℤ) + (out + 1) * MAXOPBLOCKS > LOGSIZE) := not_lt.2 room
    simp only [kern, exec, h.log, Bool.false_eq_true, ↓reduceIte, hnot]
  refine ⟨(), _, henter, { h.counted with }, ?_⟩
  simp only [note_log, modLog_log, h.log]

theorem logWrite_open {C : UInt32 → UInt32} {Lk : UInt32 → Option Proc} {i : BufId}
    (hc : Counted ROOTDEV C Lk g) (hlog : g.log = ⟨start, LOGSIZE, out, false, ROOTDEV, lh⟩)
    (hi : IsBuf g i ROOTDEV b) (hb : b ∉ lh) (hlen : lh.length + 1 < LOGSIZE) (hout : 1 ≤ out) :
    Total kern p (logWrite i) (fun _ g' => IsBuf g' i ROOTDEV b ∧
      Counted ROOTDEV (update C b (C b + 1)) Lk g' ∧
      g'.log = ⟨start, LOGSIZE, out, false, ROOTDEV, lh ++ [b]⟩) g := by
  have hroom : kern.exec p .checkRoom g = .done () g := by
    have hnot : ¬ (lh.length ≥ LOGSIZE ∨ (lh.length : ℤ) ≥ LOGSIZE - 1) := by omega
    simp only [kern, exec, hlog, hnot, ↓reduceIte]
  have htrans : kern.exec p .checkTrans g = .done () g := by
    simp only [kern, exec, hlog, not_lt.2 hout, ↓reduceIte]
  have hadd : kern.exec p (.logBlock i) g = .done ()
      (((g.modBuf i fun f => { f with refcnt := f.refcnt + 1 }).modLog
        fun l => { l with lh := l.lh ++ [b] }).note (.logged p b (g.buf i).data)) := by
    have hlt : lh.length < LOGSIZE := by omega
    simp only [kern, exec, hlog, hi.2.1, hb, hlt, ↓reduceIte]
  have hp := hc.recount hi (· + 1)
  refine total_act hroom (total_act htrans ⟨(), _, hadd, ?_, ?_, ?_⟩)
  · exact isBuf_modBuf i (fun f => { f with refcnt := f.refcnt + 1 }) hi rfl rfl rfl rfl
  · exact { hp with }
  · simp only [note_log, modLog_log, modBuf_log, hlog]

theorem pins_append (hb : b ∉ lh) :
    update (update (update (pins lh) b (pins lh b + 1)) b
      (update (pins lh) b (pins lh b + 1) b + 1)) b
      (update (update (pins lh) b (pins lh b + 1)) b
        (update (pins lh) b (pins lh b + 1) b + 1) b - 1) = pins (lh ++ [b]) := by
  have h0 : pins lh b = 0 := if_neg hb
  simp only [update_idem, update_self, h0]
  funext x
  by_cases hx : x = b
  · subst hx
    simp [pins]
  · rw [update_of_ne hx]
    simp [pins, hx]

theorem reach_log (may : List UInt32 → Prop) {L : List UInt32} (hs : s.thr p = .ret (inside L))
    (h : Open start lh out s.g) (hb : b ∉ lh) (hL : b ∉ L) (home : ¬ InLog start LOGSIZE b)
    (hlen : lh.length + 1 < LOGSIZE) (hout : 1 ≤ out) (hmay : may (b :: L)) :
    ∃ g', Open start (lh ++ [b]) out g' ∧ Reach (logSetting start may) always s
      ⟨g', update s.thr p (.ret (inside (b :: L)))⟩ := by
  have hNB : NBUF = LOGSIZE := rfl
  have hins : L.insert b = b :: L := List.insert_of_not_mem hL
  obtain ⟨i, g1, hgot, reach1⟩ := reach_call (S := logSetting start may) hs (.bread b home)
    (bread_total h.counted (fun _ => room_pins (by omega)) rfl noLock_counted)
  obtain ⟨u, g2, ⟨hi2, hc2, hlog2⟩, reach2⟩ := reach_call (S := logSetting start may) (t := p)
    (s := ⟨g1, update s.thr p _⟩)
    (l := { inside L with held := update (inside L).held i (some ⟨b, false⟩) })
    (update_self ..)
    (.logWrite i ⟨b, false⟩ rfl (update_self ..) (show may (L.insert b) from hins ▸ hmay))
    (logWrite_open hgot.counted (by rw [hgot.same.2.1, h.log]) hgot.isBuf hb hlen hout)
  obtain ⟨u, g3, ⟨hc3, hs3, -⟩, reach3⟩ := reach_call (S := logSetting start may) (t := p)
    (s := ⟨g2, update _ p _⟩)
    (l := ⟨true, update (update (fun _ => none) i (some ⟨b, false⟩)) i
      (some ⟨b, false⟩), L.insert b⟩)
    (update_self ..)
    (.brelse i ⟨b, false⟩ (update_self ..) rfl)
    (brelse_total hc2 hi2 (update_self ..))
  rw [pins_append hb, release_locks] at hc3
  refine ⟨g3, ⟨hc3, by rw [hs3.2.1, hlog2]⟩, ?_⟩
  have reach := (reach1.trans reach2).trans reach3
  simp only [update_idem, inside, hins] at reach
  rwa [update_eq_self] at reach

def fileBlock (start : UInt32) (k : ℕ) : UInt32 := start + UInt32.ofNat (LOGSIZE + k)

def files (start : UInt32) (m : ℕ) : List UInt32 := (List.range m).map (fileBlock start)

theorem fileBlock_home {k : ℕ} (hk : k < LOGSIZE) : ¬ InLog start LOGSIZE (fileBlock start k) := by
  rintro ⟨j, hj, he⟩
  have hL : LOGSIZE = 30 := rfl
  have := offset_injective (by omega) (by omega) he
  omega

theorem fileBlock_notMem {k : ℕ} (hk : k < LOGSIZE) : fileBlock start k ∉ files start k := by
  intro hm
  obtain ⟨j, hj, he⟩ := List.mem_map.1 hm
  have hL : LOGSIZE = 30 := rfl
  rw [List.mem_range] at hj
  have := offset_injective (by omega) (by omega) he
  omega

theorem files_succ (m : ℕ) : files start (m + 1) = files start m ++ [fileBlock start m] := by
  rw [files, List.range_succ, List.map_append]
  rfl

theorem files_length (m : ℕ) : (files start m).length = m := by
  rw [files, List.length_map, List.length_range]

structure Moved (start : UInt32) (may : List UInt32 → Prop) (p : Proc) (l : Loc)
    (s s' : Sys Proc Act Loc Kern) : Prop where
  reach : Reach (logSetting start may) always s s'
  here : s'.thr p = .ret l
  others : ∀ r, r ≠ p → s'.thr r = s.thr r

theorem moved_of_reach {g' : Kern} {l : Loc}
    (h : Reach (logSetting start may) always s ⟨g', update s.thr p (.ret l)⟩) :
    Moved start may p l s ⟨g', update s.thr p (.ret l)⟩ :=
  ⟨h, update_self .., fun _ hr => update_of_ne hr ..⟩

theorem reach_files {q m : ℕ} (n : ℕ) (hs : s.thr p = .ret (inside []))
    (h : Open start (files start m) out s.g) (hlen : m + n < LOGSIZE) (hout : 1 ≤ out)
    (hq : n ≤ q) :
    ∃ s' L, L.length = n ∧ (∀ b ∈ L, b ∈ files start (m + n)) ∧
      Open start (files start (m + n)) out s'.g ∧
      Moved start (fun L => L.length ≤ q) p (inside L) s s' := by
  induction n with
  | zero => exact ⟨s, [], rfl, nofun, h, .refl, hs, fun _ _ => rfl⟩
  | succ n ih =>
    obtain ⟨s1, L, hL, hsub, h1, m1⟩ := ih (by omega) (by omega)
    have hnot : fileBlock start (m + n) ∉ files start (m + n) := fileBlock_notMem (by omega)
    obtain ⟨g2, h2, reach2⟩ := reach_log (fun L => L.length ≤ q) (p := p)
      (b := fileBlock start (m + n)) m1.here h1 hnot (fun hm => hnot (hsub _ hm))
      (fileBlock_home (by omega)) (by rw [files_length]; omega) hout
      (by simp only [List.length_cons]; omega)
    have m2 := moved_of_reach reach2
    rw [← files_succ] at h2
    refine ⟨_, fileBlock start (m + n) :: L, by rw [List.length_cons, hL], ?_, h2,
      m1.reach.trans m2.reach, m2.here, fun r hr => (m2.others r hr).trans (m1.others r hr)⟩
    intro b hb
    rw [← Nat.add_assoc, files_succ, List.mem_append, List.mem_singleton]
    rcases List.mem_cons.1 hb with rfl | hb
    · exact .inr rfl
    · exact .inl (hsub b hb)

theorem reach_begin (may : List UInt32 → Prop) (hs : s.thr p = .ret Loc.idle)
    (h : Open start [] out s.g) (room : (out + 1) * MAXOPBLOCKS ≤ LOGSIZE) :
    ∃ s', Open start [] (out + 1) s'.g ∧ Moved start may p (inside []) s s' := by
  obtain ⟨u, g', h', reach⟩ := reach_call (S := logSetting start may) hs (.beginOp rfl)
    (beginOp_open h (by simpa using room))
  exact ⟨_, h', moved_of_reach reach⟩

theorem open_fresh (d : UInt32 → Block) : Open start [] 0 (fresh start d) :=
  ⟨counted_boot d _, rfl⟩

theorem reach_full (start : UInt32) {q : ℕ} (hq : MAXOPBLOCKS ≤ q) (d : UInt32 → Block) :
    ∃ s, Reach (logSetting start fun L => L.length ≤ q) always (launch (fresh start d)) s ∧
      Panics (logSetting start fun L => L.length ≤ q) s "too big a transaction" := by
  have hM : MAXOPBLOCKS = 10 := rfl
  have h01 : (1 : Proc) ≠ 0 := by decide
  have h02 : (2 : Proc) ≠ 0 := by decide
  have h12 : (2 : Proc) ≠ 1 := by decide
  obtain ⟨s1, h1, m1⟩ := reach_begin (fun L => L.length ≤ q) (p := 0)
    (s := launch (fresh start d)) rfl (open_fresh d) (by decide)
  obtain ⟨s2, h2, m2⟩ := reach_begin (fun L => L.length ≤ q) (p := 1)
    ((m1.others 1 h01).trans rfl) h1 (by decide)
  obtain ⟨s3, h3, m3⟩ := reach_begin (fun L => L.length ≤ q) (p := 2)
    ((m2.others 2 h12).trans (m1.others 2 h02)) h2 (by decide)
  obtain ⟨s4, L0, -, -, h4, m4⟩ := reach_files (q := q) (m := 0) (p := 0) 10
    ((m3.others 0 h02.symm).trans ((m2.others 0 h01.symm).trans m1.here)) h3 (by decide) (by decide)
    (by omega)
  obtain ⟨s5, L1, -, -, h5, m5⟩ := reach_files (q := q) (m := 10) (p := 1) 10
    ((m4.others 1 h01).trans ((m3.others 1 h12.symm).trans m2.here)) h4 (by decide) (by decide)
    (by omega)
  obtain ⟨s6, L2, hL2, -, h6, m6⟩ := reach_files (q := q) (m := 20) (p := 2) 9
    ((m5.others 2 h12).trans ((m4.others 2 h02).trans m3.here)) h5 (by decide) (by decide)
    (by omega)
  -- the third operation reads its tenth block and calls log_write
  obtain ⟨i, g7, hgot, reach7⟩ := reach_call (S := logSetting start fun L => L.length ≤ q) m6.here
    (.bread (fileBlock start 29) (fileBlock_home (by decide)))
    (bread_total h6.counted (fun _ => room_pins (by rw [files_length]; decide)) rfl
      noLock_counted)
  have hlog : g7.log = ⟨start, LOGSIZE, 0 + 1 + 1 + 1, false, ROOTDEV, files start (20 + 9)⟩ := by
    rw [hgot.same.2.1, h6.log]
  have hfull : (files start (20 + 9)).length ≥ LOGSIZE ∨
      ((files start (20 + 9)).length : ℤ) ≥ (LOGSIZE : ℤ) - 1 := by
    rw [files_length]
    decide
  have hpanic : kern.exec 2 .checkRoom g7 = .panic "too big a transaction" := by
    simp only [kern, exec, hlog, hfull, ↓reduceIte]
  have hins : (L2.insert (fileBlock start 29)).length ≤ q := by
    rw [List.length_insert]
    split_ifs <;> omega
  let l7 : Loc :=
    ⟨true, update (fun _ => none) i (some ⟨fileBlock start 29, false⟩), L2⟩
  obtain ⟨s8, reach8, panics⟩ := reach_panic (S := logSetting start fun L => L.length ≤ q)
    (s := ⟨g7, update s6.thr 2 (.ret l7)⟩) (t := 2) (l := l7)
    (show update s6.thr 2 (.ret l7) 2 = .ret l7 from update_self ..)
    (.logWrite i ⟨fileBlock start 29, false⟩ rfl (by simp [l7]) hins) hpanic
  exact ⟨s8, ((((((m1.reach.trans m2.reach).trans m3.reach).trans m4.reach).trans m5.reach).trans
    m6.reach).trans reach7).trans reach8, panics⟩

/-- For operations of at most `q` blocks each, `log_write` never finds the log full exactly if `q`
    is less than the reservation. -/
theorem log_space_suffices_iff (start : UInt32) (q : ℕ) :
    (∀ g s, Quiet start g →
      Reach (logSetting start fun L => L.length ≤ q) always (launch g) s →
      ¬ Panics (logSetting start fun L => L.length ≤ q) s "too big a transaction" ∧
      ∀ b d tr, (.wrote b d :: tr) <:+ s.g.trace → headWrites start tr = 0 →
        b = start ∨ ∃ j, j + 1 < LOGSIZE ∧ b = slot start j) ↔ q < MAXOPBLOCKS := by
  constructor
  · intro h
    by_contra hq
    obtain ⟨s, reach, panics⟩ := reach_full start (not_lt.1 hq) fun _ _ => 0
    exact (h _ s (quiet_fresh (headList_of_zero rfl)) reach).1 panics
  · intro hq g s quiet reach
    refine ⟨not_panics quiet reach ?_, ?_⟩
    · rintro (h | ⟨-, h⟩)
      · exact absurd h (by decide)
      · exact h fun L hL => lt_of_le_of_lt hL hq
    · obtain ⟨Λ, ⟨c, hI⟩, -⟩ := invariant quiet reach
      exact fun b d tr hs hw => (hI.tr.ok _ tr hs).1 hw

/-- On an image of mkfs, where the log starts at block 2, operations within the
    reservation reach the panic. -/
theorem log_space_exhausted :
    ∃ g s, Quiet 2 g ∧ Reach (logSetting 2 fun L => L.length ≤ MAXOPBLOCKS) always (launch g) s ∧
      Panics (logSetting 2 fun L => L.length ≤ MAXOPBLOCKS) s "too big a transaction" := by
  obtain ⟨s, reach, panics⟩ := reach_full 2 le_rfl fun _ _ => 0
  exact ⟨_, s, quiet_fresh (headList_of_zero rfl), reach, panics⟩

end Xv6.LogSpace
