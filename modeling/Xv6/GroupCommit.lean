import Xv6.BootRecovery
import Xv6.LogPrograms
import Xv6.Scripts

set_option autoImplicit false

namespace Xv6.GroupCommit
open Interleaving LogCode LogHeader LogSystem LogInvariant
  LogTransactions LogPrograms LogRecovery

def opBlocks (p : Proc) : List Event → List UInt32
  | [] => []
  | .logged q b _ :: tr => if q = p then b :: opBlocks p tr else opBlocks p tr
  | .began q :: tr => if q = p then [] else opBlocks p tr
  | _ :: tr => opBlocks p tr

variable {start : UInt32} {may : List UInt32 → Prop} {g : Kern} {s : Sys Proc Act Loc Kern}

theorem opBlocks_subset {p : Proc} {tr : List Event}
    (fit : ∀ e tr', (e :: tr') <:+ tr → Fitting start e tr') (hopen : opOpen p tr = true) :
    ∀ b ∈ opBlocks p tr, b ∈ transaction tr := by
  induction tr with
  | nil => exact fun b hb => hb
  | cons e tr ih =>
    have fit' : ∀ e tr', (e :: tr') <:+ tr → Fitting start e tr' :=
      fun e' tr' hs => fit e' tr' (hs.trans (List.suffix_cons e tr))
    intro b hb
    cases e with
    | began q =>
      simp only [opBlocks] at hb
      split_ifs at hb with hq
      · exact absurd hb List.not_mem_nil
      · simp only [opOpen, hq, ↓reduceIte] at hopen
        exact ih fit' hopen b hb
    | logged q b' d =>
      simp only [opBlocks] at hb
      simp only [transaction, List.mem_cons]
      split_ifs at hb with hq
      · rcases List.mem_cons.1 hb with rfl | hb
        · exact .inl rfl
        · exact .inr (ih fit' hopen b hb)
      · exact .inr (ih fit' hopen b hb)
    | ended q =>
      simp only [opOpen] at hopen
      split_ifs at hopen with hq
      exact ih fit' hopen b hb
    | commits q => exact ih fit' hopen b hb
    | wrote b' d => exact ih fit' hopen b hb
    | committed q =>
      have := (fit (.committed q) tr (List.suffix_refl _)).2.1 p
      rw [show opOpen p (.committed q :: tr) = opOpen p tr from rfl, this] at hopen
      cases hopen

theorem not_panics (quiet : Quiet start g)
    (reach : Reach (logSetting start may) always (launch g) s) {msg : String}
    (hmsg : ¬ Expected may msg) : ¬ Panics (logSetting start may) s msg := by
  rintro ⟨p, β, a, k, hnext, hpanic⟩
  obtain ⟨Λ, hold⟩ := invariant quiet reach
  exact hmsg (hold.safe hnext msg hpanic)

/-- While a commit runs no operation is open and nothing is logged. A commit installs exactly the
    blocks logged since the one before it, and an operation that ends has logged only such
    blocks. -/
theorem commits_whole_operations (start : UInt32) (may : List UInt32 → Prop) (g : Kern)
    (s : Sys Proc Act Loc Kern) (quiet : Quiet start g)
    (reach : Reach (logSetting start may) always (launch g) s) :
    (s.g.log.committing = true ↔ ∃ p, inCommit p s.g.trace = true) ∧
    (s.g.log.committing = true →
      s.g.log.outstanding = 0 ∧ ∀ q, opOpen q s.g.trace = false) ∧
    (∀ p q, inCommit p s.g.trace = true → inCommit q s.g.trace = true → p = q) ∧
    ¬ Panics (logSetting start may) s "log.committing" ∧
    ¬ Panics (logSetting start may) s "log_write outside of trans" ∧
    (∀ p b d tr, (.logged p b d :: tr) <:+ s.g.trace →
      opOpen p tr = true ∧ ∀ q, inCommit q tr = false) ∧
    (∀ p tr, (.committed p :: tr) <:+ s.g.trace →
      (∀ b, b ∈ installed start tr ↔ b ∈ transaction tr) ∧ ∀ q, opOpen q tr = false) ∧
    (∀ p tr, (.ended p :: tr) <:+ s.g.trace → ∀ b ∈ opBlocks p tr, b ∈ transaction tr) := by
  obtain ⟨Λ, ⟨c, hI⟩, -⟩ := invariant quiet reach
  have hcom : ∀ q, inCommit q s.g.trace = true ↔ ∃ c', roles Λ q = .commit c' := hI.tr.com
  refine ⟨?_, ?_, ?_, ?_, ?_, ?_, ?_, ?_⟩
  · rw [hI.log.busy]
    simp only [hcom]
  · intro hc
    obtain ⟨p, c', hp⟩ := hI.log.busy.1 hc
    have hnone : ∀ q L, roles Λ q ≠ .op L := by
      intro q L hq
      have := hI.log.alone p q c' hp (hq.trans_ne nofun)
      rw [this, hp] at hq
      cases hq
    constructor
    · rw [hI.log.count, Finset.sum_eq_zero]
      · rfl
      · intro q _
        cases hr : roles Λ q with
        | op L => exact absurd hr (hnone q L)
        | idle => rfl
        | commit c => rfl
    · intro q
      by_contra hne
      obtain ⟨L, hq⟩ := (hI.tr.op q).1 (by simpa using hne)
      exact hnone q L hq
  · intro p q hp hq
    obtain ⟨c1, h1⟩ := (hcom p).1 hp
    obtain ⟨c2, h2⟩ := (hcom q).1 hq
    exact hI.log.alone q p c2 h2 (h1.trans_ne nofun)
  · refine not_panics quiet reach ?_
    rintro (h | ⟨h, -⟩) <;> exact absurd h (by decide)
  · refine not_panics quiet reach ?_
    rintro (h | ⟨h, -⟩) <;> exact absurd h (by decide)
  · exact fun p b d tr hs => hI.tr.ok _ tr hs
  · intro p tr hs
    obtain ⟨-, hops, hinst⟩ := hI.tr.ok _ tr hs
    exact ⟨hinst, hops⟩
  · intro p tr hs
    refine opBlocks_subset (fun e tr' hs' => hI.tr.ok e tr' ?_) (hI.tr.ok _ tr hs).1
    exact hs'.trans ((List.suffix_cons (.ended p) tr).trans hs)

def fresh (start : UInt32) (d : UInt32 → Block) : Kern :=
  { boot d with log := ⟨start, LOGSIZE, 0, false, ROOTDEV, []⟩ }

theorem quiet_fresh {d : UInt32 → Block} (h : headList (d start) = []) :
    Quiet start (fresh start d) := by
  have hdev : ∀ i, ((fresh start d).buf i).dev ≠ ROOTDEV := fun i => show (0 : UInt32) ≠ 1 by decide
  exact ⟨fun i => List.mem_reverse.2 (List.mem_finRange i), fun i j hi => absurd hi (hdev i),
    fun i => ⟨rfl, rfl⟩, fun i hi => absurd hi (hdev i), rfl, h, rfl⟩

def inside (L : List UInt32) : Loc := ⟨true, fun _ => none, L⟩

def holding (i : BufId) (b : UInt32) (dirty : Bool) (L : List UInt32) : Loc :=
  { inside L with held := Function.update (fun _ => none) i (some ⟨b, dirty⟩) }

theorem held_holding (i : BufId) (b : UInt32) (dirty : Bool) (L : List UInt32) :
    (holding i b dirty L).held i = some ⟨b, dirty⟩ := by
  simp only [holding, Function.update_self]

/-- Process `p` begins an operation, in which it reads block `b` into buffer `i`, and
    changes, logs and releases it. -/
def logs (p : Proc) (i : BufId) (b : UInt32) (d : Block) (home : ¬ InLog 2 LOGSIZE b) :
    List (Move (logSetting 2 fun _ => True)) :=
  [.start p .idle _ (.beginOp rfl), .acts p 1,
    .start p (inside []) _ (.bread b home), .acts p 3,
    .start p (holding i b false []) _ (.modify i ⟨b, false⟩ d rfl (held_holding ..)), .acts p 1,
    .start p (holding i b true []) _ (.logWrite i ⟨b, true⟩ rfl (held_holding ..) trivial),
    .acts p 3,
    .start p (holding i b false [b]) _ (.brelse i ⟨b, false⟩ (held_holding ..) rfl), .acts p 2]

def ends (p : Proc) (b : UInt32) (k : ℕ) : List (Move (logSetting 2 fun _ => True)) :=
  [.start p (inside [b]) _ (.endOp rfl nofun), .acts p k]

theorem home_45 : ¬ InLog 2 LOGSIZE 45 := not_inLog_of_le (by decide)

theorem home_46 : ¬ InLog 2 LOGSIZE 46 := not_inLog_of_le (by decide)

/-- The operations of `p` and `q` overlap; `q` ends last and commits both. -/
def commitsBoth (p q : Proc) (i j : BufId) : List (Move (logSetting 2 fun _ => True)) :=
  logs p i 45 (fun _ => 7) home_45 ++ logs q j 46 (fun _ => 8) home_46 ++ ends p 45 1 ++
    ends q 46 84

theorem commits_whole_operations_both :
    let g := fresh 2 fun _ _ => 0
    ∃ s tr tr', Reach (logSetting 2 fun _ => True) always (launch g) s ∧
      s.g.trace = .committed 1 :: tr ∧ transaction tr = [46, 45] ∧
      (∀ b, b ∈ installed 2 tr ↔ b ∈ transaction tr) ∧
      (.ended 0 :: tr') <:+ s.g.trace ∧ opBlocks 0 tr' = [45] ∧ 45 ∈ transaction tr' ∧
      ¬ Panics (logSetting 2 fun _ => True) s "log_write outside of trans" := by
  intro g
  have quiet : Quiet 2 g := quiet_fresh (headList_of_zero rfl)
  obtain ⟨s, reach, hs⟩ := exists_of_freely (commitsBoth 0 1 0 1) (launch g)
    (fun s => (match s.g.trace with
      | .committed p :: tr => p == 1 && transaction tr == [46, 45]
      | _ => false) && s.g.trace.tails.any fun
        | .ended p :: tr' => p == 0 && opBlocks 0 tr' == [45]
        | _ => false) (by decide +kernel)
  rw [Bool.and_eq_true, List.any_eq_true] at hs
  obtain ⟨hcom, tr', hend, hop⟩ := hs
  split at hcom
  · rename_i p tr htr
    rw [Bool.and_eq_true, beq_iff_eq, beq_iff_eq] at hcom
    split at hop
    · rename_i q tr'
      rw [Bool.and_eq_true, beq_iff_eq, beq_iff_eq] at hop
      rw [List.mem_tails, hop.1] at hend
      rw [hcom.1] at htr
      obtain ⟨-, -, -, -, hout, -, hinst, hops⟩ :=
        commits_whole_operations 2 (fun _ => True) g s quiet reach
      exact ⟨s, tr, tr', reach, htr, hcom.2, (hinst 1 tr (htr ▸ List.suffix_refl _)).1, hend,
        hop.2, hops 0 tr' hend 45 (hop.2 ▸ List.mem_singleton_self 45), hout⟩
    · cases hop
  · cases hcom

end Xv6.GroupCommit
