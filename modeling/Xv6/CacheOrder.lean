import Mathlib.Data.Finset.Card
import Mathlib.Data.Fintype.Card
import Xv6.LogActions

set_option autoImplicit false

/-! A process releases and unpins only what it refers to. In a strict history it does not ask for a
buffer that it refers to already, `log_write` pins no buffer twice, and `bunpin` takes back the pin
of a `log_write`, which it does not when `initlog` recovers a transaction. -/
namespace Xv6.CacheOrder
open Resumption LogCode LogActions

structure Uses where
  held : Finset (Proc × BufId)
  pinned : Finset BufId
  released : List BufId

def Uses.release (u : Uses) (p : Proc) (i : BufId) : Uses :=
  { u with held := u.held.erase (p, i), released := i :: u.released }

def counts {β : Type} : Act β → Bool
  | .bget _ _ => true
  | .logBlock _ => true
  | .bunpin _ => true
  | .unref _ => true
  | _ => false

inductive Next (strict : Prop) (g : Kern) (u : Uses) : Kern → Uses → Prop where
  | bget (p : Proc) (dev b : UInt32) {i : BufId} {g' : Kern}
      (run : kern.exec p (.bget dev b) g = .done i g') (new : strict → (p, i) ∉ u.held) :
      Next strict g u g' { u with held := insert (p, i) u.held }
  | logWrite (p : Proc) (i : BufId) {g' : Kern} (held : (p, i) ∈ u.held)
      (run : kern.exec p (.logBlock i) g = .done () g')
      (new : strict → (g.buf i).blockno ∉ g.log.lh → i ∉ u.pinned) :
      Next strict g u g'
        { u with pinned := if (g.buf i).blockno ∈ g.log.lh then u.pinned else insert i u.pinned }
  | bunpin (p : Proc) (i : BufId) {g' : Kern} (held : (p, i) ∈ u.held)
      (pinned : strict → i ∈ u.pinned) (run : kern.exec p (.bunpin i) g = .done () g') :
      Next strict g u g' { u with pinned := u.pinned.erase i }
  | brelse (p : Proc) (i : BufId) {g' : Kern} (held : (p, i) ∈ u.held)
      (run : kern.exec p (.unref i) g = .done () g') :
      Next strict g u g' (u.release p i)
  | other (p : Proc) {β : Type} (a : Act β) {r : β} {g' : Kern} (out : counts a = false)
      (run : kern.exec p a g = .done r g') : Next strict g u g' u

inductive History (strict : Prop) : Kern → Uses → Prop where
  | start : History strict binit ⟨∅, ∅, []⟩
  | step {g g' : Kern} {u u' : Uses} (h : History strict g u) (next : Next strict g u g' u') :
      History strict g' u'

/-- The number of releases since the last one of the buffer; of all releases if it had none. -/
def age (u : Uses) (i : BufId) : ℕ := u.released.idxOf i

def refs (u : Uses) (i : BufId) : ℕ :=
  (u.held.filter (·.2 = i)).card + if i ∈ u.pinned then 1 else 0

structure Ordered (g : Kern) (u : Uses) : Prop where
  count : ∀ i, (g.buf i).refcnt.toNat = refs u i
  all : ∀ i, i ∈ g.lru
  nodup : g.lru.Nodup
  order : g.lru.Pairwise fun i j =>
    (g.buf i).refcnt = 0 → (g.buf j).refcnt = 0 → age u i ≤ age u j

variable {g g' : Kern} {u u' : Uses} {i : BufId} {p : Proc}

theorem refs_le (u : Uses) (i : BufId) : refs u i ≤ NPROC + 1 := by
  have hinj : (u.held.filter (·.2 = i)).card ≤ (Finset.univ : Finset Proc).card := by
    apply Finset.card_le_card_of_injOn Prod.fst (fun _ _ => Finset.mem_univ _)
    intro x hx y hy hxy
    have hxi := (Finset.mem_filter.1 hx).2
    have hyi := (Finset.mem_filter.1 hy).2
    exact Prod.ext hxy (hxi.trans hyi.symm)
  rw [Finset.card_fin] at hinj
  unfold refs
  split <;> omega

theorem refs_pos (h : (p, i) ∈ u.held) : 0 < (u.held.filter (·.2 = i)).card :=
  Finset.card_pos.2 ⟨(p, i), Finset.mem_filter.2 ⟨h, rfl⟩⟩

theorem refs_insert (h : (p, i) ∉ u.held) (j : BufId) :
    refs { u with held := insert (p, i) u.held } j = refs u j + if j = i then 1 else 0 := by
  have hnew : (p, i) ∉ u.held.filter (·.2 = j) := fun hmem => h (Finset.mem_filter.1 hmem).1
  unfold refs
  rw [Finset.filter_insert]
  by_cases hj : j = i
  · rw [if_pos hj.symm, if_pos hj, Finset.card_insert_of_notMem hnew, Nat.add_right_comm]
  · rw [if_neg (Ne.symm hj), if_neg hj, add_zero]

theorem refs_release (h : (p, i) ∈ u.held) (j : BufId) :
    refs (u.release p i) j + (if j = i then 1 else 0) = refs u j := by
  have hback := refs_insert (u := { u with held := u.held.erase (p, i) })
    (Finset.notMem_erase (p, i) u.held) j
  rw [Finset.insert_erase h] at hback
  exact hback.symm

theorem refs_pin (h : i ∉ u.pinned) (j : BufId) :
    refs { u with pinned := insert i u.pinned } j = refs u j + if j = i then 1 else 0 := by
  unfold refs
  by_cases hj : j = i
  · subst hj
    simp [h]
  · simp [hj]

theorem refs_unpin (h : i ∈ u.pinned) (j : BufId) :
    refs { u with pinned := u.pinned.erase i } j + (if j = i then 1 else 0) = refs u j := by
  unfold refs
  by_cases hj : j = i
  · subst hj
    simp [h]
  · simp [hj]

theorem Ordered.add (h : Ordered g u) : ((g.buf i).refcnt + 1).toNat = refs u i + 1 := by
  have hle := refs_le u i
  have hcount := h.count i
  rw [UInt32.toNat_add, hcount]
  unfold NPROC at hle
  have hone : (1 : UInt32).toNat = 1 := rfl
  omega

theorem Ordered.sub (h : Ordered g u) (hpos : 0 < refs u i) :
    ((g.buf i).refcnt - 1).toNat = refs u i - 1 := by
  have hcount := h.count i
  have hle : (1 : UInt32) ≤ (g.buf i).refcnt := by
    rw [UInt32.le_iff_toNat_le, hcount]
    exact hpos
  rw [UInt32.toNat_sub_of_le _ _ hle, hcount]
  rfl

theorem Ordered.mono (h : Ordered g u) (hlru : g'.lru = g.lru) (hrel : u'.released = u.released)
    (hfree : ∀ j, (g'.buf j).refcnt = 0 → (g.buf j).refcnt = 0)
    (hcount : ∀ j, (g'.buf j).refcnt.toNat = refs u' j) : Ordered g' u' := by
  refine ⟨hcount, ?_, ?_, ?_⟩
  · rw [hlru]
    exact h.all
  · rw [hlru]
    exact h.nodup
  · rw [hlru]
    refine h.order.imp fun {i j} hij hi hj => ?_
    have hage := hij (hfree i hi) (hfree j hj)
    unfold age at hage ⊢
    rw [hrel]
    exact hage

theorem Ordered.bump (h : Ordered g u) (hlru : g'.lru = g.lru) (hrel : u'.released = u.released)
    (hbuf : ∀ j, (g'.buf j).refcnt = (g.buf j).refcnt + if j = i then 1 else 0)
    (hrefs : ∀ j, refs u' j = refs u j + if j = i then 1 else 0) : Ordered g' u' := by
  have hcount : ∀ j, (g'.buf j).refcnt.toNat = refs u' j := by
    intro j
    rw [hbuf, hrefs]
    by_cases hj : j = i
    · rw [if_pos hj, if_pos hj, h.add]
    · rw [if_neg hj, if_neg hj, UInt32.add_zero, h.count, add_zero]
  refine h.mono hlru hrel (fun j hj => ?_) hcount
  by_cases hji : j = i
  · have hzero := hcount j
    rw [hj, hrefs, if_pos hji] at hzero
    cases hzero
  · rwa [hbuf, if_neg hji, UInt32.add_zero] at hj

theorem bget_run {dev b : UInt32} (run : kern.exec p (.bget dev b) g = .done i g') :
    g'.lru = g.lru ∧ ∀ j, (g'.buf j).refcnt = (g.buf j).refcnt + if j = i then 1 else 0 := by
  have hbump : ∀ f : Buf → Buf, (f (g.buf i)).refcnt = (g.buf i).refcnt + 1 → ∀ j,
      ((g.modBuf i f).buf j).refcnt = (g.buf j).refcnt + if j = i then 1 else 0 := by
    intro f hf j
    rw [modBuf_buf]
    split_ifs with hj
    · rw [hj, hf]
    · rw [UInt32.add_zero]
  rcases bget_cases run with ⟨-, rfl⟩ | ⟨-, hvictim, rfl⟩
  · exact ⟨rfl, hbump _ rfl⟩
  · refine ⟨rfl, hbump _ ?_⟩
    rw [victim_some hvictim]
    rfl

theorem age_release (u : Uses) (p : Proc) (i j : BufId) :
    age (u.release p i) j = if j = i then 0 else age u j + 1 := by
  change (i :: u.released).idxOf j = _
  rw [List.idxOf_cons]
  by_cases hj : j = i
  · simp [hj]
  · have hij : (i == j) = false := beq_false_of_ne (Ne.symm hj)
    simp [hj, hij, age]

theorem Ordered.unref (h : Ordered g u) (hheld : (p, i) ∈ u.held)
    (run : kern.exec p (.unref i) g = .done () g') : Ordered g' (u.release p i) := by
  have hpos : 0 < refs u i := (refs_pos hheld).trans_le (Nat.le_add_right _ _)
  obtain ⟨gone, hgone⟩ : ∃ g1, g1 = g.modBuf i fun f => { f with refcnt := f.refcnt - 1 } :=
    ⟨_, rfl⟩
  have hbuf : ∀ j, (gone.buf j).refcnt = if j = i then (g.buf i).refcnt - 1
      else (g.buf j).refcnt := by
    intro j
    rw [hgone, modBuf_buf]
    split_ifs <;> rfl
  have hcount : ∀ j, (gone.buf j).refcnt.toNat = refs (u.release p i) j := by
    intro j
    have hj := refs_release hheld j
    rw [hbuf]
    split_ifs at hj ⊢ with hji
    · rw [h.sub hpos]
      rw [hji] at hj ⊢
      omega
    · rw [h.count]
      omega
  -- Between other buffers the order is as before.
  have hothers : ∀ {x y : BufId}, x ≠ i → y ≠ i →
      ((g.buf x).refcnt = 0 → (g.buf y).refcnt = 0 → age u x ≤ age u y) →
      (gone.buf x).refcnt = 0 → (gone.buf y).refcnt = 0 →
      age (u.release p i) x ≤ age (u.release p i) y := by
    intro x y hx hy hxy
    rw [hbuf, hbuf, age_release, age_release, if_neg hx, if_neg hy, if_neg hx, if_neg hy]
    exact fun hx0 hy0 => Nat.succ_le_succ (hxy hx0 hy0)
  obtain rfl := unref_done run
  rw [← hgone]
  by_cases hzero : (g.buf i).refcnt - 1 = 0
  · have hlru : unrefLru g i = i :: g.lru.erase i := if_pos hzero
    refine ⟨hcount, fun j => mem_unrefLru g i j (h.all j), ?_, ?_⟩
    · rw [hlru]
      exact List.nodup_cons.2 ⟨h.nodup.not_mem_erase, h.nodup.erase i⟩
    · rw [hlru]
      refine List.pairwise_cons.2 ⟨fun j _ _ _ => ?_, ?_⟩
      · rw [age_release, if_pos rfl]
        exact Nat.zero_le _
      · have hne : ∀ j ∈ g.lru.erase i, j ≠ i := fun j hj => (h.nodup.mem_erase_iff.1 hj).1
        refine (h.order.sublist List.erase_sublist).imp_of_mem fun {x y} hx hy hxy => ?_
        exact hothers (hne x hx) (hne y hy) hxy
  · have hlru : unrefLru g i = g.lru := if_neg hzero
    have hne : ∀ z, (gone.buf z).refcnt = 0 → z ≠ i := by
      rintro z hz rfl
      rw [hbuf, if_pos rfl] at hz
      exact hzero hz
    refine ⟨hcount, fun j => mem_unrefLru g i j (h.all j), ?_, ?_⟩
    · rw [hlru]
      exact h.nodup
    · rw [hlru]
      exact h.order.imp fun {x y} hxy hx hy => hothers (hne x hx) (hne y hy) hxy hx hy

theorem other_run {β : Type} {a : Act β} {r : β} (out : counts a = false)
    (run : kern.exec p a g = .done r g') :
    g'.lru = g.lru ∧ ∀ j, (g'.buf j).refcnt = (g.buf j).refcnt := by
  have hmod : ∀ (i : BufId) (f : Buf → Buf), (∀ b, (f b).refcnt = b.refcnt) →
      (g.modBuf i f).lru = g.lru ∧ ∀ j, ((g.modBuf i f).buf j).refcnt = (g.buf j).refcnt := by
    intro i f hf
    refine ⟨rfl, fun j => ?_⟩
    rw [modBuf_buf]
    split_ifs with hj
    · rw [hf, hj]
    · rfl
  cases a with
  | bget | logBlock | bunpin | unref => cases out
  | acquiresleep i =>
    obtain ⟨-, rfl⟩ := acquiresleep_done run
    exact hmod i _ fun _ => rfl
  | fill i =>
    rcases fill_cases run with ⟨-, rfl⟩ | ⟨-, rfl⟩
    · exact ⟨rfl, fun _ => rfl⟩
    · exact hmod i _ fun _ => rfl
  | setData i d =>
    obtain rfl := setData_done run
    exact hmod i _ fun _ => rfl
  | unlock i =>
    obtain ⟨-, rfl⟩ := unlock_done run
    exact hmod i _ fun _ => rfl
  | bwrite i =>
    obtain ⟨-, rfl⟩ := bwrite_done run
    exact ⟨rfl, fun _ => rfl⟩
  | getData i =>
    obtain ⟨-, rfl⟩ := getData_done run
    exact ⟨rfl, fun _ => rfl⟩
  | getLog =>
    obtain ⟨-, rfl⟩ := getLog_done run
    exact ⟨rfl, fun _ => rfl⟩
  | setLog dev start size =>
    obtain rfl := setLog_done run
    exact ⟨rfl, fun _ => rfl⟩
  | setLh lh =>
    obtain ⟨-, rfl⟩ := setLh_done run
    exact ⟨rfl, fun _ => rfl⟩
  | enter =>
    obtain ⟨-, -, rfl⟩ := enter_done run
    exact ⟨rfl, fun _ => rfl⟩
  | checkRoom =>
    obtain rfl := checkRoom_done run
    exact ⟨rfl, fun _ => rfl⟩
  | checkTrans =>
    obtain rfl := checkTrans_done run
    exact ⟨rfl, fun _ => rfl⟩
  | endCs =>
    rcases (endCs_cases run).2 with ⟨-, -, rfl⟩ | ⟨-, -, rfl⟩
    · exact ⟨rfl, fun _ => rfl⟩
    · exact ⟨rfl, fun _ => rfl⟩
  | endCommit =>
    obtain rfl := endCommit_done run
    exact ⟨rfl, fun _ => rfl⟩

theorem Ordered.next (h : Ordered g u) (hnext : Next True g u g' u') : Ordered g' u' := by
  cases hnext with
  | bget p dev b run new =>
    obtain ⟨hlru, hbuf⟩ := bget_run run
    exact h.bump hlru rfl hbuf (refs_insert (new trivial))
  | logWrite p i held run new =>
    rcases logBlock_cases run with ⟨hin, rfl⟩ | ⟨hout, -, rfl⟩
    · rw [if_pos hin]
      exact h.mono rfl rfl (fun _ hj => hj) h.count
    · rw [if_neg hout]
      refine h.bump rfl rfl (fun j => ?_) (refs_pin (new trivial hout))
      rw [note_buf, modLog_buf, modBuf_buf]
      split_ifs with hj
      · rw [hj]
      · rw [UInt32.add_zero]
  | bunpin p i held pinned run =>
    have hrefs := refs_unpin (pinned trivial)
    have hpos : 0 < refs { u with pinned := u.pinned.erase i } i :=
      (refs_pos held).trans_le (Nat.le_add_right _ _)
    obtain rfl := bunpin_done run
    have hcount : ∀ j, ((g.modBuf i fun f => { f with refcnt := f.refcnt - 1 }).buf
      j).refcnt.toNat =
        refs { u with pinned := u.pinned.erase i } j := by
      intro j
      have hj := hrefs j
      rw [modBuf_buf]
      split_ifs at hj ⊢ with hji
      · subst hji
        rw [h.sub (by omega)]
        omega
      · rw [h.count]
        omega
    refine h.mono rfl rfl (fun j hj => ?_) hcount
    by_cases hji : j = i
    · have hzero := hcount j
      rw [hj, hji] at hzero
      exact absurd hzero hpos.ne
    · rwa [modBuf_of_ne _ _ hji] at hj
  | brelse p i held run => exact h.unref held run
  | other p a out run =>
    obtain ⟨hlru, hbuf⟩ := other_run out run
    exact h.mono hlru rfl (fun j hj => (hbuf j).symm.trans hj) fun j => by rw [hbuf, h.count]

theorem History.ordered (h : History True g u) : Ordered g u := by
  induction h with
  | start =>
    refine ⟨fun i => by simp [binit, refs], fun i => by simp [binit], ?_, ?_⟩
    · exact List.nodup_reverse.2 (List.nodup_finRange NBUF)
    · exact List.pairwise_of_forall fun _ _ _ _ => le_rfl
  | step _ hnext ih => exact ih.next hnext

/-- A miss recycles, of the buffers that nobody refers to, one whose last release is the oldest;
    one that was never released if there is one. -/
theorem bget_recycles_oldest (h : History True g u) (p : Proc) (dev b : UInt32)
    (hmiss : lookup g dev b = none) (hfree : ∃ i, (g.buf i).refcnt = 0) :
    ∃ i g', kern.exec p (.bget dev b) g = .done i g' ∧ (g.buf i).refcnt = 0 ∧
      ∀ j, (g.buf j).refcnt = 0 → age u j ≤ age u i ∧ (j ∉ u.released → i ∉ u.released) := by
  have hO := h.ordered
  cases hv : victim g with
  | none =>
    obtain ⟨i, hi⟩ := hfree
    exact absurd hi (victim_none hv i (hO.all i))
  | some i =>
    have hi : (g.buf i).refcnt = 0 := victim_some hv
    obtain ⟨-, behind, before, hsplit, hbehind⟩ := List.find?_eq_some_iff_append.1 hv
    have hlru : g.lru = before.reverse ++ i :: behind.reverse := by
      rw [← List.reverse_reverse g.lru, hsplit]
      simp
    have horder := hO.order
    rw [hlru, List.pairwise_append] at horder
    have hage : ∀ j, (g.buf j).refcnt = 0 → age u j ≤ age u i := by
      intro j hj
      have hmem := hO.all j
      rw [hlru, List.mem_append, List.mem_cons, List.mem_reverse, List.mem_reverse] at hmem
      rcases hmem with hbefore | rfl | hin
      · exact horder.2.2 j (List.mem_reverse.2 hbefore) i List.mem_cons_self hj hi
      · exact le_rfl
      · have hused := hbehind j hin
        simp [hj] at hused
    have hrun : kern.exec p (.bget dev b) g = .done i
        (g.modBuf i fun f => { f with dev := dev, blockno := b, valid := false, refcnt := 1 }) := by
      simp only [kern, exec, hmiss, hv]
    refine ⟨i, _, hrun, hi, fun j hj => ⟨hage j hj, fun hnever hin => ?_⟩⟩
    · have hlt : age u i < u.released.length := List.idxOf_lt_length_iff.2 hin
      have hlength : age u j = u.released.length := List.idxOf_of_notMem hnever
      have hle := hage j hj
      omega

def readSeven : Kern :=
  binit.modBuf 0 fun f => { f with dev := 1, blockno := 7, valid := false, refcnt := 1 }

theorem history_readSeven (strict : Prop) : History strict readSeven ⟨{(0, 0)}, ∅, []⟩ :=
  .step .start (.bget 0 1 7 rfl fun _ => Finset.notMem_empty _)

theorem bget_recycles_unused : ∃ g u, History True g u ∧ u.released = [0] ∧
    ∃ i g', kern.exec 0 (.bget 1 8) g = .done i g' ∧ i ∉ u.released := by
  have hrelease := (history_readSeven True).step (.brelse 0 0 (Finset.mem_singleton_self _) rfl)
  obtain ⟨i, g', hrun, -, hold⟩ := bget_recycles_oldest hrelease 0 1 8 rfl ⟨1, rfl⟩
  exact ⟨_, _, hrelease, rfl, i, g', hrun, (hold 1 rfl).2 (by decide)⟩

/-- Block 7 is `bunpin`ned while it is held, as in recovery, and released. -/
def unpinned : Kern :=
  (readSeven.modBuf 0 fun f => { f with refcnt := f.refcnt - 1 }).modBuf 0 fun f =>
    { f with refcnt := f.refcnt - 1 }

def rereadSeven : Kern := unpinned.modBuf 0 fun f => { f with refcnt := f.refcnt + 1 }

theorem history_reread : ∃ u, History False rereadSeven u ∧ u.released = [0] := by
  have hunpin : History False (readSeven.modBuf 0 fun f => { f with refcnt := f.refcnt - 1 })
      ⟨{(0, 0)}, ∅, []⟩ :=
    .step (history_readSeven False) (.bunpin 0 0 (Finset.mem_singleton_self _) nofun rfl)
  have hrelease : History False unpinned ⟨∅, ∅, [0]⟩ :=
    .step hunpin (.brelse 0 0 (Finset.mem_singleton_self _) rfl)
  exact ⟨_, .step hrelease (.bget 0 1 7 rfl nofun), rfl⟩

/-- The next miss recycles the buffer of block 7, although others were never used. -/
theorem bget_recycles_held : ∃ u, History False rereadSeven u ∧
    lookup rereadSeven 1 8 = none ∧ (rereadSeven.buf 1).refcnt = 0 ∧
    (∃ g', kern.exec 1 (.bget 1 8) rereadSeven = .done 0 g') ∧ age u 0 < age u 1 := by
  obtain ⟨u, hu, hreleased⟩ := history_reread
  refine ⟨u, hu, rfl, rfl, ⟨_, rfl⟩, ?_⟩
  unfold age
  rw [hreleased]
  decide

end Xv6.CacheOrder
