import Mathlib.Data.Fintype.Card
import Xv6.LogRecovery

set_option autoImplicit false

namespace Xv6.BootRecovery
open Resumption LogCode LogHeader LogActions SequentialCache LogRecovery
open Function (update update_apply update_eq_self update_idem update_of_ne update_self)

variable {i : BufId} {b : UInt32} {bs : List UInt32}

structure Counted (dv : UInt32) (C : UInt32 → UInt32) (Lk : UInt32 → Option Proc) (g : Kern) :
    Prop where
  lru : ∀ i, i ∈ g.lru
  uniq : ∀ i j, (g.buf i).dev = dv → (g.buf j).dev = dv →
    (g.buf i).blockno = (g.buf j).blockno → i = j
  count : ∀ i, (g.buf i).refcnt = if (g.buf i).dev = dv then C (g.buf i).blockno else 0
  lock : ∀ i, (g.buf i).lock = if (g.buf i).dev = dv then Lk (g.buf i).blockno else none
  resident : ∀ b, C b ≠ 0 → ∃ i, (g.buf i).dev = dv ∧ (g.buf i).blockno = b

def Room (C : UInt32 → UInt32) : Prop := ∃ T : List UInt32, T.length < NBUF ∧ ∀ b, C b ≠ 0 → b ∈ T

variable {p : Proc} {dv : UInt32} {C : UInt32 → UInt32} {Lk : UInt32 → Option Proc} {g : Kern}

section

variable (hc : Counted dv C Lk g)
include hc

theorem Counted.free (room : Room C) : ∃ i, (g.buf i).refcnt = 0 := by
  obtain ⟨T, hT, hmem⟩ := room
  by_contra hall
  have hdev : ∀ i, (g.buf i).dev = dv := by
    intro i
    by_contra hd
    exact hall ⟨i, by rw [hc.count, if_neg hd]⟩
  have hin : ∀ i, (g.buf i).blockno ∈ T.toFinset := by
    intro i
    rw [List.mem_toFinset]
    refine hmem _ fun h0 => hall ⟨i, by rw [hc.count, if_pos (hdev i), h0]⟩
  have hcard : Fintype.card BufId ≤ T.toFinset.card :=
    Finset.card_le_card_of_injOn (fun i => (g.buf i).blockno) (fun i _ => hin i)
      fun i _ j _ he => hc.uniq i j (hdev i) (hdev j) he
  rw [Fintype.card_fin] at hcard
  have := T.toFinset_card_le
  omega

theorem Counted.place {c : UInt32} {l : Option Proc} (f : Buf → Buf) (hdev : (f (g.buf i)).dev = dv)
    (hb : (f (g.buf i)).blockno = b) (hcnt : (f (g.buf i)).refcnt = c)
    (hlock : (f (g.buf i)).lock = l)
    (here : ∀ j, (g.buf j).dev = dv → (g.buf j).blockno = b → j = i)
    (old : (g.buf i).dev = dv → (g.buf i).blockno ≠ b → C (g.buf i).blockno = 0) :
    Counted dv (update C b c) (update Lk b l) (g.modBuf i f) := by
  have other : ∀ j, j ≠ i → (g.buf j).dev = dv → (g.buf j).blockno ≠ b :=
    fun j hj hd he => hj (here j hd he)
  constructor
  · exact hc.lru
  · grind [modBuf_buf, hc.uniq]
  · grind [modBuf_buf, hc.count]
  · grind [modBuf_buf, hc.lock]
  · intro b1
    have hresident := hc.resident b1
    simp only [modBuf_buf] at hresident ⊢
    grind

structure Got (dv : UInt32) (C : UInt32 → UInt32) (Lk : UInt32 → Option Proc) (p : Proc) (g : Kern)
    (b : UInt32) (i : BufId) (g' : Kern) : Prop where
  counted : Counted dv (update C b (C b + 1)) (update Lk b (some p)) g'
  isBuf : IsBuf g' i dv b
  same : SameStore g g'
  keeps : ∀ j b', IsBuf g j dv b' → C b' ≠ 0 → IsBuf g' j dv b'
  fresh : (∀ j, (g.buf j).dev ≠ dv) → (g'.buf i).data = g.disk b

theorem Counted.touch (i : BufId) (f : Buf → Buf)
    (hf : ∀ x, (f x).dev = x.dev ∧ (f x).blockno = x.blockno ∧ (f x).refcnt = x.refcnt ∧
      (f x).lock = x.lock) : Counted dv C Lk (g.modBuf i f) := by
  have eqs : ∀ j, ((g.modBuf i f).buf j).dev = (g.buf j).dev ∧
      ((g.modBuf i f).buf j).blockno = (g.buf j).blockno ∧
      ((g.modBuf i f).buf j).refcnt = (g.buf j).refcnt ∧
      ((g.modBuf i f).buf j).lock = (g.buf j).lock := by
    intro j
    rw [modBuf_buf]
    split_ifs with h
    · exact h ▸ hf _
    · exact ⟨rfl, rfl, rfl, rfl⟩
  constructor
  · exact hc.lru
  · intro j k hj hk he
    rw [(eqs j).1] at hj
    rw [(eqs k).1] at hk
    rw [(eqs j).2.1, (eqs k).2.1] at he
    exact hc.uniq j k hj hk he
  · intro j
    rw [(eqs j).2.2.1, (eqs j).1, (eqs j).2.1]
    exact hc.count j
  · intro j
    rw [(eqs j).2.2.2, (eqs j).1, (eqs j).2.1]
    exact hc.lock j
  · intro b hb
    obtain ⟨j, hj⟩ := hc.resident b hb
    exact ⟨j, by rw [(eqs j).1, (eqs j).2.1]; exact hj⟩

theorem fill_total (hd : (g.buf i).dev = dv) (hb : (g.buf i).blockno = b) :
    ∃ g', kern.exec p (.fill i) g = .done () g' ∧ Counted dv C Lk g' ∧ IsBuf g' i dv b ∧
      SameStore g g' ∧ (∀ j, j ≠ i → g'.buf j = g.buf j) ∧
      ((g.buf i).valid = false → (g'.buf i).data = g.disk b) := by
  cases hv : (g.buf i).valid with
  | true =>
    exact ⟨g, by simp only [kern, exec, hv, ↓reduceIte], hc, ⟨hd, hb, hv⟩, ⟨rfl, rfl, rfl⟩,
      fun _ _ => rfl, nofun⟩
  | false =>
    refine ⟨g.modBuf i fun f => { f with valid := true, data := g.disk f.blockno },
      by simp only [kern, exec, hv, Bool.false_eq_true, ↓reduceIte],
      hc.touch i _ fun x => ⟨rfl, rfl, rfl, rfl⟩, ?_, ⟨rfl, rfl, rfl⟩,
      fun j hj => modBuf_of_ne _ _ hj, ?_⟩
    · rw [IsBuf, modBuf_self]
      exact ⟨hd, hb, rfl⟩
    · intro _
      rw [modBuf_self, hb]

theorem bget_total (room : C b = 0 → Room C) (hl : Lk b = none) (hlk : ∀ b, Lk b ≠ none → C b ≠ 0) :
    ∃ i f, kern.exec p (.bget dv b) g = .done i (g.modBuf i f) ∧
      (f (g.buf i)).dev = dv ∧ (f (g.buf i)).blockno = b ∧ (f (g.buf i)).lock = none ∧
      (∀ b', IsBuf g i dv b' → C b' ≠ 0 → b' = b) ∧
      ((∀ j, (g.buf j).dev ≠ dv) → (f (g.buf i)).valid = false) ∧
      Counted dv (update C b (C b + 1)) (update Lk b (some p))
        (g.modBuf i fun x => { f x with lock := some p }) := by
  cases hlook : lookup g dv b with
  | some i =>
    obtain ⟨hd, hb⟩ := lookup_some hlook
    have hlock : (g.buf i).lock = none := by rw [hc.lock i, if_pos hd, hb, hl]
    refine ⟨i, fun f => { f with refcnt := f.refcnt + 1 }, by simp only [kern, exec, hlook], hd, hb,
      hlock, fun b' h _ => h.2.1.symm.trans hb, fun hn => absurd hd (hn i), ?_⟩
    refine hc.place _ hd hb ?_ rfl (fun j hj hjb => hc.uniq j i hj hd (hjb.trans hb.symm))
      fun _ hne => absurd hb hne
    simp only [hc.count i, if_pos hd, hb]
  | none =>
    have hmiss := lookup_none hlook
    have hC : C b = 0 := by
      by_contra hne
      obtain ⟨j, hj⟩ := hc.resident b hne
      exact hmiss j (hc.lru j) hj
    obtain ⟨k, hk⟩ := hc.free (room hC)
    cases hvic : victim g with
    | none => exact absurd hk (victim_none hvic k (hc.lru k))
    | some i =>
      have hz : (g.buf i).dev = dv → C (g.buf i).blockno = 0 := by
        intro hd
        have := hc.count i
        rw [victim_some hvic, if_pos hd] at this
        exact this.symm
      have hlock : (g.buf i).lock = none := by
        rw [hc.lock i]
        split_ifs with hd
        · by_contra hne
          exact hlk _ hne (hz hd)
        · rfl
      refine ⟨i, fun f => { f with dev := dv, blockno := b, valid := false, refcnt := 1 },
        by simp only [kern, exec, hlook, hvic], rfl, rfl, hlock,
        fun b' h hne => absurd (h.2.1 ▸ hz h.1) hne, fun _ => rfl, ?_⟩
      refine hc.place _ rfl rfl ?_ rfl
        (fun j hj hjb => absurd ⟨hj, hjb⟩ (hmiss j (hc.lru j))) fun hd _ => hz hd
      rw [hC]
      rfl

theorem bread_total (room : C b = 0 → Room C) (hl : Lk b = none) (hlk : ∀ b, Lk b ≠ none → C b ≠ 0) :
    Total kern p (bread dv b) (Got dv C Lk p g b) g := by
  obtain ⟨i, f, hget, hd, hb, hlock, hold, hfresh, hcnt⟩ := bget_total (p := p) hc room hl hlk
  have hacq : kern.exec p (.acquiresleep i) (g.modBuf i f) =
      .done () (g.modBuf i fun x => { f x with lock := some p }) := by
    simp only [kern, exec, modBuf_self, hlock, modBuf_modBuf]
  obtain ⟨g', hfill, h1, h2, h3, hother, h4⟩ := fill_total (p := p) (i := i) (b := b) hcnt
    (by rw [modBuf_self]; exact hd) (by rw [modBuf_self]; exact hb)
  refine total_act hget (total_act hacq (total_act hfill ⟨h1, h2, h3, ?_, fun hn => h4 ?_⟩))
  · intro j b' hj hC
    by_cases hji : j = i
    · subst hji
      exact hold b' hj hC ▸ h2
    · rw [IsBuf, hother j hji, modBuf_of_ne _ _ hji]
      exact hj
  · rw [modBuf_self]
    exact hfresh hn

theorem brelse_total (hi : IsBuf g i dv b) (hl : Lk b = some p) :
    Total kern p (brelse i) (fun _ g' =>
      Counted dv (update C b (C b - 1)) (update Lk b none) g' ∧ SameStore g g' ∧
        ∀ j b', IsBuf g j dv b' → IsBuf g' j dv b') g := by
  have hlock : (g.buf i).lock = some p := by rw [hc.lock i, if_pos hi.1, hi.2.1, hl]
  have hunlock : kern.exec p (.unlock i) g =
      .done () (g.modBuf i fun f => { f with lock := none }) := by
    simp only [kern, exec, hlock, ↓reduceIte]
  have hunref : kern.exec p (.unref i) (g.modBuf i fun f => { f with lock := none }) =
      .done () { g.modBuf i fun f => { f with lock := none, refcnt := f.refcnt - 1 } with
        lru := unrefLru g i } := by
    simp only [kern, exec, modBuf_modBuf, modBuf_self, unrefLru, modBuf_lru]
    split_ifs <;> rfl
  have hp := hc.place (i := i) (b := b) (c := C b - 1) (l := none)
    (fun f => { f with lock := none, refcnt := f.refcnt - 1 }) hi.1 hi.2.1
    (by simp only [hc.count i, if_pos hi.1, hi.2.1]) rfl
    (fun j hj hjb => hc.uniq j i hj hi.1 (hjb.trans hi.2.1.symm)) fun _ hne => absurd hi.2.1 hne
  refine total_act hunlock ⟨(), _, hunref, ?_, ⟨rfl, rfl, rfl⟩, ?_⟩
  · exact ⟨fun j => mem_unrefLru g i j (hc.lru j), hp.uniq, hp.count, hp.lock, hp.resident⟩
  · intro j b' hj
    exact isBuf_modBuf i (fun f => { f with lock := none, refcnt := f.refcnt - 1 }) hj
      rfl rfl rfl rfl

theorem Counted.recount (hi : IsBuf g i dv b) (u : UInt32 → UInt32) :
    Counted dv (update C b (u (C b))) Lk
      (g.modBuf i fun f => { f with refcnt := u f.refcnt }) := by
  have hp := hc.place (i := i) (b := b) (c := u (C b)) (l := Lk b)
    (fun f => { f with refcnt := u f.refcnt }) hi.1 hi.2.1
    (by simp only [hc.count i, if_pos hi.1, hi.2.1])
    (by simp only [hc.lock i, if_pos hi.1, hi.2.1])
    (fun j hj hjb => hc.uniq j i hj hi.1 (hjb.trans hi.2.1.symm)) fun _ hne => absurd hi.2.1 hne
  rwa [update_eq_self] at hp

theorem bunpin_total (hi : IsBuf g i dv b) :
    ∃ g', kern.exec p (.bunpin i) g = .done () g' ∧
      Counted dv (update C b (C b - 1)) Lk g' ∧ SameStore g g' ∧
        ∀ j b', IsBuf g j dv b' → IsBuf g' j dv b' := by
  exact ⟨_, rfl, hc.recount hi (· - 1), ⟨rfl, rfl, rfl⟩, fun j b' hj => isBuf_modBuf i _ hj rfl rfl rfl rfl⟩

theorem store_total {α : Type} {k : Unit → Prog Act α} {Q : α → Kern → Prop} {d : Block}
    (hi : IsBuf g i dv b) (hl : Lk b = some p) (tail : ∀ g', Counted dv C Lk g' → g'.log = g.log →
      (∀ j b', IsBuf g j dv b' → IsBuf g' j dv b') → Total kern p (k ()) Q g') :
    Total kern p (Prog.perform (.setData i d) >>= fun _ => Prog.perform (.bwrite i) >>= k) Q g := by
  have hlock : (g.buf i).lock = some p := by rw [hc.lock i, if_pos hi.1, hi.2.1, hl]
  have hw : kern.exec p (.bwrite i) (g.modBuf i fun f => { f with data := d }) =
      .done () ({ g.modBuf i fun f => { f with data := d } with
        disk := update g.disk (g.buf i).blockno d }.note
        (.wrote (g.buf i).blockno d)) := by
    simp only [kern, exec, modBuf_self, hlock, ↓reduceIte, modBuf_disk]
  have ht := hc.touch i (fun f => { f with data := d }) fun x => ⟨rfl, rfl, rfl, rfl⟩
  refine total_act rfl (total_act hw (tail _ ?_ rfl fun j b' hj =>
    isBuf_modBuf i (fun f => { f with data := d }) hj rfl rfl rfl rfl))
  exact { ht with }

end

def dropped (bs : List UInt32) (b : UInt32) : UInt32 := if b ∈ bs then -1 else 0

def noLock (_ : UInt32) : Option Proc := none

theorem dropped_of_notMem (h : b ∉ bs) : dropped bs b = 0 :=
  if_neg h

theorem room_of_subset {T : List UInt32} (hT : T.length < NBUF) (h : ∀ b, b ∉ T → C b = 0) :
    Room C := ⟨T, hT, fun b hb => by_contra fun hn => hb (h b hn)⟩

theorem noLock_counted (b : UInt32) (h : noLock b ≠ none) : C b ≠ 0 := absurd rfl h

theorem one_counted {s : UInt32} {c : UInt32} (hc : c ≠ 0) (b : UInt32)
    (h : update noLock s (some p) b ≠ none) : update C s c b ≠ 0 := by
  by_cases he : b = s
  · rw [he, update_self]
    exact hc
  · rw [update_of_ne he] at h
    exact absurd rfl h

/-- The counts of the transaction `bs` when its first `k` blocks are installed: a commit
    starts from `c = 1`, the pins, and a recovery from 0. -/
def counts (c : UInt32) (bs : List UInt32) (k : ℕ) (b : UInt32) : UInt32 :=
  if b ∈ bs.take k then c - 1 else if b ∈ bs then c else 0

section Counts

variable {c : UInt32} {k : ℕ}

theorem counts_of_notMem (h : b ∉ bs) : counts c bs k b = 0 := by
  rw [counts, if_neg fun hm => h (List.mem_of_mem_take hm), if_neg h]

theorem counts_getElem {n : ℕ} (hn : n ≤ k) (hk : k < bs.length) (hnodup : bs.Nodup) :
    counts c bs n bs[k] = c := by
  rw [counts, if_neg, if_pos (List.getElem_mem hk)]
  intro hm
  obtain ⟨j, hj, he⟩ := List.mem_take_iff_getElem.1 hm
  have := hnodup.getElem_inj_iff.1 he
  omega

theorem counts_succ (hk : k < bs.length) :
    update (counts c bs k) bs[k] (c - 1) = counts c bs (k + 1) := by
  funext b
  have hmem : b ∈ bs.take (k + 1) ↔ b ∈ bs.take k ∨ b = bs[k] := by
    rw [List.take_succ_eq_append_getElem hk, List.mem_append, List.mem_singleton]
  rw [update_apply, counts, counts, if_congr hmem rfl rfl]
  split_ifs <;> simp_all

theorem counts_boot (bs : List UInt32) : counts 0 bs 0 = dropped [] := by
  funext b
  rw [counts, ite_id]
  rfl

theorem counts_dropped (hk : bs.length ≤ k) : counts 0 bs k = dropped bs := by
  funext b
  rw [counts, ite_id, List.take_of_length_le hk]
  rfl

end Counts

theorem release_counts (h : C b = 0) : update (update C b 1) b (update C b 1 b - 1) = C := by
  rw [update_idem, update_self, UInt32.sub_self, ← h, update_eq_self]

theorem release_locks (b : UInt32) : update (update noLock b (some p)) b none = noLock := by
  rw [update_idem]
  exact update_eq_self b noLock

section Rounds

variable {start c : UInt32} {k : ℕ} {s : UInt32}

theorem round_locks (s b : UInt32) :
    let L := update (update noLock s (some p)) b (some p)
    update (update L s none) b none = noLock ∧ update (update L b none) s none = noLock := by
  constructor <;>
    (funext x
     simp only [update_apply, noLock]
     split_ifs <;> rfl)

theorem round_counts (hsb : s ≠ b) (h : C s = 0) :
    let C2 := update (update C s 1) b (C b + 1)
    let C3 := update C2 b (C2 b - 1)
    update C3 s (C3 s - 1) = C := by
  funext x
  simp only [update_self, update_idem, update_of_ne hsb, UInt32.add_sub_cancel, UInt32.sub_self]
  grind

/-- What a round of `write_log` or `install_trans` starts with: it holds the block of the
    log and the home block. -/
structure Pair (dv : UInt32) (C : UInt32 → UInt32) (p : Proc) (s b : UInt32) (g : Kern)
    (i j : BufId) (g' : Kern) : Prop where
  ne : s ≠ b
  zero : C s = 0
  counted : Counted dv (update (update C s 1) b (C b + 1))
    (update (update noLock s (some p)) b (some p)) g'
  slot : IsBuf g' i dv s
  home : IsBuf g' j dv b
  log : g'.log = g.log

variable {α : Type} {Q : α → Kern → Prop} {i j : BufId} {g' : Kern}

theorem pair_total {r : BufId → BufId → Prog Act α} (hok : HeadOk start bs) (hk : k < bs.length)
    {n : ℕ} (hn : n ≤ k) (hc : Counted dv (counts c bs n) noLock g)
    (tail : ∀ i j g', Pair dv (counts c bs n) p (slot start k) bs[k] g i j g' →
      Total kern p (r i j) Q g') :
    Total kern p (bread dv (slot start k) >>= fun i => bread dv bs[k] >>= r i) Q g := by
  have hfits := hok.fits
  have hNB : NBUF = LOGSIZE := rfl
  have hslot : slot start k ∉ bs := hok.slot_notMem hk
  have hne : bs[k] ≠ slot start k := fun h => hslot (h ▸ List.getElem_mem hk)
  have hzero : counts c bs n (slot start k) = 0 := counts_of_notMem hslot
  refine total_bind (total_mono (bread_total hc
    (fun _ => room_of_subset (by omega) fun b hb => counts_of_notMem hb) rfl noLock_counted) ?_)
  intro i g1 hi
  have hc1 := hi.counted
  rw [hzero, UInt32.zero_add] at hc1
  refine total_bind (total_mono (bread_total hc1 ?_ (update_of_ne hne ..)
    (one_counted (by decide))) ?_)
  · -- if the home block has no reference, only the blocks before it can have one
    intro h0
    rw [update_of_ne hne, counts_getElem hn hk hok.nodup] at h0
    refine room_of_subset (T := slot start k :: bs.take n) ?_ fun b hb => ?_
    · rw [List.length_cons, List.length_take]
      omega
    · rw [List.mem_cons, not_or] at hb
      rw [update_of_ne hb.1, counts, if_neg hb.2, h0, ite_id]
  · intro j g2 hj
    have hc2 := hj.counted
    rw [update_of_ne hne] at hc2
    exact tail i j g2 ⟨hne.symm, hzero, hc2, hj.keeps _ _ hi.isBuf (by rw [update_self]; decide),
      hj.isBuf, hj.same.2.1.trans hi.same.2.1⟩

theorem installTransFrom_total (start : UInt32) (bs : List UInt32) (fuel k : ℕ)
    (hfuel : bs.length ≤ k + fuel) (hc : Counted dv (counts c bs k) noLock g)
    (hdev : g.log.dev = dv) (hstart : g.log.start = start) (hlh : g.log.lh = bs)
    (hok : HeadOk start bs) :
    Total kern p (installTransFrom fuel k)
      (fun _ g' => (∃ n, bs.length ≤ n ∧ Counted dv (counts c bs n) noLock g') ∧
        g'.log = g.log) g := by
  induction fuel generalizing k g with
  | zero => exact ⟨⟨k, by omega, hc⟩, rfl⟩
  | succ fuel ih =>
    refine total_act (show kern.exec p .getLog g = .done g.log g from rfl) ?_
    rw [hlh]
    cases hk : bs[k]? with
    | none => exact ⟨⟨k, List.getElem?_eq_none_iff.1 hk, hc⟩, rfl⟩
    | some b =>
      obtain ⟨hlt, rfl⟩ := List.getElem?_eq_some_iff.1 hk
      rw [hdev, hstart]
      refine pair_total hok hlt le_rfl hc fun lbuf dbuf g3 hp => ?_
      refine total_act (show kern.exec p (.getData lbuf) g3 = .done
        (g3.buf lbuf).data g3 from rfl) ?_
      refine store_total hp.counted hp.home (update_self ..) ?_
      intro g4 hc4 hlog4 keeps4
      obtain ⟨g5, h5, hc5, hs5, keeps5⟩ := bunpin_total (p := p) hc4 (keeps4 _ _ hp.home)
      refine total_act h5 ?_
      refine total_bind (total_mono (brelse_total hc5 (keeps5 _ _ (keeps4 _ _ hp.slot)) ?_) ?_)
      · rw [update_of_ne hp.ne, update_self]
      rintro u g6 ⟨hc6, hs6, keeps6⟩
      refine total_bind
        (total_mono (brelse_total hc6 (keeps6 _ _ (keeps5 _ _ (keeps4 _ _ hp.home))) ?_) ?_)
      · rw [update_of_ne hp.ne.symm, update_self]
      rintro u g7 ⟨hc7, hs7, -⟩
      have hlog7 : g7.log = g.log := by
        rw [hs7.2.1, hs6.2.1, hs5.2.1, hlog4, hp.log]
      have hcnt := counts_getElem (c := c) le_rfl hlt hok.nodup
      rw [(round_locks _ _).1, round_counts hp.ne hp.zero, hcnt, counts_succ hlt] at hc7
      refine total_mono (ih (k + 1) (by omega) hc7 (by rw [hlog7, hdev]) (by rw [hlog7, hstart])
        (by rw [hlog7, hlh])) ?_
      rintro u g8 ⟨hc8, hlog8⟩
      exact ⟨hc8, hlog8.trans hlog7⟩

theorem writeLogFrom_total (start : UInt32) (bs : List UInt32) (fuel k : ℕ)
    (hfuel : bs.length ≤ k + fuel) (hc : Counted dv (counts c bs 0) noLock g)
    (hdev : g.log.dev = dv) (hstart : g.log.start = start) (hlh : g.log.lh = bs)
    (hok : HeadOk start bs) :
    Total kern p (writeLogFrom fuel k)
      (fun _ g' => Counted dv (counts c bs 0) noLock g' ∧ g'.log = g.log) g := by
  induction fuel generalizing k g with
  | zero => exact ⟨hc, rfl⟩
  | succ fuel ih =>
    refine total_act (show kern.exec p .getLog g = .done g.log g from rfl) ?_
    rw [hlh]
    cases hk : bs[k]? with
    | none => exact ⟨hc, rfl⟩
    | some b =>
      obtain ⟨hlt, rfl⟩ := List.getElem?_eq_some_iff.1 hk
      rw [hdev, hstart]
      refine pair_total hok hlt (Nat.zero_le k) hc fun to_ from_ g3 hp => ?_
      refine total_act (show kern.exec p (.getData from_) g3 = .done
        (g3.buf from_).data g3 from rfl) ?_
      refine store_total hp.counted hp.slot (by rw [update_of_ne hp.ne, update_self]) ?_
      intro g4 hc4 hlog4 keeps4
      refine total_bind (total_mono (brelse_total hc4 (keeps4 _ _ hp.home) (update_self ..)) ?_)
      rintro u g5 ⟨hc5, hs5, keeps5⟩
      refine total_bind (total_mono (brelse_total hc5 (keeps5 _ _ (keeps4 _ _ hp.slot)) ?_) ?_)
      · rw [update_of_ne hp.ne, update_of_ne hp.ne, update_self]
      rintro u g6 ⟨hc6, hs6, -⟩
      have hlog6 : g6.log = g.log := by
        rw [hs6.2.1, hs5.2.1, hlog4, hp.log]
      rw [(round_locks _ _).2, round_counts hp.ne hp.zero] at hc6
      refine total_mono (ih (k + 1) (by omega) hc6 (by rw [hlog6, hdev]) (by rw [hlog6, hstart])
        (by rw [hlog6, hlh])) ?_
      rintro u g7 ⟨hc7, hlog7⟩
      exact ⟨hc7, hlog7.trans hlog6⟩

end Rounds

theorem writeHead_total (hc : Counted dv C noLock g) (room : Room C) (hdev : g.log.dev = dv)
    (h0 : C g.log.start = 0) :
    Total kern p writeHead (fun _ g' => Counted dv C noLock g' ∧ g'.log = g.log) g := by
  refine total_act (show kern.exec p .getLog g = .done g.log g from rfl) ?_
  rw [hdev]
  refine total_bind (total_mono (bread_total hc (fun _ => room) rfl noLock_counted) ?_)
  intro i g2 hb
  have hc2 := hb.counted
  rw [h0, UInt32.zero_add] at hc2
  refine total_act (show kern.exec p (.getData i) g2 = .done (g2.buf i).data g2 from rfl) ?_
  refine total_act (show kern.exec p .getLog g2 = .done g2.log g2 from rfl) ?_
  refine store_total hc2 hb.isBuf (update_self ..) ?_
  intro g3 hc3 hlog3 keeps3
  refine total_mono (brelse_total hc3 (keeps3 _ _ hb.isBuf) (update_self ..)) ?_
  rintro u g4 ⟨hc4, hs4, -⟩
  rw [release_counts h0, release_locks] at hc4
  exact ⟨hc4, by rw [hs4.2.1, hlog3, hb.same.2.1]⟩

theorem counted_boot (d : UInt32 → Block) (log : Log) :
    Counted ROOTDEV (dropped []) noLock { boot d with log := log } := by
  have hdev : ∀ i, (({ boot d with log := log } : Kern).buf i).dev ≠ ROOTDEV :=
    fun i => show (0 : UInt32) ≠ 1 by decide
  constructor
  · intro i
    exact List.mem_reverse.2 (List.mem_finRange i)
  · exact fun i j hi _ _ => absurd hi (hdev i)
  · intro i
    rw [if_neg (hdev i)]
    rfl
  · intro i
    rw [if_neg (hdev i)]
    rfl
  · exact fun b hb => absurd (dropped_of_notMem List.not_mem_nil) hb

theorem initlog_total (p : Proc) {start : UInt32} {d : UInt32 → Block}
    (hok : HeadOk start (headList (d start))) :
    Total kern p (initlog ROOTDEV start LOGSIZE)
      (fun _ => Counted ROOTDEV (dropped (headList (d start))) noLock) (boot d) := by
  refine total_act (h := { boot d with log := ⟨start, LOGSIZE, 0, false, ROOTDEV, []⟩ }) rfl ?_
  have hc := counted_boot d ⟨start, LOGSIZE, 0, false, ROOTDEV, []⟩
  have hfresh : ∀ j, ((boot d).buf j).dev ≠ ROOTDEV := fun j => show (0 : UInt32) ≠ 1 by decide
  -- read_head
  refine total_bind (total_act (b := ⟨start, LOGSIZE, 0, false, ROOTDEV, []⟩) rfl ?_)
  refine total_bind (total_mono (bread_total hc
    (fun _ => ⟨[], by decide, fun b hb => (hb rfl).elim⟩) rfl noLock_counted) ?_)
  intro i g1 hb
  have hc1 := hb.counted
  have hzero : dropped [] start = 0 := rfl
  rw [hzero, UInt32.zero_add] at hc1
  refine total_act (show kern.exec p (.getData i) g1 = .done (g1.buf i).data g1 from rfl) ?_
  rw [hb.fresh hfresh]
  change Total kern p (Prog.perform (.setLh (headList (d start))) >>= fun _ => brelse i) _ g1
  have hset : kern.exec p (.setLh (headList (d start))) g1 =
      .done () (g1.modLog fun l => { l with lh := headList (d start) }) := by
    simp only [kern, exec, hok.fits.le, ↓reduceIte]
  have hc2 : Counted ROOTDEV (update (dropped []) start 1)
      (update noLock start (some p))
      (g1.modLog fun l => { l with lh := headList (d start) }) :=
    { hc1 with }
  refine total_act hset (total_mono (brelse_total hc2 hb.isBuf (update_self ..)) ?_)
  rintro u g2 ⟨hc2, hs2, -⟩
  rw [release_counts rfl, release_locks, ← counts_boot (headList (d start))] at hc2
  have hlog2 : g2.log = ⟨start, LOGSIZE, 0, false, ROOTDEV, headList (d start)⟩ := by
    rw [hs2.2.1, modLog_log, hb.same.2.1]
  -- install_trans
  refine total_bind (total_mono (installTransFrom_total start (headList (d start)) LOGSIZE 0
    (by have := hok.fits; omega) hc2 (by rw [hlog2]) (by rw [hlog2]) (by rw [hlog2]) hok) ?_)
  rintro u g3 ⟨⟨n, hn, hc3⟩, hlog3⟩
  rw [counts_dropped hn] at hc3
  refine total_act (h := g3.modLog fun l => { l with lh := [] }) rfl ?_
  have hlog4 : (g3.modLog fun l => { l with lh := [] }).log =
      ⟨start, LOGSIZE, 0, false, ROOTDEV, []⟩ := by rw [modLog_log, hlog3, hlog2]
  -- write_head
  refine total_mono (writeHead_total { hc3 with }
    (room_of_subset hok.fits fun b => dropped_of_notMem) (by rw [hlog4]) ?_) fun _ _ h => h.1
  rw [hlog4]
  exact dropped_of_notMem hok.start_notMem

theorem bread_counts (hc : Counted ROOTDEV (dropped bs) noLock g) (hlen : bs.length < NBUF)
    (q : Proc) (b : UInt32) :
    Total kern q (bread ROOTDEV b) (fun i g' => (g'.buf i).lock = some q ∧
      (g'.buf i).refcnt = if b ∈ bs then 0 else 1) g := by
  refine total_mono (bread_total hc
    (fun _ => room_of_subset hlen fun b => dropped_of_notMem) rfl noLock_counted) ?_
  intro i g' hg
  rw [hg.counted.lock i, hg.counted.count i, if_pos hg.isBuf.1, if_pos hg.isBuf.1, hg.isBuf.2.1,
    update_self, update_self, dropped]
  refine ⟨rfl, ?_⟩
  split_ifs <;> rfl

theorem Counted.dropped_resident (hc : Counted ROOTDEV (dropped bs) noLock g) (hb : b ∈ bs) :
    ∃ i, (g.buf i).blockno = b ∧ (g.buf i).refcnt = -1 := by
  have hm : dropped bs b = -1 := if_pos hb
  obtain ⟨i, hd, hi⟩ := hc.resident b (by rw [hm]; decide)
  exact ⟨i, hi, by rw [hc.count i, if_pos hd, hi, hm]⟩

/-- Booting from a log with `n` committed blocks leaves every buffer unlocked; the
    counts are balanced, and stay so at the next read, exactly if `n` is 0. -/
theorem initlog_balanced_iff (p : Proc) (start : UInt32) (d : UInt32 → Block)
    (hok : HeadOk start (headList (d start))) :
    ∃ g, run kern p (initlog ROOTDEV start LOGSIZE) (boot d) = .done () g ∧
      (∀ i, (g.buf i).lock = none) ∧
      ((∀ i, (g.buf i).refcnt = 0) ↔ headList (d start) = []) ∧
      ((∀ q b, Total kern q (bread ROOTDEV b)
        (fun i g' => (g'.buf i).lock = some q ∧ (g'.buf i).refcnt ≠ 0) g) ↔
        headList (d start) = []) := by
  obtain ⟨u, g, hrun, hc⟩ := total_iff_run.1 (initlog_total p hok)
  refine ⟨g, hrun, ?_, ⟨?_, ?_⟩, ⟨?_, ?_⟩⟩
  · intro i
    rw [hc.lock i]
    exact ite_id none
  · intro hz
    by_contra hne
    obtain ⟨b, hb⟩ := List.exists_mem_of_ne_nil _ hne
    obtain ⟨i, -, hi⟩ := hc.dropped_resident hb
    rw [hz i] at hi
    exact absurd hi (by decide)
  · intro hnil i
    rw [hc.count i, hnil]
    exact ite_id 0
  · intro hread
    by_contra hne
    obtain ⟨b, hb⟩ := List.exists_mem_of_ne_nil _ hne
    obtain ⟨i, g', hr, -, hpos⟩ := total_iff_run.1 (hread p b)
    obtain ⟨j, g'', hr', -, hz⟩ := total_iff_run.1 (bread_counts hc hok.fits p b)
    rw [hr] at hr'
    cases hr'
    exact hpos (by rw [hz, if_pos hb])
  · intro hnil q b
    refine total_mono (bread_counts hc hok.fits q b) ?_
    rintro i g' ⟨hl, hr⟩
    rw [hnil, if_neg List.not_mem_nil] at hr
    exact ⟨hl, by rw [hr]; decide⟩

theorem initlog_balanced_iff_empty :
    let d : UInt32 → Block := fun _ _ => 0
    HeadOk 2 (headList (d 2)) ∧
      ∃ g, run kern 0 (initlog ROOTDEV 2 LOGSIZE) (boot d) = .done () g ∧
        ∀ i, (g.buf i).refcnt = 0 ∧ (g.buf i).lock = none := by
  intro d
  have hnil : headList (d 2) = [] := headList_of_zero rfl
  have hok : HeadOk 2 (headList (d 2)) := by
    rw [hnil]
    exact headOk_nil
  obtain ⟨g, hrun, hlock, hcnt, -⟩ := initlog_balanced_iff 0 2 d hok
  exact ⟨hok, g, hrun, fun i => ⟨hcnt.2 hnil i, hlock i⟩⟩

def oneCommitted : UInt32 → Block := update (fun _ _ => 0) 2 (putHead [45] fun _ => 0)

theorem headList_oneCommitted : headList (oneCommitted 2) = [45] := by
  rw [oneCommitted, update_self]
  exact headList_putHead [45] _ (by decide)

theorem headOk_oneCommitted : HeadOk 2 (headList (oneCommitted 2)) := by
  rw [headList_oneCommitted]
  refine ⟨List.nodup_singleton 45, by decide, fun b hb => ?_⟩
  rw [List.mem_singleton.1 hb]
  exact not_inLog_of_le (by decide)

/-- After this boot the buffer of block 45 is referred to by nobody and counts
    2³² - 1; the process that reads it next holds a buffer whose count is 0. -/
theorem initlog_unbalanced :
    ∃ g, run kern 0 (initlog ROOTDEV 2 LOGSIZE) (boot oneCommitted) = .done () g ∧
      (∃ i, (g.buf i).blockno = 45 ∧ (g.buf i).refcnt = 0xFFFFFFFF) ∧
      ∃ i g', run kern 1 (bread ROOTDEV 45) g = .done i g' ∧
        (g'.buf i).lock = some 1 ∧ (g'.buf i).refcnt = 0 := by
  obtain ⟨u, g, hrun, hc⟩ := total_iff_run.1 (initlog_total 0 headOk_oneCommitted)
  rw [headList_oneCommitted] at hc
  refine ⟨g, hrun, hc.dropped_resident (List.mem_singleton_self 45), ?_⟩
  obtain ⟨i, g', hr, hl, hz⟩ := total_iff_run.1 (bread_counts hc (by decide) 1 45)
  exact ⟨i, g', hr, hl, by rw [hz, if_pos (List.mem_singleton_self 45)]⟩

end Xv6.BootRecovery
