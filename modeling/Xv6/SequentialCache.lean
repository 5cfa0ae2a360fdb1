import Xv6.CrashLogic
import Xv6.LogActions

set_option autoImplicit false

/-! While a single process runs, the cache presents a store `V`: a valid buffer has the contents `V`
of its block, and so has the disk where the block is not pinned. `H` counts the references the
process holds on a block, `X` are the blocks whose counts are unknown. -/
namespace Xv6.SequentialCache
open Resumption CrashLogic LogCode LogActions
open Function (update update_of_ne update_self)

variable {i : BufId} {b : UInt32} {g' : Kern} {α : Type} {Q : α → Kern → Prop}

def IsBuf (g : Kern) (i : BufId) (dev b : UInt32) : Prop :=
  (g.buf i).dev = dev ∧ (g.buf i).blockno = b ∧ (g.buf i).valid = true

structure Cached (dv : UInt32) (V : UInt32 → Block) (P X : UInt32 → Prop) (H : UInt32 → ℕ)
    (g : Kern) : Prop where
  lru : ∀ i, i ∈ g.lru
  uniq : ∀ i j, (g.buf i).dev = dv → (g.buf j).dev = dv →
    (g.buf i).blockno = (g.buf j).blockno → i = j
  data : ∀ i, (g.buf i).dev = dv → (g.buf i).valid = true → (g.buf i).data = V (g.buf i).blockno
  dirty : ∀ b, g.disk b ≠ V b → P b
  sane : ∀ i, (g.buf i).dev = dv → ¬ X (g.buf i).blockno →
    H (g.buf i).blockno ≤ (g.buf i).refcnt.toNat ∧
      (g.buf i).refcnt.toNat < 2 ^ 31 + H (g.buf i).blockno
  pinned : ∀ i, (g.buf i).dev = dv → P (g.buf i).blockno →
    H (g.buf i).blockno < (g.buf i).refcnt.toNat
  kept : ∀ b, P b ∨ 0 < H b → ¬ X b ∧ ∃ i, IsBuf g i dv b

def SameStore (g g' : Kern) : Prop := g'.disk = g.disk ∧ g'.log = g.log ∧ g'.trace = g.trace

variable {dv : UInt32} {V : UInt32 → Block} {P X : UInt32 → Prop} {H : UInt32 → ℕ} {g : Kern}
  {p : Proc}

theorem Cached.data_eq (hc : Cached dv V P X H g) (hi : IsBuf g i dv b) : (g.buf i).data = V b := by
  rw [hc.data i hi.1 hi.2.2, hi.2.1]

theorem Cached.clean (hc : Cached dv V P X H g) (hb : ¬ P b) : g.disk b = V b := by
  by_contra h
  exact hb (hc.dirty b h)

theorem Cached.place (hc : Cached dv V P X H g) (f : Buf → Buf)
    (hdev : (f (g.buf i)).dev = dv) (hb : (f (g.buf i)).blockno = b)
    (hvalid : (f (g.buf i)).valid = true) (hdata : (f (g.buf i)).data = V b)
    (hX : ¬ X b) (href : 1 ≤ (f (g.buf i)).refcnt.toNat)
    (hlt : (f (g.buf i)).refcnt.toNat < 2 ^ 31 + 1)
    (hpin : P b → 1 < (f (g.buf i)).refcnt.toNat)
    (here : ∀ j, (g.buf j).dev = dv → (g.buf j).blockno = b → j = i)
    (old : (g.buf i).dev = dv → (g.buf i).blockno ≠ b →
      ¬ P (g.buf i).blockno ∧ H (g.buf i).blockno = 0) :
    Cached dv V P X (update H b 1) (g.modBuf i f) := by
  have hne : ∀ j, j ≠ i → (g.buf j).dev = dv → (g.buf j).blockno ≠ b :=
    fun j hj hd he => hj (here j hd he)
  constructor
  · exact hc.lru
  · grind [modBuf_buf, hc.uniq]
  · grind [modBuf_buf, hc.data]
  · exact hc.dirty
  · intro j
    have hsane := hc.sane j
    rw [modBuf_buf]
    grind
  · intro j
    have hpinned := hc.pinned j
    rw [modBuf_buf]
    grind
  · intro b1
    have hkept := hc.kept b1
    simp only [IsBuf, modBuf_buf] at hkept ⊢
    grind

theorem modBuf_modBuf (g : Kern) (i : BufId) (f h : Buf → Buf) :
    (g.modBuf i f).modBuf i h = g.modBuf i fun x => h (f x) := by
  simp [Kern.modBuf]

/-- What `bread` leaves: the block's buffer is valid and referred to once more, and
    the buffers of the blocks kept so far are still theirs. -/
structure Bread (dv : UInt32) (V : UInt32 → Block) (P X : UInt32 → Prop) (H : UInt32 → ℕ)
    (g : Kern) (b : UInt32) (i : BufId) (g' : Kern) : Prop where
  cached : Cached dv V P X (update H b 1) g'
  isBuf : IsBuf g' i dv b
  same : SameStore g g'
  keeps : ∀ j b', IsBuf g j dv b' → P b' ∨ 0 < H b' → IsBuf g' j dv b'

section

variable (hc : Cached dv V P X H g)
include hc

theorem Cached.bread_of_place (f : Buf → Buf) (hg : g' = g.modBuf i f)
    (hdev : (f (g.buf i)).dev = dv) (hb : (f (g.buf i)).blockno = b)
    (hvalid : (f (g.buf i)).valid = true) (hdata : (f (g.buf i)).data = V b) (hX : ¬ X b)
    (href : 1 ≤ (f (g.buf i)).refcnt.toNat) (hlt : (f (g.buf i)).refcnt.toNat < 2 ^ 31 + 1)
    (hpin : P b → 1 < (f (g.buf i)).refcnt.toNat)
    (here : ∀ j, (g.buf j).dev = dv → (g.buf j).blockno = b → j = i)
    (old : (g.buf i).dev = dv → (g.buf i).blockno ≠ b →
      ¬ P (g.buf i).blockno ∧ H (g.buf i).blockno = 0) :
    Bread dv V P X H g b i g' := by
  subst hg
  have hi : IsBuf (g.modBuf i f) i dv b := by
    rw [IsBuf, modBuf_self]
    exact ⟨hdev, hb, hvalid⟩
  refine ⟨hc.place f hdev hb hvalid hdata hX href hlt hpin here old, hi, ⟨rfl, rfl, rfl⟩, ?_⟩
  intro j b' hj hk
  by_cases hji : j = i
  · subst hji
    by_cases he : b' = b
    · exact he ▸ hi
    · have := old hj.1 (by rw [hj.2.1]; exact he)
      rw [hj.2.1] at this
      rcases hk with h | h
      · exact absurd h this.1
      · omega
  · rw [IsBuf, modBuf_of_ne _ _ hji]
    exact hj

theorem Cached.touch (i : BufId) (f : Buf → Buf) (hdev : (f (g.buf i)).dev = (g.buf i).dev)
    (hb : (f (g.buf i)).blockno = (g.buf i).blockno)
    (hvalid : (f (g.buf i)).valid = (g.buf i).valid) (hdata : (f (g.buf i)).data = (g.buf i).data)
    (href : (g.buf i).dev = dv → ¬ X (g.buf i).blockno →
      (f (g.buf i)).refcnt = (g.buf i).refcnt) :
    Cached dv V P X H (g.modBuf i f) := by
  constructor
  · exact hc.lru
  · grind [modBuf_buf, hc.uniq]
  · grind [modBuf_buf, hc.data]
  · exact hc.dirty
  · intro j
    have hsane := hc.sane j
    rw [modBuf_buf]
    grind
  · intro j
    have hpinned := hc.pinned j
    have hkept := hc.kept (g.buf j).blockno
    rw [modBuf_buf]
    grind
  · intro b1
    have hkept := hc.kept b1
    simp only [IsBuf, modBuf_buf] at hkept ⊢
    grind

theorem Cached.with_lru (lru : List BufId) (h : ∀ i, i ∈ lru) :
    Cached dv V P X H { g with lru := lru } :=
  ⟨h, hc.uniq, hc.data, hc.dirty, hc.sane, hc.pinned, hc.kept⟩

theorem Cached.drop (hi : IsBuf g i dv b) (hH : H b = 1) :
    Cached dv V P X (update H b 0)
      (g.modBuf i fun f => { f with refcnt := f.refcnt - 1 }) := by
  have hX : ¬ X b := (hc.kept b (.inr (by omega))).1
  have hs := hc.sane i hi.1 (by rwa [hi.2.1])
  rw [hi.2.1, hH] at hs
  have hr : ((g.buf i).refcnt - 1).toNat = (g.buf i).refcnt.toNat - 1 := by
    rw [UInt32.toNat_sub_of_le]
    · rfl
    · rw [UInt32.le_iff_toNat_le]
      exact hs.1
  have other : ∀ j, j ≠ i → (g.buf j).dev = dv → (g.buf j).blockno ≠ b :=
    fun j hj hd he => hj (hc.uniq j i hd hi.1 (he.trans hi.2.1.symm))
  constructor
  · exact hc.lru
  · grind [modBuf_buf, hc.uniq]
  · grind [modBuf_buf, hc.data]
  · exact hc.dirty
  · intro j
    have hsane := hc.sane j
    rw [modBuf_buf]
    grind [hi.2.1]
  · intro j
    have hpinned := hc.pinned j
    rw [modBuf_buf]
    grind [hi.2.1]
  · intro b1
    have hkept := hc.kept b1
    simp only [IsBuf, modBuf_buf] at hkept ⊢
    grind

theorem Cached.giveUp (hb : g.disk b = V b) :
    Cached dv V (fun x => P x ∧ x ≠ b) (fun x => X x ∨ x = b) (update H b 0) g := by
  have hne : ∀ {x}, ¬ (X x ∨ x = b) → x ≠ b ∧ ¬ X x := fun h =>
    ⟨fun e => h (.inr e), fun e => h (.inl e)⟩
  constructor
  · exact hc.lru
  · exact hc.uniq
  · exact hc.data
  · intro b' h
    exact ⟨hc.dirty b' h, fun e => h (e ▸ hb)⟩
  · have hold := hc.sane
    grind
  · intro i hd hp
    rw [update_of_ne hp.2]
    exact hc.pinned i hd hp.1
  · grind [hc.kept]

theorem Cached.store (hi : IsBuf g i dv b) (d : Block)
    (hbuf : g'.buf = (g.modBuf i fun f => { f with data := d }).buf) (hlru : g'.lru = g.lru)
    (hdisk : g'.disk = update g.disk b d) :
    Cached dv (update V b d) P X H g' := by
  have eqs : ∀ j, (g'.buf j).dev = (g.buf j).dev ∧ (g'.buf j).blockno = (g.buf j).blockno ∧
      (g'.buf j).valid = (g.buf j).valid ∧ (g'.buf j).refcnt = (g.buf j).refcnt := by
    intro j
    rw [hbuf, modBuf_buf]
    split_ifs with h
    · exact h ▸ ⟨rfl, rfl, rfl, rfl⟩
    · exact ⟨rfl, rfl, rfl, rfl⟩
  constructor
  · rw [hlru]
    exact hc.lru
  · grind [hc.uniq]
  · intro j hj hv
    rw [(eqs j).1] at hj
    rw [(eqs j).2.2.1] at hv
    rw [(eqs j).2.1, hbuf, modBuf_buf]
    split_ifs with h
    · rw [h, hi.2.1, update_self]
    · rw [update_of_ne, hc.data j hj hv]
      exact fun he => h (hc.uniq j i hj hi.1 (he.trans hi.2.1.symm))
  · rw [hdisk]
    grind [hc.dirty]
  · intro j
    have hsane := hc.sane j
    grind
  · intro j
    have hpinned := hc.pinned j
    grind
  · intro b1
    have hkept := hc.kept b1
    simp only [IsBuf] at hkept ⊢
    grind

end

section Crash

variable {K : (UInt32 → Block) → List Event → Prop}

theorem crash_same (hK : K g.disk g.trace) (h : SameStore g g') : K g'.disk g'.trace := by
  rw [h.1, h.2.2]
  exact hK

theorem getLog_safe {k : Log → Prog Act α} (hK : K g.disk g.trace)
    (h : CrashSafe kern p (fun g => K g.disk g.trace) (k g.log) Q g) :
    CrashSafe kern p (fun g => K g.disk g.trace) (Prog.perform .getLog >>= k) Q g := by
  refine CrashSafe.act hK fun l g1 h₁ => ?_
  obtain ⟨hl, hg⟩ := getLog_done h₁
  rw [hl, hg]
  exact h

theorem getData_safe {k : Block → Prog Act α} (hK : K g.disk g.trace)
    (h : CrashSafe kern p (fun g => K g.disk g.trace) (k (g.buf i).data) Q g) :
    CrashSafe kern p (fun g => K g.disk g.trace) (Prog.perform (.getData i) >>= k) Q g := by
  refine CrashSafe.act hK fun d g1 h₁ => ?_
  obtain ⟨hd, hg⟩ := getData_done h₁
  rw [hd, hg]
  exact h

theorem bread_safe (hc : Cached dv V P X H g) (hK : K g.disk g.trace) (hX : ¬ X b) (hH : H b = 0) :
    CrashSafe kern p (fun g => K g.disk g.trace) (bread dv b) (Bread dv V P X H g b) g := by
  refine ⟨hK, fun i g1 h₁ => ?_⟩
  rcases bget_cases h₁ with ⟨hl, rfl⟩ | ⟨hl, hv, rfl⟩
  · obtain ⟨hd, hbn⟩ := lookup_some hl
    have hs := hc.sane i hd (by rwa [hbn])
    rw [hbn, hH] at hs
    have hr : ((g.buf i).refcnt + 1).toNat = (g.buf i).refcnt.toNat + 1 := by
      rw [UInt32.toNat_add]
      exact Nat.mod_eq_of_lt (by have : (1 : UInt32).toNat = 1 := rfl; omega)
    have hp : P b → 1 < ((g.buf i).refcnt + 1).toNat := by
      intro hp
      have := hc.pinned i hd (by rwa [hbn])
      omega
    have here : ∀ j, (g.buf j).dev = dv → (g.buf j).blockno = b → j = i :=
      fun j hj he => hc.uniq j i hj hd (he.trans hbn.symm)
    refine ⟨crash_same hK ⟨rfl, rfl, rfl⟩, fun u g2 h₂ => ?_⟩
    obtain ⟨-, rfl⟩ := acquiresleep_done h₂
    refine ⟨crash_same hK ⟨rfl, rfl, rfl⟩, fun u g3 h3 => ?_⟩
    rw [modBuf_modBuf] at h3
    rcases fill_cases h3 with ⟨hv, rfl⟩ | ⟨hv, rfl⟩
    · rw [modBuf_self] at hv
      refine ⟨crash_same hK ⟨rfl, rfl, rfl⟩, hc.bread_of_place _ rfl hd hbn hv ?_ hX ?_ ?_ hp here
        fun _ hne => absurd hbn hne⟩
      · exact hc.data_eq ⟨hd, hbn, hv⟩
      · simp only; omega
      · simp only; omega
    rw [modBuf_self] at hv
    refine ⟨crash_same hK ⟨rfl, rfl, rfl⟩, hc.bread_of_place _ (modBuf_modBuf ..) hd hbn rfl ?_
      hX ?_ ?_ hp here fun _ hne => absurd hbn hne⟩
    · -- a block without a valid buffer is not kept, so the disk has its contents
      have hnp : ¬ P b := by
        intro hp
        obtain ⟨-, j, hj⟩ := hc.kept b (.inl hp)
        rw [here j hj.1 hj.2.1] at hj
        exact absurd hj.2.2 (by simp only at hv; simp [hv])
      simp only [modBuf_disk, hbn]
      exact hc.clean hnp
    · simp only; omega
    · simp only; omega
  · have hmiss := lookup_none hl
    have h0 : (g.buf i).refcnt.toNat = 0 := by rw [victim_some hv]; rfl
    have hone : (1 : UInt32).toNat = 1 := rfl
    have hnp : ¬ P b := by
      intro hp
      obtain ⟨-, j, hj⟩ := hc.kept b (.inl hp)
      exact hmiss j (hc.lru j) ⟨hj.1, hj.2.1⟩
    refine ⟨crash_same hK ⟨rfl, rfl, rfl⟩, fun u g2 h₂ => ?_⟩
    obtain ⟨-, rfl⟩ := acquiresleep_done h₂
    refine ⟨crash_same hK ⟨rfl, rfl, rfl⟩, fun u g3 h3 => ?_⟩
    rw [modBuf_modBuf] at h3
    rcases fill_cases h3 with ⟨hv', rfl⟩ | ⟨-, rfl⟩
    · rw [modBuf_self] at hv'
      cases hv'
    refine ⟨crash_same hK ⟨rfl, rfl, rfl⟩, hc.bread_of_place _ (modBuf_modBuf ..) rfl rfl rfl
      (hc.clean hnp) hX (by simp only; omega) (by simp only; omega)
      (fun h => absurd h hnp) (fun j hj he => absurd ⟨hj, he⟩ (hmiss j (hc.lru j))) ?_⟩
    -- the victim has no references, so its block is neither pinned nor held
    intro hd hne
    have hnp' : ¬ P (g.buf i).blockno := by
      intro hp
      have := hc.pinned i hd hp
      omega
    refine ⟨hnp', ?_⟩
    by_contra hh
    have hk := (hc.kept _ (.inr (Nat.pos_of_ne_zero hh))).1
    have := (hc.sane i hd hk).1
    omega

theorem isBuf_modBuf {j : BufId} (i : BufId) (f : Buf → Buf) (h : IsBuf g j dv b)
    (hbuf : g'.buf = (g.modBuf i f).buf) (hdev : (f (g.buf i)).dev = (g.buf i).dev)
    (hb : (f (g.buf i)).blockno = (g.buf i).blockno)
    (hvalid : (f (g.buf i)).valid = (g.buf i).valid) : IsBuf g' j dv b := by
  rw [IsBuf, hbuf, modBuf_buf]
  split_ifs with hj
  · subst hj
    rw [hdev, hb, hvalid]
    exact h
  · exact h

structure Brelse (dv : UInt32) (V : UInt32 → Block) (P X : UInt32 → Prop) (H : UInt32 → ℕ)
    (g g' : Kern) : Prop where
  cached : Cached dv V P X H g'
  same : SameStore g g'
  keeps : ∀ j b', IsBuf g j dv b' → IsBuf g' j dv b'

theorem brelse_safe_of_drop {H' : UInt32 → ℕ} (hc : Cached dv V P X H g) (hK : K g.disk g.trace)
    (hdrop : ∀ g1, Cached dv V P X H g1 → (∀ b, IsBuf g i dv b → IsBuf g1 i dv b) →
      Cached dv V P X H' (g1.modBuf i fun f => { f with refcnt := f.refcnt - 1 })) :
    CrashSafe kern p (fun g => K g.disk g.trace) (brelse i) (fun _ => Brelse dv V P X H' g) g := by
  refine ⟨hK, fun u g1 h₁ => ?_⟩
  obtain ⟨-, rfl⟩ := unlock_done h₁
  have hc1 := hc.touch i (fun f => { f with lock := none }) rfl rfl rfl rfl fun _ _ => rfl
  refine ⟨crash_same hK ⟨rfl, rfl, rfl⟩, fun u g2 h₂ => ?_⟩
  obtain rfl := unref_done h₂
  refine ⟨crash_same hK ⟨rfl, rfl, rfl⟩, ?_, ⟨rfl, rfl, rfl⟩, ?_⟩
  · exact (hdrop _ hc1 fun b hi => isBuf_modBuf i _ hi rfl rfl rfl rfl).with_lru _
      fun j => mem_unrefLru _ i j (hc1.lru j)
  · intro j b' hj
    have hj1 := isBuf_modBuf i (fun f => { f with lock := none }) hj rfl rfl rfl rfl
    exact isBuf_modBuf i (fun f => { f with refcnt := f.refcnt - 1 }) hj1 rfl rfl rfl rfl

theorem brelse_safe (hc : Cached dv V P X H g) (hK : K g.disk g.trace) (hi : IsBuf g i dv b)
    (hH : H b = 1) :
    CrashSafe kern p (fun g => K g.disk g.trace) (brelse i)
      (fun _ => Brelse dv V P X (update H b 0) g) g :=
  brelse_safe_of_drop hc hK fun _ hc1 hkeep => hc1.drop (hkeep b hi) hH

theorem brelse_safe_of_givenUp (hc : Cached dv V P X H g) (hK : K g.disk g.trace)
    (hi : IsBuf g i dv b) (hX : X b) :
    CrashSafe kern p (fun g => K g.disk g.trace) (brelse i) (fun _ => Brelse dv V P X H g) g := by
  refine brelse_safe_of_drop hc hK fun g1 hc1 hkeep => ?_
  refine hc1.touch i (fun f => { f with refcnt := f.refcnt - 1 }) rfl rfl rfl rfl fun _ hx => ?_
  exact absurd ((hkeep b hi).2.1 ▸ hX) hx

structure Stored (dv : UInt32) (V : UInt32 → Block) (P X : UInt32 → Prop) (H : UInt32 → ℕ)
    (g : Kern) (b : UInt32) (d : Block) (g' : Kern) : Prop where
  cached : Cached dv (update V b d) P X H g'
  disk : g'.disk = update g.disk b d
  log : g'.log = g.log
  trace : g'.trace = .wrote b d :: g.trace
  keeps : ∀ j b', IsBuf g j dv b' → IsBuf g' j dv b'

theorem store_safe {k : Unit → Prog Act α}
    (hc : Cached dv V P X H g) (hK : K g.disk g.trace) {d : Block}
    (hi : IsBuf g i dv b) (hK' : K (update g.disk b d) (.wrote b d :: g.trace))
    (tail : ∀ g', K g'.disk g'.trace → Stored dv V P X H g b d g' →
      CrashSafe kern p (fun g => K g.disk g.trace) (k ()) Q g') :
    CrashSafe kern p (fun g => K g.disk g.trace)
      (Prog.perform (.setData i d) >>= fun _ => Prog.perform (.bwrite i) >>= k) Q g := by
  refine CrashSafe.act hK fun u g1 h₁ => ?_
  obtain rfl := setData_done h₁
  refine CrashSafe.act (crash_same hK ⟨rfl, rfl, rfl⟩) fun u g2 h₂ => ?_
  obtain ⟨-, hg2⟩ := bwrite_done h₂
  rw [modBuf_self, hi.2.1] at hg2
  have hd : g2.disk = update g.disk b d := by rw [hg2]; rfl
  have ht : g2.trace = .wrote b d :: g.trace := by rw [hg2]; rfl
  refine tail g2 ?_ ⟨hc.store hi d ?_ ?_ hd, hd, ?_, ht, fun j b' hj =>
    isBuf_modBuf i (fun f => { f with data := d }) hj ?_ rfl rfl rfl⟩
  · rw [hd, ht]
    exact hK'
  all_goals rw [hg2]; rfl

end Crash

end Xv6.SequentialCache
