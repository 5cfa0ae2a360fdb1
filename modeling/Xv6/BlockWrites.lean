import Mathlib.Order.Interval.Finset.Nat
import Xv6.BlockFiles

set_option autoImplicit false

namespace Xv6.BlockWrites
open Xv6.Sequential ByteFields DiskFormat BlockCode BlockFiles
open LogCode (Block BSIZE)
open InodeCode (NDIRECT NINDIRECT MAXFILE)
open Function (update update_of_ne update_self)

variable {sb : Superblock} {first : ℕ}
variable {s s' : Fs} {i k off len m tot off' n ip : ℕ} {src : Source} {P : Finset Place} {f : File}

theorem Sound.congr (h : Sound sb first s)
    (hslot : ∀ x : Slot, x.1 < sb.ninodes → slot s' x = slot s x)
    (hused : ∀ c < sb.size, used sb s'.disk c = used sb s.disk c) : Sound sb first s' where
  once := by
    intro x y hx hy hne heq
    rw [hslot x hx] at hne heq
    rw [hslot y hy] at heq
    exact h.once x y hx hy hne heq
  range := by
    intro x hx hne
    rw [hslot x hx] at hne ⊢
    exact h.range x hx hne
  marked := by
    intro x hx hne
    rw [hslot x hx] at hne ⊢
    rw [hused _ (h.range x hx hne).2]
    exact h.marked x hx hne
  metadata := by
    intro b hb hsize
    rw [hused b hsize]
    exact h.metadata b hb hsize

theorem changed_of_slots {new : Contents} (h : Sound sb first s)
    (hslot : ∀ x : Slot, x.1 < sb.ninodes → slot s' x = slot s x)
    (hused : ∀ c < sb.size, used sb s'.disk c = used sb s.disk c) (hnew : contents s' i = new)
    (hothers : ∀ j < sb.ninodes, j ≠ i → contents s' j = contents s j)
    (hmem : ∀ j ≠ i, s'.mem j = s.mem j) (hkind : kindOf (s'.mem i) = kindOf (s.mem i))
    (hinodes : ∀ j < sb.ninodes, j ≠ i → inodeAt sb s'.disk j = inodeAt sb s.disk j) :
    Changed sb first i ∅ new s s' where
  sound := Sound.congr h hslot hused
  slots := fun x hx _ => hslot x hx
  filled := fun pl hpl => absurd hpl (Finset.notMem_empty pl)
  becomes := hnew
  others := hothers
  mem := hmem
  kind := hkind
  inodes := hinodes
  count := by
    have hmissing : missing s i ∅ = 0 := by
      unfold missing
      rw [Finset.filter_empty, Finset.card_empty]
    rw [hmissing, Nat.add_zero]
    unfold free
    congr 1
    apply Finset.filter_congr
    intro c hc
    rw [hused c (Finset.mem_range.1 hc)]

theorem slot_update_low (h : Sound sb first s) {b : ℕ} (hb : b < first) (blk : Block) (l : List ℕ)
    {x : Slot} (hx : x.1 < sb.ninodes) :
    slot ⟨update s.disk b blk, s.mem, l⟩ x = slot s x := by
  refine congrFun (place_congr (d := s.mem x.1) fun haddr => update_of_ne ?_ _ _) x.2
  have hne : slot s (x.1, .indirect) ≠ 0 := fun hzero => haddr (UInt32.toNat_inj.1 hzero)
  have hrange := (h.range (x.1, .indirect) hx hne).1
  change slot s (x.1, .indirect) ≠ b
  omega

theorem changed_iupdate (layout : Layout sb first) (h : Sound sb first s) (hi : i < sb.ninodes)
    (l : List ℕ) :
    Changed sb first i ∅ (contents s i) s ⟨DiskFormat.setInode sb s.disk i (s.mem i),
    s.mem, l⟩ := by
  have hlow := layout.inodes i hi
  have hslot : ∀ x : Slot, x.1 < sb.ninodes →
      slot ⟨DiskFormat.setInode sb s.disk i (s.mem i), s.mem, l⟩ x = slot s x :=
    fun x hx => slot_update_low h hlow _ l hx
  have hcontents : ∀ j < sb.ninodes,
      contents ⟨DiskFormat.setInode sb s.disk i (s.mem i), s.mem, l⟩ j = contents s j := by
    intro j hj
    refine Contents.ext rfl (funext fun k => ?_)
    unfold contents
    dsimp only
    rw [hslot _ hj]
    by_cases hzero : slot s (j, .data (k / BSIZE)) = 0
    · rw [if_pos hzero, if_pos hzero]
    · have hrange := (h.range _ hj hzero).1
      rw [if_neg hzero, if_neg hzero, DiskFormat.setInode, update_of_ne (by omega)]
  refine changed_of_slots h hslot ?_ (hcontents i hi) (fun j hj _ => hcontents j hj)
    (fun _ _ => rfl) rfl ?_
  · intro c hc
    unfold used DiskFormat.setInode
    dsimp only
    rw [update_of_ne (layout.apart i hi c hc).symm]
  · intro j _ hne
    dsimp only
    rw [inodeAt_setInode, if_neg hne]

theorem changed_size (h : Sound sb first s) (v : UInt32) :
    Changed sb first i ∅ { contents s i with size := v.toNat } s
      { s with mem := update s.mem i { s.mem i with size := v } } := by
  have hslot : ∀ x : Slot,
      slot { s with mem := update s.mem i { s.mem i with size := v } } x = slot s x := by
    rintro ⟨j, pl⟩
    unfold slot
    dsimp only
    by_cases hji : j = i
    · rw [hji, update_self]
      cases pl <;> rfl
    · rw [update_of_ne hji]
  have hcontents : ∀ j, j ≠ i →
      contents { s with mem := update s.mem i { s.mem i with size := v } } j =
        contents s j := by
    intro j hne
    unfold contents
    simp only [hslot, update_of_ne hne]
  refine changed_of_slots h (fun x _ => hslot x) (fun _ _ => rfl) ?_ (fun j _ => hcontents j)
    (fun j hne => update_of_ne hne _ _) ?_ (fun _ _ _ => rfl)
  · unfold contents
    simp only [hslot, update_self]
  · dsimp only
    rw [update_self]
    rfl

theorem changed_store {bn o : ℕ} (layout : Layout sb first) (h : Sound sb first s)
    (hi : i < sb.ninodes) (hne : slot s (i, .data bn) ≠ 0) (hk : o + k ≤ BSIZE) (f : ℕ → UInt8)
    (l : List ℕ) :
    Changed sb first i ∅ ((contents s i).overwrite (bn * BSIZE + o) k f) s
      ⟨update s.disk (slot s (i, .data bn))
        (setBytes (s.disk (slot s (i, .data bn))) o k f), s.mem, l⟩ := by
  have hrange := h.range (i, .data bn) hi hne
  have hother : ∀ x : Slot, x.1 < sb.ninodes → slot s x ≠ 0 → x ≠ (i, .data bn) →
      slot s x ≠ slot s (i, .data bn) := fun x hx hx0 hxne heq => hxne (h.once x _ hx hi hx0 heq)
  have hslot : ∀ x : Slot, x.1 < sb.ninodes →
      slot ⟨update s.disk (slot s (i, .data bn))
        (setBytes (s.disk (slot s (i, .data bn))) o k f), s.mem, l⟩ x = slot s x := by
    intro x hx
    refine congrFun (place_congr (d := s.mem x.1) fun haddr => update_of_ne ?_ _ _) x.2
    apply hother (x.1, .indirect) hx
    · exact fun hzero => haddr (UInt32.toNat_inj.1 hzero)
    · exact fun heq => Place.noConfusion (congrArg Prod.snd heq)
  refine changed_of_slots h hslot ?_ ?_ ?_ (fun _ _ => rfl) rfl ?_
  · intro c hc
    have hmap := layout.bitmap c hc
    unfold used
    dsimp only
    rw [update_of_ne (by omega)]
  · refine Contents.ext rfl (funext fun x => ?_)
    unfold contents Contents.overwrite
    dsimp only
    rw [hslot _ hi]
    by_cases hbn : x / BSIZE = bn
    · have hx : x = bn * BSIZE + x % BSIZE := by
        rw [← hbn, Nat.mul_comm, Nat.div_add_mod]
      rw [hbn, if_neg hne, if_neg hne, update_self,
        byte_setBytes _ _ _ _ _ (Nat.mod_lt x (by decide))]
      by_cases hin : o ≤ x % BSIZE ∧ x % BSIZE < o + k
      · have hindex : x % BSIZE - o = x - (bn * BSIZE + o) := by omega
        rw [if_pos hin, if_pos (by omega), hindex]
      · rw [if_neg hin, if_neg (by omega)]
    · have hout : ¬ (bn * BSIZE + o ≤ x ∧ x < bn * BSIZE + o + k) := by
        unfold BSIZE at *
        omega
      rw [if_neg hout]
      by_cases hzero : slot s (i, .data (x / BSIZE)) = 0
      · rw [if_pos hzero, if_pos hzero]
      · have hxne : (i, Place.data (x / BSIZE)) ≠ (i, Place.data bn) :=
          fun heq => hbn (Place.data.inj (congrArg Prod.snd heq))
        rw [if_neg hzero, if_neg hzero, update_of_ne (hother _ hi hzero hxne)]
  · intro j hj hji
    refine Contents.ext rfl (funext fun x => ?_)
    unfold contents
    dsimp only
    rw [hslot _ hj]
    by_cases hzero : slot s (j, .data (x / BSIZE)) = 0
    · rw [if_pos hzero, if_pos hzero]
    · have hxne : (j, Place.data (x / BSIZE)) ≠ (i, Place.data bn) :=
        fun heq => hji (congrArg Prod.fst heq)
      rw [if_neg hzero, if_neg hzero, update_of_ne (hother _ hj hzero hxne)]
  · intro j hj _
    have hblock := layout.inodes j hj
    dsimp only
    rw [inodeAt_update _ _ (by omega)]

def touched (off len : ℕ) : Finset Place :=
  if len = 0 then ∅ else (Finset.Icc (off / BSIZE) ((off + len - 1) / BSIZE)).biUnion placesOf

theorem mem_touched {pl : Place} :
    pl ∈ touched off len ↔
      ∃ bn, off / BSIZE ≤ bn ∧ bn * BSIZE < off + len ∧ 0 < len ∧ pl ∈ placesOf bn := by
  unfold touched
  by_cases hlen : len = 0
  · rw [if_pos hlen]
    refine ⟨fun h => absurd h (Finset.notMem_empty pl), fun ⟨_, _, _, hpos, _⟩ => ?_⟩
    omega
  rw [if_neg hlen, Finset.mem_biUnion]
  refine exists_congr fun bn => ?_
  rw [Finset.mem_Icc, Nat.le_div_iff_mul_le (by decide)]
  constructor
  · rintro ⟨⟨hlow, hhigh⟩, hpl⟩
    exact ⟨hlow, by omega, by omega, hpl⟩
  · rintro ⟨hlow, hhigh, _, hpl⟩
    exact ⟨⟨hlow, by omega⟩, hpl⟩

theorem touched_add (off a b : ℕ) : touched off (a + b) = touched off a ∪ touched (off + a) b := by
  ext pl
  rw [Finset.mem_union, mem_touched, mem_touched, mem_touched]
  constructor
  · rintro ⟨bn, hlow, hhigh, hpos, hpl⟩
    by_cases hleft : bn * BSIZE < off + a ∧ 0 < a
    · exact .inl ⟨bn, hlow, hleft.1, hleft.2, hpl⟩
    · refine .inr ⟨bn, ?_, ?_, ?_, hpl⟩ <;> unfold BSIZE at * <;> omega
  · rintro (⟨bn, hlow, hhigh, hpos, hpl⟩ | ⟨bn, hlow, hhigh, hpos, hpl⟩)
    · exact ⟨bn, hlow, by omega, by omega, hpl⟩
    · refine ⟨bn, ?_, by omega, by omega, hpl⟩
      unfold BSIZE at *
      omega

theorem touched_block (hm : 0 < m) (hfit : off % BSIZE + m ≤ BSIZE) :
    touched off m = placesOf (off / BSIZE) := by
  ext pl
  rw [mem_touched]
  constructor
  · rintro ⟨bn, hlow, hhigh, _, hpl⟩
    have hbn : bn = off / BSIZE := by
      unfold BSIZE at *
      omega
    rw [← hbn]
    exact hpl
  · intro hpl
    refine ⟨off / BSIZE, le_rfl, ?_, hm, hpl⟩
    unfold BSIZE at *
    omega

theorem data_mem_touched (hlow : off ≤ k) (hhigh : k < off + len) :
    Place.data (k / BSIZE) ∈ touched off len := by
  rw [mem_touched]
  refine ⟨k / BSIZE, Nat.div_le_div_right hlow, ?_, by omega, ?_⟩
  · have := Nat.div_mul_le_self k BSIZE
    omega
  · unfold placesOf
    split_ifs <;> simp

theorem copied_le (src : Source) (tot m : ℕ) : copied src tot m ≤ m := by
  induction m generalizing tot with
  | zero => exact Nat.le_refl 0
  | succ m ih =>
    unfold copied
    have := ih (tot + 1)
    split_ifs <;> omega

theorem copied_eq (h : ∀ j < m, (src (tot + j)).isSome) : copied src tot m = m := by
  induction m generalizing tot with
  | zero => rfl
  | succ m ih =>
    have hrest : copied src (tot + 1) m = m := by
      apply ih
      intro j hj
      rw [Nat.add_assoc, Nat.add_comm 1 j]
      exact h (j + 1) (by omega)
    rw [copied, if_pos (by exact h 0 (by omega)), hrest]

def bytesFrom (src : Source) (tot : ℕ) : ℕ → UInt8 := fun j => (src (tot + j)).getD 0

/-- A write of `len` bytes that ends at offset `off'` fills the places `P` and copies `k` bytes.
    Its last block can hold more bytes than the offset shows. -/
structure Extent (off len : ℕ) (src : Source) (tot off' : ℕ) (P : Finset Place) (k : ℕ) : Prop where
  within : P ⊆ touched off len
  covers : touched off (off' - off) ⊆ P
  low : off ≤ off'
  shown : off' - off ≤ k
  high : k ≤ len
  whole : (∀ j < len, (src (tot + j)).isSome) → off' = off + len

structure Stored (sb : Superblock) (first i off len : ℕ) (src : Source) (tot off' : ℕ)
    (P : Finset Place) (k : ℕ) (s s' : Fs) : Prop extends Extent off len src tot off' P k where
  changed : Changed sb first i P ((contents s i).overwrite off k (bytesFrom src tot)) s s'

theorem touched_zero (off : ℕ) : touched off 0 = ∅ := if_pos rfl

theorem Stored.nothing (h : Sound sb first s) (hlen : len = 0) :
    Stored sb first i off len src tot off ∅ 0 s s where
  changed := by
    rw [overwrite_zero]
    exact Changed.refl h fun pl hpl => absurd hpl (Finset.notMem_empty pl)
  within := Finset.empty_subset _
  covers := by
    rw [Nat.sub_self, touched_zero]
  low := Nat.le_refl off
  shown := by omega
  high := Nat.zero_le len
  whole := by
    intro _
    omega

theorem Stored.after {s1 : Fs}
    (hi : i < sb.ninodes) (hm : 0 < m) (hlen : m ≤ len)
    (hblock : off % BSIZE + m ≤ BSIZE)
    (h : Changed sb first i (placesOf (off / BSIZE))
      ((contents s i).overwrite off m (bytesFrom src tot)) s s1)
    (h' : Stored sb first i (off + m) (len - m) src (tot + m) off' P k s1 s') :
    Stored sb first i off len src tot off' (placesOf (off / BSIZE) ∪ P) (m + k) s s' where
  changed := by
    have hall := h.trans h'.changed hi
    have hbytes : bytesFrom src (tot + m) = fun j => bytesFrom src tot (m + j) := by
      funext j
      unfold bytesFrom
      rw [Nat.add_assoc]
    rw [h.becomes, hbytes, overwrite_overwrite] at hall
    exact hall
  within := by
    have hsum : len = m + (len - m) := by omega
    rw [hsum, touched_add, touched_block hm hblock]
    exact Finset.union_subset_union_right h'.within
  covers := by
    have hlow := h'.low
    have hsum : off' - off = m + (off' - (off + m)) := by omega
    rw [hsum, touched_add, touched_block hm hblock]
    exact Finset.union_subset_union_right h'.covers
  low := (Nat.le_add_right off m).trans h'.low
  shown := by
    have := h'.shown
    omega
  high := by
    have := h'.high
    omega
  whole := by
    intro hall
    have hrest := h'.whole fun j hj => by
      rw [Nat.add_assoc]
      exact hall (m + j) (by omega)
    omega

theorem ends_writeFrom (src : Source) (layout : Layout sb first) (hi : i < sb.ninodes)
    (rounds tot off : ℕ) (hrounds : n ≤ tot + rounds) (hmax : off + (n - tot) ≤ MAXFILE * BSIZE)
    (h : Sound sb first s) :
    Ends (missing s i (touched off (n - tot)) ≤ free sb s) (writeFrom sb i src n rounds tot off)
      (fun off' s' => ∃ P k, Stored sb first i off (n - tot) src tot off' P k s s') s := by
  induction rounds generalizing tot off s with
  | zero => exact ends_pure ⟨∅, 0, Stored.nothing h (by omega)⟩
  | succ rounds ih =>
    unfold writeFrom
    by_cases hmore : tot < n
    · rw [if_pos hmore]
      have hmod : off % BSIZE < BSIZE := Nat.mod_lt off (by decide)
      have hdiv : off / BSIZE * BSIZE + off % BSIZE = off := by
        rw [Nat.mul_comm, Nat.div_add_mod]
      have hbn : off / BSIZE < MAXFILE := by
        rw [Nat.div_lt_iff_lt_mul (by decide)]
        omega
      obtain ⟨m, hm⟩ : ∃ m, m = min (n - tot) (BSIZE - off % BSIZE) := ⟨_, rfl⟩
      have hparts : touched off (n - tot) =
          placesOf (off / BSIZE) ∪ touched (off + m) (n - (tot + m)) := by
        rw [← touched_block (m := m) (by omega) (by omega), ← touched_add]
        congr 1
        omega
      rw [hparts, ← hm]
      refine ((ends_bmap layout h hi hbn).mono (fun hfits => ?_) fun _ _ hq => hq).bind ?_
      · exact (missing_mono s i Finset.subset_union_left).trans hfits
      rintro _ s1 ⟨hc, rfl⟩
      have hne := hc.filled (.data (off / BSIZE)) (by unfold placesOf; split_ifs <;> simp)
      have hk := copied_le src tot m
      have hstore := fun l => hc.trans (changed_store layout hc.sound hi hne
        (by omega : off % BSIZE + copied src tot m ≤ BSIZE) (bytesFrom src tot) l) hi
      rw [hdiv, hc.becomes, Finset.union_empty] at hstore
      apply Ends.of_run (bind_of_done (rfl : setBlock _ _ s1 = _))
      by_cases hshort : copied src tot m < m
      · rw [if_pos hshort]
        refine ends_pure ⟨placesOf (off / BSIZE), copied src tot m,
          ⟨?_, ?_, Nat.le_refl off, by omega, by omega, fun hall => ?_⟩, hstore s1.logged⟩
        · rw [hparts]
          exact Finset.subset_union_left
        · rw [Nat.sub_self, touched_zero]
          exact Finset.empty_subset _
        · rw [copied_eq fun j hj => hall j (by omega)] at hshort
          omega
      · have hwhole : copied src tot m = m := by omega
        rw [if_neg hshort]
        rw [hwhole] at hstore
        have hnext := hstore (s1.logged ++ [slot s1 (i, .data (off / BSIZE))])
        have hlast := ih (tot + m) (off + m) (by omega) (by omega) hnext.sound
        rw [← Nat.sub_sub] at hlast ⊢
        apply Ends.of_run (bind_of_done (rfl : logWrite _ _ = _))
        rw [hwhole]
        refine hlast.mono (fun hfits => hnext.fits hi hfits) ?_
        rintro off' s' ⟨P, k, hrest⟩
        exact ⟨_, m + k, Stored.after hi (by omega) (by omega) (by omega) hnext hrest⟩
    · rw [if_neg hmore]
      exact ends_pure ⟨∅, 0, Stored.nothing h (by omega)⟩

def Refused (s : Fs) (i : ℕ) (off n : UInt32) : Prop :=
  (s.mem i).size < off ∨ 2 ^ 32 ≤ off.toNat + n.toNat ∨ MAXFILE * BSIZE < off.toNat + n.toNat

instance (s : Fs) (i : ℕ) (off n : UInt32) : Decidable (Refused s i off n) :=
  inferInstanceAs (Decidable (_ ∨ _ ∨ _))

structure Written (sb : Superblock) (first i : ℕ) (src : Source) (off n off' : ℕ)
    (P : Finset Place) (k : ℕ) (s s' : Fs) : Prop extends Extent off n src 0 off' P k where
  changed : Changed sb first i P
    { (contents s i).overwrite off k (bytesFrom src 0) with size := max (contents s i).size off' }
    s s'
  saved : 0 < n → inodeAt sb s'.disk i = s'.mem i

theorem Stored.finish {s1 s2 : Fs} (layout : Layout sb first) (hi : i < sb.ninodes)
    (h : Stored sb first i off n src 0 off' P k s s1) {v : ℕ}
    (hset : Changed sb first i ∅ { contents s1 i with size := v } s1 s2)
    (hv : v = max (contents s i).size off') (l : List ℕ) :
    Written sb first i src off n off' P k s
      ⟨DiskFormat.setInode sb s2.disk i (s2.mem i), s2.mem, l⟩ where
  toExtent := h.toExtent
  changed := by
    have hall := (h.changed.trans hset hi).trans (changed_iupdate layout hset.sound hi l) hi
    rw [Finset.union_empty, Finset.union_empty, hset.becomes, h.changed.becomes, hv] at hall
    exact hall
  saved := by
    intro _
    dsimp only
    rw [inodeAt_setInode, if_pos rfl]

theorem add_lt_iff_wraps (off n : UInt32) : off + n < off ↔ 2 ^ 32 ≤ off.toNat + n.toNat := by
  have hoff := off.toNat_lt
  have hn := n.toNat_lt
  rw [UInt32.lt_iff_toNat_lt, UInt32.toNat_add]
  omega

theorem ends_writei (src : Source) (layout : Layout sb first) (hi : i < sb.ninodes) (off n : UInt32)
    (h : Sound sb first s) :
    Ends (Refused s i off n ∨ missing s i (touched off.toNat n.toNat) ≤ free sb s)
      (writei sb i src off n)
      (fun r s' => Refused s i off n ∧ r = -1 ∧ s' = s ∨
        ¬ Refused s i off n ∧ r = n.toNat ∧
          ∃ off' P k, Written sb first i src off.toNat n.toNat off' P k s s') s := by
  unfold writei
  apply Ends.of_run (bind_of_done (rfl : inode i s = _))
  by_cases hrange : off > (s.mem i).size ∨ off + n < off
  · rw [if_pos hrange]
    refine ends_pure (.inl ⟨?_, rfl, rfl⟩)
    rw [add_lt_iff_wraps] at hrange
    exact hrange.imp_right .inl
  rw [if_neg hrange]
  rw [add_lt_iff_wraps] at hrange
  by_cases hmax : off.toNat + n.toNat > MAXFILE * BSIZE
  · rw [if_pos hmax]
    exact ends_pure (.inl ⟨.inr (.inr hmax), rfl, rfl⟩)
  rw [if_neg hmax]
  have hfine : ¬ Refused s i off n := by
    unfold Refused
    rintro (hsize | hwrap | hbig)
    · exact hrange (.inl hsize)
    · exact hrange (.inr hwrap)
    · exact hmax hbig
  have hloop := ends_writeFrom src layout hi n.toNat 0 off.toNat
    (Nat.le_of_eq (Nat.zero_add _).symm) (Nat.le_of_not_lt hmax) h
  refine (hloop.mono (fun hfits => hfits.resolve_left hfine) fun _ _ hq => hq).bind ?_
  rintro off' s1 ⟨P, k, hst⟩
  have hsize : (contents s1 i).size = (contents s i).size := by
    rw [hst.changed.becomes]
    rfl
  have hshown := hst.shown
  have hhigh := hst.high
  have hlow := hst.low
  by_cases hn : 0 < n
  · rw [if_pos hn]
    apply Ends.of_run (bind_of_done (rfl : inode i s1 = _))
    by_cases hgrow : off' > (s1.mem i).size.toNat
    · rw [if_pos hgrow]
      have hword : (UInt32.ofNat off').toNat = off' := by
        apply UInt32.toNat_ofNat_of_lt'
        unfold MAXFILE NDIRECT NINDIRECT BSIZE UInt32.size at *
        omega
      have hset := changed_size (i := i) hst.changed.sound (UInt32.ofNat off')
      rw [hword] at hset
      have hlarger : off' = max (contents s i).size off' := by
        rw [← hsize]
        exact (Nat.max_eq_right (Nat.le_of_lt hgrow)).symm
      exact .inl ⟨_, _, rfl, .inr ⟨hfine, rfl, off', P, k, hst.finish layout hi hset hlarger _⟩⟩
    · rw [if_neg hgrow]
      have hset : Changed sb first i ∅ (contents s1 i) s1 s1 :=
        Changed.refl hst.changed.sound fun pl hpl => absurd hpl (Finset.notMem_empty pl)
      have hlarger : (contents s1 i).size = max (contents s i).size off' := by
        rw [← hsize]
        exact (Nat.max_eq_left (Nat.le_of_not_lt hgrow)).symm
      exact .inl ⟨_, _, rfl, .inr ⟨hfine, rfl, off', P, k, hst.finish layout hi hset hlarger _⟩⟩
  · have hzero : n.toNat = 0 := by
      rw [UInt32.lt_iff_toNat_lt] at hn
      exact Nat.eq_zero_of_not_pos hn
    have hend : max (contents s i).size off' = (contents s i).size := by
      have hbelow : ¬ (s.mem i).size < off := fun hlt => hrange (.inl hlt)
      rw [UInt32.lt_iff_toNat_lt] at hbelow
      change max (s.mem i).size.toNat off' = (s.mem i).size.toNat
      omega
    rw [if_neg hn]
    refine ends_pure (.inr ⟨hfine, rfl, off', P, k, hst.toExtent, ?_, fun hpos => ?_⟩)
    · rw [hend]
      exact hst.changed
    · omega

/-- The first `r` bytes of the source are in the file at `off`, and its size covers them. -/
def Wrote (src : Source) (i off r : ℕ) (s s' : Fs) : Prop :=
  (∀ j < r, src j = some (fileByte s'.disk (s'.mem i) (off + j))) ∧
    (s'.mem i).size.toNat = max (s.mem i).size.toNat (off + r)

theorem fileByte_eq (h : slot s (i, .data (k / BSIZE)) ≠ 0) :
    fileByte s.disk (s.mem i) k = (contents s i).byte k :=
  (if_neg h).symm

theorem Changed.byte_eq {new : Contents} (h : Changed sb first i P new s s')
    (hP : touched off len ⊆ P) (src : Source) (tot : ℕ)
    (hnew : new.byte = ((contents s i).overwrite off len (bytesFrom src tot)).byte) {j : ℕ}
    (hj : j < len) (hsome : (src (tot + j)).isSome) :
    src (tot + j) = some (fileByte s'.disk (s'.mem i) (off + j)) := by
  have hslot := h.filled _ (hP (data_mem_touched (Nat.le_add_right off j) (by omega)))
  have hbyte : new.byte (off + j) = bytesFrom src tot (off + j - off) := by
    rw [hnew]
    exact if_pos (by omega)
  obtain ⟨v, hv⟩ := Option.isSome_iff_exists.1 hsome
  rw [fileByte_eq hslot, h.becomes, hbyte, Nat.add_sub_cancel_left, bytesFrom, hv]
  rfl

theorem Written.complete (h : Written sb first i src off n off' P k s s')
    (hall : ∀ j < n, (src j).isSome) :
    touched off n ⊆ P ∧ Changed sb first i P
      { (contents s i).overwrite off n (bytesFrom src 0) with
        size := max (contents s i).size (off + n) } s s' := by
  have hend : off' = off + n := h.whole fun j hj => by
    rw [Nat.zero_add]
    exact hall j hj
  have hk : k = n := by
    have := h.shown
    have := h.high
    omega
  subst hend hk
  have hcovers := h.covers
  rw [Nat.add_sub_cancel_left] at hcovers
  exact ⟨hcovers, h.changed⟩

theorem Written.wrote_iff (h : Written sb first i src off n off' P k s s') :
    Wrote src i off n s s' ↔ ∀ j < n, (src j).isSome := by
  constructor
  · intro hw j hj
    rw [hw.1 j hj]
    rfl
  · intro hall
    obtain ⟨hcovers, hchanged⟩ := h.complete hall
    refine ⟨fun j hj => ?_, congrArg Contents.size hchanged.becomes⟩
    have hbyte := Changed.byte_eq hchanged hcovers src 0 rfl hj
    rw [Nat.zero_add] at hbyte
    exact hbyte (hall j hj)

/-- `n` bytes of the source are in the file at the old offset, the offset has moved over them,
    and it is inside the file. -/
def FileWrote (src : Source) (ip n : ℕ) (f f' : File) : Prop :=
  (∀ j < n, src j = some (fileByte f'.fs.disk (f'.fs.mem ip) (f.off.toNat + j))) ∧
    f'.off.toNat = f.off.toNat + n ∧ f'.off.toNat ≤ (f'.fs.mem ip).size.toNat

structure Appended (sb : Superblock) (first ip : ℕ) (src : Source) (i len : ℕ) (P : Finset Place)
    (f f' : File) : Prop where
  changed : Changed sb first ip P
    { (contents f.fs ip).overwrite f.off.toNat len (bytesFrom src i) with
      size := max (contents f.fs ip).size (f.off.toNat + len) } f.fs f'.fs
  covers : touched f.off.toNat len ⊆ P
  off : f'.off.toNat = f.off.toNat + len

theorem Appended.nothing (h : Sound sb first f.fs) (hoff : f.off.toNat ≤ (contents f.fs ip).size) :
    Appended sb first ip src i 0 ∅ f f where
  changed := by
    rw [overwrite_zero, Nat.add_zero, Nat.max_eq_left hoff]
    exact Changed.refl h fun pl hpl => absurd hpl (Finset.notMem_empty pl)
  covers := by rw [touched_zero]
  off := (Nat.add_zero _).symm

theorem Appended.after {f1 f' : File} {Q : Finset Place} (hip : ip < sb.ninodes)
    (h : Appended sb first ip src i m P f f1) (h' : Appended sb first ip src (i + m) len Q f1 f') :
    Appended sb first ip src i (m + len) (P ∪ Q) f f' where
  changed := by
    have hall := h.changed.trans h'.changed hip
    have hbytes : bytesFrom src (i + m) = fun j => bytesFrom src i (m + j) := by
      funext j
      unfold bytesFrom
      rw [Nat.add_assoc]
    have hnew : { (contents f1.fs ip).overwrite f1.off.toNat len (bytesFrom src (i + m)) with
          size := max (contents f1.fs ip).size (f1.off.toNat + len) } =
        { (contents f.fs ip).overwrite f.off.toNat (m + len) (bytesFrom src i) with
          size := max (contents f.fs ip).size (f.off.toNat + (m + len)) } := by
      rw [h.changed.becomes, h.off, hbytes, ← overwrite_overwrite]
      refine Contents.ext ?_ rfl
      dsimp only
      omega
    rw [hnew] at hall
    exact hall
  covers := by
    have hcovers := h'.covers
    rw [h.off] at hcovers
    rw [touched_add]
    exact Finset.union_subset_union h.covers hcovers
  off := by rw [h'.off, h.off, Nat.add_assoc]

theorem Written.appended {f1 : File}
    (h : Written sb first ip (fun j => src (i + j)) f.off.toNat m off' P k f.fs f1.fs)
    (hall : ∀ j < m, (src (i + j)).isSome) (hoff : f1.off.toNat = f.off.toNat + m) :
    Appended sb first ip src i m P f f1 := by
  obtain ⟨hcovers, hchanged⟩ := h.complete hall
  have hbytes : bytesFrom (fun j => src (i + j)) 0 = bytesFrom src i := by
    funext j
    unfold bytesFrom
    rw [Nat.zero_add]
  rw [hbytes] at hchanged
  exact ⟨hchanged, hcovers, hoff⟩

theorem ends_filewriteFrom (src : Source) (layout : Layout sb first) (hip : ip < sb.ninodes)
    (n rounds i : ℕ) (hin : i ≤ n) (hrounds : n + maxWrite ≤ i + rounds * maxWrite)
    (h : Sound sb first f.fs) :
    Ends False (filewriteFrom sb ip src n rounds i)
      (fun r f' => r = -1 ∨ r = n ∧ (f' = f ∨ i < n) ∧
        ((∀ j < n, (src j).isSome) → (i = n → f.off.toNat ≤ (contents f.fs ip).size) →
          ∃ P, Appended sb first ip src i (n - i) P f f')) f := by
  induction rounds generalizing i f with
  | zero =>
    have : 0 < maxWrite := by decide
    omega
  | succ rounds ih =>
    rw [Nat.succ_mul] at hrounds
    unfold filewriteFrom
    by_cases hmore : (i : ℤ) < n
    · rw [if_pos hmore]
      obtain ⟨m, hm⟩ : ∃ m, m = min (n - i) maxWrite := ⟨_, rfl⟩
      have hmax : maxWrite = 3072 := rfl
      have hn1 : min ((n : ℤ) - i) maxWrite = m := by omega
      have hword : (UInt32.ofNat m).toNat = m := UInt32.toNat_ofNat_of_lt' (by
        unfold UInt32.size
        omega)
      rw [hn1]
      apply Ends.of_run (bind_of_done (rfl : (Code.get : Code File File) f = _))
      have hwrite := ends_writei (fun j => src (i + j)) layout hip f.off (UInt32.ofNat m) h
      have hstep : Ends False
          (onFs (writei sb ip (fun j => src (i + j)) f.off (UInt32.ofNat m)))
          (fun r f1 => r = -1 ∨ r = m ∧ f1.off = f.off ∧ f.off.toNat + m < 2 ^ 32 ∧
            ∃ off' P k, Written sb first ip (fun j => src
            (i + j)) f.off.toNat m off' P k f.fs f1.fs)
          f := by
        apply Ends.within
        refine hwrite.mono False.elim ?_
        rw [hword]
        rintro r s' (⟨_, hr, _⟩ | ⟨hfine, hr, hw⟩)
        · exact .inl hr
        · refine .inr ⟨hr, rfl, ?_, hw⟩
          by_contra hwrap
          exact hfine (.inr (.inl (by omega)))
      refine hstep.bind ?_
      rintro r f1 (rfl | ⟨rfl, hoff, hwrap, off', P, k, hw⟩)
      · exact .inl ⟨-1, f1, rfl, .inl rfl⟩
      · have hpos : (m : ℤ) > 0 := by omega
        rw [if_pos hpos]
        apply Ends.of_run (bind_of_done (rfl : (Code.modify _ : Code File Unit) f1 = _))
        rw [if_neg (by omega), if_neg (by simp), ← Nat.cast_add]
        have hmove : (f1.off + UInt32.ofNat m).toNat = f.off.toNat + m := by
          rw [UInt32.toNat_add, hword, hoff, Nat.mod_eq_of_lt hwrap]
        have hmore' : n + maxWrite ≤ i + m + rounds * maxWrite := by
          have hround : 0 < rounds := by
            rcases Nat.eq_zero_or_pos rounds with rfl | hround
            · omega
            · exact hround
          have := Nat.le_mul_of_pos_left maxWrite hround
          omega
        refine (ih (i + m) (by omega) hmore' (by exact hw.changed.sound)).mono id ?_
        rintro r f' (hr | ⟨hr, _, hrest⟩)
        · exact .inl hr
        · refine .inr ⟨hr, .inr (by omega), fun hall _ => ?_⟩
          have hfirst : Appended sb first ip src i m P f
              { f1 with off := f1.off + UInt32.ofNat m } :=
            Written.appended hw (fun j hj => hall (i + j) (by omega)) hmove
          obtain ⟨Q, hnext⟩ := hrest hall fun _ => by
            rw [hfirst.changed.becomes]
            exact hmove.le.trans (Nat.le_max_right _ _)
          refine ⟨P ∪ Q, ?_⟩
          have hsum : n - i = m + (n - (i + m)) := by omega
          rw [hsum]
          exact hfirst.after hip hnext
    · rw [if_neg hmore, if_pos (by omega)]
      have hend : i = n := by omega
      refine ends_pure (.inr ⟨rfl, .inl rfl, fun _ hoff => ⟨∅, ?_⟩⟩)
      rw [hend, Nat.sub_self]
      exact Appended.nothing h (hoff hend)

theorem ends_filewrite (src : Source) (layout : Layout sb first) (hip : ip < sb.ninodes) (n : ℕ)
    (h : Sound sb first f.fs) :
    Ends False (filewrite sb ip src n)
      (fun r f' => r = -1 ∨ r = n ∧ (f' = f ∨ 0 < n) ∧
        ((∀ j < n, (src j).isSome) → (0 = n → f.off.toNat ≤ (contents f.fs ip).size) →
          ∃ P, Appended sb first ip src 0 n P f f')) f := by
  apply ends_filewriteFrom src layout hip n _ 0 (Nat.zero_le n) _ h
  have hdiv := Nat.div_add_mod n maxWrite
  have hmod := Nat.mod_lt n (by decide : 0 < maxWrite)
  rw [Int.toNat_natCast, Nat.zero_add, Nat.add_mul, Nat.mul_comm]
  omega

theorem Appended.fileWrote {f' : File} (h : Appended sb first ip src 0 n P f f')
    (hall : ∀ j < n, (src j).isSome) :
    FileWrote src ip n f f' := by
  refine ⟨fun j hj => ?_, h.off, ?_⟩
  · have hbyte := Changed.byte_eq h.changed h.covers src 0 rfl hj
    rw [Nat.zero_add] at hbyte
    exact hbyte (hall j hj)
  · have hsize : (f'.fs.mem ip).size.toNat = max (contents f.fs ip).size (f.off.toNat + n) :=
      congrArg Contents.size h.changed.becomes
    rw [h.off, hsize]
    exact Nat.le_max_right _ _

/-- An answer that is not -1 is true exactly when every byte of the source can be read. -/
theorem written_iff_readable {i : ℕ} {s : Fs} (layout : Layout sb first) (h : Sound sb first s)
    (hi : i < sb.ninodes) (src : Source) :
    (∀ off n r s', writei sb i src off n s = .done r s' → 0 ≤ r →
      (Wrote src i off.toNat r.toNat s s' ↔ ∀ j < n.toNat, (src j).isSome)) ∧
    ∀ off n r f', filewrite sb i src n ⟨s, off⟩ = .done r f' → 0 ≤ r →
      (FileWrote src i r.toNat ⟨s, off⟩ f' ↔
        (∀ j < n.toNat, (src j).isSome) ∧ (n = 0 → off ≤ (s.mem i).size)) := by
  constructor
  · intro off n r s' hrun hr
    rcases ends_writei src layout hi off n h with ⟨r', s'', hdone, hpost⟩ | ⟨_, msg, hpanic⟩
    · cases hrun.symm.trans hdone
      rcases hpost with ⟨_, rfl, _⟩ | ⟨_, rfl, off', P, k, hw⟩
      · cases hr
      · exact hw.wrote_iff
    · cases hrun.symm.trans hpanic
  · intro off n r f' hrun hr
    rcases lt_or_ge n 0 with hneg | hpos
    · have hrefuse : filewrite sb i src n ⟨s, off⟩ = .done (-1) ⟨s, off⟩ := by
        rw [filewrite, filewriteFrom, if_neg (by omega), if_neg (by omega)]
        rfl
      cases hrun.symm.trans hrefuse
      cases hr
    obtain ⟨N, rfl⟩ := Int.eq_ofNat_of_zero_le hpos
    rcases ends_filewrite src layout hi N (f := ⟨s, off⟩) h with
      ⟨r', f'', hdone, hpost⟩ | ⟨_, msg, hpanic⟩
    · cases hrun.symm.trans hdone
      rcases hpost with rfl | ⟨rfl, hsame, hwrote⟩
      · cases hr
      rw [Int.toNat_natCast]
      constructor
      · intro hw
        refine ⟨fun j hj => ?_, fun hzero => ?_⟩
        · rw [hw.1 j hj]
          rfl
        · rw [hsame.resolve_right (by omega)] at hw
          exact UInt32.le_iff_toNat_le.2 hw.2.2
      · rintro ⟨hall, hoff⟩
        obtain ⟨P, happ⟩ := hwrote hall fun hzero =>
          UInt32.le_iff_toNat_le.1 (hoff (by omega))
        exact happ.fileWrote hall
    · cases hrun.symm.trans hpanic

def smallSb : Superblock := ⟨FSMAGIC, 1000, 954, 200, 30, 2, 32, 45⟩

def emptyFs : Fs where
  disk := fun b => if b = 45 then fun j => if j.val < 6 then 255 else 0 else fun _ => 0
  mem := fun _ => { DiskInode.zero with type := 2, nlink := 1 }
  logged := []

theorem layout_smallSb : Layout smallSb 46 where
  inodes := by
    intro i hi
    change i / 16 + 32 < 46
    change i < 200 at hi
    omega
  bitmap := by
    intro b hb
    change b / 8192 + 45 < 46
    change b < 1000 at hb
    omega
  apart := by
    intro i hi b hb
    change i / 16 + 32 ≠ b / 8192 + 45
    change i < 200 at hi
    omega
  words := by decide

theorem slot_emptyFs (x : Slot) : slot emptyFs x = 0 := place_zero emptyFs.disk x.2

theorem sound_emptyFs : Sound smallSb 46 emptyFs where
  once := fun x _ _ _ hne _ => absurd (slot_emptyFs x) hne
  range := fun x _ hne => absurd (slot_emptyFs x) hne
  marked := fun x _ hne => absurd (slot_emptyFs x) hne
  metadata := by
    have hall : ∀ b < 46, used smallSb emptyFs.disk b = true := by decide
    exact fun b hb _ => hall b hb

theorem fits_emptyFs : missing emptyFs 2 (touched 0 1) ≤ free smallSb emptyFs := by
  have hmissing : missing emptyFs 2 (touched 0 1) ≤ 1 := Finset.card_filter_le _ _
  have hfree : 0 < free smallSb emptyFs :=
    Finset.card_pos.2 ⟨48, Finset.mem_filter.2 ⟨Finset.mem_range.2 (by decide), by decide⟩⟩
  omega

theorem writei_emptyFs (src : Source) : ∃ s', writei smallSb 2 src 0 1 emptyFs = .done 1 s' := by
  obtain ⟨r, s', hrun, hpost⟩ :=
    (ends_writei src layout_smallSb (by decide) 0 1 sound_emptyFs).sure (.inr fits_emptyFs)
  rcases hpost with ⟨href, _⟩ | ⟨_, rfl, _⟩
  · exact absurd href (by decide)
  · exact ⟨s', hrun⟩

theorem written_readable_byte :
    ∃ s', writei smallSb 2 (fun _ => some 7) 0 1 emptyFs = .done 1 s' ∧
      Wrote (fun _ => some 7) 2 0 1 emptyFs s' := by
  obtain ⟨s', hrun⟩ := writei_emptyFs fun _ => some 7
  refine ⟨s', hrun, ?_⟩
  exact ((written_iff_readable layout_smallSb sound_emptyFs (by decide) _).1 0 1 1 s' hrun
    (by decide)).2 fun _ _ => rfl

/-- A byte that cannot be read is counted as written. -/
theorem unread_byte_counted :
    ∃ s', writei smallSb 2 (fun _ => none) 0 1 emptyFs = .done 1 s' ∧
      ¬ Wrote (fun _ => none) 2 0 1 emptyFs s' := by
  obtain ⟨s', hrun⟩ := writei_emptyFs fun _ => none
  refine ⟨s', hrun, fun hw => ?_⟩
  cases hw.1 0 (by decide)

end Xv6.BlockWrites
