import Xv6.BlockReads

set_option autoImplicit false

namespace Xv6.BlockRelease
open Xv6.Sequential ByteFields DiskFormat BlockCode BlockFiles BlockWrites BlockReads
open LogCode (Block BSIZE)
open InodeCode (NDIRECT NINDIRECT MAXFILE readData whole)
open Function (update update_of_ne update_self)

variable {sb : Superblock} {first i : ℕ} {s s' : Fs} {ps : List Place} {pl : Place}

theorem bit_clearBit (blk : Block) {a j : ℕ} (hj : j < BPB) :
    bit (clearBit blk a) j = true ↔ bit blk j = true ∧ j ≠ a := by
  have hin : j / 8 < BSIZE := by
    unfold BPB at hj
    omega
  unfold bit clearBit
  rw [byte_putNat_one blk _ _ _ hin]
  by_cases hbyte : j / 8 = a / 8
  · have hlow : j % 8 < 8 := Nat.mod_lt j (by decide)
    have hsame : a % 8 = j % 8 ↔ j = a := by omega
    have hmask : (255 : ℕ) = 2 ^ 8 - 1 := rfl
    rw [if_pos hbyte, UInt8.toNat_ofNat', Nat.testBit_mod_two_pow, Nat.testBit_and,
      Nat.testBit_xor, Nat.one_shiftLeft, Nat.testBit_two_pow, hmask,
      Nat.testBit_two_pow_sub_one, hbyte]
    simp [hlow, hsame]
  · have hne : j ≠ a := fun h => hbyte (by rw [h])
    rw [if_neg hbyte, and_iff_left hne]

/-- The blocks that inode `i` had at the places `ps` are marked free, and of these places the
    addresses in the inode are cleared. -/
structure Dropped (sb : Superblock) (i : ℕ) (ps : List Place) (s s' : Fs) : Prop where
  used : ∀ c < sb.size, used sb s'.disk c = true ↔
    used sb s.disk c = true ∧ (c = 0 ∨ ∀ pl ∈ ps, slot s (i, pl) ≠ c)
  same : ∀ b, (∀ c < sb.size, b ≠ sb.BBLOCK c) → s'.disk b = s.disk b
  addrs : ∀ k, (s'.mem i).addrs k = if placeOf k ∈ ps then 0 else (s.mem i).addrs k
  mem : ∀ j ≠ i, s'.mem j = s.mem j

theorem dropped_nil (sb : Superblock) (i : ℕ) (s : Fs) : Dropped sb i [] s s where
  used := by simp
  same := fun _ _ => rfl
  addrs := by simp
  mem := fun _ _ => rfl

theorem Dropped.skip {qs : List Place} (hd : Dropped sb i ps s s')
    (hzero : ∀ pl ∈ qs, slot s (i, pl) = 0) : Dropped sb i (ps ++ qs) s s' where
  used := by
    intro c hc
    have hskip : c = 0 ∨ ∀ pl ∈ qs, slot s (i, pl) ≠ c :=
      or_iff_not_imp_left.2 fun hne pl hpl heq => hne (heq ▸ hzero pl hpl)
    rw [hd.used c hc, List.forall_mem_append, or_and_left, and_iff_left hskip]
  same := hd.same
  addrs := by
    intro k
    rw [hd.addrs]
    by_cases hk : placeOf k ∈ qs
    · have haddr : (s.mem i).addrs k = 0 :=
        UInt32.toNat_inj.1 ((slot_placeOf s i k).symm.trans (hzero _ hk))
      simp [haddr]
    · simp [hk]
  mem := hd.mem

theorem placeOf_inj : Function.Injective placeOf := by decide

/-- The place of entry `j` of the indirect block. -/
def entry (j : ℕ) : Place := .data (NDIRECT + j)

theorem placeOf_ne_entry (k : Fin (NDIRECT + 1)) (j : ℕ) : placeOf k ≠ entry j := by
  unfold placeOf entry
  split_ifs with hk
  · exact fun heq => absurd (Place.data.inj heq) (by omega)
  · exact Place.noConfusion

theorem notMem_of_nodup {qs : List Place} (h : (ps ++ pl :: qs).Nodup) : pl ∉ ps := by
  intro hmem
  exact (List.nodup_cons.1 (List.nodup_middle.1 h)).1 (List.mem_append_left qs hmem)

section Loops

variable (h : Sound sb first s) (hi : i < sb.ninodes)

include h hi

/-- Freeing one more block; `d` is the inode after it. -/
theorem bfree_run (hd : Dropped sb i ps s s') (hpl : pl ∉ ps) (hne : slot s (i, pl) ≠ 0) :
    ∃ disk l, bfree sb (slot s (i, pl)) s' = .done () ⟨disk, s'.mem, l⟩ ∧
      ∀ d : DiskInode, (∀ k, d.addrs k = if placeOf k = pl then 0 else (s'.mem i).addrs k) →
        Dropped sb i (ps ++ [pl]) s ⟨disk, update s'.mem i d, l⟩ := by
  have hlt := (h.range (i, pl) hi hne).2
  have hkept : ∀ q ∈ ps, slot s (i, q) ≠ slot s (i, pl) := by
    intro q hq heq
    obtain rfl : q = pl := congrArg Prod.snd (h.once (i, q) (i, pl) hi hi (heq ▸ hne) heq)
    exact hpl hq
  have hused : used sb s'.disk (slot s (i, pl)) = true :=
    (hd.used _ hlt).2 ⟨h.marked (i, pl) hi hne, .inr hkept⟩
  have hbit : ¬ bit (s'.disk (sb.BBLOCK (slot s (i, pl)))) (slot s (i, pl) % BPB) = false := by
    rw [← used, hused]
    decide
  refine ⟨_, _, (bind_of_done (rfl : bread _ s' = _)).trans (by rw [if_neg hbit]; rfl), ?_⟩
  intro d hdirect
  refine ⟨fun c hc => ?_, fun b hb => ?_, fun k => ?_, fun j hj => ?_⟩
  · have hmod : c % BPB < BPB := Nat.mod_lt c (by decide)
    have hnow : used sb s'.disk c = true ∧ slot s (i, pl) ≠ c ↔ used sb s.disk c = true ∧
        (c = 0 ∨ ∀ q ∈ ps ++ [pl], slot s (i, q) ≠ c) := by
      rw [hd.used c hc, List.forall_mem_append, List.forall_mem_singleton]
      constructor
      · tauto
      · rintro ⟨hc, rfl | hall⟩
        · exact ⟨⟨hc, .inl rfl⟩, hne⟩
        · exact ⟨⟨hc, .inr hall.1⟩, hall.2⟩
    rw [← hnow]
    unfold used
    dsimp only
    by_cases hblock : sb.BBLOCK c = sb.BBLOCK (slot s (i, pl))
    · have hdiv : c / BPB = slot s (i, pl) / BPB := Nat.add_right_cancel hblock
      have hsame : c % BPB = slot s (i, pl) % BPB ↔ slot s (i, pl) = c := by
        refine ⟨fun hrest => ?_, fun heq => by rw [heq]⟩
        rw [← Nat.div_add_mod c BPB, ← Nat.div_add_mod (slot s (i, pl)) BPB, hdiv, hrest]
      rw [hblock, update_self, bit_clearBit _ hmod, Ne, Ne, hsame]
    · have hother : slot s (i, pl) ≠ c := fun heq => hblock (by rw [heq])
      rw [update_of_ne hblock, and_iff_left hother]
  · exact (update_of_ne (hb _ hlt) _ _).trans (hd.same b hb)
  · simp only [update_self, hdirect, hd.addrs, List.mem_append, List.mem_singleton]
    split_ifs <;> tauto
  · exact (update_of_ne hj _ _).trans (hd.mem j hj)

theorem returns_freeDirect (ks : List (Fin (NDIRECT + 1))) (hks : (ps ++ ks.map placeOf).Nodup)
    (hd : Dropped sb i ps s s') :
    Returns (freeDirect sb i ks) (fun _ => Dropped sb i (ps ++ ks.map placeOf) s) s' := by
  induction ks generalizing ps s' with
  | nil =>
    rw [List.map_nil, List.append_nil]
    exact returns_pure hd
  | cons k ks ih =>
    have hnew : placeOf k ∉ ps := notMem_of_nodup hks
    rw [List.map_cons, List.append_cons] at hks ⊢
    have haddr : ((s'.mem i).addrs k).toNat = slot s (i, placeOf k) := by
      rw [hd.addrs, if_neg hnew, slot_placeOf]
    unfold freeDirect
    apply Returns.bind
    refine ⟨_, s', rfl, ?_⟩
    dsimp only
    by_cases hzero : (s'.mem i).addrs k = 0
    · rw [if_neg (not_not.2 hzero)]
      rw [hzero] at haddr
      exact ih hks (hd.skip (List.forall_mem_singleton.2 haddr.symm))
    · have hne : slot s (i, placeOf k) ≠ 0 := fun h0 => hzero (UInt32.toNat_inj.1 (haddr.trans h0))
      obtain ⟨disk, l, hrun, hnext⟩ := bfree_run h hi hd hnew hne
      rw [if_pos hzero, haddr]
      refine Returns.bind ⟨_, _, hrun, Returns.bind ⟨_, _, rfl, ih hks (hnext _ fun j => ?_)⟩⟩
      simp only [placeOf_inj.eq_iff]
      exact Function.update_apply _ _ _ _

theorem returns_freeEntries {blk : Block}
    (hblk : ∀ j, (getU32 blk (4 * j)).toNat = slot s (i, entry j)) (js : List ℕ)
    (hjs : (ps ++ js.map entry).Nodup) (hd : Dropped sb i ps s s') :
    Returns (freeEntries sb blk js) (fun _ => Dropped sb i (ps ++ js.map entry) s) s' := by
  induction js generalizing ps s' with
  | nil =>
    rw [List.map_nil, List.append_nil]
    exact returns_pure hd
  | cons j js ih =>
    have hnew : entry j ∉ ps := notMem_of_nodup hjs
    rw [List.map_cons, List.append_cons] at hjs ⊢
    have haddr := hblk j
    unfold freeEntries
    dsimp only
    by_cases hzero : getU32 blk (4 * j) = 0
    · rw [if_neg (not_not.2 hzero)]
      rw [hzero] at haddr
      exact ih hjs (hd.skip (List.forall_mem_singleton.2 haddr.symm))
    · have hne : slot s (i, entry j) ≠ 0 := fun h0 => hzero (UInt32.toNat_inj.1 (haddr.trans h0))
      obtain ⟨disk, l, hrun, hnext⟩ := bfree_run h hi hd hnew hne
      rw [if_pos hzero, haddr]
      have hsame := hnext (s'.mem i) fun k => (if_neg (placeOf_ne_entry k j)).symm
      rw [Function.update_eq_self] at hsame
      exact Returns.bind ⟨_, _, hrun, ih hjs hsame⟩

end Loops

def directs : List (Fin (NDIRECT + 1)) := (List.finRange NDIRECT).map Fin.castSucc

/-- All places of an inode, in the order in which `itrunc` frees their blocks. -/
def places : List Place :=
  directs.map placeOf ++ (List.range NINDIRECT).map entry ++ [placeOf (Fin.last NDIRECT)]

theorem nodup_places : places.Nodup := by
  unfold places
  rw [List.nodup_append_comm, ← List.append_assoc]
  refine List.nodup_append.2 ⟨by decide, List.nodup_range.map fun a b h => ?_, fun a ha b hb => ?_⟩
  · exact Nat.add_left_cancel (Place.data.inj h)
  · obtain ⟨k, -, rfl⟩ := List.mem_map.1 (show a ∈ (Fin.last _ :: directs).map placeOf from ha)
    obtain ⟨j, -, rfl⟩ := List.mem_map.1 hb
    exact placeOf_ne_entry k j

/-- An image on which no inode lock is held. -/
structure Image (sb : Superblock) (first : ℕ) (s : Fs) : Prop where
  sound : Sound sb first s
  whole : ∀ i < sb.ninodes, NoHoles s i
  size : ∀ i < sb.ninodes, (contents s i).size ≤ MAXFILE * BSIZE
  saved : ∀ i < sb.ninodes, inodeAt sb s.disk i = s.mem i

/-- A call on inode `i` leaves an image again, and the other files as they were. -/
structure Kept (sb : Superblock) (first i : ℕ) (s s' : Fs) : Prop where
  image : Image sb first s'
  others : ∀ j < sb.ninodes, j ≠ i → contents s' j = contents s j

section Released

variable (layout : Layout sb first) (h : Sound sb first s) (hi : i < sb.ninodes)

theorem Dropped.disk (hd : Dropped sb i ps s s') (layout : Layout sb first) {b : ℕ}
    (hb : first ≤ b) : s'.disk b = s.disk b := by
  refine hd.same b fun c hc => ?_
  have hlow := layout.bitmap c hc
  omega

variable (hd : Dropped sb i places s s')

include layout h hd

theorem slot_released {x : Slot} (hx : x.1 < sb.ninodes) :
    slot s' x = if x.1 = i then 0 else slot s x := by
  unfold slot
  split_ifs with hxi
  · have hzero : (s'.mem i).addrs = DiskInode.zero.addrs := by
      have hall : ∀ k, placeOf k ∈ places := by decide +kernel
      funext k
      rw [hd.addrs, if_pos (hall k)]
      rfl
    rw [hxi, ← place_zero s'.disk x.2]
    unfold place blockOf DiskInode.addr
    rw [hzero]
  · rw [hd.mem _ hxi]
    refine congrFun (place_congr fun haddr => ?_) x.2
    have hne : slot s (x.1, .indirect) ≠ 0 := fun hzero => haddr (UInt32.toNat_inj.1 hzero)
    exact hd.disk layout (h.range (x.1, .indirect) hx hne).1

theorem slot_of_released {x : Slot} (hx : x.1 < sb.ninodes) (hne : slot s' x ≠ 0) :
    x.1 ≠ i ∧ slot s' x = slot s x := by
  have hslot := slot_released layout h hd hx
  by_cases hxi : x.1 = i
  · rw [if_pos hxi] at hslot
    exact absurd hslot hne
  · rw [if_neg hxi] at hslot
    exact ⟨hxi, hslot⟩

include hi

theorem sound_released : Sound sb first s' where
  once := by
    intro x y hx hy hne heq
    obtain ⟨-, hsx⟩ := slot_of_released layout h hd hx hne
    obtain ⟨-, hsy⟩ := slot_of_released layout h hd hy (heq ▸ hne)
    exact h.once x y hx hy (hsx ▸ hne) (by rw [← hsx, ← hsy, heq])
  range := by
    intro x hx hne
    have hsx := (slot_of_released layout h hd hx hne).2
    rw [hsx] at hne ⊢
    exact h.range x hx hne
  marked := by
    intro x hx hne
    obtain ⟨hxi, hsx⟩ := slot_of_released layout h hd hx hne
    rw [hsx] at hne ⊢
    refine (hd.used _ (h.range x hx hne).2).2 ⟨h.marked x hx hne, .inr fun pl _ heq => ?_⟩
    exact hxi (congrArg Prod.fst (h.once x (i, pl) hx hi hne heq.symm))
  metadata := by
    intro b hb hsize
    refine (hd.used b hsize).2 ⟨h.metadata b hb hsize,
      or_iff_not_imp_left.2 fun hne pl _ heq => ?_⟩
    exact absurd (h.range (i, pl) hi (heq ▸ hne)).1 (by omega)

omit hi in
theorem contents_released {j : ℕ} (hj : j < sb.ninodes) (hne : j ≠ i) :
    contents s' j = contents s j := by
  unfold contents
  rw [hd.mem j hne]
  congr 1
  funext k
  rw [slot_released layout h hd hj, if_neg hne]
  split_ifs with hzero
  · rfl
  · rw [hd.disk layout (h.range _ hj hzero).1]

end Released

theorem Image.kept (h : Image sb first s) (hsound : Sound sb first s')
    (hother : ∀ j < sb.ninodes, j ≠ i → contents s' j = contents s j ∧
      (∀ pl, slot s (j, pl) ≠ 0 → slot s' (j, pl) = slot s (j, pl)) ∧
      s'.mem j = s.mem j ∧ inodeAt sb s'.disk j = inodeAt sb s.disk j)
    (hwhole : NoHoles s' i) (hsize : (contents s' i).size ≤ MAXFILE * BSIZE)
    (hsaved : inodeAt sb s'.disk i = s'.mem i) : Kept sb first i s s' where
  others := fun j hj hne => (hother j hj hne).1
  image := by
    refine ⟨hsound, fun j hj => ?_, fun j hj => ?_, fun j hj => ?_⟩ <;> by_cases hji : j = i
    · exact hji ▸ hwhole
    · obtain ⟨hsame, hslot, -, -⟩ := hother j hj hji
      intro k hk
      rw [hsame] at hk
      have hne := h.whole j hj k hk
      exact (hslot _ hne).symm ▸ hne
    · exact hji ▸ hsize
    · exact (hother j hj hji).1 ▸ h.size j hj
    · exact hji ▸ hsaved
    · obtain ⟨-, -, hmem, hinode⟩ := hother j hj hji
      rw [hinode, hmem, h.saved j hj]

theorem returns_emptied (layout : Layout sb first) (h : Image sb first s) (hi : i < sb.ninodes)
    (hd : Dropped sb i places s s') :
    Returns (do
      BlockCode.setInode i fun d => { d with size := 0 }
      iupdate sb i)
      (fun _ s' => Kept sb first i s s' ∧ contents s' i = ⟨0, fun _ => 0⟩) s' := by
  have hsound := sound_released layout h.sound hi hd
  have hsize := changed_size (i := i) hsound 0
  have hsaved := hsize.trans (changed_iupdate layout hsize.sound hi
    (s'.logged ++ [sb.IBLOCK i])) hi
  have hempty := hsaved.becomes.trans (hsize.becomes.trans (Contents.ext (y := ⟨0, fun _ => 0⟩)
    rfl (funext fun k => if_pos ((slot_released layout h.sound hd hi).trans (if_pos rfl)))))
  refine ⟨_, _, rfl, h.kept hsaved.sound (fun j hj hne => ⟨?_, fun pl _ => ?_, ?_, ?_⟩) ?_ ?_ ?_,
    hempty⟩
  · exact (hsaved.others j hj hne).trans (contents_released layout h.sound hd hj hne)
  · exact (hsaved.slots (j, pl) hj (.inr (.inl hne))).trans
      ((slot_released layout h.sound hd hj).trans (if_neg hne))
  · exact (hsaved.mem j hne).trans (hd.mem j hne)
  · refine (hsaved.inodes j hj hne).trans ?_
    unfold inodeAt
    rw [hd.same _ (layout.apart j hj)]
  · intro k hk
    exact absurd (hk.trans_eq (congrArg Contents.size hempty)) (Nat.not_lt_zero k)
  · exact (congrArg Contents.size hempty).trans_le (Nat.zero_le _)
  · exact (inodeAt_setInode sb _ i i _).trans (if_pos rfl)

theorem returns_itrunc (layout : Layout sb first) (h : Image sb first s) (hi : i < sb.ninodes) :
    Returns (itrunc sb i)
      (fun _ s' => Kept sb first i s s' ∧ contents s' i = ⟨0, fun _ => 0⟩) s := by
  have hdistinct := nodup_places
  unfold places at hdistinct
  have hfirst := (List.nodup_append.1 hdistinct).1
  unfold itrunc
  apply Returns.bind
  refine (returns_freeDirect h.sound hi directs (List.nodup_append.1 hfirst).1
    (dropped_nil sb i s)).mono fun _ s1 hd => ?_
  rw [List.nil_append] at hd
  have hind : ((s1.mem i).addrs (Fin.last NDIRECT)).toNat = slot s (i, .indirect) := by
    rw [hd.addrs, if_neg (by decide +kernel)]
    exact (slot_placeOf s i (Fin.last NDIRECT)).symm
  apply Returns.bind
  refine ⟨_, s1, rfl, ?_⟩
  dsimp only
  by_cases hzero : (s1.mem i).addrs (Fin.last NDIRECT) = 0
  · rw [if_neg (not_not.2 hzero)]
    rw [hzero] at hind
    have hentries : ∀ pl ∈ (List.range NINDIRECT).map entry, slot s (i, pl) = 0 := by
      intro pl hpl
      obtain ⟨j, -, rfl⟩ := List.mem_map.1 hpl
      exact not_not.1 fun hne => indirect_filled (Nat.le_add_right NDIRECT j) hne hind.symm
    exact returns_emptied layout h hi ((hd.skip hentries).skip
      (List.forall_mem_singleton.2 hind.symm))
  · have hne : slot s (i, .indirect) ≠ 0 := fun h0 => hzero (UInt32.toNat_inj.1 (hind.trans h0))
    have hblk : ∀ j, (getU32 (s1.disk (slot s (i, .indirect))) (4 * j)).toNat =
        slot s (i, entry j) := by
      intro j
      have hslot := slot_data_of_indirect (Nat.le_add_right NDIRECT j) hne
      rw [Nat.add_sub_cancel_left] at hslot
      rw [hd.disk layout (h.sound.range (i, .indirect) hi hne).1]
      exact hslot.symm
    rw [if_pos hzero, hind]
    apply Returns.bind
    refine ⟨_, s1, rfl, ((returns_freeEntries h.sound hi hblk _ hfirst hd).mono ?_).bind⟩
    intro _ s2 hd'
    obtain ⟨disk, l, hrun, hnext⟩ := bfree_run h.sound hi hd' (notMem_of_nodup hdistinct) hne
    refine Returns.bind ⟨_, _, hrun, Returns.bind ⟨_, _, rfl, returns_emptied layout h hi ?_⟩⟩
    refine hnext _ fun k => ?_
    simp only [placeOf_inj.eq_iff]
    exact Function.update_apply _ _ _ _

theorem length_bytesAt (s : Fs) (i off n : ℕ) : (bytesAt s i off n).length = n := by
  unfold bytesAt
  rw [List.length_map, List.length_range]

theorem take_bytesAt (s : Fs) (i : ℕ) {off m n : ℕ} (h : m ≤ n) :
    (bytesAt s i off n).take m = bytesAt s i off m := by
  obtain ⟨r, rfl⟩ := Nat.exists_eq_add_of_le h
  rw [bytesAt_add, List.take_left' (length_bytesAt ..)]

theorem drop_bytesAt (s : Fs) (i m n : ℕ) :
    (bytesAt s i 0 n).drop m = bytesAt s i m (n - m) := by
  by_cases h : m ≤ n
  · obtain ⟨r, rfl⟩ := Nat.exists_eq_add_of_le h
    rw [bytesAt_add, List.drop_left' (length_bytesAt ..), Nat.zero_add, Nat.add_sub_cancel_left]
  · rw [List.drop_eq_nil_of_le (by rw [length_bytesAt]; omega), Nat.sub_eq_zero_of_le (by omega)]
    rfl

theorem readi_done (h : Image sb first s) (hi : i < sb.ninodes) (off n : UInt32) :
    BlockCode.readi sb i n.toNat off n s =
      .done (readData (bytesAt s i 0 (contents s i).size) off n n.toNat) s := by
  rw [readi_eq (h.whole i hi) (h.size i hi) off n le_rfl]
  unfold readData whole
  simp only [length_bytesAt, add_lt_iff_wraps, gt_iff_lt, drop_bytesAt]
  split_ifs with hrange hpast hfits <;> first | rfl | omega | skip
  · rw [take_bytesAt s i le_rfl, Nat.min_eq_right hfits]
  · rw [take_bytesAt s i (by omega), Nat.min_eq_left (by omega)]

end Xv6.BlockRelease
