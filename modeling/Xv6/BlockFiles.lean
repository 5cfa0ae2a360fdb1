import Mathlib.Data.Finset.Card
import Mathlib.Data.Finset.Interval
import Xv6.BlockCode

set_option autoImplicit false

namespace Xv6.BlockFiles
open Xv6.Sequential ByteFields DiskFormat BlockCode
open LogCode (Block BSIZE)
open InodeCode (NDIRECT NINDIRECT MAXFILE)
open Function (update update_of_ne update_self)

abbrev Slot := ℕ × Place

def slot (s : Fs) (x : Slot) : ℕ := place s.disk (s.mem x.1) x.2

@[ext] structure Contents where
  size : ℕ
  byte : ℕ → UInt8

def contents (s : Fs) (i : ℕ) : Contents where
  size := (s.mem i).size.toNat
  byte := fun k =>
    if slot s (i, .data (k / BSIZE)) = 0 then 0
    else byte (s.disk (slot s (i, .data (k / BSIZE)))) (k % BSIZE)

def kindOf (d : DiskInode) : UInt16 × UInt16 × UInt16 × UInt16 :=
  (d.type, d.major, d.minor, d.nlink)

def Contents.overwrite (c : Contents) (off len : ℕ) (src : ℕ → UInt8) : Contents :=
  { c with byte := fun k => if off ≤ k ∧ k < off + len then src (k - off) else c.byte k }

variable (sb : Superblock) (first : ℕ)

/-- The inodes and the bitmap are below block `first`. -/
structure Layout : Prop where
  inodes : ∀ i < sb.ninodes, sb.IBLOCK i < first
  bitmap : ∀ b < sb.size, sb.BBLOCK b < first
  apart : ∀ i < sb.ninodes, ∀ b < sb.size, sb.IBLOCK i ≠ sb.BBLOCK b
  words : sb.size ≤ 2 ^ 32

structure Sound (s : Fs) : Prop where
  once : ∀ x y : Slot, x.1 < sb.ninodes → y.1 < sb.ninodes → slot s x ≠ 0 →
    slot s x = slot s y → x = y
  range : ∀ x : Slot, x.1 < sb.ninodes → slot s x ≠ 0 → first ≤ slot s x ∧ slot s x < sb.size
  marked : ∀ x : Slot, x.1 < sb.ninodes → slot s x ≠ 0 → used sb s.disk (slot s x) = true
  metadata : ∀ b < first, b < sb.size → used sb s.disk b = true

def free (s : Fs) : ℕ := ((Finset.range sb.size).filter fun b => used sb s.disk b = false).card

def missing (s : Fs) (i : ℕ) (P : Finset Place) : ℕ := (P.filter fun pl => slot s (i, pl) = 0).card

/-- The places `P` of inode `i` are filled, and its contents become `new`. -/
structure Changed (i : ℕ) (P : Finset Place) (new : Contents) (s s' : Fs) : Prop where
  sound : Sound sb first s'
  slots : ∀ x : Slot, x.1 < sb.ninodes → slot s x ≠ 0 ∨ x.1 ≠ i ∨ x.2 ∉ P → slot s' x = slot s x
  filled : ∀ pl ∈ P, slot s' (i, pl) ≠ 0
  becomes : contents s' i = new
  others : ∀ j < sb.ninodes, j ≠ i → contents s' j = contents s j
  mem : ∀ j ≠ i, s'.mem j = s.mem j
  kind : kindOf (s'.mem i) = kindOf (s.mem i)
  inodes : ∀ j < sb.ninodes, j ≠ i → inodeAt sb s'.disk j = inodeAt sb s.disk j
  count : free sb s' + missing s i P = free sb s

variable {sb first}

theorem missing_filled {s : Fs} {i : ℕ} {P : Finset Place} (hP : ∀ pl ∈ P, slot s (i, pl) ≠ 0) :
    missing s i P = 0 :=
  Finset.card_eq_zero.2 (Finset.filter_eq_empty_iff.2 fun pl hpl => hP pl hpl)

theorem Changed.refl {s : Fs} {i : ℕ} {P : Finset Place} (h : Sound sb first s)
    (hP : ∀ pl ∈ P, slot s (i, pl) ≠ 0) : Changed sb first i P (contents s i) s s where
  sound := h
  slots := fun _ _ _ => rfl
  filled := hP
  becomes := rfl
  others := fun _ _ _ => rfl
  mem := fun _ _ => rfl
  kind := rfl
  inodes := fun _ _ _ => rfl
  count := by rw [missing_filled hP, Nat.add_zero]

theorem missing_mono (s : Fs) (i : ℕ) {P Q : Finset Place} (h : P ⊆ Q) :
    missing s i P ≤ missing s i Q :=
  Finset.card_le_card (Finset.filter_subset_filter _ h)

theorem Changed.missing_union {s s' : Fs} {i : ℕ} {P : Finset Place} {new : Contents}
    (h : Changed sb first i P new s s') (hi : i < sb.ninodes) (Q : Finset Place) :
    missing s i (P ∪ Q) = missing s i P + missing s' i Q := by
  unfold missing
  rw [← Finset.card_union_of_disjoint]
  · congr 1
    ext pl
    simp only [Finset.mem_filter, Finset.mem_union]
    by_cases hpl : pl ∈ P
    · have := h.filled pl hpl
      simp [hpl, this]
    · rw [h.slots (i, pl) hi (.inr (.inr hpl))]
      simp [hpl]
  · refine Finset.disjoint_left.2 fun pl hleft hright => ?_
    exact h.filled pl (Finset.mem_filter.1 hleft).1 (Finset.mem_filter.1 hright).2

theorem Changed.fits {s s' : Fs} {i : ℕ} {P Q : Finset Place} {new : Contents}
    (h : Changed sb first i P new s s') (hi : i < sb.ninodes)
    (hfits : missing s i (P ∪ Q) ≤ free sb s) :
    missing s' i Q ≤ free sb s' := by
  have hsum := h.missing_union hi Q
  have hfree := h.count
  omega

theorem Changed.trans {s s' s'' : Fs} {i : ℕ} {P Q : Finset Place} {new new' : Contents}
    (h : Changed sb first i P new s s') (h' : Changed sb first i Q new' s' s'')
    (hi : i < sb.ninodes) : Changed sb first i (P ∪ Q) new' s s'' where
  sound := h'.sound
  slots := by
    intro x hx hcond
    have hfirst : slot s' x = slot s x := by
      refine h.slots x hx (hcond.imp_right (Or.imp_right fun hmem hP => ?_))
      exact hmem (Finset.mem_union_left Q hP)
    rw [← hfirst] at hcond ⊢
    refine h'.slots x hx (hcond.imp_right (Or.imp_right fun hmem hQ => ?_))
    exact hmem (Finset.mem_union_right P hQ)
  filled := by
    intro pl hpl
    rcases Finset.mem_union.1 hpl with hP | hQ
    · rw [h'.slots (i, pl) hi (.inl (h.filled pl hP))]
      exact h.filled pl hP
    · exact h'.filled pl hQ
  becomes := h'.becomes
  others := fun j hj hne => (h'.others j hj hne).trans (h.others j hj hne)
  mem := fun j hne => (h'.mem j hne).trans (h.mem j hne)
  kind := h'.kind.trans h.kind
  inodes := fun j hj hne => (h'.inodes j hj hne).trans (h.inodes j hj hne)
  count := by
    have hsum := h.missing_union hi Q
    have hfree := h.count
    have hfree' := h'.count
    omega

theorem overwrite_zero (c : Contents) (off : ℕ) (src : ℕ → UInt8) : c.overwrite off 0 src = c := by
  refine Contents.ext rfl (funext fun k => ?_)
  exact if_neg (by omega)

theorem overwrite_overwrite (c : Contents) (off m k : ℕ) (src : ℕ → UInt8) :
    (c.overwrite off m src).overwrite (off + m) k (fun j => src (m + j)) =
      c.overwrite off (m + k) src := by
  refine Contents.ext rfl (funext fun x => ?_)
  unfold Contents.overwrite
  dsimp only
  by_cases hlow : off + m ≤ x ∧ x < off + m + k
  · have hindex : m + (x - (off + m)) = x - off := by omega
    rw [if_pos hlow, if_pos (by omega), hindex]
  · rw [if_neg hlow]
    by_cases hmid : off ≤ x ∧ x < off + m
    · rw [if_pos hmid, if_pos (by omega)]
    · rw [if_neg hmid, if_neg (by omega)]

theorem free_eq_zero {s : Fs} (h : ∀ b < sb.size, used sb s.disk b = true) : free sb s = 0 := by
  unfold free
  rw [Finset.card_eq_zero, Finset.filter_eq_empty_iff]
  intro b hb
  rw [h b (Finset.mem_range.1 hb)]
  exact Bool.noConfusion

variable (sb)

theorem freeBit_spec (blk : Block) (b : ℕ) (rounds bi : ℕ) (hr : bi + rounds = BPB) :
    (∀ k, freeBit sb blk b rounds bi = some k → k < BPB ∧ b + k < sb.size ∧ bit blk k = false) ∧
      (freeBit sb blk b rounds bi = none →
        ∀ j, bi ≤ j → j < BPB → b + j < sb.size → bit blk j = true) := by
  induction rounds generalizing bi with
  | zero =>
    refine ⟨fun k hk => (by cases hk), fun _ j hlow hj => ?_⟩
    omega
  | succ rounds ih =>
    unfold freeBit
    by_cases hin : bi < BPB ∧ b + bi < sb.size
    · rw [if_pos hin]
      by_cases hbit : bit blk bi = false
      · rw [if_pos hbit]
        refine ⟨fun k hk => ?_, fun hk => (by cases hk)⟩
        cases hk
        exact ⟨hin.1, hin.2, hbit⟩
      · rw [if_neg hbit]
        have hrest := ih (bi + 1) (by omega)
        refine ⟨hrest.1, fun hk j hlow hj hsize => ?_⟩
        rcases Nat.eq_or_lt_of_le hlow with rfl | hlt
        · exact Bool.eq_true_of_not_eq_false hbit
        · exact hrest.2 hk j hlt hj hsize
    · rw [if_neg hin]
      refine ⟨fun k hk => (by cases hk), fun _ j hlow hj hsize => ?_⟩
      omega

def taken (s : Fs) (b : ℕ) : Fs where
  disk := update (update s.disk (sb.BBLOCK b)
    (setBit (s.disk (sb.BBLOCK b)) (b % BPB))) b fun _ => 0
  mem := s.mem
  logged := s.logged ++ [sb.BBLOCK b] ++ [b]

theorem BBLOCK_add {b k : ℕ} (hb : b % BPB = 0) (hk : k < BPB) :
    sb.BBLOCK (b + k) = sb.BBLOCK b ∧ (b + k) % BPB = k := by
  have hpos : 0 < BPB := by decide
  obtain ⟨q, rfl⟩ := Nat.dvd_of_mod_eq_zero hb
  unfold Superblock.BBLOCK
  rw [Nat.mul_add_div hpos, Nat.mul_add_mod, Nat.div_eq_of_lt hk, Nat.mod_eq_of_lt hk,
    Nat.mul_div_cancel_left q hpos, Nat.add_zero]
  exact ⟨rfl, rfl⟩

variable {sb}

theorem ballocFrom_succ (rounds b : ℕ) (s : Fs) (hb : b < sb.size) :
    ballocFrom sb (rounds + 1) b s =
      (match freeBit sb (s.disk (sb.BBLOCK b)) b BPB 0 with
      | some bi => do
        setBlock (sb.BBLOCK b) fun blk => setBit blk bi
        logWrite (sb.BBLOCK b)
        bzero (b + bi)
        return b + bi
      | none => ballocFrom sb rounds (b + BPB) : FsCode ℕ) s := by
  rw [ballocFrom, if_pos hb]
  rfl

theorem ends_ballocFrom (rounds b : ℕ) (s : Fs) (hb : b % BPB = 0)
    (hrounds : sb.size ≤ b + rounds * BPB)
    (hbelow : ∀ c < b, c < sb.size → used sb s.disk c = true) :
    Ends (0 < free sb s) (ballocFrom sb rounds b)
      (fun b' s' => b' < sb.size ∧ used sb s.disk b' = false ∧ s' = taken sb s b') s := by
  have hfull : sb.size ≤ b → ¬ 0 < free sb s := by
    intro hend
    rw [free_eq_zero fun c hc => hbelow c (by omega) hc]
    exact Nat.lt_irrefl 0
  induction rounds generalizing b with
  | zero => exact .inr ⟨hfull (by omega), _, rfl⟩
  | succ rounds ih =>
    by_cases hend : b < sb.size
    · have hspec := freeBit_spec sb (s.disk (sb.BBLOCK b)) b BPB 0 (Nat.zero_add BPB)
      apply Ends.of_run (ballocFrom_succ rounds b s hend)
      cases hfound : freeBit sb (s.disk (sb.BBLOCK b)) b BPB 0 with
      | some k =>
        obtain ⟨hk, hsize, hbit⟩ := hspec.1 k hfound
        obtain ⟨hblock, hmod⟩ := BBLOCK_add sb hb hk
        refine .inl ⟨b + k, taken sb s (b + k), ?_, hsize, ?_, rfl⟩
        · unfold taken
          rw [hblock, hmod]
          rfl
        · unfold used
          rw [hblock, hmod, hbit]
      | none =>
        have hhere : ∀ c < b + BPB, c < sb.size → used sb s.disk c = true := by
          intro c hc hsize
          by_cases hlow : c < b
          · exact hbelow c hlow hsize
          · obtain ⟨k, rfl⟩ := Nat.exists_eq_add_of_le (Nat.le_of_not_lt hlow)
            obtain ⟨hblock, hmod⟩ := BBLOCK_add sb hb (by omega : k < BPB)
            unfold used
            rw [hblock, hmod]
            exact hspec.2 hfound k (Nat.zero_le k) (by omega) hsize
        refine ih (b + BPB) ?_ ?_ hhere ?_
        · rw [Nat.add_mod_right, hb]
        · rw [Nat.succ_mul] at hrounds
          omega
        · intro hend'
          rw [free_eq_zero fun c hc => hhere c (by omega) hc]
          exact Nat.lt_irrefl 0
    · refine .inr ⟨hfull (by omega), "balloc: out of blocks", ?_⟩
      rw [ballocFrom, if_neg hend]
      rfl

theorem ends_balloc (s : Fs) :
    Ends (0 < free sb s) (balloc sb)
      (fun b s' => b < sb.size ∧ used sb s.disk b = false ∧ s' = taken sb s b) s := by
  apply ends_ballocFrom _ 0 s (Nat.zero_mod _)
  · have hdiv := Nat.div_add_mod sb.size BPB
    have hmod := Nat.mod_lt sb.size (by decide : 0 < BPB)
    rw [Nat.add_mul, Nat.mul_comm]
    omega
  · intro c hc
    omega

section Taken

variable {s : Fs} {b : ℕ} (layout : Layout sb first) (h : Sound sb first s) (hb : b < sb.size)
  (hfree : used sb s.disk b = false)

include h hb hfree

theorem first_le_of_unused : first ≤ b := by
  by_contra hlow
  have hused := h.metadata b (by omega) hb
  rw [hfree] at hused
  cases hused

omit hb in
theorem slot_ne_of_unused {x : Slot} (hx : x.1 < sb.ninodes)
    (hne : slot s x ≠ 0) : slot s x ≠ b := by
  intro heq
  have hused := h.marked x hx hne
  rw [heq, hfree] at hused
  cases hused

include layout

theorem taken_slot_disk {x : Slot} (hx : x.1 < sb.ninodes) (hne : slot s x ≠ 0) :
    (taken sb s b).disk (slot s x) = s.disk (slot s x) := by
  have hnot := slot_ne_of_unused h hfree hx hne
  have hlow := (h.range x hx hne).1
  have hmap := layout.bitmap b hb
  unfold taken
  dsimp only
  rw [update_of_ne hnot, update_of_ne (by omega)]

theorem slot_taken {x : Slot} (hx : x.1 < sb.ninodes) : slot (taken sb s b) x = slot s x := by
  refine congrFun (place_congr (d := s.mem x.1) fun hind => ?_) x.2
  refine taken_slot_disk layout h hb hfree (x := (x.1, .indirect)) hx fun hzero => hind ?_
  exact UInt32.toNat_inj.1 hzero

theorem used_taken {c : ℕ} (hc : c < sb.size) :
    used sb (taken sb s b).disk c = (decide (c = b) || used sb s.disk c) := by
  have hlow := first_le_of_unused h hb hfree
  have hmap := layout.bitmap c hc
  have hmod : c % BPB < BPB := Nat.mod_lt c (by decide)
  unfold used taken
  dsimp only
  rw [update_of_ne (by omega)]
  by_cases hblock : sb.BBLOCK c = sb.BBLOCK b
  · rw [hblock, update_self, bit_setBit _ hmod]
    congr 1
    have hdiv : c / BPB = b / BPB := Nat.add_right_cancel hblock
    refine decide_eq_decide.2 ⟨fun hrest => ?_, fun heq => by rw [heq]⟩
    rw [← Nat.div_add_mod c BPB, ← Nat.div_add_mod b BPB, hdiv, hrest]
  · have hne : c ≠ b := fun heq => hblock (by rw [heq])
    rw [update_of_ne hblock, decide_eq_false hne, Bool.false_or]

theorem inodeAt_taken {j : ℕ} (hj : j < sb.ninodes) :
    inodeAt sb (taken sb s b).disk j = inodeAt sb s.disk j := by
  have hlow := first_le_of_unused h hb hfree
  have hblock := layout.inodes j hj
  unfold taken
  rw [inodeAt_update _ _ (by omega), inodeAt_update _ _ (layout.apart j hj b hb)]

end Taken

theorem taken_disk_self (s : Fs) (b : ℕ) : (taken sb s b).disk b = fun _ => 0 :=
  update_self ..

structure Attached (sb : Superblock) (x : Slot) (b : ℕ) (s s' : Fs) : Prop where
  bound : b < sb.size
  unused : used sb s.disk b = false
  empty : slot s x = 0
  slots : ∀ y : Slot, y.1 < sb.ninodes → slot s' y = if y = x then b else slot s y
  marked : ∀ c < sb.size, used sb s'.disk c = (decide (c = b) || used sb s.disk c)
  kept : ∀ i < sb.ninodes, ∀ bn, slot s (i, .data bn) ≠ 0 →
    s'.disk (slot s (i, .data bn)) = s.disk (slot s (i, .data bn))
  zeroed : s'.disk b = fun _ => 0
  mem : ∀ j ≠ x.1, s'.mem j = s.mem j
  kind : kindOf (s'.mem x.1) = kindOf (s.mem x.1)
  size : (s'.mem x.1).size = (s.mem x.1).size
  inodes : ∀ j < sb.ninodes, inodeAt sb s'.disk j = inodeAt sb s.disk j

namespace Attached

variable {s s' : Fs} {x : Slot} {b : ℕ} (a : Attached sb x b s s') (layout : Layout sb first)
  (h : Sound sb first s)

include a

theorem slot_self (hx : x.1 < sb.ninodes) : slot s' x = b := by
  rw [a.slots x hx, if_pos rfl]

theorem slot_of_ne {y : Slot} (hy : y.1 < sb.ninodes) (hne : y ≠ x) : slot s' y = slot s y := by
  rw [a.slots y hy, if_neg hne]

include h

theorem sound (hx : x.1 < sb.ninodes) : Sound sb first s' where
  once := by
    intro y z hy hz hne heq
    by_cases hyx : y = x
    · by_cases hzx : z = x
      · rw [hyx, hzx]
      · rw [hyx, a.slot_self hx, a.slot_of_ne hz hzx] at heq
        rw [hyx, a.slot_self hx, heq] at hne
        exact absurd heq.symm (slot_ne_of_unused h a.unused hz hne)
    · rw [a.slot_of_ne hy hyx] at hne heq
      by_cases hzx : z = x
      · rw [hzx, a.slot_self hx] at heq
        exact absurd heq (slot_ne_of_unused h a.unused hy hne)
      · rw [a.slot_of_ne hz hzx] at heq
        exact h.once y z hy hz hne heq
  range := by
    intro y hy hne
    by_cases hyx : y = x
    · rw [hyx, a.slot_self hx]
      exact ⟨first_le_of_unused h a.bound a.unused, a.bound⟩
    · rw [a.slot_of_ne hy hyx] at hne ⊢
      exact h.range y hy hne
  marked := by
    intro y hy hne
    by_cases hyx : y = x
    · rw [hyx, a.slot_self hx, a.marked b a.bound, decide_eq_true rfl, Bool.true_or]
    · rw [a.slot_of_ne hy hyx] at hne ⊢
      rw [a.marked _ (h.range y hy hne).2, h.marked y hy hne, Bool.or_true]
  metadata := by
    intro c hc hsize
    rw [a.marked c hsize, h.metadata c hc hsize, Bool.or_true]

include layout

theorem pos : b ≠ 0 := by
  have hlow := first_le_of_unused h a.bound a.unused
  have hmap := layout.bitmap b a.bound
  omega

theorem contents_eq (hx : x.1 < sb.ninodes) {j : ℕ} (hj : j < sb.ninodes) :
    contents s' j = contents s j := by
  refine Contents.ext ?_ (funext fun k => ?_)
  · by_cases hji : j = x.1
    · rw [hji, contents, contents, a.size]
    · rw [contents, contents, a.mem j hji]
  · unfold contents
    dsimp only
    by_cases hjx : (j, Place.data (k / BSIZE)) = x
    · have hempty := a.empty
      have hpos := a.pos layout h
      rw [hjx, a.slot_self hx, hempty, if_pos rfl, if_neg hpos, a.zeroed]
      unfold byte
      split_ifs <;> rfl
    · rw [a.slot_of_ne hj hjx]
      by_cases hzero : slot s (j, Place.data (k / BSIZE)) = 0
      · rw [if_pos hzero, if_pos hzero]
      · rw [if_neg hzero, if_neg hzero, a.kept j hj _ hzero]

omit layout h in
theorem free_eq : free sb s' + 1 = free sb s := by
  have herase : ((Finset.range sb.size).filter fun c => used sb s'.disk c = false) =
      ((Finset.range sb.size).filter fun c => used sb s.disk c = false).erase b := by
    ext c
    simp only [Finset.mem_filter, Finset.mem_range, Finset.mem_erase]
    refine ⟨fun ⟨hc, hfree⟩ => ?_, fun ⟨hne, hc, hfree⟩ => ?_⟩
    · rw [a.marked c hc, Bool.or_eq_false_iff, decide_eq_false_iff_not] at hfree
      exact ⟨hfree.1, hc, hfree.2⟩
    · refine ⟨hc, ?_⟩
      rw [a.marked c hc, decide_eq_false hne, hfree, Bool.or_false]
  have hmem : b ∈ (Finset.range sb.size).filter fun c => used sb s.disk c = false :=
    Finset.mem_filter.2 ⟨Finset.mem_range.2 a.bound, a.unused⟩
  unfold free
  rw [herase, Finset.card_erase_add_one hmem]

theorem changed (hx : x.1 < sb.ninodes) : Changed sb first x.1 {x.2} (contents s x.1) s s' where
  sound := a.sound h hx
  slots := by
    intro y hy hcond
    apply a.slot_of_ne hy
    rintro rfl
    have hempty := a.empty
    simp [hempty] at hcond
  filled := by
    intro pl hpl
    rw [Finset.mem_singleton.1 hpl, a.slot_self hx]
    exact a.pos layout h
  becomes := a.contents_eq layout h hx hx
  others := fun j hj _ => a.contents_eq layout h hx hj
  mem := a.mem
  kind := a.kind
  inodes := fun j hj _ => a.inodes j hj
  count := by
    have hone : missing s x.1 {x.2} = 1 := by
      unfold missing
      rw [Finset.filter_singleton, if_pos a.empty, Finset.card_singleton]
    rw [hone]
    exact a.free_eq

end Attached

def placeOf (k : Fin (NDIRECT + 1)) : Place :=
  if k.val < NDIRECT then .data k.val else .indirect

theorem placeOf_direct {bn : ℕ} (h : bn < NDIRECT) : placeOf ⟨bn, Nat.lt_succ_of_lt h⟩ = .data bn :=
  if_pos h

theorem placeOf_last : placeOf (Fin.last NDIRECT) = .indirect := if_neg (Nat.lt_irrefl NDIRECT)

theorem entry_lt {bn : ℕ} (hdirect : ¬ bn < NDIRECT) (hbn : bn < MAXFILE) :
    bn - NDIRECT < NINDIRECT := by
  unfold MAXFILE at hbn
  omega

theorem slot_placeOf (s : Fs) (i : ℕ) (k : Fin (NDIRECT + 1)) :
    slot s (i, placeOf k) = ((s.mem i).addrs k).toNat := by
  have haddr : (s.mem i).addr k.val = (s.mem i).addrs k := dif_pos k.isLt
  rw [← haddr]
  unfold slot placeOf
  by_cases hk : k.val < NDIRECT
  · rw [if_pos hk]
    exact if_pos hk
  · have hlast : k.val = NDIRECT := by omega
    rw [if_neg hk, hlast]
    rfl

theorem getU32_zeros (off : ℕ) : getU32 (fun _ => 0 : Block) off = 0 := by
  have hbyte : ∀ j, byte (fun _ => 0 : Block) j = 0 := by
    intro j
    unfold byte
    split_ifs <;> rfl
  simp [getU32, getNat, leDecode, hbyte]

theorem place_setAddr (disk : ℕ → Block) (d : DiskInode) (k : Fin (NDIRECT + 1)) (v : UInt32)
    (hempty : d.addrs k = 0) (hzero : disk v.toNat = fun _ => 0) (pl : Place) :
    place disk (d.setAddr k v) pl = if pl = placeOf k then v.toNat else place disk d pl := by
  have hk : k.val ≤ NDIRECT := Nat.le_of_lt_succ k.isLt
  have haddr : d.addr k.val = 0 := (dif_pos k.isLt).trans hempty
  unfold placeOf
  cases pl with
  | data bn =>
    change blockOf disk (d.setAddr k v) bn = if _ then _ else blockOf disk d bn
    unfold blockOf
    rw [DiskInode.addr_setAddr, DiskInode.addr_setAddr]
    by_cases hbn : bn < NDIRECT
    · rw [if_pos hbn, if_pos hbn]
      by_cases heq : bn = k.val
      · rw [if_pos heq, if_pos (by rw [if_pos (heq ▸ hbn), heq])]
      · rw [if_neg heq, if_neg]
        split_ifs with hkd
        · exact fun hpl => heq (Place.data.inj hpl)
        · exact not_false
    rw [if_neg hbn, if_neg hbn]
    by_cases hkd : k.val < NDIRECT
    · have hne : ¬ Place.data bn = Place.data k.val := by
        intro hpl
        cases hpl
        exact hbn hkd
      rw [if_pos hkd, if_neg (by omega : ¬ NDIRECT = k.val), if_neg hne]
    · have hlast : NDIRECT = k.val := by omega
      have hne : ¬ Place.data bn = Place.indirect := Place.noConfusion
      rw [if_neg hkd, if_pos hlast, if_neg hne, hzero, getU32_zeros, hlast, haddr]
      simp only [↓reduceIte]
      split_ifs <;> rfl
  | indirect =>
    change ((d.setAddr k v).addr NDIRECT).toNat = if _ then _ else (d.addr NDIRECT).toNat
    rw [DiskInode.addr_setAddr]
    by_cases hkd : k.val < NDIRECT
    · rw [if_pos hkd, if_neg (by omega : ¬ NDIRECT = k.val), if_neg Place.noConfusion]
    · rw [if_neg hkd, if_pos (by omega : NDIRECT = k.val), if_pos rfl]

theorem toNat_ofNat_block {b : ℕ} (layout : Layout sb first) (hb : b < sb.size) :
    (UInt32.ofNat b).toNat = b :=
  UInt32.toNat_ofNat_of_lt' (Nat.lt_of_lt_of_le hb layout.words)

theorem attached_addr {s : Fs} {b i : ℕ} {k : Fin (NDIRECT + 1)} (layout : Layout sb first)
    (h : Sound sb first s) (hi : i < sb.ninodes) (hb : b < sb.size)
    (hfree : used sb s.disk b = false) (hempty : (s.mem i).addrs k = 0) :
    Attached sb (i, placeOf k) b s
      { taken sb s b with
        mem := update s.mem i ((s.mem i).setAddr k (UInt32.ofNat b)) } where
  bound := hb
  unused := hfree
  empty := by
    rw [slot_placeOf, hempty]
    rfl
  slots := by
    have hword := toNat_ofNat_block layout hb
    rintro ⟨j, pl⟩ hj
    rw [← slot_taken layout h hb hfree hj]
    by_cases hji : j = i
    · subst hji
      unfold slot
      dsimp only
      rw [update_self, place_setAddr _ _ _ _ hempty, hword]
      · simp only [Prod.mk.injEq, true_and]
        rfl
      · rw [hword]
        exact taken_disk_self s b
    · have hne : ¬ (j, pl) = (i, placeOf k) := fun heq => hji (congrArg Prod.fst heq)
      rw [if_neg hne]
      unfold slot
      dsimp only
      rw [update_of_ne hji]
      rfl
  marked := fun c hc => used_taken layout h hb hfree hc
  kept := fun j hj bn hne => taken_slot_disk layout h hb hfree hj hne
  zeroed := taken_disk_self s b
  mem := fun j hne => update_of_ne hne _ _
  kind := by
    dsimp only
    rw [update_self]
    rfl
  size := by
    dsimp only
    rw [update_self]
    rfl
  inodes := fun j hj => inodeAt_taken layout h hb hfree hj

theorem place_entry (disk : ℕ → Block) (d : DiskInode) {bn : ℕ} (hlow : NDIRECT ≤ bn)
    (hhigh : bn - NDIRECT < NINDIRECT) (haddr : d.addr NDIRECT ≠ 0) (v : UInt32) (pl : Place) :
    place (update disk (d.addr NDIRECT).toNat
        (putU32 (disk (d.addr NDIRECT).toNat) (4 * (bn - NDIRECT)) v)) d pl =
      if pl = .data bn then v.toNat else place disk d pl := by
  cases pl with
  | indirect => rw [if_neg Place.noConfusion, place, place]
  | data bn' =>
    simp only [place, blockOf, haddr, ↓reduceIte, update_self, Place.data.injEq]
    by_cases hbn : bn' < NDIRECT
    · rw [if_pos hbn, if_pos hbn, if_neg (by omega)]
    rw [if_neg hbn, if_neg hbn]
    by_cases heq : bn' = bn
    · rw [if_pos heq, heq, getU32_putU32]
      unfold NINDIRECT BSIZE at *
      omega
    · rw [if_neg heq, getU32_putU32_of_disjoint]
      omega

theorem slot_data_of_indirect {s : Fs} {i bn : ℕ} (hbn : NDIRECT ≤ bn)
    (hind : slot s (i, .indirect) ≠ 0) :
    slot s (i, .data bn) =
      (getU32 (s.disk (slot s (i, .indirect))) (4 * (bn - NDIRECT))).toNat := by
  change blockOf s.disk (s.mem i) bn = _
  unfold blockOf
  have haddr : (s.mem i).addr NDIRECT ≠ 0 := fun hzero => hind (congrArg UInt32.toNat hzero)
  rw [if_neg (Nat.not_lt.2 hbn), if_neg haddr]
  rfl

theorem attached_entry {s : Fs} {b i bn : ℕ} (layout : Layout sb first)
    (h : Sound sb first s) (hi : i < sb.ninodes) (hb : b < sb.size)
    (hfree : used sb s.disk b = false) (hlow : NDIRECT ≤ bn) (hhigh : bn - NDIRECT < NINDIRECT)
    (hind : slot s (i, .indirect) ≠ 0) (hempty : slot s (i, .data bn) = 0) (l : List ℕ) :
    Attached sb (i, .data bn) b s
      { disk := update (taken sb s b).disk (slot s (i, .indirect))
          (putU32 ((taken sb s b).disk (slot s (i, .indirect))) (4 * (bn - NDIRECT))
            (UInt32.ofNat b))
        mem := s.mem
        logged := l } where
  bound := hb
  unused := hfree
  empty := hempty
  slots := by
    have haddr : (s.mem i).addr NDIRECT ≠ 0 := fun hzero => hind (congrArg UInt32.toNat hzero)
    rintro ⟨j, pl⟩ hj
    by_cases hji : j = i
    · subst hji
      rw [← slot_taken layout h hb hfree hj]
      refine (place_entry _ _ hlow hhigh haddr _ pl).trans ?_
      simp only [Prod.mk.injEq, true_and]
      rw [toNat_ofNat_block layout hb]
      rfl
    have hne : ¬ (j, pl) = (i, Place.data bn) := fun heq => hji (congrArg Prod.fst heq)
    rw [if_neg hne, ← slot_taken layout h hb hfree hj]
    refine congrFun (place_congr (d := s.mem j) fun haddr => ?_) pl
    apply update_of_ne
    intro heq
    have hslot : slot s (j, .indirect) ≠ 0 := fun hzero => haddr (UInt32.toNat_inj.1 hzero)
    exact hji (congrArg Prod.fst (h.once (j, .indirect) (i, .indirect) hj hi hslot heq))
  marked := by
    intro c hc
    rw [← used_taken layout h hb hfree hc]
    unfold used
    dsimp only
    have hrange := h.range (i, .indirect) hi hind
    have hmap := layout.bitmap c hc
    rw [update_of_ne (by omega)]
  kept := by
    intro j hj bn' hne
    dsimp only
    rw [update_of_ne, taken_slot_disk layout h hb hfree hj hne]
    intro heq
    cases h.once (j, .data bn') (i, .indirect) hj hi hne heq
  zeroed := by
    dsimp only
    rw [update_of_ne (slot_ne_of_unused h hfree hi hind).symm]
    exact taken_disk_self s b
  mem := fun _ _ => rfl
  kind := rfl
  size := rfl
  inodes := by
    intro j hj
    have hrange := h.range (i, .indirect) hi hind
    have hblock := layout.inodes j hj
    dsimp only
    rw [inodeAt_update _ _ (by omega), inodeAt_taken layout h hb hfree hj]

def placesOf (bn : ℕ) : Finset Place :=
  if bn < NDIRECT then {.data bn} else {.indirect} ∪ {.data bn}

theorem missing_of_empty {s : Fs} {i : ℕ} {pl : Place} (h : slot s (i, pl) = 0) :
    missing s i {pl} = 1 := by
  unfold missing
  rw [Finset.filter_singleton, if_pos h, Finset.card_singleton]

theorem ends_addrOf {s : Fs} {i : ℕ} (k : Fin (NDIRECT + 1)) (layout : Layout sb first)
    (h : Sound sb first s) (hi : i < sb.ninodes) :
    Ends (missing s i {placeOf k} ≤ free sb s) (addrOf sb i k)
      (fun b s' => Changed sb first i {placeOf k} (contents s i) s s' ∧
        b = slot s' (i, placeOf k)) s := by
  unfold addrOf
  apply Ends.of_run (bind_of_done (rfl : inode i s = _))
  by_cases hzero : (s.mem i).addrs k = 0
  · rw [if_pos hzero]
    have hslot : slot s (i, placeOf k) = 0 := by
      rw [slot_placeOf, hzero]
      rfl
    rw [missing_of_empty hslot]
    refine (ends_balloc s).bind ?_
    rintro b _ ⟨hb, hfree, rfl⟩
    have ha := attached_addr layout h hi hb hfree hzero
    exact .inl ⟨b, _, rfl, ha.changed layout h hi, (ha.slot_self hi).symm⟩
  · rw [if_neg hzero]
    have hslot : slot s (i, placeOf k) ≠ 0 := by
      rw [slot_placeOf]
      exact fun hnat => hzero (UInt32.toNat_inj.1 hnat)
    refine ends_pure ⟨Changed.refl h fun pl hpl => ?_, (slot_placeOf s i k).symm⟩
    rw [Finset.mem_singleton.1 hpl]
    exact hslot

theorem ends_bmap {s : Fs} {i bn : ℕ} (layout : Layout sb first) (h : Sound sb first s)
    (hi : i < sb.ninodes) (hbn : bn < MAXFILE) :
    Ends (missing s i (placesOf bn) ≤ free sb s) (bmap sb i bn)
      (fun b s' => Changed sb first i (placesOf bn) (contents s i) s s' ∧
        b = slot s' (i, .data bn)) s := by
  unfold bmap placesOf
  by_cases hdirect : bn < NDIRECT
  · rw [dif_pos hdirect, if_pos hdirect]
    have haddr := ends_addrOf ⟨bn, Nat.lt_succ_of_lt hdirect⟩ layout h hi
    rw [placeOf_direct hdirect] at haddr
    exact haddr
  have hentry := entry_lt hdirect hbn
  rw [dif_neg hdirect, if_neg hdirect, if_pos hentry]
  have haddr := ends_addrOf (Fin.last NDIRECT) layout h hi
  rw [placeOf_last] at haddr
  refine (haddr.mono (fun hfits => ?_) fun _ _ hq => hq).bind ?_
  · exact (missing_mono s i Finset.subset_union_left).trans hfits
  rintro ind s' ⟨hc, rfl⟩
  have hind := hc.filled .indirect (Finset.mem_singleton_self _)
  have hslot := slot_data_of_indirect (Nat.le_of_not_lt hdirect) hind
  apply Ends.of_run (bind_of_done (rfl : bread _ s' = _))
  dsimp only
  by_cases hzero : getU32 (s'.disk (slot s' (i, .indirect))) (4 * (bn - NDIRECT)) = 0
  · rw [if_pos hzero]
    have hempty : slot s' (i, .data bn) = 0 := by
      rw [hslot, hzero]
      rfl
    refine ((ends_balloc s').mono (fun hfits => ?_) fun _ _ hq => hq).bind ?_
    · have := hc.fits hi hfits
      rw [missing_of_empty hempty] at this
      exact this
    rintro b _ ⟨hb, hfree, rfl⟩
    have ha := attached_entry layout hc.sound hi hb hfree (Nat.le_of_not_lt hdirect) hentry hind
      hempty ((taken sb s' b).logged ++ [slot s' (i, .indirect)])
    refine .inl ⟨b, _, rfl, ?_, (ha.slot_self hi).symm⟩
    have hall := hc.trans (ha.changed layout hc.sound hi) hi
    rw [hc.becomes] at hall
    exact hall
  · rw [if_neg hzero]
    refine ends_pure ⟨?_, hslot.symm⟩
    have hfilled : slot s' (i, .data bn) ≠ 0 := by
      rw [hslot]
      exact fun hnat => hzero (UInt32.toNat_inj.1 hnat)
    have hrest : Changed sb first i {.data bn} (contents s' i) s' s' :=
      Changed.refl hc.sound fun pl hpl => by
        rw [Finset.mem_singleton.1 hpl]
        exact hfilled
    rw [← hc.becomes]
    exact hc.trans hrest hi

end Xv6.BlockFiles
