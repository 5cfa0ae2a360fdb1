import Xv6.MkfsCode

set_option autoImplicit false

namespace Xv6.MkfsImage
open Xv6.Sequential ByteFields DiskFormat MkfsCode
open LogCode (Block BSIZE)
open InodeCode (NDIRECT NINDIRECT MAXFILE)
open Function (update update_apply update_of_ne update_self)

section Numbering

variable {ι : Type} [DecidableEq ι] {P : ι → ℕ} {lo hi : ℕ}

structure Numbered (P : ι → ℕ) (lo hi : ℕ) : Prop where
  pos : 0 < lo
  range : ∀ x, P x ≠ 0 → lo ≤ P x ∧ P x < hi
  inj : ∀ x y, P x ≠ 0 → P x = P y → y = x
  onto : ∀ b, lo ≤ b → b < hi → ∃ x, P x = b

theorem Numbered.grow (h : Numbered P lo hi) (hle : lo ≤ hi) {x : ι} (hx : P x = 0) :
    Numbered (update P x hi) lo (hi + 1) := by
  refine ⟨h.pos, ?_, ?_, ?_⟩
  · intro y
    have hold := h.range y
    grind
  · intro y z
    grind [h.range, h.inj]
  · intro b hlo hhi
    by_cases hb : b = hi
    · exact ⟨x, by rw [update_self, hb]⟩
    · obtain ⟨y, hy⟩ := h.onto b hlo (by omega)
      have hyx : y ≠ x := by
        rintro rfl
        have := h.pos
        omega
      exact ⟨y, by rw [update_of_ne hyx, hy]⟩

end Numbering

/-- The numbers that may be given out, with inodes below a limit, and the regions of the disk. -/
def Safe (limit : ℕ) : Event → Prop
  | .inode n => n < limit
  | .block b => nmeta ≤ b ∧ b < FSSIZE
  | .wroteInode sec => sb.inodestart ≤ sec ∧ sec < sb.bmapstart
  | .wroteBitmap sec => sb.bmapstart ≤ sec ∧ sec < nmeta
  | .wroteData sec => nmeta ≤ sec ∧ sec < FSSIZE

theorem Safe.mono {limit limit' : ℕ} {ev : Event} (h : Safe limit ev) (hle : limit ≤ limit') :
    Safe limit' ev := by
  cases ev with
  | inode n => exact Nat.lt_of_lt_of_le h hle
  | block b => exact h
  | wroteInode sec => exact h
  | wroteBitmap sec => exact h
  | wroteData sec => exact h

structure Entry where
  inode : DiskInode
  data : List UInt8
  n : ℕ

def Entry.none : Entry := ⟨DiskInode.zero, [], 0⟩

structure File (disk : ℕ → Block) (e : Entry) : Prop where
  size : e.inode.size.toNat = e.data.length
  nlink : e.inode.nlink = 1
  enough : e.data.length ≤ BSIZE * e.n
  max : e.n ≤ MAXFILE
  blocks : ∀ bn, blockOf disk e.inode bn ≠ 0 ↔ bn < e.n
  indirect : e.inode.addr NDIRECT ≠ 0 → NDIRECT ≤ e.n
  bytes : ∀ j < BSIZE * e.n, fileByte disk e.inode j = e.data.getD j 0

def places (disk : ℕ → Block) (tab : ℕ → Entry) (x : ℕ × Place) : ℕ := place disk
    (tab x.1).inode x.2

structure Built (cur : Option ℕ) (tab : ℕ → Entry) (s : Mkfs) : Prop where
  len : s.len = FSSIZE
  inodes : 1 ≤ s.freeinode ∧ s.freeinode ≤ ninodeblocks * IPB
  bounds : nmeta ≤ s.freeblock ∧ s.freeblock ≤ FSSIZE
  stored : ∀ j < ninodeblocks * IPB, cur ≠ some j → inodeAt sb s.disk j = (tab j).inode
  numbered : Numbered (places s.disk tab) nmeta s.freeblock
  blank : ∀ b, s.freeblock ≤ b → b < FSSIZE → s.disk b = zeroes
  unused : ∀ j, ¬ (1 ≤ j ∧ j < s.freeinode) → tab j = Entry.none
  file : ∀ j, 1 ≤ j → j < s.freeinode → File s.disk (tab j)
  trace : ∀ e ∈ s.trace, Safe s.freeinode e

variable {cur : Option ℕ} {tab : ℕ → Entry} {s : Mkfs} {i j c : ℕ} {disk disk' : ℕ → Block}
variable {e : Entry}

theorem File.congr (h : File disk e)
    (hind : e.inode.addr NDIRECT ≠ 0 →
      disk' (e.inode.addr NDIRECT).toNat = disk (e.inode.addr NDIRECT).toNat)
    (hdata : ∀ bn < e.n, disk' (blockOf disk e.inode bn) = disk (blockOf disk e.inode bn)) :
    File disk' e := by
  refine ⟨h.size, h.nlink, h.enough, h.max, ?_, h.indirect, ?_⟩
  · intro bn
    rw [blockOf_congr hind]
    exact h.blocks bn
  · intro j hj
    rw [← h.bytes j hj]
    unfold fileByte
    have hbn : j / BSIZE < e.n := by
      rw [Nat.mul_comm] at hj
      exact Nat.div_lt_of_lt_mul (by rwa [Nat.mul_comm])
    rw [blockOf_congr hind, hdata _ hbn]

theorem Built.place_lt (h : Built cur tab s) (i : ℕ) (pl : Place)
    (hne : place s.disk (tab i).inode pl ≠ 0) :
    nmeta ≤ place s.disk (tab i).inode pl ∧ place s.disk (tab i).inode pl < s.freeblock :=
  h.numbered.range (i, pl) hne

def Touched (disk disk' : ℕ → Block) (d : DiskInode) : Prop :=
  ∀ b, disk' b ≠ disk b → b ≠ 0 ∧ ∃ pl, place disk d pl = b

theorem touched_refl (d : DiskInode) : Touched disk disk d := fun _ hne => absurd rfl hne

theorem touched_update {d : DiskInode} (pl : Place) {blk : Block} (hc : place disk d pl = c)
    (hc0 : c ≠ 0) : Touched disk (update disk c blk) d := by
  intro b hb
  have hbc : b = c := by
    by_contra hne
    exact hb (update_of_ne hne _ _)
  rw [hbc]
  exact ⟨hc0, pl, hc⟩

theorem iblock_lt_bmap (hj : j < ninodeblocks * IPB) : sb.IBLOCK j < sb.bmapstart := by
  unfold Superblock.IBLOCK
  have hdiv : j / IPB < ninodeblocks := Nat.div_lt_of_lt_mul (by rwa [Nat.mul_comm] at hj)
  have hstart : sb.bmapstart = ninodeblocks + sb.inodestart := rfl
  generalize j / IPB = q at hdiv ⊢
  omega

theorem iblock_lt (hj : j < ninodeblocks * IPB) :
    sb.inodestart ≤ sb.IBLOCK j ∧ sb.IBLOCK j < nmeta :=
  ⟨Nat.le_add_left _ _, (iblock_lt_bmap hj).trans (by decide)⟩

section

variable (h : Built cur tab s) (ht : Touched s.disk disk' (tab i).inode)
include h ht

theorem Built.untouched (hji : j ≠ i) (pl : Place) :
    disk' (place s.disk (tab j).inode pl) = s.disk (place s.disk (tab j).inode pl) := by
  by_contra hne
  obtain ⟨hne0, pl', hpl'⟩ := ht _ hne
  have hinj := h.numbered.inj (j, pl) (i, pl') hne0 hpl'.symm
  exact hji (congrArg Prod.fst hinj).symm

theorem Built.file_other (hj : 1 ≤ j) (hj' : j < s.freeinode) (hji : j ≠ i) :
    File disk' (tab j) := by
  apply (h.file j hj hj').congr
  · exact fun _ => h.untouched ht hji .indirect
  · exact fun bn _ => h.untouched ht hji (.data bn)

theorem Built.places_eq (x : ℕ × Place) :
    places disk' (update tab i e) x =
      if x.1 = i then place disk' e.inode x.2 else places s.disk tab x := by
  obtain ⟨j, pl⟩ := x
  unfold places
  dsimp only
  split_ifs with hji
  · rw [hji, update_self]
  · rw [update_of_ne hji]
    refine congrFun (place_congr fun _ => ?_) pl
    exact h.untouched ht hji .indirect

theorem Built.numbered_grow
    {pl : Place} (hfree : place s.disk (tab i).inode pl = 0)
    (hplace : ∀ pl', place disk' e.inode pl' =
      if pl' = pl then s.freeblock else place s.disk (tab i).inode pl') :
    Numbered (places disk' (update tab i e)) nmeta (s.freeblock + 1) := by
  have heq : places disk' (update tab i e) =
      update (places s.disk tab) (i, pl) s.freeblock := by
    funext x
    obtain ⟨j, pl'⟩ := x
    rw [h.places_eq ht, update_apply]
    dsimp only
    by_cases hji : j = i
    · rw [if_pos hji, hplace, hji]
      simp only [Prod.mk.injEq, true_and]
      rfl
    · rw [if_neg hji, if_neg (by simp [hji])]
  rw [heq]
  exact h.numbered.grow h.bounds.1 hfree

theorem Built.numbered_same
    (hplace : ∀ pl, place disk' e.inode pl = place s.disk (tab i).inode pl) :
    Numbered (places disk' (update tab i e)) nmeta s.freeblock := by
  have heq : places disk' (update tab i e) = places s.disk tab := by
    funext x
    obtain ⟨j, pl⟩ := x
    rw [h.places_eq ht]
    dsimp only
    split_ifs with hji
    · rw [hplace, hji]
      rfl
    · rfl
  rw [heq]
  exact h.numbered

end

theorem byte_zeroes (k : ℕ) : byte zeroes k = 0 := by
  unfold byte zeroes
  split_ifs <;> rfl

theorem getNat_zeroes (off w : ℕ) : getNat zeroes off w = 0 := by
  have hzero : ∀ v, leByte 0 v = 0 := fun v => by
    unfold leByte
    rw [Nat.zero_div]
    rfl
  have hsame : getNat zeroes off w = leDecode (leByte 0) w := by
    apply leDecode_congr
    intro j _
    rw [byte_zeroes, hzero]
  rw [hsame, leDecode_leByte, Nat.zero_mod]

theorem getU32_zeroes (off : ℕ) : getU32 zeroes off = 0 := by
  unfold getU32
  rw [getNat_zeroes]
  rfl

theorem get_zeroes (k : ℕ) : DiskInode.get zeroes k = DiskInode.zero := by
  unfold DiskInode.get
  simp only [getNat_zeroes, getU32_zeroes]
  rfl

theorem toNat_freeblock (h : Built cur tab s) : (UInt32.ofNat s.freeblock).toNat = s.freeblock := by
  have hle := h.bounds.2
  have hsize : FSSIZE < UInt32.size := by decide
  exact UInt32.toNat_ofNat_of_lt' (by omega)

theorem ofNat_freeblock_ne (h : Built cur tab s) : UInt32.ofNat s.freeblock ≠ 0 := by
  intro hzero
  have hnat := toNat_freeblock h
  rw [hzero] at hnat
  have hlo := h.bounds.1
  have hmeta : nmeta = 46 := rfl
  change 0 = s.freeblock at hnat
  omega

def spent (s : Mkfs) : Mkfs :=
  { s with freeblock := s.freeblock + 1, trace := s.trace ++ [.block s.freeblock] }

theorem Built.safe_spent (h : Built cur tab s) (hroom : s.freeblock < FSSIZE) :
    ∀ ev ∈ (spent s).trace, Safe s.freeinode ev := by
  intro ev hev
  rcases List.mem_append.1 hev with hold | hnew
  · exact h.trace ev hold
  · rw [List.mem_singleton] at hnew
    rw [hnew]
    exact ⟨h.bounds.1, hroom⟩

theorem File.grow (h : File disk e) {d : DiskInode} {b : ℕ} (hd : d.size = e.inode.size)
    (hnlink : d.nlink = e.inode.nlink) (hn : e.n < MAXFILE) (hb : b ≠ 0) (hzero : disk' b = zeroes)
    (hblock : ∀ bn, blockOf disk' d bn = if bn = e.n then b else blockOf disk e.inode bn)
    (hsame : ∀ bn < e.n, disk' (blockOf disk e.inode bn) = disk (blockOf disk e.inode bn))
    (hind : d.addr NDIRECT ≠ 0 → NDIRECT ≤ e.n + 1) :
    File disk' ⟨d, e.data, e.n + 1⟩ := by
  refine ⟨hd ▸ h.size, hnlink ▸ h.nlink, ?_, hn, ?_, hind, ?_⟩
  · exact h.enough.trans (Nat.mul_le_mul_left _ (Nat.le_succ _))
  · intro bn
    dsimp only
    rw [hblock]
    split_ifs with hbn
    · exact ⟨fun _ => by omega, fun _ => hb⟩
    · rw [h.blocks bn]
      omega
  · intro k hk
    dsimp only at hk ⊢
    unfold fileByte
    rw [hblock]
    split_ifs with hbn
    · have hge : e.data.length ≤ k := by
        apply h.enough.trans
        rw [← hbn]
        exact Nat.mul_div_le k BSIZE
      rw [hzero, byte_zeroes, List.getD_eq_getElem?_getD, List.getElem?_eq_none hge]
      rfl
    · have hlt : k / BSIZE < e.n := by
        have : k / BSIZE < e.n + 1 := Nat.div_lt_of_lt_mul hk
        omega
      rw [hsame _ hlt]
      apply h.bytes k
      have hB : BSIZE = 1024 := rfl
      rw [hB] at hlt ⊢
      omega

theorem getU32_putU32_entry (blk : Block) {k k' : ℕ} (v : UInt32) (hk : k < NINDIRECT) :
    getU32 (putU32 blk (4 * k) v) (4 * k') = if k' = k then v else getU32 blk (4 * k') := by
  split_ifs with hkk
  · rw [hkk, getU32_putU32]
    unfold NINDIRECT at hk
    omega
  · exact getU32_putU32_of_disjoint blk _ _ v (by omega)

def entered (s : Mkfs) (ind k : ℕ) : Mkfs :=
  { s with
    disk := update s.disk ind (putU32 (s.disk ind) (4 * k) (UInt32.ofNat s.freeblock))
    freeblock := s.freeblock + 1
    trace := s.trace ++ [.block s.freeblock] ++ [.wroteData ind] }

def wrote (s : Mkfs) (x off len : ℕ) (p : List UInt8) : Mkfs :=
  { s with
    disk := update s.disk x (setBytes (s.disk x) off len fun k => p.getD k 0)
    trace := s.trace ++ [.wroteData x] }

theorem File.append (h : File disk e) {fbn : ℕ} {p : List UInt8}
    (hfbn : fbn = e.data.length / BSIZE) (hn : fbn < e.n)
    (hp : p.length ≤ (fbn + 1) * BSIZE - e.data.length)
    (hind : e.inode.addr NDIRECT ≠ 0 →
      (e.inode.addr NDIRECT).toNat ≠ blockOf disk e.inode fbn)
    (hinj : ∀ bn, bn ≠ fbn → blockOf disk e.inode bn ≠ blockOf disk e.inode fbn) :
    File (update disk (blockOf disk e.inode fbn)
        (setBytes (disk (blockOf disk e.inode fbn)) (e.data.length - fbn * BSIZE) p.length
          fun k => p.getD k 0))
      ⟨{ e.inode with size := UInt32.ofNat (e.data.length + p.length) }, e.data ++ p, e.n⟩ := by
  have hB : BSIZE = 1024 := rfl
  have hlen : e.data.length + p.length ≤ BSIZE * e.n := by
    rw [hB] at hfbn hp ⊢
    omega
  have hsize : e.data.length + p.length < UInt32.size := by
    have hbound : MAXFILE * BSIZE < UInt32.size := by decide
    have hmul : BSIZE * e.n ≤ BSIZE * MAXFILE := Nat.mul_le_mul_left _ h.max
    rw [Nat.mul_comm BSIZE MAXFILE] at hmul
    omega
  have hblock : ∀ blk bn, blockOf (update disk (blockOf disk e.inode fbn) blk)
      { e.inode with size := UInt32.ofNat (e.data.length + p.length) } bn =
        blockOf disk e.inode bn := by
    intro blk bn
    have hcongr : blockOf (update disk (blockOf disk e.inode fbn) blk) e.inode bn =
        blockOf disk e.inode bn := blockOf_congr (fun h0 => update_of_ne (hind h0) ..) bn
    exact hcongr
  refine ⟨?_, h.nlink, ?_, h.max, ?_, h.indirect, ?_⟩
  · dsimp only
    rw [UInt32.toNat_ofNat_of_lt' hsize, List.length_append]
  · rw [List.length_append]
    exact hlen
  · intro bn
    dsimp only
    rw [hblock]
    exact h.blocks bn
  · intro k hk
    have hold := h.bytes k hk
    have hmod : k % BSIZE < BSIZE := Nat.mod_lt k (by decide)
    unfold fileByte at hold ⊢
    dsimp only
    rw [hblock]
    rw [List.getD_eq_getElem?_getD] at hold ⊢
    rw [List.getElem?_append]
    by_cases hhere : k / BSIZE = fbn
    · rw [hhere] at hold ⊢
      have hoff : k % BSIZE = k - 1024 * fbn := by
        rw [hB] at hhere ⊢
        omega
      have hbase : fbn * BSIZE = 1024 * fbn := by
        rw [hB]
        omega
      rw [update_self, byte_setBytes _ _ _ _ _ hmod, hbase]
      rw [hoff] at hold ⊢
      rw [hB] at hfbn hhere hp
      split_ifs with hin hbefore hbefore
      · omega
      · rw [List.getD_eq_getElem?_getD]
        congr 2
        omega
      · exact hold
      · rw [hold, List.getElem?_eq_none (by omega), List.getElem?_eq_none (by omega)]
    · rw [update_of_ne (hinj _ hhere)]
      refine hold.trans ?_
      rw [hB] at hfbn hhere hp
      split_ifs with hbefore
      · rfl
      · rw [List.getElem?_eq_none (by omega), List.getElem?_eq_none (by omega)]

variable (h : Built (some i) tab s) (hi : 1 ≤ i) (hi' : i < s.freeinode)
include h hi hi'

theorem Built.replace {fb : ℕ} {tr : List Event} (hfb : s.freeblock ≤ fb ∧ fb ≤ FSSIZE)
    (ht : Touched s.disk disk' (tab i).inode)
    (hnum : Numbered (places disk' (update tab i e)) nmeta fb) (hfile : File disk' e)
    (htr : ∀ ev ∈ tr, Safe s.freeinode ev) :
    Built (some i) (update tab i e)
      { s with disk := disk', freeblock := fb, trace := tr } := by
  have hrange : ∀ b, disk' b ≠ s.disk b → nmeta ≤ b ∧ b < s.freeblock := by
    intro b hb
    obtain ⟨hb0, pl, rfl⟩ := ht b hb
    exact h.place_lt i pl hb0
  have hother : ∀ j, j ≠ i → update tab i e j = tab j :=
    fun j hji => update_of_ne hji e tab
  refine ⟨h.len, h.inodes, ⟨h.bounds.1.trans hfb.1, hfb.2⟩, ?_, hnum, ?_, ?_, ?_, htr⟩
  · intro j hj hcur
    rw [hother j fun heq => hcur (by rw [heq]), ← h.stored j hj hcur]
    have hlt := (iblock_lt hj).2
    unfold inodeAt
    congr 1
    by_contra hne
    have := (hrange _ hne).1
    omega
  · intro b hb hb'
    rw [← h.blank b (hfb.1.trans hb) hb']
    by_contra hne
    have := (hrange b hne).2
    exact absurd hb (by dsimp only; omega)
  · intro j hj
    rw [hother j fun heq => hj (by rw [heq]; exact ⟨hi, hi'⟩)]
    exact h.unused j hj
  · intro j hj hj'
    by_cases hji : j = i
    · rw [hji, update_self]
      exact hfile
    · rw [hother j hji]
      exact h.file_other ht hj hj' hji

theorem Built.direct (hn : (tab i).n < NDIRECT) (hroom : s.freeblock < FSSIZE) :
    Built (some i) (update tab i
      ⟨(tab i).inode.setAddr ⟨(tab i).n, Nat.lt_succ_of_lt hn⟩ (UInt32.ofNat s.freeblock),
        (tab i).data, (tab i).n + 1⟩) (spent s) := by
  have hN : NDIRECT = 12 := rfl
  have hfile := h.file i hi hi'
  have hlast : ((tab i).inode.setAddr ⟨(tab i).n, Nat.lt_succ_of_lt hn⟩
      (UInt32.ofNat s.freeblock)).addr NDIRECT = (tab i).inode.addr NDIRECT := by
    rw [DiskInode.addr_setAddr, if_neg (by dsimp only; omega)]
  have hblock : ∀ bn, blockOf s.disk
      ((tab i).inode.setAddr ⟨(tab i).n, Nat.lt_succ_of_lt hn⟩ (UInt32.ofNat s.freeblock)) bn =
        if bn = (tab i).n then s.freeblock else blockOf s.disk (tab i).inode bn := by
    intro bn
    unfold blockOf
    rw [hlast, DiskInode.addr_setAddr]
    by_cases hbn : bn = (tab i).n
    · rw [if_pos hbn, if_pos hbn, if_pos (by omega), toNat_freeblock h]
    · rw [if_neg hbn, if_neg hbn]
  have hfree : place s.disk (tab i).inode (.data (tab i).n) = 0 := by
    by_contra hne
    exact absurd ((hfile.blocks _).1 hne) (Nat.lt_irrefl _)
  have ht : Touched s.disk s.disk (tab i).inode := touched_refl _
  refine h.replace hi hi' ⟨Nat.le_succ _, hroom⟩ ht (h.numbered_grow ht hfree ?_) ?_
    (h.safe_spent hroom)
  · intro pl
    cases pl with
    | data bn =>
      simp only [Place.data.injEq]
      exact hblock bn
    | indirect => exact congrArg UInt32.toNat hlast
  · refine hfile.grow rfl rfl ?_ ?_ (h.blank _ le_rfl hroom) hblock (fun _ _ => rfl) ?_
    · unfold MAXFILE
      omega
    · have := h.bounds.1
      have := h.numbered.pos
      omega
    · rw [hlast]
      intro hne
      have := hfile.indirect hne
      omega

theorem Built.indirect (hn : (tab i).n = NDIRECT) (hnone : (tab i).inode.addr NDIRECT = 0)
    (hroom : s.freeblock < FSSIZE) :
    Built (some i) (update tab i
      ⟨(tab i).inode.setAddr (Fin.last NDIRECT) (UInt32.ofNat s.freeblock),
      (tab i).data, (tab i).n⟩)
      (spent s) := by
  have hfile := h.file i hi hi'
  have hlast : ((tab i).inode.setAddr (Fin.last NDIRECT) (UInt32.ofNat s.freeblock)).addr NDIRECT =
      UInt32.ofNat s.freeblock := by
    rw [DiskInode.addr_setAddr]
    exact if_pos rfl
  have hblock : ∀ bn, blockOf s.disk
      ((tab i).inode.setAddr (Fin.last NDIRECT) (UInt32.ofNat s.freeblock)) bn =
        blockOf s.disk (tab i).inode bn := by
    intro bn
    unfold blockOf
    rw [hlast, hnone, if_neg (ofNat_freeblock_ne h), if_pos rfl, toNat_freeblock h,
      h.blank _ le_rfl hroom, getU32_zeroes, DiskInode.addr_setAddr]
    split_ifs with hbn hval
    · exact absurd hval (Nat.ne_of_lt hbn)
    · rfl
    · rfl
  have hfree : place s.disk (tab i).inode .indirect = 0 := by
    change ((tab i).inode.addr NDIRECT).toNat = 0
    rw [hnone]
    rfl
  have ht : Touched s.disk s.disk (tab i).inode := touched_refl _
  refine h.replace hi hi' ⟨Nat.le_succ _, hroom⟩ ht (h.numbered_grow ht hfree ?_) ?_
    (h.safe_spent hroom)
  · intro pl
    cases pl with
    | data bn => exact hblock bn
    | indirect =>
      rw [if_pos rfl]
      exact (congrArg UInt32.toNat hlast).trans (toNat_freeblock h)
  · refine ⟨hfile.size, hfile.nlink, hfile.enough, hfile.max, ?_, fun _ => hn.ge, ?_⟩
    · intro bn
      rw [hblock]
      exact hfile.blocks bn
    · intro k hk
      unfold fileByte
      rw [hblock]
      exact hfile.bytes k hk

theorem Built.entry (hn : NDIRECT ≤ (tab i).n) (hmax : (tab i).n < MAXFILE)
    (hind : (tab i).inode.addr NDIRECT ≠ 0) (hroom : s.freeblock < FSSIZE) :
    Built (some i) (update tab i ⟨(tab i).inode, (tab i).data, (tab i).n + 1⟩)
      (entered s ((tab i).inode.addr NDIRECT).toNat ((tab i).n - NDIRECT)) := by
  have hfile := h.file i hi hi'
  have hind0 : ((tab i).inode.addr NDIRECT).toNat ≠ 0 := fun h0 => hind (UInt32.toNat_inj.1 h0)
  have hrange := h.place_lt i .indirect hind0
  have hindex : (tab i).n - NDIRECT < NINDIRECT := by
    unfold MAXFILE at hmax
    omega
  have hblock : ∀ bn, blockOf
      (entered s ((tab i).inode.addr NDIRECT).toNat ((tab i).n - NDIRECT)).disk (tab i).inode bn =
        if bn = (tab i).n then s.freeblock else blockOf s.disk (tab i).inode bn := by
    intro bn
    unfold blockOf entered
    dsimp only
    rw [if_neg hind, if_neg hind, update_self, getU32_putU32_entry _ _ hindex]
    by_cases hbn : bn = (tab i).n
    · rw [if_pos hbn, hbn, if_neg (by omega), if_pos rfl, toNat_freeblock h]
    · rw [if_neg hbn]
      by_cases hdir : bn < NDIRECT
      · rw [if_pos hdir, if_pos hdir]
      · rw [if_neg hdir, if_neg hdir, if_neg (by omega)]
  have hfree : place s.disk (tab i).inode (.data (tab i).n) = 0 := by
    by_contra hne
    exact absurd ((hfile.blocks _).1 hne) (Nat.lt_irrefl _)
  have ht : Touched s.disk
      (entered s ((tab i).inode.addr NDIRECT).toNat ((tab i).n - NDIRECT)).disk (tab i).inode :=
    touched_update .indirect rfl hind0
  refine h.replace hi hi' ⟨Nat.le_succ _, hroom⟩ ht (h.numbered_grow ht hfree ?_) ?_ ?_
  · intro pl
    cases pl with
    | data bn =>
      simp only [Place.data.injEq]
      exact hblock bn
    | indirect => rfl
  · refine hfile.grow rfl rfl hmax ?_ ?_ hblock ?_ fun _ => by omega
    · have := h.bounds.1
      have := h.numbered.pos
      omega
    · refine (update_of_ne ?_ _ _).trans (h.blank _ le_rfl hroom)
      exact (Nat.ne_of_lt hrange.2).symm
    · intro bn hbn
      apply update_of_ne
      intro heq
      have hne := (hfile.blocks bn).2 hbn
      have hinj := h.numbered.inj (i, .data bn) (i, .indirect) hne heq
      cases congrArg Prod.snd hinj
  · intro ev hev
    rcases List.mem_append.1 hev with hold | hnew
    · exact h.safe_spent hroom ev hold
    · rw [List.mem_singleton] at hnew
      rw [hnew]
      exact ⟨hrange.1, Nat.lt_of_lt_of_le hrange.2 h.bounds.2⟩

theorem Built.append (fbn : ℕ) (p : List UInt8) (hfbn : fbn = (tab i).data.length / BSIZE)
    (hn : fbn < (tab i).n)
    (hp : p.length ≤ (fbn + 1) * BSIZE - (tab i).data.length) :
    Built (some i) (update tab i
      ⟨{ (tab i).inode with size := UInt32.ofNat ((tab i).data.length + p.length) },
        (tab i).data ++ p, (tab i).n⟩)
      (wrote s (blockOf s.disk (tab i).inode fbn) ((tab i).data.length - fbn * BSIZE)
      p.length p) := by
  have hfile := h.file i hi hi'
  have hne : blockOf s.disk (tab i).inode fbn ≠ 0 := (hfile.blocks fbn).2 hn
  have hrange := h.place_lt i (.data fbn) hne
  have hplace : ∀ pl, pl ≠ .data fbn →
      place s.disk (tab i).inode pl ≠ blockOf s.disk (tab i).inode fbn := by
    intro pl hpl heq
    exact hpl (congrArg Prod.snd (h.numbered.inj (i, .data fbn) (i, pl) hne heq.symm))
  have hind : (tab i).inode.addr NDIRECT ≠ 0 →
      ((tab i).inode.addr NDIRECT).toNat ≠ blockOf s.disk (tab i).inode fbn :=
    fun _ => hplace .indirect nofun
  have hinj : ∀ bn, bn ≠ fbn →
      blockOf s.disk (tab i).inode bn ≠ blockOf s.disk (tab i).inode fbn :=
    fun bn hbn => hplace (.data bn) fun heq => hbn (Place.data.inj heq)
  have ht : Touched s.disk (wrote s (blockOf s.disk (tab i).inode fbn)
      ((tab i).data.length - fbn * BSIZE) p.length p).disk (tab i).inode :=
    touched_update (.data fbn) rfl hne
  refine h.replace hi hi' ⟨le_rfl, h.bounds.2⟩ ht (h.numbered_same ht ?_)
    (hfile.append hfbn hn hp hind hinj) ?_
  · intro pl
    exact congrFun (place_congr fun h0 => update_of_ne (hind h0) ..) pl
  · intro ev hev
    rcases List.mem_append.1 hev with hold | hnew
    · exact h.trace ev hold
    · rw [List.mem_singleton] at hnew
      rw [hnew]
      exact ⟨hrange.1, Nat.lt_of_lt_of_le hrange.2 h.bounds.2⟩

end Xv6.MkfsImage
