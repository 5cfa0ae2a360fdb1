import Xv6.InodeCode

set_option autoImplicit false

namespace Xv6.DiskFormat
open ByteFields
open LogCode (Block BSIZE)
open InodeCode (NDIRECT)

def FSMAGIC : ℕ := 0x10203040

/-- `sizeof(struct dinode)` -/
def DINODE : ℕ := 64

def IPB : ℕ := BSIZE / DINODE

def BPB : ℕ := BSIZE * 8

structure Superblock where
  magic : ℕ
  size : ℕ
  nblocks : ℕ
  ninodes : ℕ
  nlog : ℕ
  logstart : ℕ
  inodestart : ℕ
  bmapstart : ℕ

def Superblock.IBLOCK (sb : Superblock) (i : ℕ) : ℕ := i / IPB + sb.inodestart

def Superblock.BBLOCK (sb : Superblock) (b : ℕ) : ℕ := b / BPB + sb.bmapstart

/-- `struct dinode` -/
@[ext] structure DiskInode where
  type : UInt16
  major : UInt16
  minor : UInt16
  nlink : UInt16
  size : UInt32
  addrs : Fin (NDIRECT + 1) → UInt32

namespace DiskInode

def zero : DiskInode := ⟨0, 0, 0, 0, 0, fun _ => 0⟩

def addr (d : DiskInode) (k : ℕ) : UInt32 :=
  if h : k < NDIRECT + 1 then d.addrs ⟨k, h⟩ else 0

def setAddr (d : DiskInode) (k : Fin (NDIRECT + 1)) (b : UInt32) : DiskInode :=
  { d with addrs := Function.update d.addrs k b }

def byteAt (d : DiskInode) (j : ℕ) : UInt8 :=
  if j < 2 then leByte d.type.toNat j
  else if j < 4 then leByte d.major.toNat (j - 2)
  else if j < 6 then leByte d.minor.toNat (j - 4)
  else if j < 8 then leByte d.nlink.toNat (j - 6)
  else if j < 12 then leByte d.size.toNat (j - 8)
  else leByte (d.addr ((j - 12) / 4)).toNat ((j - 12) % 4)

def get (b : Block) (k : ℕ) : DiskInode where
  type := UInt16.ofNat (getNat b (DINODE * k) 2)
  major := UInt16.ofNat (getNat b (DINODE * k + 2) 2)
  minor := UInt16.ofNat (getNat b (DINODE * k + 4) 2)
  nlink := UInt16.ofNat (getNat b (DINODE * k + 6) 2)
  size := getU32 b (DINODE * k + 8)
  addrs := fun i => getU32 b (DINODE * k + 12 + 4 * i.val)

def put (b : Block) (k : ℕ) (d : DiskInode) : Block := setBytes b (DINODE * k) DINODE d.byteAt

theorem getNat_put (b : Block) {k : ℕ} (d : DiskInode) (hk : k < IPB) {off w v : ℕ}
    (hoff : off + w ≤ DINODE) (hbytes : ∀ j < w, d.byteAt (off + j) = leByte v j) :
    getNat (put b k d) (DINODE * k + off) w = v % 256 ^ w := by
  rw [← leDecode_leByte]
  apply leDecode_congr
  intro j hj
  have hin : DINODE * k + off + j < BSIZE := by
    unfold IPB DINODE BSIZE at *
    omega
  unfold put
  rw [byte_setBytes b _ _ _ _ hin, if_pos (by omega), ← hbytes j hj]
  congr 1
  omega

theorem getNat_put_of_ne (b : Block) {k k' : ℕ} (d : DiskInode) (hne : k' ≠ k) {off w : ℕ}
    (hoff : off + w ≤ DINODE) :
    getNat (put b k d) (DINODE * k' + off) w = getNat b (DINODE * k' + off) w := by
  apply getNat_setBytes_of_disjoint
  unfold DINODE at *
  omega

theorem ofNat_mod_short (v : UInt16) : UInt16.ofNat (v.toNat % 256 ^ 2) = v := by
  have hv : v.toNat < 256 ^ 2 := v.toNat_lt
  rw [Nat.mod_eq_of_lt hv, UInt16.ofNat_toNat]

theorem ofNat_mod_word (v : UInt32) : UInt32.ofNat (v.toNat % 256 ^ 4) = v := by
  have hv : v.toNat < 256 ^ 4 := v.toNat_lt
  rw [Nat.mod_eq_of_lt hv, UInt32.ofNat_toNat]

theorem byteAt_addr (d : DiskInode) (i : Fin (NDIRECT + 1)) {j : ℕ} (hj : j < 4) :
    d.byteAt (12 + 4 * i.val + j) = leByte (d.addrs i).toNat j := by
  have hindex : (12 + 4 * i.val + j - 12) / 4 = i.val := by omega
  have hrest : (12 + 4 * i.val + j - 12) % 4 = j := by omega
  have haddr : d.addr i.val = d.addrs i := dif_pos i.isLt
  unfold byteAt
  rw [if_neg (by omega), if_neg (by omega), if_neg (by omega), if_neg (by omega),
    if_neg (by omega), hindex, hrest, haddr]

theorem get_put (b : Block) {k : ℕ} (d : DiskInode) (hk : k < IPB) : get (put b k d) k = d := by
  have hD : DINODE = 64 := rfl
  have hshort : ∀ (off : ℕ) (v : UInt16), off + 2 ≤ DINODE →
      (∀ j < 2, d.byteAt (off + j) = leByte v.toNat j) →
      UInt16.ofNat (getNat (put b k d) (DINODE * k + off) 2) = v := by
    intro off v hoff hbytes
    rw [getNat_put b d hk hoff hbytes, ofNat_mod_short]
  ext i
  · refine congrArg UInt16.toNat (hshort 0 d.type (by omega) fun j hj => ?_)
    rw [Nat.zero_add]
    exact if_pos hj
  · refine congrArg UInt16.toNat (hshort 2 d.major (by omega) fun j hj => ?_)
    unfold byteAt
    rw [if_neg (by omega), if_pos (by omega), Nat.add_sub_cancel_left]
  · refine congrArg UInt16.toNat (hshort 4 d.minor (by omega) fun j hj => ?_)
    unfold byteAt
    rw [if_neg (by omega), if_neg (by omega), if_pos (by omega), Nat.add_sub_cancel_left]
  · refine congrArg UInt16.toNat (hshort 6 d.nlink (by omega) fun j hj => ?_)
    unfold byteAt
    rw [if_neg (by omega), if_neg (by omega), if_neg (by omega), if_pos (by omega),
      Nat.add_sub_cancel_left]
  · apply congrArg UInt32.toNat
    change UInt32.ofNat (getNat (put b k d) (DINODE * k + 8) 4) = d.size
    rw [getNat_put b d hk (v := d.size.toNat) (by omega), ofNat_mod_word]
    intro j hj
    unfold byteAt
    rw [if_neg (by omega), if_neg (by omega), if_neg (by omega), if_neg (by omega),
      if_pos (by omega), Nat.add_sub_cancel_left]
  · apply congrArg UInt32.toNat
    have hi : i.val < NDIRECT + 1 := i.isLt
    have hN : NDIRECT = 12 := rfl
    change UInt32.ofNat (getNat (put b k d) (DINODE * k + 12 + 4 * i.val) 4) = d.addrs i
    rw [Nat.add_assoc, getNat_put b d hk (v := (d.addrs i).toNat) (by omega), ofNat_mod_word]
    exact fun j hj => byteAt_addr d i hj

theorem get_put_of_ne (b : Block) {k k' : ℕ} (d : DiskInode) (hne : k' ≠ k) :
    get (put b k d) k' = get b k' := by
  have hfield : ∀ off w, off + w ≤ DINODE →
      getNat (put b k d) (DINODE * k' + off) w = getNat b (DINODE * k' + off) w :=
    fun off w hoff => getNat_put_of_ne b d hne hoff
  have hD : DINODE = 64 := rfl
  unfold get getU32
  rw [DiskInode.mk.injEq]
  refine ⟨?_, ?_, ?_, ?_, ?_, ?_⟩
  · exact congrArg UInt16.ofNat (hfield 0 2 (by omega))
  · rw [hfield 2 2 (by omega)]
  · rw [hfield 4 2 (by omega)]
  · rw [hfield 6 2 (by omega)]
  · rw [hfield 8 4 (by omega)]
  · funext i
    have hi : i.val < NDIRECT + 1 := i.isLt
    have hN : NDIRECT = 12 := rfl
    rw [Nat.add_assoc, hfield (12 + 4 * i.val) 4 (by omega)]

theorem addr_setAddr (d : DiskInode) (k : Fin (NDIRECT + 1)) (b : UInt32) (j : ℕ) :
    (d.setAddr k b).addr j = if j = k.val then b else d.addr j := by
  unfold addr setAddr
  by_cases hj : j < NDIRECT + 1
  · simp only [hj, ↓reduceDIte, Function.update_apply, Fin.ext_iff]
  · have hk : j ≠ k.val := by
      have := k.isLt
      omega
    simp only [hj, ↓reduceDIte, hk, ↓reduceIte]

end DiskInode

section Inodes

variable (sb : Superblock) (disk : ℕ → Block)

def inodeAt (i : ℕ) : DiskInode := DiskInode.get (disk (sb.IBLOCK i)) (i % IPB)

def setInode (i : ℕ) (d : DiskInode) : ℕ → Block :=
  Function.update disk (sb.IBLOCK i) (DiskInode.put (disk (sb.IBLOCK i)) (i % IPB) d)

theorem inodeAt_setInode (i j : ℕ) (d : DiskInode) :
    inodeAt sb (setInode sb disk i d) j = if j = i then d else inodeAt sb disk j := by
  have hlt : ∀ i, i % IPB < IPB := fun i => Nat.mod_lt i (by decide)
  unfold inodeAt setInode
  by_cases hblock : sb.IBLOCK j = sb.IBLOCK i
  · rw [hblock, Function.update_self]
    by_cases hji : j = i
    · rw [if_pos hji, hji, DiskInode.get_put _ d (hlt i)]
    · rw [if_neg hji, DiskInode.get_put_of_ne]
      intro hmod
      have hdiv : j / IPB = i / IPB := Nat.add_right_cancel hblock
      apply hji
      rw [← Nat.div_add_mod j IPB, ← Nat.div_add_mod i IPB, hdiv, hmod]
  · have hji : j ≠ i := by
      rintro rfl
      exact hblock rfl
    rw [if_neg hji, Function.update_of_ne hblock]

theorem inodeAt_update {b : ℕ} {i : ℕ} (h : sb.IBLOCK i ≠ b) (d : Block) :
    inodeAt sb (Function.update disk b d) i = inodeAt sb disk i := by
  unfold inodeAt
  rw [Function.update_of_ne h]

end Inodes

/-- What an inode uses a block for. -/
inductive Place where
  | data (bn : ℕ)
  | indirect
  deriving DecidableEq

/-- The block with the contents of a file from `bn * BSIZE` on, or 0. -/
def blockOf (disk : ℕ → Block) (d : DiskInode) (bn : ℕ) : ℕ :=
  if bn < NDIRECT then (d.addr bn).toNat
  else if d.addr NDIRECT = 0 then 0
  else (getU32 (disk (d.addr NDIRECT).toNat) (4 * (bn - NDIRECT))).toNat

def place (disk : ℕ → Block) (d : DiskInode) : Place → ℕ
  | .data bn => blockOf disk d bn
  | .indirect => (d.addr NDIRECT).toNat

def fileByte (disk : ℕ → Block) (d : DiskInode) (i : ℕ) : UInt8 :=
  byte (disk (blockOf disk d (i / BSIZE))) (i % BSIZE)

def fileData (disk : ℕ → Block) (d : DiskInode) : List UInt8 :=
  (List.range d.size.toNat).map (fileByte disk d)

def nblocks (len : ℕ) : ℕ := (len + (BSIZE - 1)) / BSIZE

theorem blockOf_congr {disk disk' : ℕ → Block} {d : DiskInode}
    (h : d.addr NDIRECT ≠ 0 → disk' (d.addr NDIRECT).toNat = disk (d.addr NDIRECT).toNat)
    (bn : ℕ) : blockOf disk' d bn = blockOf disk d bn := by
  unfold blockOf
  by_cases hz : d.addr NDIRECT = 0
  · rw [if_pos hz, if_pos hz]
  · rw [if_neg hz, if_neg hz, h hz]

theorem place_congr {disk disk' : ℕ → Block} {d : DiskInode}
    (h : d.addr NDIRECT ≠ 0 → disk' (d.addr NDIRECT).toNat = disk (d.addr NDIRECT).toNat) :
    place disk' d = place disk d := by
  funext pl
  cases pl with
  | data bn => exact blockOf_congr h bn
  | indirect => rfl

theorem place_zero (disk : ℕ → Block) (pl : Place) : place disk DiskInode.zero pl = 0 := by
  have haddr : ∀ k, DiskInode.zero.addr k = 0 := by
    intro k
    unfold DiskInode.addr
    split_ifs <;> rfl
  cases pl with
  | data bn =>
    change blockOf disk DiskInode.zero bn = 0
    unfold blockOf
    rw [haddr bn, haddr NDIRECT, if_pos rfl]
    split_ifs <;> rfl
  | indirect =>
    change (DiskInode.zero.addr NDIRECT).toNat = 0
    rw [haddr]
    rfl

def bit (blk : Block) (i : ℕ) : Bool := (byte blk (i / 8)).toNat.testBit (i % 8)

/-- `data[i/8] |= 1 << (i % 8)` -/
def setBit (blk : Block) (i : ℕ) : Block :=
  putNat blk (i / 8) 1 ((byte blk (i / 8)).toNat ||| (1 <<< (i % 8)))

theorem byte_putNat_one (blk : Block) (k v j : ℕ) (hj : j < BSIZE) :
    byte (putNat blk k 1 v) j = if j = k then UInt8.ofNat v else byte blk j := by
  unfold putNat
  rw [byte_setBytes blk _ _ _ _ hj]
  by_cases hjk : j = k
  · rw [if_pos (by omega), if_pos hjk, hjk, Nat.sub_self]
    unfold leByte
    rw [Nat.pow_zero, Nat.div_one]
  · rw [if_neg (by omega), if_neg hjk]

theorem bit_setBit (blk : Block) {i j : ℕ} (hj : j < BPB) :
    bit (setBit blk i) j = (decide (j = i) || bit blk j) := by
  have hin : j / 8 < BSIZE := by
    unfold BPB at hj
    omega
  unfold bit setBit
  rw [byte_putNat_one blk _ _ _ hin]
  by_cases hbyte : j / 8 = i / 8
  · have hlow : decide (j % 8 < 8) = true := decide_eq_true (Nat.mod_lt j (by decide))
    rw [if_pos hbyte, UInt8.toNat_ofNat', Nat.testBit_mod_two_pow, Nat.testBit_or,
      Nat.one_shiftLeft, Nat.testBit_two_pow, hbyte, hlow, Bool.true_and, Bool.or_comm]
    congr 1
    exact decide_eq_decide.2 (by omega)
  · have hne : j ≠ i := fun h => hbyte (by rw [h])
    rw [if_neg hbyte, decide_eq_false hne, Bool.false_or]

/-- The block is marked as used. -/
def used (sb : Superblock) (disk : ℕ → Block) (b : ℕ) : Bool := bit (disk (sb.BBLOCK b)) (b % BPB)

end Xv6.DiskFormat
