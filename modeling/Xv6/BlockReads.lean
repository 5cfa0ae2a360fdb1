import Xv6.BlockWrites

set_option autoImplicit false

namespace Xv6.BlockReads
open Xv6.Sequential ByteFields DiskFormat BlockCode BlockFiles BlockWrites
open LogCode (BSIZE)
open InodeCode (NDIRECT MAXFILE)

variable {sb : Superblock} {s : Fs} {i : ℕ}
variable {bn : ℕ}

def NoHoles (s : Fs) (i : ℕ) : Prop :=
  ∀ k < (contents s i).size, slot s (i, .data (k / BSIZE)) ≠ 0

theorem addrOf_filled {k : Fin (NDIRECT + 1)} (h : slot s (i, placeOf k) ≠ 0) :
    addrOf sb i k s = .done (slot s (i, placeOf k)) s := by
  have haddr : (s.mem i).addrs k ≠ 0 := by
    intro hzero
    rw [slot_placeOf, hzero] at h
    exact h rfl
  rw [addrOf, bind_of_done (rfl : inode i s = _), if_neg haddr, slot_placeOf]
  rfl

theorem indirect_filled (hbn : NDIRECT ≤ bn) (h : slot s (i, .data bn) ≠ 0) :
    slot s (i, .indirect) ≠ 0 := by
  intro hzero
  apply h
  have haddr : (s.mem i).addr NDIRECT = 0 := UInt32.toNat_inj.1 hzero
  change blockOf s.disk (s.mem i) bn = 0
  unfold blockOf
  rw [if_neg (Nat.not_lt.2 hbn), if_pos haddr]

theorem placesOf_filled (h : slot s (i, .data bn) ≠ 0) :
    ∀ pl ∈ placesOf bn, slot s (i, pl) ≠ 0 := by
  intro pl hpl
  unfold placesOf at hpl
  by_cases hdirect : bn < NDIRECT
  · rw [if_pos hdirect, Finset.mem_singleton] at hpl
    rw [hpl]
    exact h
  · rw [if_neg hdirect, Finset.mem_union, Finset.mem_singleton, Finset.mem_singleton] at hpl
    rcases hpl with rfl | rfl
    · exact indirect_filled (Nat.le_of_not_lt hdirect) h
    · exact h

theorem bmap_filled (hbn : bn < MAXFILE) (h : slot s (i, .data bn) ≠ 0) :
    bmap sb i bn s = .done (slot s (i, .data bn)) s := by
  unfold bmap
  by_cases hdirect : bn < NDIRECT
  · have hplace := placeOf_direct hdirect
    rw [dif_pos hdirect, addrOf_filled (by rw [hplace]; exact h), hplace]
  have hentry := entry_lt hdirect hbn
  have hind := indirect_filled (Nat.le_of_not_lt hdirect) h
  have hslot := slot_data_of_indirect (Nat.le_of_not_lt hdirect) hind
  have haddr : addrOf sb i (Fin.last NDIRECT) s = .done (slot s (i, .indirect)) s := by
    rw [addrOf_filled (by rw [placeOf_last]; exact hind), placeOf_last]
  have hne : getU32 (s.disk (slot s (i, .indirect))) (4 * (bn - NDIRECT)) ≠ 0 := by
    intro hzero
    rw [hslot, hzero] at h
    exact h rfl
  rw [dif_neg hdirect, if_pos hentry, bind_of_done haddr,
    bind_of_done (rfl : bread _ s = _), if_neg hne, hslot]
  rfl

def bytesAt (s : Fs) (i off n : ℕ) : List UInt8 :=
  (List.range n).map fun j => (contents s i).byte (off + j)

theorem bytesAt_add (s : Fs) (i off m n : ℕ) :
    bytesAt s i off (m + n) = bytesAt s i off m ++ bytesAt s i (off + m) n := by
  unfold bytesAt
  rw [List.range_add, List.map_append, List.map_map]
  congr 1
  apply List.map_congr_left
  intro j _
  rw [Function.comp_apply, Nat.add_assoc]

theorem bytesAt_block {off m : ℕ} (hfilled : slot s (i, .data (off / BSIZE)) ≠ 0)
    (hfit : off % BSIZE + m ≤ BSIZE) :
    bytesAt s i off m =
      (List.range m).map fun j =>
        byte (s.disk (slot s (i, .data (off / BSIZE)))) (off % BSIZE + j) := by
  apply List.map_congr_left
  intro j hj
  rw [List.mem_range] at hj
  have hdiv : (off + j) / BSIZE = off / BSIZE := by
    unfold BSIZE at *
    omega
  have hmod : (off + j) % BSIZE = off % BSIZE + j := by
    unfold BSIZE at *
    omega
  unfold contents
  dsimp only
  rw [hdiv, hmod, if_neg hfilled]

theorem readFrom_filled {n room : ℕ} (hroom : n ≤ room) (rounds tot off : ℕ)
    (hrounds : n ≤ tot + rounds) (hmax : off + (n - tot) ≤ MAXFILE * BSIZE)
    (hfilled : ∀ k, off ≤ k → k < off + (n - tot) → slot s (i, .data (k / BSIZE)) ≠ 0) :
    readFrom sb i n room rounds tot off s = .done (bytesAt s i off (n - tot)) s := by
  induction rounds generalizing tot off with
  | zero =>
    have hend : n - tot = 0 := by omega
    rw [hend]
    rfl
  | succ rounds ih =>
    unfold readFrom
    by_cases hmore : tot < n
    · have hmod : off % BSIZE < BSIZE := Nat.mod_lt off (by decide)
      have hbn : off / BSIZE < MAXFILE := by
        rw [Nat.div_lt_iff_lt_mul (by decide)]
        omega
      obtain ⟨m, hm⟩ : ∃ m, m = min (n - tot) (BSIZE - off % BSIZE) := ⟨_, rfl⟩
      have hsplit : n - tot = m + (n - (tot + m)) := by omega
      have hrest := ih (tot + m) (off + m) (by omega) (by omega)
        fun k hlow hhigh => hfilled k (by omega) (by omega)
      rw [if_pos hmore, bind_of_done (bmap_filled hbn (hfilled off le_rfl (by omega))),
        bind_of_done (rfl : bread _ s = _), ← hm, if_neg (by omega), bind_of_done hrest,
        hsplit, bytesAt_add,
        bytesAt_block (hfilled off le_rfl (by omega)) (by omega)]
      rfl
    · have hend : n - tot = 0 := by omega
      rw [if_neg hmore, hend]
      rfl

theorem readi_eq {room : ℕ} (hwhole : NoHoles s i) (hsize : (contents s i).size ≤ MAXFILE * BSIZE)
    (off n : UInt32) (hroom : n.toNat ≤ room) :
    readi sb i room off n s = .done
      (if (contents s i).size < off.toNat ∨ 2 ^ 32 ≤ off.toNat + n.toNat then []
        else bytesAt s i off.toNat (min n.toNat ((contents s i).size - off.toNat))) s := by
  have hcount : (contents s i).size = (s.mem i).size.toNat := rfl
  rw [readi, bind_of_done (rfl : inode i s = _)]
  by_cases hrange : off > (s.mem i).size ∨ off + n < off
  · have hout : (contents s i).size < off.toNat ∨ 2 ^ 32 ≤ off.toNat + n.toNat := by
      rw [add_lt_iff_wraps] at hrange
      exact hrange
    rw [if_pos hrange, if_pos hout]
    rfl
  have hin : ¬ ((contents s i).size < off.toNat ∨ 2 ^ 32 ≤ off.toNat + n.toNat) := by
    rw [add_lt_iff_wraps] at hrange
    exact hrange
  rw [if_neg hrange, if_neg hin]
  rw [not_or, Nat.not_lt, Nat.not_le, hcount] at hin
  have hlen : (if off + n > (s.mem i).size then (s.mem i).size - off else n).toNat =
      min n.toNat ((contents s i).size - off.toNat) := by
    have hsum : (off + n).toNat = off.toNat + n.toNat := by
      rw [UInt32.toNat_add, Nat.mod_eq_of_lt hin.2]
    by_cases hpast : off + n > (s.mem i).size
    · have hback : ((s.mem i).size - off).toNat = (s.mem i).size.toNat - off.toNat :=
        UInt32.toNat_sub_of_le _ _ (UInt32.le_iff_toNat_le.2 hin.1)
      rw [if_pos hpast, hback, hcount]
      rw [gt_iff_lt, UInt32.lt_iff_toNat_lt, hsum] at hpast
      omega
    · rw [if_neg hpast, hcount]
      rw [gt_iff_lt, UInt32.lt_iff_toNat_lt, hsum] at hpast
      omega
  rw [hlen, readFrom_filled (by omega) _ 0 off.toNat (by omega) (by omega), Nat.sub_zero]
  intro k hlow hhigh
  apply hwhole
  omega

end Xv6.BlockReads
