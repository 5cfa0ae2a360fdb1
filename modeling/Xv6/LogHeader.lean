import Xv6.LogCode

set_option autoImplicit false

namespace Xv6.LogHeader
open ByteFields LogCode

variable {start : UInt32} {j n : ℕ}

theorem getU32_putBlocks_below (d : Block) (off : ℕ) (bs : List UInt32) (o : ℕ)
    (h : o + 4 ≤ off) : getU32 (putBlocks d off bs) o = getU32 d o := by
  induction bs generalizing d off with
  | nil => rfl
  | cons b bs ih =>
    rw [putBlocks, ih _ _ (by omega), getU32_putU32_of_disjoint d off o b (by omega)]

theorem getU32_putBlocks (d : Block) (off : ℕ) (bs : List UInt32) (i : ℕ) (hi : i < bs.length)
    (fits : off + 4 * bs.length ≤ BSIZE) : getU32 (putBlocks d off bs) (off + 4 * i) = bs[i] := by
  induction bs generalizing d off i with
  | nil => simp at hi
  | cons b bs ih =>
    simp only [List.length_cons] at fits hi
    cases i with
    | zero =>
      have h := getU32_putBlocks_below (putU32 d off b) (off + 4) bs off (by omega)
      rw [getU32_putU32 d off b (by omega)] at h
      exact h
    | succ i =>
      have h := ih (putU32 d off b) (off + 4) i (by omega) (by omega)
      rw [putBlocks, show off + 4 * (i + 1) = off + 4 + 4 * i by omega, h]
      rfl

theorem getU32_putHead_zero (lh : List UInt32) (d : Block) :
    getU32 (putHead lh d) 0 = UInt32.ofNat lh.length := by
  rw [putHead, getU32_putBlocks_below _ _ _ _ (by omega), getU32_putU32]
  simp [BSIZE]

theorem headCount_putHead (lh : List UInt32) (d : Block) (h : lh.length ≤ LOGSIZE) :
    headCount (putHead lh d) = lh.length := by
  have hs : lh.length < 2 ^ 31 := lt_of_le_of_lt h (by decide)
  have hn : (UInt32.ofNat lh.length).toNat = lh.length := by
    rw [UInt32.toNat_ofNat']
    exact Nat.mod_eq_of_lt (by omega)
  simp only [headCount, getU32_putHead_zero, hn, hs, ↓reduceIte]

theorem headList_putHead (lh : List UInt32) (d : Block) (h : lh.length ≤ LOGSIZE) :
    headList (putHead lh d) = lh := by
  have fits : 4 + 4 * lh.length ≤ BSIZE := by
    have : LOGSIZE = 30 := rfl
    have : BSIZE = 1024 := rfl
    omega
  apply List.ext_getElem
  · simp [headList, headCount_putHead lh d h]
  · intro i hi hi'
    simp only [headList, List.getElem_map, List.getElem_range, putHead]
    exact getU32_putBlocks _ 4 lh i hi' fits

theorem headList_of_zero {d : Block} (h : getU32 d 0 = 0) : headList d = [] := by
  simp [headList, headCount, h]

def slot (start : UInt32) (j : ℕ) : UInt32 := start + UInt32.ofNat j + 1

def InLog (start : UInt32) (n : ℕ) (b : UInt32) : Prop := ∃ j < n, b = start + UInt32.ofNat j

instance (start : UInt32) (n : ℕ) (b : UInt32) : Decidable (InLog start n b) :=
  inferInstanceAs (Decidable (∃ j < n, b = start + UInt32.ofNat j))

theorem slot_eq (start : UInt32) (j : ℕ) : slot start j = start + UInt32.ofNat (j + 1) := by
  rw [slot, UInt32.ofNat_add, UInt32.add_assoc]
  rfl

theorem offset_injective {i : ℕ} (hi : i < 2 ^ 32) (hj : j < 2 ^ 32)
    (h : start + UInt32.ofNat i = start + UInt32.ofNat j) : i = j := by
  have h' := congrArg UInt32.toNat ((UInt32.add_right_inj start).1 h)
  rwa [UInt32.toNat_ofNat', UInt32.toNat_ofNat', Nat.mod_eq_of_lt hi, Nat.mod_eq_of_lt hj] at h'

theorem slot_injective {i : ℕ} (hi : i < LOGSIZE) (hj : j < LOGSIZE)
    (h : slot start i = slot start j) : i = j := by
  have hl : LOGSIZE = 30 := rfl
  rw [slot_eq, slot_eq] at h
  have := offset_injective (by omega) (by omega) h
  omega

theorem slot_ne_start (hj : j < LOGSIZE) : slot start j ≠ start := by
  have hl : LOGSIZE = 30 := rfl
  intro h
  have h0 : start + UInt32.ofNat (j + 1) = start + UInt32.ofNat 0 := by
    rw [← slot_eq, h]
    simp
  have := offset_injective (by omega) (by omega) h0
  omega

theorem inLog_start (start : UInt32) (h : 0 < n) : InLog start n start := ⟨0, h, by simp⟩

theorem inLog_slot (start : UInt32) (h : j + 1 < n) : InLog start n (slot start j) :=
  ⟨j + 1, h, slot_eq start j⟩

theorem not_inLog_of_le {b : UInt32} (h : start.toNat + n ≤ b.toNat) : ¬ InLog start n b := by
  rintro ⟨j, hj, rfl⟩
  have hb := (start + UInt32.ofNat j).toNat_lt
  rw [UInt32.toNat_add, UInt32.toNat_ofNat'] at h
  have := Nat.mod_le (start.toNat + j % 2 ^ 32) (2 ^ 32)
  have := Nat.mod_le j (2 ^ 32)
  omega

end Xv6.LogHeader
