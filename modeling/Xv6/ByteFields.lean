import Mathlib.Algebra.Order.Ring.Nat
import Mathlib.Tactic.Ring

set_option autoImplicit false

namespace Xv6.ByteFields

abbrev Bytes (N : ℕ) := Fin N → UInt8

variable {N : ℕ}

def byte (d : Bytes N) (i : ℕ) : UInt8 := if h : i < N then d ⟨i, h⟩ else 0

/-- Copy the first `len` bytes of `src` to offset `off`. -/
def setBytes (d : Bytes N) (off len : ℕ) (src : ℕ → UInt8) : Bytes N :=
  fun i => if off ≤ i.val ∧ i.val < off + len then src (i.val - off) else d i

theorem byte_setBytes (d : Bytes N) (off len : ℕ) (src : ℕ → UInt8) (i : ℕ) (hi : i < N) :
    byte (setBytes d off len src) i =
      if off ≤ i ∧ i < off + len then src (i - off) else byte d i := by
  simp only [byte, hi, ↓reduceDIte, setBytes]

theorem byte_setBytes_of_outside (d : Bytes N) (off len : ℕ) (src : ℕ → UInt8) (i : ℕ)
    (h : i < off ∨ off + len ≤ i) : byte (setBytes d off len src) i = byte d i := by
  by_cases hi : i < N
  · rw [byte_setBytes d off len src i hi, if_neg (by omega)]
  · simp only [byte, hi, ↓reduceDIte]

theorem bytes_ext {d e : Bytes N} (h : ∀ i < N, byte d i = byte e i) : d = e := by
  funext i
  have hi := h i.val i.isLt
  simpa only [byte, i.isLt, ↓reduceDIte] using hi

/-- The number whose base-256 digits, least first, are `f 0, …, f (w-1)`. -/
def leDecode : (ℕ → UInt8) → ℕ → ℕ
  | _, 0 => 0
  | f, w + 1 => (f 0).toNat + 256 * leDecode (fun j => f (j + 1)) w

def leByte (v j : ℕ) : UInt8 := UInt8.ofNat (v / 256 ^ j)

theorem leDecode_congr {f g : ℕ → UInt8} {w : ℕ} (h : ∀ j < w, f j = g j) :
    leDecode f w = leDecode g w := by
  induction w generalizing f g with
  | zero => rfl
  | succ w ih =>
    simp only [leDecode]
    rw [h 0 (by omega), ih fun j hj => h (j + 1) (by omega)]

theorem leDecode_leByte (v w : ℕ) : leDecode (leByte v) w = v % 256 ^ w := by
  induction w generalizing v with
  | zero => simp [leDecode, Nat.mod_one]
  | succ w ih =>
    have shift : (fun j => leByte v (j + 1)) = leByte (v / 256) := by
      funext j
      rw [leByte, leByte, pow_succ', Nat.div_div_eq_div_mul]
    have low : (leByte v 0).toNat = v % 256 := by
      simp [leByte]
    rw [leDecode, shift, ih, low, pow_succ', Nat.mod_mul]

def getNat (d : Bytes N) (off w : ℕ) : ℕ := leDecode (fun j => byte d (off + j)) w

def putNat (d : Bytes N) (off w v : ℕ) : Bytes N := setBytes d off w (leByte v)

theorem getNat_putNat (d : Bytes N) (off w v : ℕ) (h : off + w ≤ N) :
    getNat (putNat d off w v) off w = v % 256 ^ w := by
  rw [← leDecode_leByte]
  apply leDecode_congr
  intro j hj
  rw [putNat, byte_setBytes d off w _ (off + j) (by omega), if_pos (by omega),
    Nat.add_sub_cancel_left]

theorem getNat_setBytes_of_disjoint (d : Bytes N) (off len : ℕ) (src : ℕ → UInt8) (off' w : ℕ)
    (h : off' + w ≤ off ∨ off + len ≤ off') :
    getNat (setBytes d off len src) off' w = getNat d off' w := by
  apply leDecode_congr
  intro j hj
  exact byte_setBytes_of_outside d off len src (off' + j) (by omega)

theorem getNat_putNat_of_disjoint (d : Bytes N) (off w v off' w' : ℕ)
    (h : off' + w' ≤ off ∨ off + w ≤ off') :
    getNat (putNat d off w v) off' w' = getNat d off' w' :=
  getNat_setBytes_of_disjoint d off w _ off' w' h

def getU32 (d : Bytes N) (off : ℕ) : UInt32 := UInt32.ofNat (getNat d off 4)

def putU32 (d : Bytes N) (off : ℕ) (v : UInt32) : Bytes N := putNat d off 4 v.toNat

theorem getU32_putU32 (d : Bytes N) (off : ℕ) (v : UInt32) (h : off + 4 ≤ N) :
    getU32 (putU32 d off v) off = v := by
  have hv : v.toNat < 256 ^ 4 := v.toNat_lt
  rw [getU32, putU32, getNat_putNat d off 4 _ h, Nat.mod_eq_of_lt hv]
  exact UInt32.ofNat_toNat

theorem getU32_putU32_of_disjoint (d : Bytes N) (off off' : ℕ) (v : UInt32)
    (h : off' + 4 ≤ off ∨ off + 4 ≤ off') : getU32 (putU32 d off v) off' = getU32 d off' := by
  rw [getU32, putU32, getNat_putNat_of_disjoint d off 4 _ off' 4 h, getU32]

end Xv6.ByteFields
