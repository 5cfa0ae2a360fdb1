import Xv6.UserAccess

set_option autoImplicit false

namespace Xv6.MemoryMoves
open UserAccess
open Function (update update_of_ne update_self)

abbrev Mem := ℕ → UInt8

variable {dst src n : ℕ} {m m' m'' : Mem}

/-- `p + k`, for a pointer of 64 bits. -/
def ptr (p : ℕ) (k : ℤ) : ℕ := ((p + k) % 2 ^ 64).toNat

theorem ptr_ptr (p : ℕ) (j k : ℤ) : ptr (ptr p j) k = ptr p (j + k) := by
  unfold ptr
  omega

theorem ptr_eq {p q : ℕ} {k : ℤ} (h : p + k = q) (hq : q < 2 ^ 64) : ptr p k = q := by
  unfold ptr
  rw [h]
  omega

/-- `while(n-- > 0) *d++ = *s++` -/
def copyUp : ℕ → ℕ → ℕ → Mem → Mem
  | 0, _, _, m => m
  | n + 1, d, s, m => copyUp n (ptr d 1) (ptr s 1) (update m d (m s))

/-- `while(n-- > 0) *--d = *--s` -/
def copyDown : ℕ → ℕ → ℕ → Mem → Mem
  | 0, _, _, m => m
  | n + 1, d, s, m =>
    copyDown n (ptr d (-1)) (ptr s (-1)) (update m (ptr d (-1)) (m (ptr s (-1))))

/-- In `string.c`, where `n` is a `uint`. -/
def memmove (dst src : ℕ) (n : UInt32) (m : Mem) : ℕ × Mem :=
  (dst, if src < dst ∧ ptr src n.toNat > dst then
      copyDown n.toNat (ptr dst n.toNat) (ptr src n.toNat) m
    else copyUp n.toNat dst src m)

/-- In `ulib.c`, where `n` is an `int`. -/
def userMemmove (dst src : ℕ) (n : Int32) (m : Mem) : ℕ × Mem :=
  (dst, if src > dst then copyUp n.toInt.toNat dst src m
    else copyDown n.toInt.toNat (ptr dst n.toInt) (ptr src n.toInt) m)

/-- The bytes from `dst` on are what those from `src` on were, and the others as they were. -/
structure Moved (dst src n : ℕ) (m m' : Mem) : Prop where
  new : ∀ i < n, m' (dst + i) = m (src + i)
  old : ∀ a, a < dst ∨ dst + n ≤ a → m' a = m a

theorem Moved.unique (h : Moved dst src n m m') (h' : Moved dst src n m m'') : m' = m'' := by
  funext a
  by_cases ha : a < dst ∨ dst + n ≤ a
  · rw [h.old a ha, h'.old a ha]
  · obtain ⟨i, rfl⟩ := Nat.exists_eq_add_of_le (by omega : dst ≤ a)
    rw [h.new i (by omega), h'.new i (by omega)]

theorem Moved.refl (dst src : ℕ) (m : Mem) : Moved dst src 0 m m :=
  ⟨fun i hi => absurd hi (Nat.not_lt_zero i), fun _ _ => rfl⟩

theorem moved_copyUp (hdst : dst + n ≤ 2 ^ 64) (hsrc : src + n ≤ 2 ^ 64)
    (h : dst ≤ src ∨ src + n ≤ dst) : Moved dst src n m (copyUp n dst src m) := by
  induction n generalizing dst src m with
  | zero => exact .refl dst src m
  | succ n ih =>
    have hrest : Moved (dst + 1) (src + 1) n (update m dst (m src)) _ :=
      ih (by omega) (by omega) (by omega)
    -- the pointers may wrap after the last byte, where they are not used again
    have hnext : copyUp n (ptr dst 1) (ptr src 1) = copyUp n (dst + 1) (src + 1) := by
      cases n with
      | zero => rfl
      | succ n =>
        rw [ptr_eq (Nat.cast_succ dst).symm (by omega), ptr_eq (Nat.cast_succ src).symm (by omega)]
    unfold copyUp
    rw [hnext]
    constructor
    · intro i hi
      cases i with
      | zero => exact (hrest.old dst (.inl (Nat.lt_succ_self dst))).trans (update_self dst _ m)
      | succ i =>
        have hnew := hrest.new i (by omega)
        rw [update_of_ne (by omega), Nat.add_assoc, Nat.add_assoc, Nat.add_comm 1] at hnew
        exact hnew
    · intro a ha
      rw [hrest.old a (by omega), update_of_ne (by omega)]

theorem moved_copyDown (hdst : dst + n ≤ 2 ^ 64) (hsrc : src + n ≤ 2 ^ 64)
    (h : src ≤ dst ∨ dst + n ≤ src) :
    Moved dst src n m (copyDown n (ptr dst n) (ptr src n) m) := by
  induction n generalizing m with
  | zero => exact .refl dst src m
  | succ n ih =>
    have hrest := ih (m := update m (dst + n) (m (src + n))) (by omega) (by omega) (by omega)
    have hprev (p : ℕ) : ptr (ptr p (n + 1 : ℕ)) (-1) = ptr p n := by
      rw [ptr_ptr]
      congr 1
      omega
    have hd : ptr dst n = dst + n := ptr_eq (Nat.cast_add dst n).symm (by omega)
    have hs : ptr src n = src + n := ptr_eq (Nat.cast_add src n).symm (by omega)
    unfold copyDown
    rw [hprev, hprev]
    rw [hd, hs] at hrest ⊢
    constructor
    · intro i hi
      by_cases hlast : i = n
      · rw [hlast, hrest.old _ (.inr le_rfl), update_self]
      · rw [hrest.new i (by omega), update_of_ne (by omega)]
    · intro a ha
      rw [hrest.old a (by omega), update_of_ne (by omega)]

theorem toInt_toInt32 (n : UInt32) :
    n.toInt32.toInt = if n.toNat < 2 ^ 31 then (n.toNat : ℤ) else n.toNat - 2 ^ 32 := by
  rw [← Int32.toInt_toBitVec, UInt32.toBitVec_toInt32, BitVec.toInt_eq_toNat_cond]
  have : n.toBitVec.toNat = n.toNat := rfl
  split_ifs <;> omega

section Lengths

variable {n : UInt32} (hdst : dst + n.toNat ≤ 2 ^ 64) (hsrc : src + n.toNat ≤ 2 ^ 64) (m : Mem)
include hdst hsrc

theorem moved_memmove : Moved dst src n.toNat m (memmove dst src n m).2 := by
  unfold memmove
  dsimp only
  split_ifs with h
  · exact moved_copyDown hdst hsrc (.inl h.1.le)
  · -- a source that reaches the end of the address space does not begin before the destination
    refine moved_copyUp hdst hsrc (Decidable.byContradiction fun hover => h ⟨by omega, ?_⟩)
    rw [ptr_eq (Nat.cast_add src n.toNat).symm (by omega)]
    omega

theorem moved_userMemmove (hn : n.toNat < 2 ^ 31) :
    Moved dst src n.toNat m (userMemmove dst src n.toInt32 m).2 := by
  unfold userMemmove
  rw [toInt_toInt32, if_pos hn, Int.toNat_natCast]
  dsimp only
  split_ifs with h
  · exact moved_copyUp hdst hsrc (.inl h.le)
  · exact moved_copyDown hdst hsrc (.inl (Nat.le_of_not_lt h))

end Lengths

theorem userMemmove_of_le {n : UInt32} (hn : 2 ^ 31 ≤ n.toNat) (m : Mem) :
    userMemmove dst src n.toInt32 m = (dst, m) := by
  have hzero : n.toInt32.toInt.toNat = 0 := by
    have hlt := n.toNat_lt
    rw [toInt_toInt32, if_neg (Nat.not_lt.2 hn)]
    omega
  unfold userMemmove
  rw [hzero]
  split_ifs <;> rfl

/-- The kernel's moves the bytes for every length, whichever way the ranges overlap, and the user's
    does the same for every length that is not negative as an `int`. -/
theorem memmoves_exact (dst src : ℕ) (n : UInt32) (hdst : dst + n.toNat ≤ 2 ^ 64)
    (hsrc : src + n.toNat ≤ 2 ^ 64) (m : Mem) :
    Moved dst src n.toNat m (memmove dst src n m).2 ∧
      (n.toNat < 2 ^ 31 → Moved dst src n.toNat m (userMemmove dst src n.toInt32 m).2 ∧
        memmove dst src n m = userMemmove dst src n.toInt32 m) ∧
      (2 ^ 31 ≤ n.toNat → userMemmove dst src n.toInt32 m = (dst, m)) := by
  have hkernel := moved_memmove hdst hsrc m
  refine ⟨hkernel, fun hn => ?_, fun hn => userMemmove_of_le hn m⟩
  have huser := moved_userMemmove hdst hsrc m hn
  exact ⟨huser, Prod.ext rfl (hkernel.unique huser)⟩

theorem memmoves_exact_overlapping :
    Moved 1 0 3 UInt8.ofNat (memmove 1 0 3 UInt8.ofNat).2 ∧
      Moved 0 1 3 UInt8.ofNat (userMemmove 0 1 3 UInt8.ofNat).2 ∧
      memmove 1 0 3 UInt8.ofNat = userMemmove 1 0 3 UInt8.ofNat :=
  have up := memmoves_exact 1 0 3 (by decide) (by decide) UInt8.ofNat
  have down := memmoves_exact 0 1 3 (by decide) (by decide) UInt8.ofNat
  ⟨up.1, (down.2.1 (by decide)).1, (up.2.1 (by decide)).2⟩

/-- A length of 2³¹ + 1 is negative as an `int`. -/
theorem userMemmove_keeps_long :
    let m : Mem := fun a => if a = 0 then 1 else 0
    let n : UInt32 := 0x80000001
    Moved (2 ^ 32) 0 n.toNat m (memmove (2 ^ 32) 0 n m).2 ∧
      userMemmove (2 ^ 32) 0 n.toInt32 m = (2 ^ 32, m) ∧
      ¬ Moved (2 ^ 32) 0 n.toNat m (userMemmove (2 ^ 32) 0 n.toInt32 m).2 := by
  intro m n
  have hsame : userMemmove (2 ^ 32) 0 n.toInt32 m = (2 ^ 32, m) := userMemmove_of_le (by decide) m
  refine ⟨moved_memmove (by decide) (by decide) m, hsame, fun h => ?_⟩
  rw [hsame] at h
  exact absurd (h.new 0 (by decide)) (by decide)

/-- What the kernel's copies to and from user pages do at once. -/
theorem byteAt_moved_eq {n : UInt32} (hdst : dst + n.toNat ≤ 2 ^ 64)
    (hsrc : src + n.toNat ≤ 2 ^ 64) (m : VmCode.Memory) :
    byteAt (moved m dst src n.toNat) = (memmove dst src n (byteAt m)).2 := by
  refine Moved.unique ⟨fun i hi => ?_, fun a ha => ?_⟩ (moved_memmove hdst hsrc (byteAt m))
  · rw [byteAt_moved, if_pos (by omega), Nat.add_sub_cancel_left]
  · rw [byteAt_moved, if_neg (by omega)]

end Xv6.MemoryMoves
