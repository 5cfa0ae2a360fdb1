import Xv6.DirectoryCode

set_option autoImplicit false

namespace Xv6.DirectoryNames
open ByteFields DirectoryCode
open InodeCode (DIRSIZ slash)

variable {s : ℕ → UInt8} {i j : ℕ}

/-- The characters from position `i` on, at most `n` of them. -/
def text (s : ℕ → UInt8) (i n : ℕ) : List UInt8 := ((List.range' i n).map s).takeWhile (· ≠ 0)

def nameText (name : Name) : List UInt8 := text (byte name) 0 DIRSIZ

theorem text_of_zero (h : s i = 0) (n : ℕ) : text s i n = [] := by
  cases n with
  | zero => rfl
  | succ n => simp [text, List.range'_succ, h]

theorem text_of_ne_zero (h : s i ≠ 0) (n : ℕ) : text s i (n + 1) = s i :: text s (i + 1) n := by
  simp [text, List.range'_succ, h]

theorem text_eq {n : ℕ} {l : List UInt8} (hlen : l.length ≤ n) (h0 : 0 ∉ l)
    (hs : ∀ j < l.length, s (i + j) = l.getD j 0) (hend : l.length < n → s (i + l.length) = 0) :
    text s i n = l := by
  induction l generalizing i n with
  | nil =>
    cases n with
    | zero => rfl
    | succ n => exact text_of_zero (hend (Nat.succ_pos n)) _
  | cons c l ih =>
    obtain ⟨n, rfl⟩ : ∃ m, n = m + 1 := ⟨n - 1, by simp at hlen; omega⟩
    have hc : s i = c := hs 0 (Nat.succ_pos _)
    have hne : s i ≠ 0 := by
      intro hzero
      rw [hc] at hzero
      exact h0 (by rw [hzero]; exact List.mem_cons_self)
    have hrest : text s (i + 1) n = l := by
      apply ih
      · simpa using hlen
      · exact fun hmem => h0 (List.mem_cons_of_mem c hmem)
      · intro j hj
        have hnext := hs (j + 1) (Nat.succ_lt_succ hj)
        rw [List.getD_cons_succ] at hnext
        rw [← hnext]
        congr 1
        omega
      · intro hlt
        rw [← hend (Nat.succ_lt_succ hlt)]
        congr 1
        simp only [List.length_cons]
        omega
    rw [text_of_ne_zero hne, hrest, hc]

theorem strncmpFrom_eq_zero (p q : ℕ → UInt8) (n i : ℕ) :
    strncmpFrom p q n i = 0 ↔ text p i n = text q i n := by
  induction n generalizing i with
  | zero => exact ⟨fun _ => rfl, fun _ => rfl⟩
  | succ n ih =>
    unfold strncmpFrom
    by_cases hp : p i = 0
    · rw [if_neg (fun h => h.1 hp), text_of_zero hp, hp]
      by_cases hq : q i = 0
      · rw [text_of_zero hq, hq]
        simp
      · have hpos : (q i).toNat ≠ 0 := fun hzero => hq (UInt8.toNat_inj.1 hzero)
        rw [text_of_ne_zero hq]
        simp only [UInt8.toNat_zero, Nat.cast_zero, zero_sub, neg_eq_zero, Nat.cast_eq_zero, hpos,
          reduceCtorEq]
    · by_cases heq : p i = q i
      · rw [if_pos ⟨hp, heq⟩, ih, text_of_ne_zero hp, text_of_ne_zero (heq ▸ hp), heq]
        simp
      have hdiff : ((p i).toNat : ℤ) - (q i).toNat ≠ 0 := by
        intro hzero
        apply heq
        apply UInt8.toNat_inj.1
        omega
      rw [if_neg (fun h => heq h.2), text_of_ne_zero hp]
      refine ⟨fun h => absurd h hdiff, fun h => ?_⟩
      by_cases hq : q i = 0
      · rw [text_of_zero hq] at h
        cases h
      · rw [text_of_ne_zero hq] at h
        exact absurd (List.cons.inj h).1 heq

theorem namecmp_eq_zero (s t : Name) : namecmp s t = 0 ↔ nameText s = nameText t :=
  strncmpFrom_eq_zero _ _ _ _

section Copying

variable {N : ℕ}

theorem byte_setByte (s : Bytes N) (i : ℕ) (c : UInt8) (hj : j < N) :
    byte (setByte s i c) j = if j = i then c else byte s j := by
  rw [setByte, byte_setBytes _ _ _ _ _ hj]
  congr 1
  exact propext ⟨fun h => by omega, fun h => by omega⟩

theorem byte_setByte_of_ne (s : Bytes N) (c : UInt8) (h : j ≠ i) :
    byte (setByte s i c) j = byte s j :=
  byte_setBytes_of_outside _ _ _ _ _ (by omega)

theorem byte_zeroFrom_of_lt (s : Bytes N) (n i : ℕ) (hj : j < i) :
    byte (zeroFrom s n i) j = byte s j := by
  induction n generalizing s i with
  | zero => rfl
  | succ n ih => rw [zeroFrom, ih _ _ (by omega), byte_setByte_of_ne _ _ (by omega)]

theorem byte_strncpyFrom_of_lt (s : Bytes N) (t : ℕ → UInt8) (n i : ℕ) (hj : j < i) :
    byte (strncpyFrom s t n i) j = byte s j := by
  induction n generalizing s i with
  | zero => rfl
  | succ n ih =>
    unfold strncpyFrom
    by_cases ht : t i ≠ 0
    · rw [if_pos ht, ih _ _ (by omega), byte_setByte_of_ne _ _ (by omega)]
    · rw [if_neg ht, byte_zeroFrom_of_lt _ _ _ (by omega), byte_setByte_of_ne _ _ (by omega)]

theorem text_strncpyFrom (s : Bytes N) (t : ℕ → UInt8) (n i : ℕ) (h : i + n ≤ N) :
    text (byte (strncpyFrom s t n i)) i n = text t i n := by
  induction n generalizing s i with
  | zero => rfl
  | succ n ih =>
    unfold strncpyFrom
    by_cases ht : t i ≠ 0
    · have hhere : byte (strncpyFrom (setByte s i (t i)) t n (i + 1)) i = t i := by
        rw [byte_strncpyFrom_of_lt _ _ _ _ (Nat.lt_succ_self i), byte_setByte _ _ _ (by omega),
          if_pos rfl]
      rw [if_pos ht, text_of_ne_zero (by rw [hhere]; exact ht), hhere, ih _ _ (by omega),
        text_of_ne_zero ht]
    · rw [not_not] at ht
      have hhere : byte (zeroFrom (setByte s i (t i)) n (i + 1)) i = 0 := by
        rw [byte_zeroFrom_of_lt _ _ _ (Nat.lt_succ_self i), byte_setByte _ _ _ (by omega),
          if_pos rfl, ht]
      rw [if_neg (not_not.2 ht), text_of_zero hhere, text_of_zero ht]

end Copying

theorem nameText_strncpy (s name : Name) :
    nameText (strncpy s (byte name) DIRSIZ) = nameText name :=
  text_strncpyFrom _ _ _ _ (Nat.le_of_eq (Nat.zero_add _))

def element (path : List UInt8) : List UInt8 :=
  (path.dropWhile (· = slash)).takeWhile (· ≠ slash)

def keyOf (path : List UInt8) : List UInt8 := (element path).take DIRSIZ

theorem getD_take_takeWhile {l : List UInt8} {q : UInt8 → Bool} {m : ℕ}
    (h : j < ((l.takeWhile q).take m).length) :
    ((l.takeWhile q).take m).getD j 0 = l.getD j 0 := by
  rw [List.length_take] at h
  rw [List.getD_eq_getElem?_getD, List.getD_eq_getElem?_getD, List.getElem?_take_of_lt (by omega)]
  conv_rhs => rw [← List.takeWhile_append_dropWhile (p := q) (l := l)]
  rw [List.getElem?_append_left (by omega)]

theorem nameText_skipelem {path rest : List UInt8} {name name' : Name} (h0 : 0 ∉ path)
    (h : skipelem path name = some (rest, name')) :
    nameText name' = keyOf path := by
  unfold skipelem at h
  unfold keyOf
  dsimp only at h
  split_ifs at h with hnil hlong
  · cases h
    have hlen : ((element path).take DIRSIZ).length = DIRSIZ := by
      rw [List.length_take]
      exact Nat.min_eq_left hlong
    refine text_eq hlen.le ?_ ?_ ?_
    · intro hmem
      exact h0 (((List.dropWhile_suffix _).subset
        ((List.takeWhile_prefix _).subset (List.mem_of_mem_take hmem))))
    · intro j hj
      have hj' : j < DIRSIZ := hlen ▸ hj
      rw [Nat.zero_add, byte_setBytes _ _ _ _ _ hj', if_pos (by omega), Nat.sub_zero]
      exact (getD_take_takeWhile hj).symm
    · intro hlt
      omega
  · cases h
    have hlong' : (element path).length < DIRSIZ := Nat.lt_of_not_le hlong
    have htake : (element path).take DIRSIZ = element path := List.take_of_length_le hlong'.le
    rw [htake]
    refine text_eq hlong'.le ?_ ?_ ?_
    · intro hmem
      exact h0 ((List.dropWhile_suffix _).subset ((List.takeWhile_prefix _).subset hmem))
    · intro j hj
      have hne : j ≠ (element path).length := Nat.ne_of_lt hj
      rw [Nat.zero_add]
      change byte (setByte (setBytes name 0 (element path).length _) (element path).length 0) j = _
      rw [byte_setByte_of_ne _ _ hne, byte_setBytes _ _ _ _ _ (by omega), if_pos (by omega),
        Nat.sub_zero]
      rw [← htake] at hj ⊢
      exact (getD_take_takeWhile hj).symm
    · intro _
      rw [Nat.zero_add]
      change byte (setByte (setBytes name 0 (element path).length _) (element path).length 0)
        (element path).length = 0
      rw [byte_setByte _ _ _ hlong', if_pos rfl]

theorem skipelem_refines {path rest : List UInt8} {name name' : Name} (h0 : 0 ∉ path)
    (h : skipelem path name = some (rest, name')) :
    InodeCode.skipelem path = some (nameText name', rest) := by
  rw [nameText_skipelem h0 h]
  unfold keyOf element
  unfold skipelem at h
  unfold InodeCode.skipelem
  dsimp only at h
  have hdrop : ∀ l : List UInt8, l.drop (l.takeWhile (· ≠ slash)).length =
      l.dropWhile (· ≠ slash) := by
    intro l
    have hleft : (l.takeWhile (· ≠ slash) ++ l.dropWhile (· ≠ slash)).drop
        (l.takeWhile (· ≠ slash)).length = l.dropWhile (· ≠ slash) := List.drop_left
    rw [List.takeWhile_append_dropWhile] at hleft
    exact hleft
  rw [hdrop] at h
  cases hpath : path.dropWhile (· = slash) with
  | nil =>
    rw [hpath, if_pos rfl] at h
    cases h
  | cons c cs =>
    rw [hpath, if_neg (List.cons_ne_nil c cs)] at h
    split_ifs at h <;> cases h <;> rfl

end Xv6.DirectoryNames
