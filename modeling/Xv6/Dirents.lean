import Xv6.Counting
import Xv6.InodeCode

set_option autoImplicit false

namespace Xv6.Dirents
open InodeCode
open LogCode (BSIZE)

def dirent (data : List UInt8) (k : ℕ) : Dirent := decode ((data.drop (DIRENT * k)).take DIRENT)

def dirents (data : List UInt8) : List Dirent :=
  (List.range (data.length / DIRENT)).map (dirent data)

def blank : Dirent := ⟨0, []⟩

theorem encode_length (e : Dirent) : (encode e).length = DIRENT := by
  have h : (e.name.take DIRSIZ).length ≤ DIRSIZ := List.length_take_le ..
  simp only [encode, List.length_cons, List.length_append, List.length_replicate]
  rw [Nat.add_sub_of_le h]
  rfl

theorem takeWhile_zeros {name : List UInt8} (h0 : 0 ∉ name) (n : ℕ) :
    (name ++ List.replicate n 0).takeWhile (· ≠ 0) = name := by
  have hall : ∀ c ∈ name, decide (c ≠ 0) = true := fun c hc =>
    decide_eq_true (ne_of_mem_of_not_mem hc h0)
  rw [List.takeWhile_append_of_pos hall]
  cases n with
  | zero => simp
  | succ n => simp [List.replicate_succ]

theorem decode_encode {e : Dirent} (hi : e.inum < 65536) (h0 : 0 ∉ e.name)
    (hl : e.name.length ≤ DIRSIZ) : decode (encode e) = e := by
  have hname : (e.name.take DIRSIZ) = e.name := List.take_of_length_le hl
  have hlow : (UInt8.ofNat e.inum).toNat = e.inum % 256 := by simp
  have hhigh : (UInt8.ofNat (e.inum / 256)).toNat = e.inum / 256 % 256 := by simp
  have hinum : (UInt8.ofNat e.inum).toNat + 256 * (UInt8.ofNat (e.inum / 256)).toNat = e.inum := by
    rw [hlow, hhigh]
    omega
  have htail : ((encode e).drop 2).takeWhile (· ≠ 0) = e.name := by
    simp only [encode, hname, List.drop_succ_cons, List.drop_zero]
    exact takeWhile_zeros h0 _
  rw [decode, htail]
  cases e
  simp only [encode, List.getD_cons_zero, List.getD_cons_succ, Dirent.mk.injEq, and_true]
  exact hinum

theorem decode_zeros : decode (List.replicate DIRENT 0) = blank := by decide

theorem dirents_length (data : List UInt8) : (dirents data).length = data.length / DIRENT := by
  simp [dirents]

section Access

variable {data : List UInt8} {k : ℕ}

theorem toNat_ofNat_offset {m : ℕ} (h : m ≤ MAXFILE * BSIZE) : (UInt32.ofNat m).toNat = m := by
  rw [UInt32.toNat_ofNat']
  exact Nat.mod_eq_of_lt (lt_of_le_of_lt h (by decide))

theorem offset_wraps {m : ℕ} (h : m + DIRENT ≤ MAXFILE * BSIZE) :
    ¬ UInt32.ofNat m + UInt32.ofNat DIRENT < UInt32.ofNat m := by
  have hM : MAXFILE * BSIZE < 2 ^ 32 - 16 := by decide
  have hD : DIRENT = 16 := rfl
  have h1 := toNat_ofNat_offset (show m ≤ MAXFILE * BSIZE by omega)
  have h2 : (UInt32.ofNat DIRENT).toNat = DIRENT := by decide
  rw [UInt32.lt_iff_toNat_lt, UInt32.toNat_add, h1, h2]
  omega

theorem readData_dirent (hl : data.length ≤ MAXFILE * BSIZE) (hk : k < (dirents data).length) :
    readData data (UInt32.ofNat (DIRENT * k)) (UInt32.ofNat DIRENT) DIRENT =
      (data.drop (DIRENT * k)).take DIRENT := by
  have hD : DIRENT = 16 := rfl
  have hm : DIRENT * k = 16 * k := rfl
  rw [dirents_length, hD] at hk
  have h1 : (UInt32.ofNat (DIRENT * k)).toNat = DIRENT * k := toNat_ofNat_offset (by omega)
  have h2 : (UInt32.ofNat DIRENT).toNat = DIRENT := by decide
  have h3 := offset_wraps (m := DIRENT * k) (by omega)
  have hw : whole (DIRENT * k) DIRENT DIRENT = DIRENT := if_pos le_rfl
  rw [readData, h1, h2, if_neg (by rw [not_or]; exact ⟨by omega, h3⟩)]
  simp only [gt_iff_lt]
  rw [if_neg (by omega), hw]

theorem readData_dirent_length (hl : data.length ≤ MAXFILE * BSIZE)
    (hk : k < (dirents data).length) :
    (readData data (UInt32.ofNat (DIRENT * k)) (UInt32.ofNat DIRENT) DIRENT).length = DIRENT := by
  have hD : DIRENT = 16 := rfl
  have hm : DIRENT * k = 16 * k := rfl
  rw [readData_dirent hl hk, List.length_take, List.length_drop]
  rw [dirents_length, hD] at hk
  omega

end Access

end Xv6.Dirents
