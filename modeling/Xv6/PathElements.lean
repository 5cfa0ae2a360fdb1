import Mathlib.Data.List.TakeWhile
import Xv6.DirectoryNames
import Xv6.PathRuns

set_option autoImplicit false

namespace Xv6.PathElements
open ByteFields DirectoryCode DirectoryNames PathRuns
open InodeCode (CStr DIRSIZ slash)

variable {path rest : List UInt8} {name name' : Name}

/-- The rest of the path and the buffer after each call, if the last of `n` calls returns 0. -/
def skipelems : ℕ → List UInt8 → Name → Option (List (List UInt8 × Name))
  | 0, _, _ => none
  | n + 1, path, name =>
    match skipelem path name with
    | none => some []
    | some (path, name) => (skipelems n path name).map ((path, name) :: ·)

theorem elements_of_skipelem_none (h : skipelem path name = none) : elements path = [] := by
  unfold skipelem at h
  dsimp only at h
  split_ifs at h with hnil
  rw [← elements_dropWhile, hnil]
  rfl

theorem skipelem_rest (h : skipelem path name = some (rest, name')) : rest <:+ path ∧
    rest.head? ≠ some slash := by
  have hrest : ∃ k, rest = ((path.dropWhile (· = slash)).drop k).dropWhile (· = slash) := by
    unfold skipelem at h
    dsimp only at h
    split_ifs at h <;> cases h <;> exact ⟨_, rfl⟩
  obtain ⟨k, rfl⟩ := hrest
  constructor
  · exact ((List.dropWhile_suffix _).trans (List.drop_suffix k _)).trans (List.dropWhile_suffix _)
  · intro hhead
    obtain ⟨cs, hcs⟩ := List.head?_eq_some_iff.1 hhead
    exact dropWhile_slash_head hcs rfl

theorem exists_nul_iff (name : Name) :
    (∃ j < DIRSIZ, byte name j = 0) ↔ (nameText name).length < DIRSIZ := by
  have hiff : ((List.range' 0 DIRSIZ).map (byte name)).takeWhile (· ≠ 0) =
      (List.range' 0 DIRSIZ).map (byte name) ↔ ∀ j < DIRSIZ, byte name j ≠ 0 := by
    simp [List.takeWhile_eq_self_iff, List.mem_range'_1]
  have hlen : ((List.range' 0 DIRSIZ).map (byte name)).length = DIRSIZ := by
    rw [List.length_map, List.length_range']
  have hsub := List.takeWhile_sublist (l := (List.range' 0 DIRSIZ).map (byte name)) (· ≠ 0)
  constructor
  · rintro ⟨j, hj, hzero⟩
    refine Nat.lt_of_le_of_ne (hlen ▸ hsub.length_le) fun heq => ?_
    exact hiff.1 (hsub.eq_of_length (heq.trans hlen.symm)) j hj hzero
  · intro hlt
    by_contra hno
    have hall := hiff.2 fun j hj hzero => hno ⟨j, hj, hzero⟩
    unfold nameText text at hlt
    rw [hall, hlen] at hlt
    exact Nat.lt_irrefl _ hlt

theorem skipelems_run (n : ℕ) (h0 : 0 ∉ path) (hn : path.length < n) (name : Name) :
    ∃ out, skipelems n path name = some out ∧ out.map (fun x => nameText x.2) = elements path ∧
      (∀ x ∈ out, x.1.head? ≠ some slash) ∧
      ∀ i (h : i < out.length), out[i].1 = [] ↔ i + 1 = out.length := by
  induction n generalizing path name with
  | zero => exact absurd hn (Nat.not_lt_zero _)
  | succ n ih =>
    unfold skipelems
    cases hskip : skipelem path name with
    | none =>
      have hnone := elements_of_skipelem_none hskip
      exact ⟨[], rfl, hnone.symm, by simp, fun i h => absurd h (by simp)⟩
    | some next =>
      obtain ⟨rest, name'⟩ := next
      obtain ⟨hsuffix, hslash⟩ := skipelem_rest hskip
      obtain ⟨helements, hlast, hlen⟩ := skipelem_some (skipelem_refines h0 hskip)
      obtain ⟨out, hout, hnames, hheads, hlasts⟩ :=
        ih (fun hmem => h0 (hsuffix.subset hmem)) (by omega) name'
      refine ⟨(rest, name') :: out, ?_, ?_, ?_, ?_⟩
      · dsimp only
        rw [hout]
        rfl
      · rw [List.map_cons, hnames, helements]
      · exact List.forall_mem_cons.2 ⟨hslash, hheads⟩
      · intro i hi
        cases i with
        | zero =>
          have hempty : elements rest = [] ↔ out.length = 0 := by
            rw [← hnames, List.map_eq_nil_iff, List.length_eq_zero_iff]
          simpa [eq_comm] using hlast.trans hempty
        | succ i => simpa using hlasts i (by simpa using hi)

/-- Every round takes one of the non-empty parts between slashes off the path. The rest is empty
    just after the last one. -/
theorem skipelem_enumerates (path : CStr) (name : Name) :
    ∃ out, skipelems (path.1.length + 1) path.1 name = some out ∧
      out.map (fun x => nameText x.2) = elements path.1 ∧
      (∀ x ∈ out, (∃ j < DIRSIZ, byte x.2 j = 0) ↔ (nameText x.2).length < DIRSIZ) ∧
      (∀ x ∈ out, x.1.head? ≠ some slash) ∧
      ∀ i (h : i < out.length), out[i].1 = [] ↔ i + 1 = out.length := by
  obtain ⟨out, hout, hnames, hheads, hlasts⟩ :=
    skipelems_run (path.1.length + 1) path.2 (Nat.lt_succ_self _) name
  exact ⟨out, hout, hnames, fun x _ => exists_nul_iff x.2, hheads, hlasts⟩

end Xv6.PathElements
