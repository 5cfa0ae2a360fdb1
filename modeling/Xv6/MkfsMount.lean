import Xv6.BlockRelease
import Xv6.MkfsConsistency
import Xv6.PathRuns

set_option autoImplicit false

namespace Xv6.MkfsMount
open DiskFormat BlockFiles BlockReads BlockRelease PathRuns MkfsCode MkfsImage
open LogCode (Block BSIZE)
open KernelTables (ROOTINO)
open Dirents (dirents blank)
open InodeCode (MAXFILE Dinode Dirent dot dotdot readData)

/-- The disk with every inode read in. -/
def mounted (disk : ℕ → Block) : BlockCode.Fs := ⟨disk, inodeAt sb disk, []⟩

/-- The inodes with their contents as strings of bytes. -/
def inodes (disk : ℕ → Block) (n : ℕ) : Dinode where
  attr := ⟨(inodeAt sb disk n).type.toNat, (inodeAt sb disk n).major.toNat,
    (inodeAt sb disk n).minor.toNat, (inodeAt sb disk n).nlink.toNat⟩
  data := fileData disk (inodeAt sb disk n)

variable {fs : List Input} {tab : ℕ → Entry} {s₀ s : Mkfs} {j : ℕ}

section Finished

variable (h : Finished fs tab s₀ s) (hfew : fs.length + 2 ≤ NINODES)

include h

theorem slot_mounted (hj : j < NINODES) (pl : Place) :
    slot (mounted s.disk) (j, pl) = places s₀.disk tab (j, pl) :=
  congrFun (h.place (hj.trans_le (by decide))) pl

theorem sound_mounted : Sound sb nmeta (mounted s.disk) where
  once := by
    intro x y hx hy hne heq
    rw [slot_mounted h hx] at hne heq
    rw [slot_mounted h hy] at heq
    exact (h.filled.ready.numbered.inj x y hne heq).symm
  range := by
    intro x hx hne
    rw [slot_mounted h hx] at hne ⊢
    exact (h.filled.ready.numbered.range x hne).imp_right
      fun hlt => hlt.trans_le h.filled.ready.bounds.2
  marked := by
    intro x hx hne
    rw [slot_mounted h hx] at hne ⊢
    have hlt := (h.filled.ready.numbered.range x hne).2
    exact (h.used (hlt.trans_le h.filled.ready.bounds.2)).2 hlt
  metadata := fun b hb hsize => (h.used hsize).2 (hb.trans_le h.filled.ready.bounds.1)

include hfew

theorem size_le (hmod : (fs.length + 2) % 64 ≠ 0) (hj : j < NINODES)
    (hin : 1 ≤ j ∧ j < fs.length + 2) :
    (inodeAt sb s.disk j).size.toNat ≤ BSIZE * (tab j).n := by
  by_cases hroot : j = ROOTINO
  · have hsize := nblocks_rootSize_eq fs.length
    rw [if_neg hmod, Nat.add_zero, nblocks_rootSize] at hsize
    rw [hroot, h.size_root hfew, h.n, h.filled.root, rootData_length, ← hsize]
    exact (Nat.mul_comm _ _).le
  · rw [h.size_file hin.1 hin.2 (hj.trans_le (by decide)) hroot]
    exact (h.file hin.1 hin.2).enough

theorem image_mounted (hmod : (fs.length + 2) % 64 ≠ 0) : Image sb nmeta (mounted s.disk) := by
  have hsize : ∀ j < NINODES, ∀ k < (inodeAt sb s.disk j).size.toNat,
      (1 ≤ j ∧ j < fs.length + 2) ∧ k / BSIZE < (tab j).n := by
    intro j hj k hk
    by_cases hin : 1 ≤ j ∧ j < fs.length + 2
    · exact ⟨hin, Nat.div_lt_of_lt_mul (hk.trans_le (size_le h hfew hmod hj hin))⟩
    · have hnone := h.filled.ready.unused j (h.filled.freeinode.symm ▸ hin)
      rw [h.stored j (hj.trans_le (by decide)), if_neg fun hroot => hin ?_, hnone] at hk
      · exact absurd hk (Nat.not_lt_zero k)
      · rw [hroot]
        exact ⟨le_rfl, by unfold ROOTINO; omega⟩
  refine ⟨sound_mounted h, fun j hj k hk => ?_, fun j hj => ?_, fun _ _ => rfl⟩
  · obtain ⟨hin, hbn⟩ := hsize j hj k hk
    rw [slot_mounted h hj]
    exact ((h.file hin.1 hin.2).blocks _).2 hbn
  · change (inodeAt sb s.disk j).size.toNat ≤ _
    by_contra hbig
    obtain ⟨hin, hbn⟩ := hsize j hj (MAXFILE * BSIZE) (by omega)
    rw [Nat.mul_div_cancel _ (by decide)] at hbn
    exact absurd (h.file hin.1 hin.2).max (by omega)

theorem bytes_mounted (hmod : (fs.length + 2) % 64 ≠ 0) {k : ℕ} {f : Input} (hf : fs[k]? = some f) :
    bytesAt (mounted s.disk) (k + 2) 0 (contents (mounted s.disk) (k + 2)).size = fileBytes f := by
  have hk := (List.getElem?_eq_some_iff.1 hf).1
  have hcap : k + 2 < NINODES := by omega
  have hin : 1 ≤ k + 2 ∧ k + 2 < fs.length + 2 := by omega
  have hlen := h.size_file hin.1 hin.2 (hcap.trans_le (by decide)) (by unfold ROOTINO; omega)
  have hle := size_le h hfew hmod hcap hin
  have hdata := (h.filled.file k f hf).1
  have hbytes : bytesAt (mounted s.disk) (k + 2) 0 (contents (mounted s.disk) (k + 2)).size =
      (List.range (inodeAt sb s.disk (k + 2)).size.toNat).map fun c => (fileBytes f).getD c 0 := by
    refine List.map_congr_left fun c hc => ?_
    rw [List.mem_range] at hc
    rw [Nat.zero_add, ← BlockWrites.fileByte_eq ((image_mounted h hfew hmod).whole _ hcap c hc),
      ← hdata]
    exact h.fileByte hin.1 hin.2 (hcap.trans_le (by decide)) (hc.trans_le hle)
  rw [hbytes, map_getD_range (by rw [hlen, hdata]), hlen, hdata, Nat.sub_self,
    List.replicate_zero, List.append_nil]

end Finished

theorem find_named (name : List UInt8) (k : ℕ) (fs : List Input) (hk : k ≠ 0) :
    ((named k fs).find? fun e => e.inum ≠ 0 ∧ e.name = name).map Dirent.inum =
      (fs.findIdx? fun f => diskName f = name).map (· + k) := by
  induction fs generalizing k with
  | nil => rfl
  | cons f fs ih =>
    unfold named
    rw [List.find?_cons, List.findIdx?_cons]
    by_cases hf : diskName f = name
    · simp [hk, hf]
    · have htail := ih (k + 1) (Nat.succ_ne_zero k)
      simp only [hf, and_false, decide_false, htail, Bool.false_eq_true, ↓reduceIte,
        Option.map_map]
      congr 1
      funext j
      exact (Nat.add_right_comm j 1 k).symm

theorem lookup_eq (ino : ℕ → Dinode) (n : ℕ) (name : List UInt8) :
    lookup ino n name =
      ((dirents (ino n).data).find? fun e => e.inum ≠ 0 ∧ e.name = name).map Dirent.inum := by
  unfold lookup slotOf
  rw [List.find?_eq_bind_findIdx?_getElem?]
  cases hidx : (dirents (ino n).data).findIdx? fun e => e.inum ≠ 0 ∧ e.name = name with
  | none => rfl
  | some k =>
    have hk := (List.findIdx?_eq_some_iff_getElem.1 hidx).1
    simp [List.getElem?_eq_getElem hk, dirents_get]

/-- The kernel finds an image to work on: each file's bytes are what `readi` returns of its inode,
    and the names in the root directory are those of the files. -/
theorem mkfs_mounts {files : List Input} {s : Mkfs} (hfew : files.length + 2 ≤ NINODES)
    (hmod : (files.length + 2) % 64 ≠ 0) (hrun : mkfs files = .done () s) :
    Image sb nmeta (mounted s.disk) ∧
    (∀ k f, files[k]? = some f → ∀ off n, BlockCode.readi sb (k + 2) n.toNat off n
      (mounted s.disk) = .done (readData (fileBytes f) off n n.toNat) (mounted s.disk)) ∧
    ∀ name, name ≠ dot → name ≠ dotdot → follow (inodes s.disk) ROOTINO [name] =
      (files.findIdx? fun f => diskName f = name).map (· + 2) := by
  obtain ⟨tab, s₀, h⟩ := finished_of_done hrun (hfew.trans (by decide))
  have himage := image_mounted h hfew hmod
  refine ⟨himage, fun k f hf off n => ?_, fun name hdot hdotdot => ?_⟩
  · have hk := (List.getElem?_eq_some_iff.1 hf).1
    have hread := readi_done himage (i := k + 2) (hfew.trans_lt' (by omega)) off n
    rw [bytes_mounted h hfew hmod hf] at hread
    exact hread
  · have htype : (inodes s.disk ROOTINO).attr.type = KernelTables.T_DIR := by
      change ((inodeAt sb s.disk ROOTINO).type.toNat : ℤ) = _
      rw [h.type (by decide), h.filled.rootType]
      rfl
    obtain ⟨m, hroot⟩ := h.rootDirents hfew hmod
    have hblank : (List.replicate m blank).find? (fun e => e.inum ≠ 0 ∧ e.name = name) = none := by
      refine List.find?_eq_none.2 fun e he => ?_
      rw [List.eq_of_mem_replicate he]
      simp [blank]
    have hlookup : lookup (inodes s.disk) ROOTINO name =
        ((named 2 files).find? fun e => e.inum ≠ 0 ∧ e.name = name).map Dirent.inum := by
      rw [lookup_eq]
      change ((dirents (fileData s.disk (inodeAt sb s.disk ROOTINO))).find? _).map _ = _
      rw [hroot, List.find?_append, hblank, Option.or_none]
      unfold rootDirents
      rw [List.find?_cons_of_neg (by simp [Ne.symm hdot]),
        List.find?_cons_of_neg (by simp [Ne.symm hdotdot])]
    rw [follow, if_pos htype, hlookup, find_named name 2 files (by decide)]
    exact Option.bind_fun_some _

theorem mkfs_mounts_two : ∃ s, mkfs twoFiles = .done () s ∧ Image sb nmeta (mounted s.disk) ∧
    BlockCode.readi sb 2 10 1 10 (mounted s.disk) = .done [2, 3, 4] (mounted s.disk) ∧
    follow (inodes s.disk) ROOTINO [[98]] = some 3 := by
  obtain ⟨_, s, hrun, -⟩ := Resumption.Outcome.exists_of_any
    (by decide +kernel : (mkfs twoFiles).any (fun _ _ => true) = true)
  obtain ⟨himage, hread, hname⟩ := mkfs_mounts (by decide) (by decide) hrun
  exact ⟨s, hrun, himage, hread 0 _ rfl 1 10, hname [98] (by decide) (by decide)⟩

end Xv6.MkfsMount
