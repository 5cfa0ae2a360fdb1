import Xv6.MkfsLayout

set_option autoImplicit false

namespace Xv6.MkfsImage
open ByteFields DiskFormat MkfsCode
open LogCode (Block BSIZE)
open KernelTables (ROOTINO)
open Dirents (dirents dirent encode_length decode_encode blank)
open InodeCode (NDIRECT DIRENT DIRSIZ dot dotdot Dirent encode decode)

variable {i k : ℕ}

theorem bit_bitmap {n : ℕ} (hi : i < BPB) : bit (bitmap n) i = decide (i < n) := by
  induction n with
  | zero =>
    unfold bit
    change (byte zeroes (i / 8)).toNat.testBit (i % 8) = false
    rw [byte_zeroes]
    exact Nat.zero_testBit _
  | succ n ih =>
    have hstep : bitmap (n + 1) = setBit (bitmap n) n := rfl
    rw [hstep, bit_setBit _ hi, ih, ← Bool.decide_or]
    exact decide_eq_decide.2 (by omega)

def diskName (f : Input) : List UInt8 := (shortname f.arg.1).take DIRSIZ

/-- The entries of files that got the inodes from `k` on. -/
def named : ℕ → List Input → List Dirent
  | _, [] => []
  | k, f :: fs => ⟨k, diskName f⟩ :: named (k + 1) fs

def rootDirents (fs : List Input) : List Dirent := ⟨ROOTINO, dot⟩ :: ⟨ROOTINO, dotdot⟩ :: named 2 fs

theorem zero_notMem_diskName (f : Input) : 0 ∉ diskName f := by
  have hsub : ∀ c ∈ diskName f, c ∈ f.arg.1 := by
    intro c hc
    have hshort : c ∈ shortname f.arg.1 := List.mem_of_mem_take hc
    have hstrip : c ∈ stripped f.arg.1 := by
      unfold shortname at hshort
      split_ifs at hshort
      · exact List.mem_of_mem_tail hshort
      · exact hshort
    unfold stripped at hstrip
    split_ifs at hstrip
    · exact List.mem_of_mem_drop hstrip
    · exact hstrip
  exact fun h0 => f.arg.2 (hsub 0 h0)

theorem decode_entry (f : Input) (hk : k < 65536) :
    decode (encode ⟨k, shortname f.arg.1⟩) = ⟨k, diskName f⟩ := by
  have hcut : encode ⟨k, shortname f.arg.1⟩ = encode ⟨k, diskName f⟩ := by
    unfold encode diskName
    dsimp only
    rw [List.take_take, Nat.min_self]
  rw [hcut, decode_encode hk (zero_notMem_diskName f) (List.length_take_le ..)]

theorem dirents_append {bytes rest : List UInt8} (h : bytes.length = DIRENT) :
    dirents (bytes ++ rest) = decode bytes :: dirents rest := by
  have hD : DIRENT = 16 := rfl
  have hlen : (bytes ++ rest).length / DIRENT = rest.length / DIRENT + 1 := by
    rw [List.length_append, h, hD]
    omega
  unfold dirents
  rw [hlen, List.range_succ_eq_map, List.map_cons, List.map_map]
  congr 1
  · unfold dirent
    rw [Nat.mul_zero, List.drop_zero, ← h, List.take_left]
  · apply List.map_congr_left
    intro k _
    change dirent _ (k + 1) = dirent rest k
    unfold dirent
    rw [Nat.mul_succ, Nat.add_comm, ← List.drop_drop, ← h, List.drop_left, h]

theorem dirents_zeros (m : ℕ) :
    dirents (List.replicate (DIRENT * m) 0) = List.replicate m blank := by
  induction m with
  | zero => rfl
  | succ m ih =>
    rw [Nat.mul_succ, Nat.add_comm, List.replicate_add, dirents_append List.length_replicate, ih,
      Dirents.decode_zeros, List.replicate_succ]

theorem dirents_entriesFrom (fs : List Input) (rest : List UInt8) (hk : k + fs.length ≤ 65536) :
    dirents (entriesFrom k fs ++ rest) = named k fs ++ dirents rest := by
  induction fs generalizing k with
  | nil => rfl
  | cons f fs ih =>
    rw [List.length_cons] at hk
    rw [entriesFrom_cons, List.append_assoc, dirents_append (encode_length _),
      decode_entry f (by omega), ih (by omega)]
    rfl

theorem dirents_rootData (fs : List Input) (rest : List UInt8) (h : fs.length + 2 ≤ 65536) :
    dirents (rootData fs ++ rest) = rootDirents fs ++ dirents rest := by
  have hdot : decode (encode ⟨ROOTINO, dot⟩) = ⟨ROOTINO, dot⟩ := by decide
  have hdotdot : decode (encode ⟨ROOTINO, dotdot⟩) = ⟨ROOTINO, dotdot⟩ := by decide
  unfold rootData
  rw [List.append_assoc, List.append_assoc, dirents_append (encode_length _),
    dirents_append (encode_length _), dirents_entriesFrom fs rest (by omega), hdot, hdotdot]
  rfl

/-- The entries that name inode `i`, without those called `.`. -/
def links (i : ℕ) (es : List Dirent) : ℕ := es.countP fun e => e.inum = i ∧ e.name ≠ dot

theorem links_named_of_lt (fs : List Input) (h : i < k) : links i (named k fs) = 0 := by
  induction fs generalizing k with
  | nil => rfl
  | cons f fs ih =>
    have hne : ¬ (k = i ∧ diskName f ≠ dot) := fun hand => absurd hand.1 (by omega)
    have htail := ih (k := k + 1) (by omega)
    unfold links at htail ⊢
    unfold named
    rw [List.countP_cons_of_neg (by simpa using hne), htail]

theorem links_named (k j : ℕ) (fs : List Input) : links (k + j) (named k fs) =
    match fs[j]? with
    | some f => if diskName f = dot then 0 else 1
    | none => 0 := by
  induction fs generalizing k j with
  | nil => rfl
  | cons f fs ih =>
    unfold links named
    rw [List.countP_cons]
    cases j with
    | zero =>
      have htail := links_named_of_lt (i := k) fs (Nat.lt_succ_self k)
      unfold links at htail
      rw [Nat.add_zero, htail, List.getElem?_cons_zero]
      by_cases hdot : diskName f = dot
      · simp [hdot]
      · simp [hdot]
    | succ j =>
      have htail := ih (k + 1) j
      rw [Nat.add_right_comm, Nat.add_assoc] at htail
      unfold links at htail
      rw [htail, List.getElem?_cons_succ]
      simp

theorem links_root (fs : List Input) : links ROOTINO (rootDirents fs) = 1 := by
  have htail := links_named_of_lt (i := ROOTINO) fs (by decide : ROOTINO < 2)
  unfold links at htail ⊢
  unfold rootDirents
  rw [List.countP_cons_of_neg (by decide), List.countP_cons_of_pos (by decide), htail]

theorem links_file {fs : List Input} {f : Input} {j : ℕ} (hj : fs[j]? = some f) :
    links (j + 2) (rootDirents fs) = if diskName f = dot then 0 else 1 := by
  have htail := links_named 2 j fs
  rw [hj, Nat.add_comm] at htail
  have hroot : ¬ ROOTINO = j + 2 := by
    unfold ROOTINO
    omega
  unfold links at htail ⊢
  unfold rootDirents
  rw [List.countP_cons_of_neg (by simp [hroot]), List.countP_cons_of_neg (by simp [hroot]), htail]

theorem links_append (i : ℕ) (es es' : List Dirent) :
    links i (es ++ es') = links i es + links i es' := List.countP_append

theorem links_blank (hi : i ≠ 0) (m : ℕ) : links i (List.replicate m blank) = 0 := by
  unfold links
  apply List.countP_eq_zero.2
  intro e he
  rw [List.eq_of_mem_replicate he]
  simp [blank, Ne.symm hi]

def inUse (disk : ℕ → Block) (i : ℕ) : Prop := i < NINODES ∧ (inodeAt sb disk i).type ≠ 0

def directoryEntries (disk : ℕ → Block) : List Dirent :=
  (List.range NINODES).flatMap fun i =>
    if (inodeAt sb disk i).type = T_DIR then dirents (fileData disk (inodeAt sb disk i)) else []

structure Consistent (disk : ℕ → Block) : Prop where
  whole : ∀ i, inUse disk i → ∀ bn < nblocks (inodeAt sb disk i).size.toNat,
    blockOf disk (inodeAt sb disk i) bn ≠ 0
  once : ∀ i j pl pl', inUse disk i → inUse disk j → place disk (inodeAt sb disk i) pl ≠ 0 →
    place disk (inodeAt sb disk i) pl = place disk (inodeAt sb disk j) pl' → (i, pl) = (j, pl')
  marked : ∀ b < FSSIZE, used sb disk b = true ↔
    b < nmeta ∨ ∃ i pl, inUse disk i ∧ place disk (inodeAt sb disk i) pl = b
  nlink : ∀ i, inUse disk i → (inodeAt sb disk i).nlink.toNat =
    links i (directoryEntries disk)

section Final

variable {fs : List Input} {tab : ℕ → Entry} {s₀ s : Mkfs} {j : ℕ}

theorem Filled.cases (h : Filled fs tab s) (hj : 1 ≤ j) (hj' : j < fs.length + 2) :
    j = ROOTINO ∨ ∃ k f, j = k + 2 ∧ fs[k]? = some f ∧ (tab j).inode.type = T_FILE := by
  by_cases hroot : j = ROOTINO
  · exact .inl hroot
  · obtain ⟨k, rfl⟩ : ∃ k, j = k + 2 := ⟨j - 2, by unfold ROOTINO at hroot; omega⟩
    have hk : k < fs.length := by omega
    exact .inr ⟨k, fs[k], rfl, List.getElem?_eq_getElem hk,
      (h.file k fs[k] (List.getElem?_eq_getElem hk)).2⟩

theorem nblocks_rootSize (n : ℕ) : nblocks (rootSize n) = DIRENT * (n + 2) / BSIZE + 1 := by
  have hB : BSIZE = 1024 := rfl
  unfold nblocks rootSize
  rw [hB]
  omega

theorem nblocks_rootSize_eq (n : ℕ) :
    nblocks (rootSize n) =
      nblocks (DIRENT * (n + 2)) + if (n + 2) % 64 = 0 then 1 else 0 := by
  have hB : BSIZE = 1024 := rfl
  have hD : DIRENT = 16 := rfl
  rw [nblocks_rootSize]
  unfold nblocks
  rw [hB, hD]
  split_ifs with hmod <;> omega

theorem map_getD_range {l : List UInt8} {m : ℕ} (hm : l.length ≤ m) :
    (List.range m).map (fun k => l.getD k 0) = l ++ List.replicate (m - l.length) 0 := by
  apply List.ext_getElem?
  intro k
  rw [List.getElem?_map, List.getElem?_append, List.getElem?_replicate]
  by_cases hk : k < l.length
  · rw [if_pos hk, List.getElem?_range (by omega), List.getElem?_eq_getElem hk]
    simp [List.getD_eq_getElem?_getD, List.getElem?_eq_getElem hk]
  · rw [if_neg hk]
    by_cases hkm : k < m
    · rw [List.getElem?_range hkm, if_pos (by omega)]
      simp [List.getD_eq_getElem?_getD, List.getElem?_eq_none (Nat.le_of_not_lt hk)]
    · rw [List.getElem?_eq_none (by rw [List.length_range]; omega), if_neg (by omega)]
      rfl

variable (h : Finished fs tab s₀ s)
include h

theorem Finished.place (hj : j < ninodeblocks * IPB) :
    place s.disk (inodeAt sb s.disk j) = DiskFormat.place s₀.disk (tab j).inode := by
  have hcongr : DiskFormat.place s.disk (tab j).inode = DiskFormat.place s₀.disk (tab j).inode := by
    apply place_congr
    intro hne
    have hne0 : ((tab j).inode.addr NDIRECT).toNat ≠ 0 := fun h0 => hne (UInt32.toNat_inj.1 h0)
    exact h.data _ (h.filled.ready.place_lt j .indirect hne0).1
  rw [← hcongr, h.stored j hj]
  split_ifs
  · funext pl
    cases pl <;> rfl
  · rfl

theorem Finished.type (hj : j < ninodeblocks * IPB) :
    (inodeAt sb s.disk j).type = (tab j).inode.type := by
  rw [h.stored j hj]
  split_ifs <;> rfl

theorem Finished.file (hj : 1 ≤ j) (hj' : j < fs.length + 2) :
    File s₀.disk (tab j) :=
  h.filled.ready.file j hj (by rw [h.filled.freeinode]; exact hj')

theorem Finished.n (j : ℕ) : (tab j).n = nblocks (tab j).data.length :=
  (h.filled.ready.tight j).n

theorem Finished.inUse_iff (hfew : fs.length + 2 ≤ NINODES) :
    inUse s.disk j ↔ 1 ≤ j ∧ j < fs.length + 2 := by
  have hcap : NINODES ≤ ninodeblocks * IPB := by decide
  unfold inUse
  by_cases hj : 1 ≤ j ∧ j < fs.length + 2
  · rw [h.type (by omega)]
    refine ⟨fun _ => hj, fun _ => ⟨by omega, ?_⟩⟩
    rcases h.filled.cases hj.1 hj.2 with rfl | ⟨k, f, -, -, htype⟩
    · rw [h.filled.rootType]
      decide
    · rw [htype]
      decide
  · refine ⟨fun huse => absurd ?_ huse.2, fun hin => absurd hin hj⟩
    rw [h.type (by omega), h.filled.ready.unused j (by rw [h.filled.freeinode]; exact hj)]
    rfl

theorem Finished.once {pl pl' : Place} (hi : inUse s.disk i) (hj : inUse s.disk j)
    (hne : DiskFormat.place s.disk (inodeAt sb s.disk i) pl ≠ 0)
    (heq : DiskFormat.place s.disk (inodeAt sb s.disk i) pl =
      DiskFormat.place s.disk (inodeAt sb s.disk j) pl') : (i, pl) = (j, pl') := by
  have hcap : NINODES ≤ ninodeblocks * IPB := by decide
  rw [h.place (hi.1.trans_le hcap)] at hne heq
  rw [h.place (hj.1.trans_le hcap)] at heq
  exact (h.filled.ready.numbered.inj (i, pl) (j, pl') hne heq).symm

theorem Finished.used {b : ℕ} (hb : b < FSSIZE) : used sb s.disk b = true ↔ b < s₀.freeblock := by
  have hBPB : BPB = 8192 := rfl
  have hsize : FSSIZE = 1000 := rfl
  have hbb : sb.BBLOCK b = sb.bmapstart := by
    unfold Superblock.BBLOCK
    rw [Nat.div_eq_of_lt (by omega), Nat.zero_add]
  unfold DiskFormat.used
  rw [hbb, h.bitmap, Nat.mod_eq_of_lt (by omega), bit_bitmap (by omega), decide_eq_true_iff]

theorem Finished.marked (hfew : fs.length + 2 ≤ NINODES) {b : ℕ}
    (hb : b < FSSIZE) : DiskFormat.used sb s.disk b = true ↔
      b < nmeta ∨ ∃ i pl, inUse s.disk i ∧ DiskFormat.place s.disk
      (inodeAt sb s.disk i) pl = b := by
  have hcap : NINODES ≤ ninodeblocks * IPB := by decide
  have hlow := h.filled.ready.bounds.1
  rw [h.used hb]
  constructor
  · intro hlt
    by_cases hmeta : b < nmeta
    · exact .inl hmeta
    obtain ⟨⟨i, pl⟩, hpl⟩ := h.filled.ready.numbered.onto b (Nat.le_of_not_lt hmeta) hlt
    have hin : 1 ≤ i ∧ i < s₀.freeinode := by
      by_contra hout
      have hzero : places s₀.disk tab (i, pl) = 0 := by
        unfold places
        rw [h.filled.ready.unused i hout]
        exact place_zero s₀.disk pl
      have hpos := h.filled.ready.numbered.pos
      omega
    rw [h.filled.freeinode] at hin
    refine .inr ⟨i, pl, (h.inUse_iff hfew).2 hin, ?_⟩
    rw [h.place (by omega)]
    exact hpl
  · rintro (hmeta | ⟨i, pl, huse, rfl⟩)
    · omega
    · rw [h.place (huse.1.trans_le hcap)] at *
      by_cases hz : DiskFormat.place s₀.disk (tab i).inode pl = 0
      · have hpos : 0 < nmeta := by decide
        omega
      · exact (h.filled.ready.place_lt i pl hz).2

theorem Finished.blockOf (hj : j < ninodeblocks * IPB) (bn : ℕ) :
    blockOf s.disk (inodeAt sb s.disk j) bn = DiskFormat.blockOf s₀.disk (tab j).inode bn :=
  congrFun (h.place hj) (.data bn)

theorem Finished.fileByte (hj : 1 ≤ j) (hj' : j < fs.length + 2) (hcap : j < ninodeblocks * IPB)
    (hk : k < BSIZE * (tab j).n) :
    fileByte s.disk (inodeAt sb s.disk j) k = (tab j).data.getD k 0 := by
  have hfile := h.file hj hj'
  have hbn : k / BSIZE < (tab j).n := Nat.div_lt_of_lt_mul hk
  have hlow : nmeta ≤ DiskFormat.blockOf s₀.disk (tab j).inode (k / BSIZE) :=
    (h.filled.ready.place_lt j (.data (k / BSIZE)) ((hfile.blocks _).2 hbn)).1
  rw [← hfile.bytes k hk]
  unfold DiskFormat.fileByte
  rw [h.blockOf hcap, h.data _ hlow]

theorem Finished.size_file (hj : 1 ≤ j) (hj' : j < fs.length + 2) (hcap : j < ninodeblocks * IPB)
    (hne : j ≠ ROOTINO) :
    (inodeAt sb s.disk j).size.toNat = (tab j).data.length := by
  rw [h.stored j hcap, if_neg hne, (h.file hj hj').size]

theorem Finished.size_root (hfew : fs.length + 2 ≤ NINODES) :
    (inodeAt sb s.disk ROOTINO).size.toNat = rootSize fs.length := by
  have hroot : ROOTINO < ninodeblocks * IPB := by decide
  have hlt : rootSize fs.length < UInt32.size := by
    have hB : BSIZE = 1024 := rfl
    have hD : DIRENT = 16 := rfl
    have hN : NINODES = 200 := rfl
    have hsize : UInt32.size = 4294967296 := rfl
    unfold rootSize
    rw [hB, hD]
    omega
  rw [h.stored ROOTINO hroot, if_pos rfl]
  exact UInt32.toNat_ofNat_of_lt' hlt

theorem Finished.whole_root (hfew : fs.length + 2 ≤ NINODES) :
    (∀ bn < nblocks (inodeAt sb s.disk ROOTINO).size.toNat,
      DiskFormat.blockOf s.disk (inodeAt sb s.disk ROOTINO) bn ≠ 0) ↔ (fs.length + 2) % 64 ≠ 0 := by
  have hroot : ROOTINO < ninodeblocks * IPB := by decide
  have hfile := h.file (j := ROOTINO) le_rfl (by unfold ROOTINO; omega)
  have hn := h.n ROOTINO
  rw [h.filled.root, rootData_length] at hn
  have hblocks : ∀ bn, DiskFormat.blockOf s.disk (inodeAt sb s.disk ROOTINO) bn ≠ 0 ↔
      bn < nblocks (DIRENT * (fs.length + 2)) := by
    intro bn
    rw [h.blockOf hroot, hfile.blocks bn, hn]
  rw [h.size_root hfew, nblocks_rootSize_eq]
  constructor
  · intro hall hmod
    rw [if_pos hmod] at hall
    exact Nat.lt_irrefl _ ((hblocks _).1 (hall _ (Nat.lt_succ_self _)))
  · intro hmod bn hbn
    rw [if_neg hmod, Nat.add_zero] at hbn
    exact (hblocks bn).2 hbn

theorem Finished.whole_file (hj : 1 ≤ j) (hj' : j < fs.length + 2)
    (hcap : j < ninodeblocks * IPB) (hne : j ≠ ROOTINO) (bn : ℕ)
    (hbn : bn < nblocks (inodeAt sb s.disk j).size.toNat) :
    DiskFormat.blockOf s.disk (inodeAt sb s.disk j) bn ≠ 0 := by
  rw [h.size_file hj hj' hcap hne, ← h.n j] at hbn
  rw [h.blockOf hcap]
  exact ((h.file hj hj').blocks bn).2 hbn

theorem Finished.rootDirents (hfew : fs.length + 2 ≤ NINODES)
    (hmod : (fs.length + 2) % 64 ≠ 0) :
    ∃ m, dirents (fileData s.disk (inodeAt sb s.disk ROOTINO)) =
      MkfsImage.rootDirents fs ++ List.replicate m blank := by
  have hroot : ROOTINO < ninodeblocks * IPB := by decide
  have hlen := rootData_length fs
  have hsize := nblocks_rootSize_eq fs.length
  rw [if_neg hmod, Nat.add_zero, nblocks_rootSize] at hsize
  have hn := h.n ROOTINO
  rw [h.filled.root, hlen, ← hsize] at hn
  have hend : rootSize fs.length = BSIZE * (tab ROOTINO).n := by
    rw [hn]
    exact Nat.mul_comm _ _
  have hB : BSIZE = 1024 := rfl
  have hD : DIRENT = 16 := rfl
  have hround : rootSize fs.length = 1024 * (16 * (fs.length + 2) / 1024 + 1) := Nat.mul_comm _ _
  have hdata : fileData s.disk (inodeAt sb s.disk ROOTINO) =
      rootData fs ++ List.replicate (rootSize fs.length - (rootData fs).length) 0 := by
    unfold fileData
    rw [h.size_root hfew, ← map_getD_range (by rw [hlen, hD]; omega), ← h.filled.root]
    apply List.map_congr_left
    intro k hk
    have hk' : k < BSIZE * (tab ROOTINO).n := by
      rw [← hend]
      exact List.mem_range.1 hk
    exact h.fileByte (j := ROOTINO) le_rfl (by unfold ROOTINO; omega) hroot hk'
  have hrest : rootSize fs.length - (rootData fs).length =
      DIRENT * ((rootSize fs.length - (rootData fs).length) / 16) := by
    rw [hlen, hD]
    omega
  have hN : NINODES = 200 := rfl
  refine ⟨(rootSize fs.length - (rootData fs).length) / 16, ?_⟩
  rw [hdata, dirents_rootData fs _ (by omega), ← dirents_zeros, ← hrest]

theorem Finished.directoryEntries :
    directoryEntries s.disk = dirents (fileData s.disk (inodeAt sb s.disk ROOTINO)) := by
  have hcap : NINODES ≤ ninodeblocks * IPB := by decide
  have hroot : ROOTINO < ninodeblocks * IPB := by decide
  have hother : ∀ i < NINODES, i ≠ ROOTINO → (inodeAt sb s.disk i).type ≠ T_DIR := by
    intro i hi hne
    rw [h.type (by omega)]
    by_cases hin : 1 ≤ i ∧ i < fs.length + 2
    · rcases h.filled.cases hin.1 hin.2 with heq | ⟨k, f, -, -, htype⟩
      · exact absurd heq hne
      · rw [htype]
        decide
    · rw [h.filled.ready.unused i (by rw [h.filled.freeinode]; exact hin)]
      decide
  have hrange : List.range NINODES = 0 :: ROOTINO :: (List.range 198).map (· + 2) := by
    change List.range (198 + 1 + 1) = _
    rw [List.range_succ_eq_map, List.range_succ_eq_map, List.map_cons, List.map_map]
    rfl
  unfold MkfsImage.directoryEntries
  rw [hrange, List.flatMap_cons, List.flatMap_cons, if_neg (hother 0 (by decide) (by decide))]
  rw [if_pos (by rw [h.type hroot, h.filled.rootType]), List.nil_append]
  have htail : ((List.range 198).map (· + 2)).flatMap (fun i =>
      if (inodeAt sb s.disk i).type = T_DIR then dirents (fileData s.disk (inodeAt sb s.disk i))
      else []) = [] := by
    apply List.flatMap_eq_nil_iff.2
    intro i hi
    obtain ⟨k, hk, rfl⟩ := List.mem_map.1 hi
    have hlt := List.mem_range.1 hk
    have hN : NINODES = 200 := rfl
    exact if_neg (hother (k + 2) (by omega) (by unfold ROOTINO; omega))
  rw [htail, List.append_nil]

end Final

theorem Finished.consistent_iff {fs : List Input} {tab : ℕ → Entry} {s₀ s : Mkfs}
    (h : Finished fs tab s₀ s) (hfew : fs.length + 2 ≤ NINODES) :
    Consistent s.disk ↔ (fs.length + 2) % 64 ≠ 0 ∧ ∀ f ∈ fs, diskName f ≠ dot := by
  have hcap : NINODES ≤ ninodeblocks * IPB := by decide
  have hnlink : ∀ j, 1 ≤ j → j < fs.length + 2 → (inodeAt sb s.disk j).nlink.toNat = 1 := by
    intro j hj hj'
    rw [h.stored j (by omega)]
    have hone : (tab j).inode.nlink.toNat = 1 := by
      rw [(h.file hj hj').nlink]
      rfl
    split_ifs
    · exact hone
    · exact hone
  have hlinks : (fs.length + 2) % 64 ≠ 0 → ∀ j, 1 ≤ j →
      links j (MkfsImage.directoryEntries s.disk) = links j (MkfsImage.rootDirents fs) := by
    intro hmod j hj
    obtain ⟨m, hroot⟩ := h.rootDirents hfew hmod
    rw [h.directoryEntries, hroot, links_append, links_blank (by omega), Nat.add_zero]
  constructor
  · intro hc
    have hrootUse : inUse s.disk ROOTINO :=
      (h.inUse_iff hfew).2 ⟨le_rfl, by unfold ROOTINO; omega⟩
    have hmod := (h.whole_root hfew).1 (hc.whole ROOTINO hrootUse)
    refine ⟨hmod, fun f hf hdot => ?_⟩
    obtain ⟨k, hk, rfl⟩ := List.getElem_of_mem hf
    have hone := hc.nlink (k + 2) ((h.inUse_iff hfew).2 ⟨by omega, by omega⟩)
    rw [hnlink _ (by omega) (by omega), hlinks hmod _ (by omega),
      links_file (List.getElem?_eq_getElem hk), if_pos hdot] at hone
    exact absurd hone (by decide)
  · rintro ⟨hmod, hnames⟩
    refine ⟨?_, fun i j pl pl' => h.once, fun b => h.marked hfew, ?_⟩
    · intro i hi
      have hin := (h.inUse_iff hfew).1 hi
      by_cases hroot : i = ROOTINO
      · rw [hroot]
        exact (h.whole_root hfew).2 hmod
      · exact h.whole_file hin.1 hin.2 (by omega) hroot
    · intro i hi
      have hin := (h.inUse_iff hfew).1 hi
      rw [hnlink i hin.1 hin.2, hlinks hmod i hin.1]
      rcases h.filled.cases hin.1 hin.2 with rfl | ⟨k, f, rfl, hk, -⟩
      · exact (links_root fs).symm
      · rw [links_file hk, if_neg (hnames f (List.mem_of_getElem? hk))]

/-- `mkfs` finishes when the files fit, and the image is consistent exactly when the entries of the
    root directory do not fill their blocks and no file is called `.`. -/
theorem mkfs_consistent_iff (files : List Input) (hfew : files.length + 2 ≤ NINODES) :
    (Fits files → ∃ s, mkfs files = .done () s) ∧
      ∀ s, mkfs files = .done () s →
        (Consistent s.disk ↔
          (files.length + 2) % 64 ≠ 0 ∧ ∀ f ∈ files, diskName f ≠ dot) := by
  have hroom : files.length + 2 ≤ ninodeblocks * IPB := hfew.trans (by decide)
  constructor
  · intro hfits
    obtain ⟨_, s, hrun, -⟩ := (ok_main hroom).sure hfits
    exact ⟨s, hrun⟩
  · intro s hrun
    obtain ⟨tab, s₀, hfin⟩ := finished_of_done hrun hroom
    exact hfin.consistent_iff hfew

/-- The file `a` has four bytes, which are read in two parts, and the file `b` two. -/
def twoFiles : List Input :=
  [{ emptyFile with chunks := some [⟨[1, 2, 3], by decide⟩, ⟨[4], by decide⟩] },
    ⟨⟨[98], by decide⟩, some [⟨[5, 6], by decide⟩]⟩]

theorem mkfs_two_consistent : ∃ s, mkfs twoFiles = .done () s ∧ Consistent s.disk := by
  obtain ⟨_, s, hrun, -⟩ := Resumption.Outcome.exists_of_any
    (by decide +kernel : (mkfs twoFiles).any (fun _ _ => true) = true)
  exact ⟨s, hrun, ((mkfs_consistent_iff twoFiles (by decide)).2 s hrun).2 (by decide)⟩

/-- With 62 files the root directory has 64 entries, and its second block is missing. -/
theorem mkfs_root_hole : ∃ s, mkfs (List.replicate 62 emptyFile) = .done () s ∧
    ¬ Consistent s.disk := by
  have hlen : (List.replicate 62 emptyFile).length = 62 := List.length_replicate
  have hroom : (List.replicate 62 emptyFile).length + 2 ≤ ninodeblocks * IPB := by
    rw [hlen]
    decide
  obtain ⟨_, s, hrun, tab, s₀, hfin⟩ := (ok_main hroom).sure (fits_emptyFiles (by decide))
  refine ⟨s, hrun, fun hc => ?_⟩
  have hmod := ((hfin.consistent_iff (by rw [hlen]; decide)).1 hc).1
  rw [hlen] at hmod
  exact hmod (by decide)

end Xv6.MkfsImage
