import Xv6.DirectoryMap

set_option autoImplicit false

namespace Xv6.DirectoryGrowth
open Xv6.Sequential ByteFields DiskFormat BlockFiles BlockWrites BlockReads
open DirectoryCode DirectoryNames DirectoryMap
open BlockCode hiding onFs
open LogCode (BSIZE)
open KernelTables (NINODE)
open InodeCode (DIRSIZ DIRENT MAXFILE)

variable {sb : Superblock} {first : ℕ} {st : Inodes} {dp : ℕ} {name : Name}
variable {n : ℕ}

theorem dirlink_full (layout : Layout sb first) (hsound : Sound sb first st.fs)
    (hdir : Directory sb st.fs dp) (hno : ∀ k, ¬ Match (contents st.fs dp) (nameText name) k)
    (hfull : ¬ HasFree (contents st.fs dp))
    (hmax : MAXFILE * BSIZE < (contents st.fs dp).size + DIRENT) (de : Dirent) (inum : UInt32) :
    dirlink sb de dp name inum st = .panic "dirlink" := by
  have hD : DIRENT = 16 := rfl
  obtain ⟨k, de', hrun, hk, hfree, -⟩ := emptyFrom_run hdir
    ((contents st.fs dp).size / DIRENT + 1) 0 de (Nat.zero_le _) (by rw [hD]; omega)
  have hend : DIRENT * k = (contents st.fs dp).size := by
    by_contra hne
    have hlt : DIRENT * k < (contents st.fs dp).size := by omega
    exact hfull ⟨k, hlt, hfree hlt⟩
  have hoff := toNat_offset (hk.trans hdir.size)
  have hrefused : Refused st.fs dp (UInt32.ofNat (DIRENT * k)) sizeofDe := by
    refine .inr (.inr ?_)
    rw [hoff, hend]
    exact hmax
  have hwrite : ∀ de : Dirent, onFs (writei sb dp (fun j => some (de.byteAt j))
      (UInt32.ofNat (DIRENT * k)) sizeofDe) st = .done (-1) st := by
    intro de
    obtain ⟨r, fs', hrun, hpost⟩ := (ends_writei (fun j => some (de.byteAt j)) layout hdir.num
      (UInt32.ofNat (DIRENT * k)) sizeofDe hsound).sure (.inl hrefused)
    rcases hpost with ⟨-, rfl, rfl⟩ | ⟨hfine, -⟩
    · unfold onFs Code.within
      rw [hrun]
    · exact absurd hrefused hfine
  have hnone : dirlookup sb dp name st = .done none st := gives_none hdir hno
  have hshort : (-1 : ℤ) ≠ DIRENT := by decide
  rw [dirlink, bind_of_done hnone]
  change (onFs (inode dp) >>= _ : DirCode ℤ) st = _
  rw [bind_of_done (inode_run st dp), bind_of_done (by exact hrun)]
  apply bind_of_panic
  rw [writeDirent, bind_of_done (hwrite _), if_pos hshort]
  rfl

def HasRoom (c : Contents) : Prop := HasFree c ∨ c.size + DIRENT ≤ MAXFILE * BSIZE

theorem dirlink_cases (layout : Layout sb first) (hsound : Sound sb first st.fs)
    (hdir : Directory sb st.fs dp) (de : Dirent) (name : Name) (inum : UInt32)
    (hpos : 1 ≤ inum.toNat) (hshort : inum.toNat ≤ 65535) :
    ((∃ n off, Binds (contents st.fs dp) (nameText name) n off ∧
      Ends (Room st n) (dirlink sb de dp name inum) (fun r st' => r = -1 ∧ Same st st') st)) ∨
    (∀ k, ¬ Match (contents st.fs dp) (nameText name) k) ∧
      ((HasRoom (contents st.fs dp) ∧ Ends (2 ≤ free sb st.fs) (dirlink sb de dp name inum)
        (fun r st' => r = 0 ∧ Linked sb first dp name inum.toNat st st') st) ∨
      ¬ HasRoom (contents st.fs dp) ∧ dirlink sb de dp name inum st = .panic "dirlink") := by
  by_cases hbound : ∃ k, Match (contents st.fs dp) (nameText name) k
  · obtain ⟨k, hk⟩ := hbound
    have hbinds : Binds (contents st.fs dp) (nameText name) _ _ := ⟨k, hk, rfl, rfl⟩
    exact .inl ⟨_, _, hbinds, ends_dirlink_bound hdir hbinds de inum⟩
  have hno : ∀ k, ¬ Match (contents st.fs dp) (nameText name) k := fun k hk => hbound ⟨k, hk⟩
  refine .inr ⟨hno, ?_⟩
  by_cases hroom : HasRoom (contents st.fs dp)
  · exact .inl ⟨hroom, ends_dirlink layout hsound hdir hno hroom de hpos hshort⟩
  · refine .inr ⟨hroom, ?_⟩
    rw [HasRoom, not_or, Nat.not_le] at hroom
    exact dirlink_full layout hsound hdir hno hroom.1 hroom.2 de inum

/-- What `create`, `link` and `unlink` do to a directory: they add names, clear the entries they
    have looked up, and leave it alone while they change other inodes and the inode cache. -/
inductive Reached (sb : Superblock) (first dp : ℕ) (st₀ : Inodes) : Inodes → Prop where
  | start : Reached sb first dp st₀ st₀
  | link {st st' : Inodes} {r : ℤ} (h : Reached sb first dp st₀ st) (de : Dirent) (name : Name)
      (inum : UInt32) (hpos : 1 ≤ inum.toNat) (hshort : inum.toNat ≤ 65535)
      (run : dirlink sb de dp name inum st = .done r st') : Reached sb first dp st₀ st'
  | unlink {st st₁ st' : Inodes} {ip : Fin NINODE} {off : UInt32} (h : Reached sb first dp st₀ st)
      (name : Name) (found : dirlookup sb dp name st = .done (some (ip, off)) st₁)
      (run : clearDirent sb dp off st₁ = .done () st') : Reached sb first dp st₀ st'
  | elsewhere {st st' : Inodes} (h : Reached sb first dp st₀ st) (sound : Sound sb first st'.fs)
      (noHoles : NoHoles st'.fs dp) (contents : contents st'.fs dp = contents st.fs dp)
      (type : (st'.fs.mem dp).type = (st.fs.mem dp).type) : Reached sb first dp st₀ st'

theorem Directory.of_contents {fs fs' : Fs} (h : Directory sb fs dp) (hholes : NoHoles fs' dp)
    (hcontents : contents fs' dp = contents fs dp) (htype : (fs'.mem dp).type = (fs.mem dp).type) :
    Directory sb fs' dp where
  num := h.num
  type := htype.trans h.type
  aligned := by rw [hcontents]; exact h.aligned
  size := by rw [hcontents]; exact h.size
  noHoles := hholes
  distinct := by rw [hcontents]; exact h.distinct

theorem Reached.sound (layout : Layout sb first) {st₀ : Inodes}
    (hstart : Sound sb first st₀.fs ∧ Directory sb st₀.fs dp) (h : Reached sb first dp st₀ st) :
    Sound sb first st.fs ∧ Directory sb st.fs dp := by
  induction h with
  | start => exact hstart
  | @link st st' r _ de name inum hpos hshort run ih =>
    obtain ⟨hsound, hdir⟩ := ih
    rcases dirlink_cases layout hsound hdir de name inum hpos hshort with
      ⟨_, _, _, hends⟩ | ⟨_, ⟨_, hends⟩ | ⟨_, hpanic⟩⟩
    · rw [(hends.done run).2.fs]
      exact ⟨hsound, hdir⟩
    · have hlinked := (hends.done run).2
      exact ⟨hlinked.sound, hlinked.directory⟩
    · cases run.symm.trans hpanic
  | @unlink st st1 st' ip off _ name found run ih =>
    obtain ⟨hsound, hdir⟩ := ih
    by_cases hbound : ∃ k, Match (contents st.fs dp) (nameText name) k
    · obtain ⟨k, hk⟩ := hbound
      have hbinds : Binds (contents st.fs dp) (nameText name) _ _ := ⟨k, hk, rfl, rfl⟩
      obtain ⟨ip', heq, -, hfs⟩ := (ends_dirlookup hdir hbinds).done found
      cases heq
      rw [← hfs] at hsound hdir hbinds
      obtain ⟨⟨⟩, st'', hrun, hunlinked⟩ := ends_clearDirent layout hsound hdir hbinds
      cases run.symm.trans hrun
      exact ⟨hunlinked.sound, hunlinked.directory⟩
    · have hnone : dirlookup sb dp name st = .done none st :=
        gives_none hdir fun k hk => hbound ⟨k, hk⟩
      cases found.symm.trans hnone
  | elsewhere _ sound noHoles contents type ih =>
    exact ⟨sound, Directory.of_contents ih.2 noHoles contents type⟩

/-- While there are blocks and an unused entry of the inode cache, `dirlink` returns exactly when
    the name is there or there is room for it. -/
theorem dirlink_returns_iff (layout : Layout sb first) {st₀ : Inodes}
    (hstart : Sound sb first st₀.fs ∧ Directory sb st₀.fs dp) (h : Reached sb first dp st₀ st)
    (hblocks : 2 ≤ free sb st.fs) (hcache : ∃ ip, (st.icache ip).ref = 0) (de : Dirent)
    (name : Name) (inum : UInt32) (hpos : 1 ≤ inum.toNat) (hshort : inum.toNat ≤ 65535) :
    (Returns (dirlink sb de dp name inum) (fun r _ => r = 0 ∨ r = -1) st ↔
      (∃ n off, Binds (contents st.fs dp) (nameText name) n off) ∨ HasFree (contents st.fs dp) ∨
        (contents st.fs dp).size + DIRENT ≤ MAXFILE * BSIZE) ∧
    (¬ Returns (dirlink sb de dp name inum) (fun r _ => r = 0 ∨ r = -1) st →
      dirlink sb de dp name inum st = .panic "dirlink") := by
  obtain ⟨hsound, hdir⟩ := h.sound layout hstart
  rcases dirlink_cases layout hsound hdir de name inum hpos hshort with
    ⟨n, off, hbinds, hends⟩ | ⟨hno, ⟨hroom, hends⟩ | ⟨hroom, hpanic⟩⟩
  · have hret : Returns (dirlink sb de dp name inum) (fun r _ => r = 0 ∨ r = -1) st := by
      obtain ⟨ip, hzero⟩ := hcache
      exact (hends.sure ⟨ip, .inl hzero⟩).mono fun r st' hq => .inr hq.1
    exact ⟨iff_of_true hret (.inl ⟨n, off, hbinds⟩), fun hnot => absurd hret hnot⟩
  · have hret : Returns (dirlink sb de dp name inum) (fun r _ => r = 0 ∨ r = -1) st :=
      (hends.sure hblocks).mono fun r st' hq => .inl hq.1
    exact ⟨iff_of_true hret (.inr hroom), fun hnot => absurd hret hnot⟩
  · refine ⟨iff_of_false ?_ ?_, fun _ => hpanic⟩
    · rintro ⟨r, st', hrun, -⟩
      cases hrun.symm.trans hpanic
    · rintro (⟨n, off, k, hk, -⟩ | hcase)
      · exact hno k hk
      · exact hroom hcase

def largeSb : Superblock := ⟨FSMAGIC, 40000, 39950, 200, 30, 2, 32, 45⟩

def newDir : Inodes where
  fs := {
    disk := fun b => if b = 45 then fun j => if j.val < 7 then 255 else 0 else fun _ => 0
    mem := fun _ => { DiskInode.zero with type := T_DIR, nlink := 1 }
    logged := [] }
  icache := fun _ => ⟨0, 0, false⟩

theorem layout_largeSb : Layout largeSb 50 where
  inodes := by
    intro i hi
    change i / 16 + 32 < 50
    change i < 200 at hi
    omega
  bitmap := by
    intro b hb
    change b / 8192 + 45 < 50
    change b < 40000 at hb
    omega
  apart := by
    intro i hi b hb
    change i / 16 + 32 ≠ b / 8192 + 45
    change i < 200 at hi
    omega
  words := by decide

theorem slot_newDir (x : Slot) : slot newDir.fs x = 0 := place_zero newDir.fs.disk x.2

theorem sound_newDir : Sound largeSb 50 newDir.fs where
  once := fun x _ _ _ hne _ => absurd (slot_newDir x) hne
  range := fun x _ hne => absurd (slot_newDir x) hne
  marked := fun x _ hne => absurd (slot_newDir x) hne
  metadata := by
    have hall : ∀ b < 50, used largeSb newDir.fs.disk b = true := by decide
    exact fun b hb _ => hall b hb

theorem directory_newDir : Directory largeSb newDir.fs 2 where
  num := by decide
  type := rfl
  aligned := rfl
  size := by decide
  noHoles := fun _ hk => absurd hk (Nat.not_lt_zero _)
  distinct := fun _ _ _ hk => absurd hk.1 (Nat.not_lt_zero _)

theorem unused_newDir {b : ℕ} (hb : 56 ≤ b) : used largeSb newDir.fs.disk b = false := by
  change bit (if b / 8192 + 45 = 45 then _ else _) (b % 8192) = false
  by_cases hblock : b / 8192 + 45 = 45
  · rw [if_pos hblock]
    unfold bit byte
    have hlt : b % 8192 / 8 < BSIZE := by
      unfold BSIZE
      omega
    rw [dif_pos hlt]
    dsimp only
    rw [if_neg (by omega)]
    exact Nat.zero_testBit _
  · rw [if_neg hblock]
    unfold bit byte
    split_ifs <;> exact Nat.zero_testBit _

theorem free_newDir : 39944 ≤ free largeSb newDir.fs := by
  have hsub : Finset.Ico 56 40000 ⊆
      (Finset.range largeSb.size).filter fun b => used largeSb newDir.fs.disk b = false := by
    intro b hb
    rw [Finset.mem_Ico] at hb
    exact Finset.mem_filter.2 ⟨Finset.mem_range.2 hb.2, unused_newDir hb.1⟩
  have hcard := Finset.card_le_card hsub
  rw [Nat.card_Ico] at hcard
  exact hcard

def word (k : ℕ) : List UInt8 :=
  [UInt8.ofNat (128 + k % 128), UInt8.ofNat (128 + k / 128 % 128), UInt8.ofNat (128 + k / 16384)]

theorem toNat_digit {a : ℕ} (h : a < 128) : (UInt8.ofNat (128 + a)).toNat = 128 + a :=
  UInt8.toNat_ofNat_of_lt' (by unfold UInt8.size; omega)

theorem word_injective {i j : ℕ} (hi : i < 2 ^ 21) (hj : j < 2 ^ 21) (h : word i = word j) :
    i = j := by
  obtain ⟨h0, hrest⟩ := List.cons.inj h
  obtain ⟨h1, hrest⟩ := List.cons.inj hrest
  obtain ⟨h2, -⟩ := List.cons.inj hrest
  have e0 := congrArg UInt8.toNat h0
  have e1 := congrArg UInt8.toNat h1
  have e2 := congrArg UInt8.toNat h2
  rw [toNat_digit (by omega), toNat_digit (by omega)] at e0 e1 e2
  omega

theorem zero_not_mem_word {k : ℕ} (hk : k < 2 ^ 21) : 0 ∉ word k := by
  intro hmem
  have hzero : ∀ a < 128, (0 : UInt8) ≠ UInt8.ofNat (128 + a) := by
    intro a ha heq
    have := congrArg UInt8.toNat heq
    rw [toNat_digit ha] at this
    have hnat : (0 : UInt8).toNat = 0 := rfl
    omega
  simp only [word, List.mem_cons, List.not_mem_nil, or_false] at hmem
  rcases hmem with h | h | h
  · exact hzero _ (by omega) h
  · exact hzero _ (by omega) h
  · exact hzero _ (by omega) h

def nameNo (k : ℕ) : Name := setBytes (fun _ => 0) 0 3 fun j => (word k).getD j 0

theorem nameText_nameNo {k : ℕ} (hk : k < 2 ^ 21) : nameText (nameNo k) = word k := by
  refine text_eq (by decide : (3 : ℕ) ≤ DIRSIZ) (zero_not_mem_word hk) ?_ ?_
  · intro j hj
    change j < 3 at hj
    have hin : j < DIRSIZ := hj.trans (by decide)
    rw [Nat.zero_add, nameNo, byte_setBytes _ _ _ _ _ hin, if_pos (by omega), Nat.sub_zero]
  · intro _
    change byte (nameNo k) (0 + 3) = 0
    rw [nameNo, byte_setBytes_of_outside _ _ _ _ _ (by omega)]
    rfl

structure Filled (n : ℕ) (st : Inodes) : Prop where
  reached : Reached largeSb 50 2 newDir st
  size : (contents st.fs 2).size = DIRENT * n
  used : ∀ j < n, (direntAt (contents st.fs 2) j).inum ≠ 0
  names : ∀ j < n, nameText (direntAt (contents st.fs 2) j).name = word j
  blocks : 39944 ≤ free largeSb st.fs + 2 * n
  icache : st.icache = newDir.icache

theorem Filled.no_match (h : Filled n st) (hn : n < 2 ^ 21) (k : ℕ) :
    ¬ Match (contents st.fs 2) (nameText (nameNo n)) k := by
  rintro ⟨hk, -, htext⟩
  have hD : DIRENT = 16 := rfl
  have hkn : k < n := by
    rw [h.size, hD] at hk
    omega
  rw [nameText_nameNo hn, h.names k hkn] at htext
  have := word_injective (by omega) hn htext
  omega

theorem Filled.not_free (h : Filled n st) : ¬ HasFree (contents st.fs 2) := by
  rintro ⟨k, hk, hzero⟩
  have hD : DIRENT = 16 := rfl
  rw [h.size, hD] at hk
  exact h.used k (by omega) hzero

theorem Filled.next (h : Filled n st) (hn : DIRENT * n + DIRENT ≤ MAXFILE * BSIZE) :
    ∃ st', Filled (n + 1) st' := by
  have hD : DIRENT = 16 := rfl
  have hmax : MAXFILE * BSIZE = 274432 := rfl
  obtain ⟨hsound, hdir⟩ := h.reached.sound layout_largeSb ⟨sound_newDir, directory_newDir⟩
  have hspace : (contents st.fs 2).size + DIRENT ≤ MAXFILE * BSIZE := by
    rw [h.size]
    exact hn
  have hsmall : n < 2 ^ 21 := by
    rw [hD, hmax] at hn
    omega
  have hblocks : 2 ≤ free largeSb st.fs := by
    have := h.blocks
    rw [hD, hmax] at hn
    omega
  obtain ⟨r, st', hrun, -, k, de, hput, hde, htext, hk, -, -, hfirst⟩ :=
    (ends_dirlink_put layout_largeSb hsound hdir (h.no_match hsmall) (.inr hspace) Dirent.zero
      3).sure hblocks
  obtain rfl : k = n := by
    have hge : ¬ DIRENT * k < (contents st.fs 2).size := fun hlt => h.not_free (hfirst.1 hlt)
    rw [h.size, hD] at *
    omega
  have hentry : ∀ j, direntAt (contents st'.fs 2) j =
      if j = k then de else direntAt (contents st.fs 2) j := by
    intro j
    rw [hput.contents_eq, direntAt_putDirent]
  refine ⟨st', .link h.reached _ _ 3 (by decide) (by decide) hrun, ?_, ?_, ?_, ?_, ?_⟩
  · rw [hput.contents_eq]
    change max (contents st.fs 2).size (DIRENT * k + DIRENT) = _
    rw [h.size, hD]
    omega
  · intro j hj
    rw [hentry]
    by_cases hjk : j = k
    · rw [if_pos hjk, hde]
      decide
    · rw [if_neg hjk]
      exact h.used j (by omega)
  · intro j hj
    rw [hentry]
    by_cases hjk : j = k
    · rw [if_pos hjk, htext, nameText_nameNo hsmall, hjk]
    · rw [if_neg hjk]
      exact h.names j (by omega)
  · have hold := h.blocks
    have hnew := hput.blocks
    omega
  · rw [hput.icache, h.icache]

theorem filled_new : Filled 0 newDir where
  reached := .start
  size := rfl
  used := nofun
  names := nofun
  blocks := free_newDir.trans (Nat.le_add_right _ _)
  icache := rfl

theorem exists_filled (h : DIRENT * n ≤ MAXFILE * BSIZE) : ∃ st, Filled n st := by
  induction n with
  | zero => exact ⟨newDir, filled_new⟩
  | succ n ih =>
    rw [Nat.mul_succ] at h
    obtain ⟨st, hst⟩ := ih (by omega)
    exact hst.next h

/-- A directory that has as many names as fit in the largest file. -/
theorem full_directory_panics :
    ∃ st name, Reached largeSb 50 2 newDir st ∧ 2 ≤ free largeSb st.fs ∧
      (∀ ip, (st.icache ip).ref = 0) ∧ (contents st.fs 2).size = MAXFILE * BSIZE ∧
      dirlink largeSb Dirent.zero 2 name 3 st = .panic "dirlink" := by
  obtain ⟨st, h⟩ := exists_filled (n := 17152) (by decide)
  obtain ⟨hsound, hdir⟩ := h.reached.sound layout_largeSb ⟨sound_newDir, directory_newDir⟩
  have hsize : (contents st.fs 2).size = MAXFILE * BSIZE := h.size
  refine ⟨st, nameNo 17152, h.reached, ?_, ?_, hsize, ?_⟩
  · have := h.blocks
    omega
  · rw [h.icache]
    exact fun _ => rfl
  · refine dirlink_full layout_largeSb hsound hdir (h.no_match (by decide)) h.not_free ?_ _ _
    rw [hsize]
    decide

theorem dirlink_returns_newDir :
    Returns (dirlink largeSb Dirent.zero 2 (nameNo 0) 3) (fun r _ => r = 0 ∨ r = -1) newDir :=
  (dirlink_returns_iff layout_largeSb ⟨sound_newDir, directory_newDir⟩ .start
    ((by decide : 2 ≤ 39944).trans free_newDir) ⟨0, rfl⟩ Dirent.zero (nameNo 0) 3 (by decide)
    (by decide)).1.2 (.inr (.inr (by decide)))

end Xv6.DirectoryGrowth
