import Xv6.BlockReads
import Xv6.DirectoryNames

set_option autoImplicit false

namespace Xv6.DirectoryMap
open Xv6.Sequential ByteFields DiskFormat BlockFiles BlockWrites BlockReads
open DirectoryCode DirectoryNames
open BlockCode hiding onFs
open LogCode (BSIZE)
open KernelTables (NINODE)
open InodeCode (DIRSIZ DIRENT MAXFILE)

variable {k off : ℕ} {name : Name} {de : Dirent} {st' : Inodes}

def direntAt (c : Contents) (k : ℕ) : Dirent := Dirent.ofBytes fun j => c.byte (DIRENT * k + j)

def Match (c : Contents) (key : List UInt8) (k : ℕ) : Prop :=
  DIRENT * k < c.size ∧ (direntAt c k).inum ≠ 0 ∧ nameText (direntAt c k).name = key

/-- The directory binds `key` to `inum` in the entry at offset `off`. -/
def Binds (c : Contents) (key : List UInt8) (inum off : ℕ) : Prop :=
  ∃ k, Match c key k ∧ (direntAt c k).inum.toNat = inum ∧ DIRENT * k = off

def HasFree (c : Contents) : Prop := ∃ k, DIRENT * k < c.size ∧ (direntAt c k).inum = 0

structure Directory (sb : Superblock) (fs : Fs) (dp : ℕ) : Prop where
  num : dp < sb.ninodes
  type : (fs.mem dp).type = T_DIR
  aligned : (contents fs dp).size % DIRENT = 0
  size : (contents fs dp).size ≤ MAXFILE * BSIZE
  noHoles : NoHoles fs dp
  distinct : ∀ key k k', Match (contents fs dp) key k → Match (contents fs dp) key k' → k = k'

theorem ofBytes_congr {b b' : ℕ → UInt8} (h : ∀ j < DIRENT, b j = b' j) :
    Dirent.ofBytes b = Dirent.ofBytes b' := by
  have hname : (fun j : Fin DIRSIZ => b (2 + j.val)) = fun j => b' (2 + j.val) := by
    funext j
    exact h _ (Nat.add_lt_add_left j.isLt 2)
  unfold Dirent.ofBytes
  rw [h 0 (by decide), h 1 (by decide), hname]

theorem ofBytes_byteAt (de : Dirent) : Dirent.ofBytes de.byteAt = de := by
  have hinum : (de.byteAt 0).toNat + 256 * (de.byteAt 1).toNat = de.inum.toNat := by
    have hlt := de.inum.toNat_lt
    have hlow : (de.byteAt 0).toNat = de.inum.toNat % 256 := by
      simp [Dirent.byteAt, leByte]
    have hhigh : (de.byteAt 1).toNat = de.inum.toNat / 256 % 256 := by
      simp [Dirent.byteAt, leByte]
    omega
  have hname : (fun j : Fin DIRSIZ => de.byteAt (2 + j.val)) = de.name := by
    funext j
    have hsub : 2 + j.val - 2 = j.val := by omega
    unfold Dirent.byteAt
    rw [if_neg (by omega), hsub]
    exact dif_pos j.isLt
  unfold Dirent.ofBytes
  rw [hinum, hname, UInt16.ofNat_toNat]

def putDirent (c : Contents) (k : ℕ) (de : Dirent) : Contents :=
  { c.overwrite (DIRENT * k) DIRENT de.byteAt with size := max c.size (DIRENT * k + DIRENT) }

theorem direntAt_putDirent (c : Contents) (k j : ℕ) (de : Dirent) :
    direntAt (putDirent c k de) j = if j = k then de else direntAt c j := by
  have hD : DIRENT = 16 := rfl
  by_cases hjk : j = k
  · rw [if_pos hjk, hjk]
    refine (ofBytes_congr fun x hx => ?_).trans (ofBytes_byteAt de)
    have hin : DIRENT * k ≤ DIRENT * k + x ∧ DIRENT * k + x < DIRENT * k + DIRENT := by omega
    unfold putDirent Contents.overwrite
    dsimp only
    rw [if_pos hin, Nat.add_sub_cancel_left]
  rw [if_neg hjk]
  refine ofBytes_congr fun x hx => ?_
  have hout : ¬ (DIRENT * k ≤ DIRENT * j + x ∧ DIRENT * j + x < DIRENT * k + DIRENT) := by
    rw [hD] at *
    omega
  unfold putDirent Contents.overwrite
  dsimp only
  rw [if_neg hout]

section Reading

variable {sb : Superblock} {st : Inodes} {dp : ℕ}

theorem toNat_offset (h : DIRENT * k ≤ MAXFILE * BSIZE) :
    (UInt32.ofNat (DIRENT * k)).toNat = DIRENT * k :=
  UInt32.toNat_ofNat_of_lt' (h.trans_lt (by decide))

theorem offset_succ (k : ℕ) :
    UInt32.ofNat (DIRENT * k) + sizeofDe = UInt32.ofNat (DIRENT * (k + 1)) := by
  rw [Nat.mul_succ, UInt32.ofNat_add]
  rfl

theorem lt_size (h : DIRENT * k ≤ MAXFILE * BSIZE) :
    UInt32.ofNat (DIRENT * k) < (st.fs.mem dp).size ↔ DIRENT * k < (contents st.fs dp).size := by
  rw [UInt32.lt_iff_toNat_lt, toNat_offset h]
  rfl

theorem inode_run (st : Inodes) (dp : ℕ) : onFs (inode dp) st = .done (st.fs.mem dp) st := rfl

variable (hdir : Directory sb st.fs dp)

include hdir

theorem Directory.entry_end (hk : DIRENT * k < (contents st.fs dp).size) :
    DIRENT * k + DIRENT ≤ (contents st.fs dp).size := by
  have halign := hdir.aligned
  have hD : DIRENT = 16 := rfl
  rw [hD] at halign hk ⊢
  omega

theorem readDirent_run (hk : DIRENT * k < (contents st.fs dp).size) (msg : String) :
    readDirent sb dp (UInt32.ofNat (DIRENT * k)) msg st =
      .done (direntAt (contents st.fs dp) k) st := by
  have hend := hdir.entry_end hk
  have hsize := hdir.size
  have hoff := toNat_offset (hk.le.trans hsize)
  have hmax : MAXFILE * BSIZE < 2 ^ 32 := by decide
  have hread : readi sb dp DIRENT (UInt32.ofNat (DIRENT * k)) sizeofDe st.fs =
      .done (bytesAt st.fs dp (DIRENT * k) DIRENT) st.fs := by
    have hbytes : sizeofDe.toNat = DIRENT := rfl
    rw [readi_eq hdir.noHoles hsize _ _ (Nat.le_of_eq hbytes), hoff, hbytes, if_neg (by omega),
      Nat.min_eq_left (by omega)]
  have hrun : onFs (readi sb dp DIRENT (UInt32.ofNat (DIRENT * k)) sizeofDe) st =
      .done (bytesAt st.fs dp (DIRENT * k) DIRENT) st := by
    unfold onFs Code.within
    rw [hread]
  have hlen : (bytesAt st.fs dp (DIRENT * k) DIRENT).length = DIRENT := by
    unfold bytesAt
    rw [List.length_map, List.length_range]
  have hentry : Dirent.ofBytes (fun j => (bytesAt st.fs dp (DIRENT * k) DIRENT).getD j 0) =
      direntAt (contents st.fs dp) k := by
    refine ofBytes_congr fun j hj => ?_
    unfold bytesAt
    rw [List.getD_eq_getElem?_getD, List.getElem?_map, List.getElem?_range hj]
    rfl
  rw [readDirent, bind_of_done hrun, if_neg (not_not.2 hlen), hentry]
  rfl

theorem dirlookupFrom_next (rounds : ℕ) (hk : DIRENT * k < (contents st.fs dp).size)
    (hno : ¬ Match (contents st.fs dp) (nameText name) k) :
    dirlookupFrom sb dp name (rounds + 1) (UInt32.ofNat (DIRENT * k)) st =
      dirlookupFrom sb dp name rounds (UInt32.ofNat (DIRENT * (k + 1))) st := by
  rw [dirlookupFrom, bind_of_done (inode_run st dp),
    if_pos ((lt_size (hk.le.trans hdir.size)).2 hk), bind_of_done (readDirent_run hdir hk _),
    offset_succ]
  by_cases hzero : (direntAt (contents st.fs dp) k).inum = 0
  · rw [if_pos hzero]
  · have hname : namecmp name (direntAt (contents st.fs dp) k).name ≠ 0 := by
      rw [Ne, namecmp_eq_zero]
      exact fun heq => hno ⟨hk, hzero, heq.symm⟩
    rw [if_neg hzero, if_neg hname]

theorem dirlookupFrom_found (rounds : ℕ) (hmatch : Match (contents st.fs dp) (nameText name) k) :
    dirlookupFrom sb dp name (rounds + 1) (UInt32.ofNat (DIRENT * k)) st =
      (do let ip ← iget (direntAt (contents st.fs dp) k).inum.toNat
          return some (ip, UInt32.ofNat (DIRENT * k)) : DirCode _) st := by
  obtain ⟨hk, hne, htext⟩ := hmatch
  rw [dirlookupFrom, bind_of_done (inode_run st dp),
    if_pos ((lt_size (hk.le.trans hdir.size)).2 hk), bind_of_done (readDirent_run hdir hk _),
    if_neg hne, if_pos ((namecmp_eq_zero _ _).2 htext.symm)]

def answer : Option (ℕ × ℕ) → DirCode (Option (Fin NINODE × UInt32))
  | none => return none
  | some (inum, off) => do
    let ip ← iget inum
    return some (ip, UInt32.ofNat off)

omit hdir in
/-- The outcome of `dirlookup` is that of `iget` on the number of the entry, if there is one. -/
def Gives (sb : Superblock) (st : Inodes) (dp : ℕ) (name : Name) (r : Option (ℕ × ℕ)) : Prop :=
  dirlookup sb dp name st = answer r st

theorem dirlookupFrom_match (hmatch : Match (contents st.fs dp) (nameText name) k) (d rounds : ℕ)
    (hd : d ≤ k) (hrounds : d < rounds) :
    dirlookupFrom sb dp name rounds (UInt32.ofNat (DIRENT * (k - d))) st =
      answer (some ((direntAt (contents st.fs dp) k).inum.toNat, DIRENT * k)) st := by
  induction d generalizing rounds with
  | zero =>
    obtain ⟨rounds, rfl⟩ : ∃ r, rounds = r + 1 := ⟨rounds - 1, by omega⟩
    exact dirlookupFrom_found hdir rounds hmatch
  | succ d ih =>
    obtain ⟨rounds, rfl⟩ : ∃ r, rounds = r + 1 := ⟨rounds - 1, by omega⟩
    have hearlier : DIRENT * (k - (d + 1)) < (contents st.fs dp).size :=
      (Nat.mul_le_mul_left _ (Nat.sub_le _ _)).trans_lt hmatch.1
    have hno : ¬ Match (contents st.fs dp) (nameText name) (k - (d + 1)) := by
      intro hother
      have := hdir.distinct _ _ _ hother hmatch
      omega
    have hnext : k - (d + 1) + 1 = k - d := by omega
    rw [dirlookupFrom_next hdir rounds hearlier hno, hnext]
    exact ih rounds (by omega) (by omega)

theorem dirlookupFrom_none (hno : ∀ k, ¬ Match (contents st.fs dp) (nameText name) k) (rounds k : ℕ)
    (hk : DIRENT * k ≤ (contents st.fs dp).size)
    (hrounds : (contents st.fs dp).size < DIRENT * (k + rounds)) :
    dirlookupFrom sb dp name rounds (UInt32.ofNat (DIRENT * k)) st = .done none st := by
  have hD : DIRENT = 16 := rfl
  induction rounds generalizing k with
  | zero => exact absurd hrounds (Nat.not_lt.2 hk)
  | succ rounds ih =>
    by_cases hin : DIRENT * k < (contents st.fs dp).size
    · have hend := hdir.entry_end hin
      rw [dirlookupFrom_next hdir rounds hin (hno k)]
      apply ih <;> rw [hD] at * <;> omega
    · rw [dirlookupFrom, bind_of_done (inode_run st dp),
        if_neg (fun h => hin ((lt_size (hk.trans hdir.size)).1 h))]
      rfl

theorem dirlookup_run (name : Name) :
    dirlookup sb dp name st =
      dirlookupFrom sb dp name ((contents st.fs dp).size / DIRENT + 1) 0 st := by
  rw [dirlookup, bind_of_done (inode_run st dp), if_neg (not_not.2 hdir.type)]
  rfl

theorem gives_of_match (hmatch : Match (contents st.fs dp) (nameText name) k) :
    Gives sb st dp name
      (some ((direntAt (contents st.fs dp) k).inum.toNat, DIRENT * k)) := by
  have hD : DIRENT = 16 := rfl
  have hk := hmatch.1
  have hfind := dirlookupFrom_match hdir hmatch k ((contents st.fs dp).size / DIRENT + 1) le_rfl
    (by rw [hD] at *; omega)
  rw [Nat.sub_self] at hfind
  rw [Gives, dirlookup_run hdir, ← hfind]
  rfl

theorem gives_none (hno : ∀ k, ¬ Match (contents st.fs dp) (nameText name) k) :
    Gives sb st dp name none := by
  have hD : DIRENT = 16 := rfl
  rw [Gives, dirlookup_run hdir]
  exact dirlookupFrom_none hdir hno _ 0 (Nat.zero_le _) (by rw [hD]; omega)

theorem emptyFrom_run (rounds k : ℕ) (de : Dirent) (hk : DIRENT * k ≤ (contents st.fs dp).size)
    (hrounds : (contents st.fs dp).size < DIRENT * (k + rounds)) :
    ∃ m de', emptyFrom sb dp rounds (UInt32.ofNat (DIRENT * k)) de st =
        .done (UInt32.ofNat (DIRENT * m), de') st ∧
      DIRENT * m ≤ (contents st.fs dp).size ∧
      (DIRENT * m < (contents st.fs dp).size → (direntAt (contents st.fs dp) m).inum = 0) ∧
      ∀ j, k ≤ j → j < m → (direntAt (contents st.fs dp) j).inum ≠ 0 := by
  have hD : DIRENT = 16 := rfl
  induction rounds generalizing k de with
  | zero => exact absurd hrounds (Nat.not_lt.2 hk)
  | succ rounds ih =>
    by_cases hin : DIRENT * k < (contents st.fs dp).size
    · have hstep : emptyFrom sb dp (rounds + 1) (UInt32.ofNat (DIRENT * k)) de st =
          (if (direntAt (contents st.fs dp) k).inum = 0 then
            (pure (UInt32.ofNat (DIRENT * k), direntAt (contents st.fs dp) k) : DirCode _)
          else emptyFrom sb dp rounds (UInt32.ofNat (DIRENT * (k + 1)))
            (direntAt (contents st.fs dp) k)) st := by
        rw [emptyFrom, bind_of_done (inode_run st dp),
          if_pos ((lt_size (hk.trans hdir.size)).2 hin), bind_of_done (readDirent_run hdir hin _),
          offset_succ]
      by_cases hzero : (direntAt (contents st.fs dp) k).inum = 0
      · refine ⟨k, direntAt (contents st.fs dp) k, ?_, hk, fun _ => hzero, fun j hlow hj => ?_⟩
        · rw [hstep, if_pos hzero]
          rfl
        · omega
      have hend := hdir.entry_end hin
      obtain ⟨m, de', hrun, hm, hfree, hused⟩ := ih (k + 1) (direntAt (contents st.fs dp) k)
        (by rw [hD] at *; omega) (by rw [hD] at *; omega)
      refine ⟨m, de', ?_, hm, hfree, fun j hlow hj => ?_⟩
      · rw [hstep, if_neg hzero, hrun]
      · rcases Nat.eq_or_lt_of_le hlow with rfl | hlt
        · exact hzero
        · exact hused j hlt hj
    · refine ⟨k, de, ?_, hk, fun h => absurd h hin, fun j hlow hj => ?_⟩
      · rw [emptyFrom, bind_of_done (inode_run st dp),
          if_neg (fun h => hin ((lt_size (hk.trans hdir.size)).1 h))]
        rfl
      · omega

end Reading

section Writing

variable {sb : Superblock} {first : ℕ} {st : Inodes} {dp : ℕ}

theorem touched_dirent (k : ℕ) : touched (DIRENT * k) DIRENT = placesOf (DIRENT * k / BSIZE) := by
  have hD : DIRENT = 16 := rfl
  apply touched_block (by decide)
  unfold BSIZE
  rw [hD]
  omega

theorem missing_dirent (s : Fs) (i k : ℕ) : missing s i (touched (DIRENT * k) DIRENT) ≤ 2 := by
  rw [touched_dirent]
  refine (Finset.card_filter_le _ _).trans ?_
  unfold placesOf
  split_ifs
  · exact Nat.le_succ 1
  · exact Finset.card_union_le _ _

structure Put (sb : Superblock) (first dp k : ℕ) (de : Dirent) (st st' : Inodes) : Prop where
  changed : ∃ P, Changed sb first dp P (putDirent (contents st.fs dp) k de) st.fs st'.fs
  noHoles : NoHoles st'.fs dp
  blocks : free sb st.fs ≤ free sb st'.fs + 2
  icache : st'.icache = st.icache

theorem Put.contents_eq (h : Put sb first dp k de st st') :
    contents st'.fs dp = putDirent (contents st.fs dp) k de := by
  obtain ⟨P, hc⟩ := h.changed
  exact hc.becomes

theorem ends_writeDirent (layout : Layout sb first) (h : Sound sb first st.fs)
    (hdir : Directory sb st.fs dp) (hk : DIRENT * k ≤ (contents st.fs dp).size)
    (hroom : DIRENT * k + DIRENT ≤ MAXFILE * BSIZE) (de : Dirent) (msg : String) :
    Ends (missing st.fs dp (touched (DIRENT * k) DIRENT) ≤ free sb st.fs)
      (writeDirent sb dp (UInt32.ofNat (DIRENT * k)) de msg)
      (fun _ st' => Put sb first dp k de st st') st := by
  have hoff := toNat_offset (hk.trans hdir.size)
  have hbytes : sizeofDe.toNat = DIRENT := rfl
  have hfine : ¬ Refused st.fs dp (UInt32.ofNat (DIRENT * k)) sizeofDe := by
    unfold Refused
    rw [hoff, hbytes, UInt32.lt_iff_toNat_lt, hoff]
    change ¬ ((contents st.fs dp).size < DIRENT * k ∨ _)
    have hmax : MAXFILE * BSIZE < 2 ^ 32 := by decide
    omega
  have hwrite := ends_writei (fun j => some (de.byteAt j)) layout hdir.num
    (UInt32.ofNat (DIRENT * k)) sizeofDe h
  rw [hoff, hbytes] at hwrite
  have hstep : Ends (missing st.fs dp (touched (DIRENT * k) DIRENT) ≤ free sb st.fs)
      (onFs (writei sb dp (fun j => some (de.byteAt j)) (UInt32.ofNat (DIRENT * k)) sizeofDe))
      (fun r st' => r = DIRENT ∧ Put sb first dp k de st st') st := by
    apply Ends.within
    refine hwrite.mono .inr ?_
    rintro r fs' (⟨hrefused, _⟩ | ⟨_, hr, off', P, m, hw⟩)
    · exact absurd hrefused hfine
    · obtain ⟨hcovers, hc⟩ := hw.complete fun _ _ => rfl
      have hsource : bytesFrom (fun j => some (de.byteAt j)) 0 = de.byteAt := by
        funext j
        unfold bytesFrom
        rw [Nat.zero_add]
        rfl
      rw [hsource] at hc
      have hcount := hc.count
      have hmissing := (missing_mono st.fs dp hw.within).trans (missing_dirent st.fs dp k)
      refine ⟨hr, ⟨P, hc⟩, fun x hx => ?_, by dsimp only; omega, rfl⟩
      dsimp only at hx ⊢
      rw [hc.becomes] at hx
      by_cases hold : x < (contents st.fs dp).size
      · rw [hc.slots (dp, .data (x / BSIZE)) hdir.num (.inl (hdir.noHoles x hold))]
        exact hdir.noHoles x hold
      · refine hc.filled _ (hcovers (data_mem_touched ?_ ?_)) <;> dsimp only at hx <;> omega
  refine hstep.bind ?_
  rintro r st' ⟨rfl, hput⟩
  exact ends_pure hput

theorem match_putDirent {c : Contents} (halign : c.size % DIRENT = 0) (hk : DIRENT * k ≤ c.size)
    (de : Dirent) (key : List UInt8) (j : ℕ) :
    Match (putDirent c k de) key j ↔
      if j = k then de.inum ≠ 0 ∧ nameText de.name = key else Match c key j := by
  have hD : DIRENT = 16 := rfl
  have hsize : (putDirent c k de).size = max c.size (DIRENT * k + DIRENT) := rfl
  unfold Match
  rw [direntAt_putDirent, hsize]
  rw [hD] at halign hk ⊢
  by_cases hjk : j = k
  · rw [if_pos hjk, if_pos hjk]
    exact ⟨fun h => h.2, fun h => ⟨by omega, h⟩⟩
  · rw [if_neg hjk, if_neg hjk]
    exact ⟨fun h => ⟨by omega, h.2⟩, fun h => ⟨by omega, h.2⟩⟩

theorem binds_putDirent {c : Contents} (halign : c.size % DIRENT = 0) (hk : DIRENT * k ≤ c.size)
    (de : Dirent) (key : List UInt8) (inum off : ℕ) :
    Binds (putDirent c k de) key inum off ↔
      if off = DIRENT * k then de.inum ≠ 0 ∧ nameText de.name = key ∧ de.inum.toNat = inum
      else Binds c key inum off := by
  have hD : DIRENT = 16 := rfl
  unfold Binds
  simp only [match_putDirent halign hk, direntAt_putDirent]
  by_cases hoff : off = DIRENT * k
  · rw [if_pos hoff]
    constructor
    · rintro ⟨j, hmatch, hinum, hj⟩
      have hjk : j = k := by
        rw [hD] at *
        omega
      rw [if_pos hjk] at hmatch hinum
      exact ⟨hmatch.1, hmatch.2, hinum⟩
    · rintro ⟨hne, htext, hinum⟩
      refine ⟨k, ?_, ?_, hoff.symm⟩
      · rw [if_pos rfl]
        exact ⟨hne, htext⟩
      · rw [if_pos rfl]
        exact hinum
  · rw [if_neg hoff]
    refine exists_congr fun j => ?_
    by_cases hjk : j = k
    · refine iff_of_false (fun h => hoff ?_) (fun h => hoff ?_)
      · rw [← h.2.2, hjk]
      · rw [← h.2.2, hjk]
    · rw [if_neg hjk, if_neg hjk]

theorem Put.directory (h : Put sb first dp k de st st') (hdir : Directory sb st.fs dp)
    (hk : DIRENT * k ≤ (contents st.fs dp).size) (hroom : DIRENT * k + DIRENT ≤ MAXFILE * BSIZE)
    (hnew : de.inum ≠ 0 → ∀ j, Match (contents st.fs dp) (nameText de.name) j → j = k) :
    Directory sb st'.fs dp := by
  have hD : DIRENT = 16 := rfl
  have hsize : (contents st'.fs dp).size =
      max (contents st.fs dp).size (DIRENT * k + DIRENT) := by
    rw [h.contents_eq]
    rfl
  have halign := hdir.aligned
  have hlimit := hdir.size
  refine ⟨hdir.num, ?_, ?_, ?_, h.noHoles, ?_⟩
  · obtain ⟨P, hc⟩ := h.changed
    exact (congrArg Prod.fst hc.kind).trans hdir.type
  · rw [hsize]
    rw [hD] at *
    omega
  · rw [hsize]
    omega
  · intro key j j' hj hj'
    rw [h.contents_eq, match_putDirent halign hk] at hj hj'
    by_cases hjk : j = k
    · by_cases hjk' : j' = k
      · rw [hjk, hjk']
      · rw [if_pos hjk] at hj
        rw [if_neg hjk'] at hj'
        rw [← hj.2] at hj'
        exact absurd (hnew hj.1 j' hj') hjk'
    rw [if_neg hjk] at hj
    by_cases hjk' : j' = k
    · rw [if_pos hjk'] at hj'
      rw [← hj'.2] at hj
      exact absurd (hnew hj'.1 j hj) hjk
    · rw [if_neg hjk'] at hj'
      exact hdir.distinct key j j' hj hj'

end Writing

section Cache

variable {sb : Superblock} {st : Inodes} {n : ℕ}

def Room (st : Inodes) (n : ℕ) : Prop :=
  ∃ ip, (st.icache ip).ref = 0 ∨ 0 < (st.icache ip).ref ∧ (st.icache ip).inum = n

structure Same (st st' : Inodes) : Prop where
  fs : st'.fs = st.fs
  ref : ∀ ip, (st'.icache ip).ref = (st.icache ip).ref
  kept : ∀ ip, (st.icache ip).ref ≠ 0 → st'.icache ip = st.icache ip

theorem ends_iget (st : Inodes) (n : ℕ) :
    Ends (Room st n) (iget n)
      (fun ip st' => ∃ e, st' = { st with icache := Function.update st.icache ip e } ∧
        e.inum = n ∧
        (0 < (st.icache ip).ref ∧ e = { st.icache ip with ref := (st.icache ip).ref + 1 } ∨
          (st.icache ip).ref = 0 ∧ e = ⟨n, 1, false⟩)) st := by
  have hget : (Code.get : DirCode Inodes) st = .done st st := rfl
  apply Ends.of_run (bind_of_done hget)
  cases hcached : cached st n with
  | some ip =>
    have hfound := List.find?_some hcached
    rw [decide_eq_true_eq] at hfound
    refine .inl ⟨ip, _, rfl, _, rfl, hfound.2, .inl ⟨hfound.1, rfl⟩⟩
  | none =>
    cases hempty : emptyEntry st with
    | some ip =>
      have hfound := List.find?_some hempty
      rw [decide_eq_true_eq] at hfound
      refine .inl ⟨ip, _, rfl, _, rfl, rfl, .inr ⟨hfound, rfl⟩⟩
    | none =>
      refine .inr ⟨?_, "iget: no inodes", rfl⟩
      rintro ⟨ip, hzero | hpos⟩
      · have := List.find?_eq_none.1 hempty ip (List.mem_finRange ip)
        exact this (decide_eq_true hzero)
      · have := List.find?_eq_none.1 hcached ip (List.mem_finRange ip)
        exact this (decide_eq_true hpos)

theorem iput_run {ip : Fin NINODE} (h : (st.icache ip).ref ≠ 1 ∨ (st.icache ip).valid = false) :
    iput sb ip st = .done () { st with
      icache := Function.update st.icache ip { st.icache ip with
        ref := (st.icache ip).ref - 1 } } := by
  have hget : (Code.get : DirCode Inodes) st = .done st st := rfl
  have hkeep : ¬ ((st.icache ip).ref = 1 ∧ (st.icache ip).valid = true ∧
      (st.fs.mem (st.icache ip).inum).nlink = 0) := by
    rintro ⟨href, hvalid, -⟩
    rcases h with h | h
    · exact h href
    · rw [h] at hvalid
      cases hvalid
  rw [iput, bind_of_done hget, if_neg hkeep]
  rfl

theorem same_update {ip : Fin NINODE} {e : Entry} (href : e.ref = (st.icache ip).ref)
    (hkept : (st.icache ip).ref ≠ 0 → e = st.icache ip) :
    Same st { st with icache := Function.update st.icache ip e } := by
  refine ⟨rfl, fun jp => ?_, fun jp hne => ?_⟩
  · dsimp only
    by_cases hjp : jp = ip
    · rw [hjp, Function.update_self, href]
    · rw [Function.update_of_ne hjp]
  · dsimp only
    by_cases hjp : jp = ip
    · rw [hjp] at hne ⊢
      rw [Function.update_self, hkept hne]
    · rw [Function.update_of_ne hjp]

theorem ends_iget_iput (st : Inodes) (n : ℕ) :
    Ends (Room st n) (do
      let ip ← iget n
      iput sb ip) (fun _ st' => Same st st') st := by
  refine (ends_iget st n).bind ?_
  rintro ip _ ⟨e, rfl, -, hcase⟩
  have hkeep : e.ref ≠ 1 ∨ e.valid = false := by
    rcases hcase with ⟨hpos, rfl⟩ | ⟨-, rfl⟩
    · left
      dsimp only
      omega
    · exact .inr rfl
  refine .inl ⟨(), _, iput_run ?_, ?_⟩
  · dsimp only
    rw [Function.update_self]
    exact hkeep
  · dsimp only
    rw [Function.update_self, Function.update_idem]
    apply same_update
    · rcases hcase with ⟨-, rfl⟩ | ⟨hzero, rfl⟩
      · exact add_sub_cancel_right _ _
      · exact hzero.symm
    · intro hne
      rcases hcase with ⟨-, rfl⟩ | ⟨hzero, rfl⟩
      · dsimp only
        rw [add_sub_cancel_right]
      · exact absurd hzero hne

end Cache

section Names

variable {sb : Superblock} {first : ℕ} {st : Inodes} {dp : ℕ} {name : Name}

theorem Gives.bind {α : Type} {r : Option (ℕ × ℕ)} (h : Gives sb st dp name r)
    (f : Option (Fin NINODE × UInt32) → DirCode α) :
    (dirlookup sb dp name >>= f) st = (answer r >>= f) st := by
  change Code.bind _ _ _ = Code.bind _ _ _
  unfold Code.bind
  rw [h]

theorem ends_dirlookup (hdir : Directory sb st.fs dp) {inum : ℕ}
    (h : Binds (contents st.fs dp) (nameText name) inum off) :
    Ends (Room st inum) (dirlookup sb dp name)
      (fun r st' => ∃ ip, r = some (ip, UInt32.ofNat off) ∧ (st'.icache ip).inum = inum ∧
        st'.fs = st.fs) st := by
  obtain ⟨k, hmatch, rfl, rfl⟩ := h
  refine Ends.of_run (gives_of_match hdir hmatch) ((ends_iget st _).bind ?_)
  rintro ip _ ⟨e, rfl, hinum, -⟩
  refine ends_pure ⟨ip, rfl, ?_, rfl⟩
  dsimp only
  rw [Function.update_self, hinum]

theorem ends_dirlink_bound (hdir : Directory sb st.fs dp) {n : ℕ}
    (h : Binds (contents st.fs dp) (nameText name) n off) (de : Dirent) (inum : UInt32) :
    Ends (Room st n) (dirlink sb de dp name inum) (fun r st' => r = -1 ∧ Same st st') st := by
  obtain ⟨k, hmatch, rfl, rfl⟩ := h
  refine Ends.of_run ((gives_of_match hdir hmatch).bind _) ?_
  rw [answer, bind_assoc]
  simp only [pure_bind]
  rw [← bind_assoc]
  refine (ends_iget_iput st _).bind ?_
  intro _ st' hsame
  exact ends_pure ⟨rfl, hsame⟩

theorem ends_dirlink_put (layout : Layout sb first) (h : Sound sb first st.fs)
    (hdir : Directory sb st.fs dp)
    (hno : ∀ k, ¬ Match (contents st.fs dp) (nameText name) k)
    (hroom : HasFree (contents st.fs dp) ∨ (contents st.fs dp).size + DIRENT ≤ MAXFILE * BSIZE)
    (de : Dirent) (inum : UInt32) :
    Ends (2 ≤ free sb st.fs) (dirlink sb de dp name inum)
      (fun r st' => r = 0 ∧ ∃ k de', Put sb first dp k de' st st' ∧ de'.inum = inum.toUInt16 ∧
        nameText de'.name = nameText name ∧ DIRENT * k ≤ (contents st.fs dp).size ∧
        DIRENT * k + DIRENT ≤ MAXFILE * BSIZE ∧
        (DIRENT * k < (contents st.fs dp).size → (direntAt (contents st.fs dp) k).inum = 0) ∧
        (DIRENT * k < (contents st.fs dp).size ↔ HasFree (contents st.fs dp))) st := by
  have hD : DIRENT = 16 := rfl
  obtain ⟨k, de', hrun, hk, hfree, hused⟩ := emptyFrom_run hdir
    ((contents st.fs dp).size / DIRENT + 1) 0 de (Nat.zero_le _) (by rw [hD]; omega)
  have hfirst : DIRENT * k < (contents st.fs dp).size ↔ HasFree (contents st.fs dp) := by
    refine ⟨fun hlt => ⟨k, hlt, hfree hlt⟩, fun ⟨j, hj, hzero⟩ => ?_⟩
    by_contra hend
    exact hused j (Nat.zero_le j) (by rw [hD] at *; omega) hzero
  have hin : DIRENT * k + DIRENT ≤ MAXFILE * BSIZE := by
    by_cases hlt : DIRENT * k < (contents st.fs dp).size
    · exact (hdir.entry_end hlt).trans hdir.size
    · rcases hroom with hfree | hspace
      · exact absurd (hfirst.2 hfree) hlt
      · omega
  have hnone : dirlookup sb dp name st = .done none st := gives_none hdir hno
  apply Ends.of_run (bind_of_done hnone)
  apply Ends.of_run (bind_of_done (inode_run st dp))
  apply Ends.of_run (bind_of_done (by exact hrun))
  refine ((ends_writeDirent layout h hdir hk hin _ "dirlink").mono (fun hblocks => ?_)
    fun _ _ hput => hput).bind ?_
  · exact (missing_dirent _ _ _).trans hblocks
  rintro _ st' hput
  refine ends_pure ⟨rfl, k, _, hput, rfl, ?_, hk, hin, hfree, hfirst⟩
  exact nameText_strncpy _ _

def Unmoved (sb : Superblock) (dp : ℕ) (name : Name) (st st' : Inodes) : Prop :=
  ∃ r, Gives sb st dp name r ∧ Gives sb st' dp name r

theorem Put.unmoved (h : Put sb first dp k de st st') (hdir : Directory sb st.fs dp)
    (hdir' : Directory sb st'.fs dp) (hk : DIRENT * k ≤ (contents st.fs dp).size)
    (hold : ¬ Match (contents st.fs dp) (nameText name) k)
    (hnew : ¬ (de.inum ≠ 0 ∧ nameText de.name = nameText name)) : Unmoved sb dp name st st' := by
  have hiff : ∀ j, Match (contents st'.fs dp) (nameText name) j ↔
      Match (contents st.fs dp) (nameText name) j := by
    intro j
    rw [h.contents_eq, match_putDirent hdir.aligned hk]
    by_cases hjk : j = k
    · rw [if_pos hjk, hjk]
      exact iff_of_false hnew hold
    · rw [if_neg hjk]
  by_cases hfound : ∃ j, Match (contents st.fs dp) (nameText name) j
  · obtain ⟨j, hj⟩ := hfound
    refine ⟨_, gives_of_match hdir hj, ?_⟩
    have hjk : j ≠ k := by
      rintro rfl
      exact hold hj
    have hentry : direntAt (contents st'.fs dp) j = direntAt (contents st.fs dp) j := by
      rw [h.contents_eq, direntAt_putDirent, if_neg hjk]
    rw [← hentry]
    exact gives_of_match hdir' ((hiff j).2 hj)
  · exact ⟨none, gives_none hdir fun j hj => hfound ⟨j, hj⟩,
      gives_none hdir' fun j hj => hfound ⟨j, (hiff j).1 hj⟩⟩

structure Kept (sb : Superblock) (first dp : ℕ) (name : Name) (st st' : Inodes) : Prop where
  sound : Sound sb first st'.fs
  directory : Directory sb st'.fs dp
  files : ∀ j < sb.ninodes, j ≠ dp → contents st'.fs j = contents st.fs j
  icache : st'.icache = st.icache
  lookups : ∀ name', nameText name' ≠ nameText name → Unmoved sb dp name' st st'

structure Linked (sb : Superblock) (first dp : ℕ) (name : Name) (inum : ℕ) (st st' : Inodes) :
    Prop extends Kept sb first dp name st st' where
  added : ∃ off, Gives sb st' dp name (some (inum, off)) ∧
    ∀ key n o, Binds (contents st'.fs dp) key n o ↔
      key = nameText name ∧ n = inum ∧ o = off ∨ Binds (contents st.fs dp) key n o
  reused : HasFree (contents st.fs dp) → (contents st'.fs dp).size = (contents st.fs dp).size
  grown : ¬ HasFree (contents st.fs dp) →
    (contents st'.fs dp).size = (contents st.fs dp).size + DIRENT

structure Unlinked (sb : Superblock) (first dp : ℕ) (name : Name) (st st' : Inodes) :
    Prop extends Kept sb first dp name st st' where
  absent : Gives sb st' dp name none
  removed : ∀ key n o, Binds (contents st'.fs dp) key n o ↔
    key ≠ nameText name ∧ Binds (contents st.fs dp) key n o
  size : (contents st'.fs dp).size = (contents st.fs dp).size

theorem Put.linked (h : Put sb first dp k de st st') (hdir : Directory sb st.fs dp)
    (hno : ∀ j, ¬ Match (contents st.fs dp) (nameText name) j)
    (hname : nameText de.name = nameText name) (hinum : de.inum ≠ 0)
    (hk : DIRENT * k ≤ (contents st.fs dp).size) (hroom : DIRENT * k + DIRENT ≤ MAXFILE * BSIZE)
    (hfree : DIRENT * k < (contents st.fs dp).size → (direntAt (contents st.fs dp) k).inum = 0)
    (hfirst : DIRENT * k < (contents st.fs dp).size ↔ HasFree (contents st.fs dp)) :
    Linked sb first dp name de.inum.toNat st st' := by
  have hD : DIRENT = 16 := rfl
  have hold : ∀ key, ¬ Match (contents st.fs dp) key k := fun key hm => hm.2.1 (hfree hm.1)
  have hdir' : Directory sb st'.fs dp := h.directory hdir hk hroom fun _ j hj => by
    rw [hname] at hj
    exact absurd hj (hno j)
  have hsize : (contents st'.fs dp).size =
      max (contents st.fs dp).size (DIRENT * k + DIRENT) := by
    rw [h.contents_eq]
    rfl
  have halign := hdir.aligned
  obtain ⟨P, hc⟩ := h.changed
  refine ⟨⟨hc.sound, hdir', hc.others, h.icache, fun name' hne => ?_⟩, ⟨DIRENT * k, ?_, ?_⟩, ?_, ?_⟩
  · exact h.unmoved hdir hdir' hk (hold _) fun hnew => hne (hnew.2.symm.trans hname)
  · have hmatch : Match (contents st'.fs dp) (nameText name) k := by
      rw [h.contents_eq, match_putDirent halign hk, if_pos rfl]
      exact ⟨hinum, hname⟩
    have hentry : direntAt (contents st'.fs dp) k = de := by
      rw [h.contents_eq, direntAt_putDirent, if_pos rfl]
    have hgives := gives_of_match hdir' hmatch
    rw [hentry] at hgives
    exact hgives
  · intro key n o
    rw [h.contents_eq, binds_putDirent halign hk, hname]
    by_cases ho : o = DIRENT * k
    · rw [if_pos ho]
      constructor
      · rintro ⟨-, rfl, rfl⟩
        exact .inl ⟨rfl, rfl, ho⟩
      · rintro (⟨rfl, rfl, -⟩ | ⟨j, hj, -, hjo⟩)
        · exact ⟨hinum, rfl, rfl⟩
        · have hjk : j = k := by
            rw [hD] at *
            omega
          rw [hjk] at hj
          exact absurd hj (hold key)
    · rw [if_neg ho]
      exact ⟨.inr, fun hcase => hcase.resolve_left fun hnew => ho hnew.2.2⟩
  · intro hhas
    have hlt := hfirst.2 hhas
    have hend := hdir.entry_end hlt
    omega
  · intro hhas
    have hge : ¬ DIRENT * k < (contents st.fs dp).size := fun hlt => hhas (hfirst.1 hlt)
    omega

theorem ends_dirlink (layout : Layout sb first) (h : Sound sb first st.fs)
    (hdir : Directory sb st.fs dp) (hno : ∀ k, ¬ Match (contents st.fs dp) (nameText name) k)
    (hroom : HasFree (contents st.fs dp) ∨ (contents st.fs dp).size + DIRENT ≤ MAXFILE * BSIZE)
    (de : Dirent) {inum : UInt32} (hpos : 1 ≤ inum.toNat) (hshort : inum.toNat ≤ 65535) :
    Ends (2 ≤ free sb st.fs) (dirlink sb de dp name inum)
      (fun r st' => r = 0 ∧ Linked sb first dp name inum.toNat st st') st := by
  have hinum : inum.toUInt16.toNat = inum.toNat := by
    rw [UInt32.toNat_toUInt16]
    exact Nat.mod_eq_of_lt (Nat.lt_succ_of_le hshort)
  refine (ends_dirlink_put layout h hdir hno hroom de inum).mono id ?_
  rintro r st' ⟨hr, k, de', hput, hde, htext, hk, hin, hfree, hfirst⟩
  have hne : de'.inum ≠ 0 := by
    intro hzero
    rw [hde] at hzero
    rw [hzero] at hinum
    have hnat : (0 : UInt16).toNat = 0 := rfl
    omega
  have hlinked := hput.linked hdir hno htext hne hk hin hfree hfirst
  rw [hde, hinum] at hlinked
  exact ⟨hr, hlinked⟩

theorem ends_clearDirent (layout : Layout sb first) (h : Sound sb first st.fs)
    (hdir : Directory sb st.fs dp) {n : ℕ}
    (hbound : Binds (contents st.fs dp) (nameText name) n off) :
    Returns (clearDirent sb dp (UInt32.ofNat off))
      (fun _ st' => Unlinked sb first dp name st st') st := by
  obtain ⟨k, hmatch, rfl, rfl⟩ := hbound
  have hk := hmatch.1.le
  have hend := hdir.entry_end hmatch.1
  have hroom := hend.trans hdir.size
  have halign := hdir.aligned
  have hD : DIRENT = 16 := rfl
  have hfits : missing st.fs dp (touched (DIRENT * k) DIRENT) ≤ free sb st.fs := by
    rw [touched_dirent]
    rw [missing_filled (placesOf_filled (hdir.noHoles _ hmatch.1))]
    exact Nat.zero_le _
  refine ((ends_writeDirent layout h hdir hk hroom Dirent.zero _).sure hfits).mono ?_
  intro _ st' hput
  have hdir' : Directory sb st'.fs dp := hput.directory hdir hk hroom fun hne => absurd rfl hne
  obtain ⟨P, hc⟩ := hput.changed
  refine ⟨⟨hc.sound, hdir', hc.others, hput.icache, fun name' hne => ?_⟩, ?_, ?_, ?_⟩
  · exact hput.unmoved hdir hdir' hk (fun hm => hne (hm.2.2.symm.trans hmatch.2.2))
      fun hnew => hnew.1 rfl
  · refine gives_none hdir' fun j hj => ?_
    rw [hput.contents_eq, match_putDirent halign hk] at hj
    by_cases hjk : j = k
    · rw [if_pos hjk] at hj
      exact hj.1 rfl
    · rw [if_neg hjk] at hj
      exact hjk (hdir.distinct _ _ _ hj hmatch)
  · intro key n o
    rw [hput.contents_eq, binds_putDirent halign hk]
    by_cases ho : o = DIRENT * k
    · rw [if_pos ho]
      refine iff_of_false (fun hnew => hnew.1 rfl) ?_
      rintro ⟨hne, j, hj, -, hjo⟩
      have hjk : j = k := by
        rw [hD] at *
        omega
      rw [hjk] at hj
      exact hne (hj.2.2.symm.trans hmatch.2.2)
    · rw [if_neg ho]
      refine ⟨fun hb => ⟨?_, hb⟩, fun hb => hb.2⟩
      rintro rfl
      obtain ⟨j, hj, -, hjo⟩ := hb
      rw [hdir.distinct _ _ _ hj hmatch] at hjo
      exact ho hjo.symm
  · rw [hput.contents_eq]
    exact Nat.max_eq_left hend

/-- A directory is a finite map: the names are the elements of paths, cut to `DIRSIZ` bytes. -/
theorem directory_finite_map (layout : Layout sb first) (hsound : Sound sb first st.fs)
    (hdir : Directory sb st.fs dp) {path rest : List UInt8} {buffer : Name} (hpath : 0 ∉ path)
    (hskip : skipelem path buffer = some (rest, name)) :
    (∀ n off n' off', Binds (contents st.fs dp) (keyOf path) n off →
      Binds (contents st.fs dp) (keyOf path) n' off' → n = n' ∧ off = off') ∧
    (∀ n off, Binds (contents st.fs dp) (keyOf path) n off →
      Gives sb st dp name (some (n, off)) ∧
      Ends (Room st n) (dirlookup sb dp name)
        (fun r st' => ∃ ip, r = some (ip, UInt32.ofNat off) ∧ (st'.icache ip).inum = n ∧
          st'.fs = st.fs) st ∧
      Returns (clearDirent sb dp (UInt32.ofNat off))
        (fun _ st' => Unlinked sb first dp name st st') st) ∧
    ((∀ n off, ¬ Binds (contents st.fs dp) (keyOf path) n off) →
      dirlookup sb dp name st = .done none st) ∧
    ∀ (de : Dirent) (inum : UInt32), 1 ≤ inum.toNat → inum.toNat ≤ 65535 →
      (∀ n off, Binds (contents st.fs dp) (keyOf path) n off →
        Ends (Room st n) (dirlink sb de dp name inum)
          (fun r st' => r = -1 ∧ Same st st') st) ∧
      ((∀ n off, ¬ Binds (contents st.fs dp) (keyOf path) n off) →
        HasFree (contents st.fs dp) ∨ (contents st.fs dp).size + DIRENT ≤ MAXFILE * BSIZE →
        Ends (2 ≤ free sb st.fs) (dirlink sb de dp name inum)
          (fun r st' => r = 0 ∧ Linked sb first dp name inum.toNat st st') st) := by
  rw [← nameText_skipelem hpath hskip]
  have hnone : (∀ n off, ¬ Binds (contents st.fs dp) (nameText name) n off) →
      ∀ k, ¬ Match (contents st.fs dp) (nameText name) k :=
    fun hno k hk => hno _ _ ⟨k, hk, rfl, rfl⟩
  refine ⟨?_, fun n off hbound => ⟨?_, ends_dirlookup hdir hbound,
    ends_clearDirent layout hsound hdir hbound⟩, fun hno => gives_none hdir (hnone hno), ?_⟩
  · rintro n off n' off' ⟨k, hk, rfl, rfl⟩ ⟨k', hk', rfl, rfl⟩
    rw [hdir.distinct _ _ _ hk hk']
    exact ⟨rfl, rfl⟩
  · obtain ⟨k, hk, rfl, rfl⟩ := hbound
    exact gives_of_match hdir hk
  · intro de inum hpos hshort
    exact ⟨fun n off hbound => ends_dirlink_bound hdir hbound de inum, fun hno hroom =>
      ends_dirlink layout hsound hdir (hnone hno) hroom de hpos hshort⟩

end Names

def emptyDir : Inodes where
  fs := { emptyFs with mem := fun _ => { DiskInode.zero with type := T_DIR, nlink := 1 } }
  icache := fun _ => ⟨0, 0, false⟩

theorem slot_emptyDir (x : Slot) : slot emptyDir.fs x = 0 := place_zero emptyFs.disk x.2

theorem sound_emptyDir : Sound smallSb 46 emptyDir.fs :=
  Sound.congr sound_emptyFs (fun x _ => (slot_emptyDir x).trans (slot_emptyFs x).symm)
    fun _ _ => rfl

theorem not_match_emptyDir (key : List UInt8) (k : ℕ) :
    ¬ Match (contents emptyDir.fs 2) key k := fun h => absurd h.1 (Nat.not_lt_zero _)

theorem directory_emptyDir : Directory smallSb emptyDir.fs 2 where
  num := by decide
  type := rfl
  aligned := rfl
  size := by decide
  noHoles := fun _ hk => absurd hk (Nat.not_lt_zero _)
  distinct := fun _ _ _ hk => absurd hk (not_match_emptyDir _ _)

def nameA : Name := setByte (setBytes (fun _ => 0) 0 1 fun j => [97].getD j 0) 1 0

theorem directory_finite_map_link :
    ∃ st1 st2 off, dirlink smallSb Dirent.zero 2 nameA 7 emptyDir = .done 0 st1 ∧
      Linked smallSb 46 2 nameA 7 emptyDir st1 ∧ Gives smallSb st1 2 nameA (some (7, off)) ∧
      clearDirent smallSb 2 (UInt32.ofNat off) st1 = .done () st2 ∧
      Unlinked smallSb 46 2 nameA st1 st2 := by
  have hpath : (0 : UInt8) ∉ [97] := by decide
  have hskip : skipelem [97] (fun _ => 0) = some ([], nameA) := rfl
  have hnone : ∀ n off, ¬ Binds (contents emptyDir.fs 2) (keyOf [97]) n off :=
    fun n off ⟨k, hk, _⟩ => not_match_emptyDir _ k hk
  obtain ⟨-, -, -, hlink⟩ :=
    directory_finite_map layout_smallSb sound_emptyDir directory_emptyDir hpath hskip
  obtain ⟨r, st1, hrun, rfl, hlinked⟩ :=
    ((hlink Dirent.zero 7 (by decide) (by decide)).2 hnone (.inr (by decide))).sure
      (by decide +kernel)
  obtain ⟨off, hgives, hbinds⟩ := hlinked.added
  obtain ⟨-, hbound, -⟩ :=
    directory_finite_map layout_smallSb hlinked.sound hlinked.directory hpath hskip
  obtain ⟨-, -, u, st2, hclear, hunlinked⟩ := hbound 7 off <| by
    rw [hbinds, nameText_skipelem hpath hskip]
    exact .inl ⟨rfl, rfl, rfl⟩
  exact ⟨st1, st2, off, hrun, hlinked, hgives, hclear, hunlinked⟩

end Xv6.DirectoryMap
