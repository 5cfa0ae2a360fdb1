import Xv6.Dirents
import Xv6.MkfsRuns

set_option autoImplicit false

namespace Xv6.MkfsImage
open Function (update update_eq_self update_of_ne update_self)

open Resumption Xv6.Sequential DiskFormat MkfsCode
open LogCode (BSIZE)
open KernelTables (ROOTINO)
open Dirents (encode_length)
open InodeCode (MAXFILE DIRENT slash dot dotdot Dirent encode)

variable {tab : ℕ → Entry} {s : Mkfs} {fs : List Input} {f : Input}

def fileBytes (f : Input) : List UInt8 := contents (f.chunks.getD [])

/-- The entries of the root directory, for files that got the inodes from `k` on. -/
def entriesFrom : ℕ → List Input → List UInt8
  | _, [] => []
  | k, f :: fs => encode ⟨k, shortname f.arg.1⟩ ++ entriesFrom (k + 1) fs

def rootData (fs : List Input) : List UInt8 :=
  encode ⟨ROOTINO, dot⟩ ++ encode ⟨ROOTINO, dotdot⟩ ++ entriesFrom 2 fs

def needed (fs : List Input) : ℕ :=
  cost (nblocks (DIRENT * (fs.length + 2))) + (fs.map fun f => cost
  (nblocks (fileBytes f).length)).sum

structure Fits (fs : List Input) : Prop where
  names : ∀ f ∈ fs, slash ∉ stripped f.arg.1
  opened : ∀ f ∈ fs, f.chunks ≠ none
  sizes : ∀ f ∈ fs, (fileBytes f).length ≤ MAXFILE * BSIZE
  blocks : nmeta + needed fs ≤ FSSIZE

theorem entriesFrom_cons (k : ℕ) (f : Input) (fs : List Input) :
    entriesFrom k (f :: fs) = encode ⟨k, shortname f.arg.1⟩ ++ entriesFrom (k + 1) fs := rfl

theorem entriesFrom_append (k : ℕ) (fs gs : List Input) :
    entriesFrom k (fs ++ gs) = entriesFrom k fs ++ entriesFrom (k + fs.length) gs := by
  induction fs generalizing k with
  | nil => rfl
  | cons f fs ih =>
    have htail := ih (k + 1)
    rw [Nat.add_right_comm, Nat.add_assoc] at htail
    rw [List.cons_append, entriesFrom_cons, entriesFrom_cons, htail, List.append_assoc,
      List.length_cons]

theorem entriesFrom_length (k : ℕ) (fs : List Input) :
    (entriesFrom k fs).length = DIRENT * fs.length := by
  induction fs generalizing k with
  | nil => rfl
  | cons f fs ih =>
    unfold entriesFrom
    rw [List.length_append, ih, encode_length, List.length_cons, Nat.mul_succ, Nat.add_comm]

theorem rootData_length (fs : List Input) : (rootData fs).length = DIRENT * (fs.length + 2) := by
  unfold rootData
  rw [List.length_append, List.length_append, encode_length, encode_length, entriesFrom_length]
  ring

theorem rootData_snoc (fs : List Input) (f : Input) :
    rootData (fs ++ [f]) = rootData fs ++ encode ⟨fs.length + 2, shortname f.arg.1⟩ := by
  unfold rootData
  rw [entriesFrom_append, List.append_assoc, List.append_assoc, Nat.add_comm 2]
  unfold entriesFrom entriesFrom
  rw [List.append_nil, List.append_assoc]

theorem needed_mono (fs gs : List Input) : needed fs ≤ needed (fs ++ gs) := by
  have hle : nblocks (DIRENT * (fs.length + 2)) ≤ nblocks (DIRENT * ((fs ++ gs).length + 2)) := by
    rw [List.length_append]
    unfold nblocks DIRENT
    exact Nat.div_le_div_right (by omega)
  have hcost := cost_mono hle
  unfold needed
  rw [List.map_append, List.sum_append]
  omega

structure Filled (fs : List Input) (tab : ℕ → Entry) (s : Mkfs) : Prop where
  ready : Ready tab s
  freeinode : s.freeinode = fs.length + 2
  root : (tab ROOTINO).data = rootData fs
  rootType : (tab ROOTINO).inode.type = T_DIR
  file : ∀ k f, fs[k]? = some f →
    (tab (k + 2)).data = fileBytes f ∧ (tab (k + 2)).inode.type = T_FILE
  spent : s.freeblock = nmeta + needed fs

theorem needed_snoc (fs : List Input) (f : Input) :
    needed (fs ++ [f]) + cost (nblocks (DIRENT * (fs.length + 2))) =
      needed fs + cost (nblocks (DIRENT * (fs.length + 2 + 1))) +
        cost (nblocks (fileBytes f).length) := by
  unfold needed
  rw [List.length_append, List.map_append, List.sum_append, List.map_singleton, List.sum_singleton,
    List.length_singleton, Nat.add_right_comm fs.length 1 2]
  omega

structure FitsNext (fs : List Input) (f : Input) : Prop where
  name : slash ∉ stripped f.arg.1
  opened : f.chunks ≠ none
  size : (fileBytes f).length ≤ MAXFILE * BSIZE
  blocks : nmeta + needed (fs ++ [f]) ≤ FSSIZE

theorem Fits.next {gs : List Input} (h : Fits (fs ++ f :: gs)) : FitsNext fs f := by
  have hmem : f ∈ fs ++ f :: gs := by simp
  have hmono := needed_mono (fs ++ [f]) gs
  rw [List.append_assoc, List.singleton_append] at hmono
  exact ⟨h.names f hmem, h.opened f hmem, h.sizes f hmem, Nat.le_trans (by omega) h.blocks⟩

theorem Filled.ino_lt (h : Filled fs tab s) : ROOTINO < s.freeinode := by
  have hfree := h.freeinode
  unfold ROOTINO
  omega

theorem ok_dirent {n : ℕ} {e : Dirent} (h : Ready tab s) (hi : ROOTINO < s.freeinode)
    (hlen : (tab ROOTINO).data.length = DIRENT * n) (hn : n < ninodeblocks * IPB) :
    Ends (s.freeblock + cost (nblocks (DIRENT * (n + 1))) ≤ FSSIZE + cost (nblocks (DIRENT * n)))
      (iappend ROOTINO (encode e)) (fun _ s' => ∃ tab', Longer tab s ROOTINO (encode e) tab' s' ∧
        s'.freeblock + cost (nblocks (DIRENT * n)) =
          s.freeblock + cost (nblocks (DIRENT * (n + 1)))) s := by
  have htight := (h.tight ROOTINO).n
  have hlong : DIRENT * (n + 1) ≤ MAXFILE * BSIZE := by
    have hmax : MAXFILE * BSIZE = 274432 := rfl
    have hmul : DIRENT * (n + 1) = 16 * (n + 1) := rfl
    have hlim : ninodeblocks * IPB = 208 := rfl
    omega
  have hroot : 1 ≤ ROOTINO := le_rfl
  apply (ok_iappend h hroot hi).mono
  · intro hroom
    unfold Room
    rw [hlen, encode_length, ← Nat.mul_succ, htight, hlen]
    exact ⟨hlong, hroom⟩
  · rintro _ s' ⟨tab', hL⟩
    refine ⟨tab', hL, ?_⟩
    have hspent := hL.spent
    rw [(hL.ready.tight ROOTINO).n, hL.data, List.length_append, encode_length, htight,
      hlen] at hspent
    exact hspent

theorem ok_addFile (h : Filled fs tab s) (hroom : fs.length + 2 < ninodeblocks * IPB) :
    Ends (FitsNext fs f) (addFile ROOTINO f) (fun _ s' => ∃ tab', Filled
    (fs ++ [f]) tab' s') s := by
  unfold addFile
  by_cases hslash : slash ∈ stripped f.arg.1
  · rw [if_pos hslash]
    exact .inr ⟨fun hfits => hfits.name hslash, "assert", rfl⟩
  rw [if_neg hslash]
  cases hchunks : f.chunks with
  | none => exact .inr ⟨fun hfits => hfits.opened hchunks, "exit", rfl⟩
  | some chunks =>
    have hbytes : fileBytes f = contents chunks := by
      unfold fileBytes
      rw [hchunks, Option.getD_some]
    have hfree := h.freeinode
    obtain ⟨s1, halloc, hready1, hfree1, hspent1⟩ :=
      ok_ialloc h.ready T_FILE (by rw [hfree]; exact hroom)
    refine Ends.of_run (bind_of_done halloc) ?_
    have hne : ROOTINO ≠ s.freeinode := Nat.ne_of_lt h.ino_lt
    have hroot1 := update_of_ne hne (Entry.new T_FILE) tab
    have hsnoc := needed_snoc fs f
    have hspent := h.spent
    -- the entry in the root directory
    have hlt1 : ROOTINO < s1.freeinode := by
      rw [hfree1]
      exact Nat.lt_succ_of_lt h.ino_lt
    have hentry := ok_dirent (e := ⟨s.freeinode, shortname f.arg.1⟩) hready1 hlt1
      (by rw [hroot1, h.root, rootData_length]) hroom
    rw [hspent1] at hentry
    have hfits1 : FitsNext fs f → s.freeblock + cost (nblocks (DIRENT * (fs.length + 2 + 1))) ≤
        FSSIZE + cost (nblocks (DIRENT * (fs.length + 2))) := by
      intro hfits
      have hblocks := hfits.blocks
      omega
    apply (hentry.mono hfits1 fun _ _ hq => hq).bind
    rintro _ s2 ⟨tab2, hroot, hspent2⟩
    have hnew : tab2 s.freeinode = Entry.new T_FILE := by
      rw [hroot.other _ hne.symm, update_self]
    have hdata2 : (tab2 ROOTINO).data = rootData (fs ++ [f]) := by
      rw [hroot.data, hroot1, h.root, rootData_snoc, hfree]
    have hfree2 : s2.freeinode = s.freeinode + 1 := hroot.freeinode.trans hfree1
    -- the contents
    have hroom2 : FitsNext fs f → Room (tab2 s.freeinode) s2 (contents chunks).length := by
      intro hfits
      have hblocks := hfits.blocks
      have hsize := hfits.size
      rw [hbytes] at hsize hsnoc
      unfold Room
      rw [hnew]
      change 0 + _ ≤ _ ∧ _ + cost (nblocks (0 + _)) ≤ _ + 0
      rw [Nat.zero_add]
      exact ⟨hsize, by omega⟩
    apply (ok_appendChunks hroot.ready (by omega) (by omega)).mono hroom2
    rintro _ s3 ⟨tab3, hfile⟩
    have hdata3 : (tab3 s.freeinode).data = fileBytes f := by
      rw [hfile.data, hnew, hbytes]
      rfl
    have hold : ∀ j, j ≠ ROOTINO → j ≠ s.freeinode → tab3 j = tab j := by
      intro j hj hj'
      rw [hfile.other j hj', hroot.other j hj, update_of_ne hj']
    refine ⟨tab3, hfile.ready, ?_, ?_, ?_, ?_, ?_⟩
    · rw [hfile.freeinode, hfree2, hfree, List.length_append, List.length_singleton]
    · rw [hfile.other _ hne, hdata2]
    · rw [hfile.other _ hne, hroot.type, hroot1, h.rootType]
    · intro k g hk
      rw [List.getElem?_append] at hk
      split_ifs at hk with hlt
      · rw [hold (k + 2) (by unfold ROOTINO; omega) (by omega)]
        exact h.file k g hk
      · rw [List.getElem?_singleton] at hk
        split_ifs at hk with hk0
        have hk2 : k + 2 = s.freeinode := by omega
        rw [← Option.some.inj hk, hk2]
        exact ⟨hdata3, by rw [hfile.type, hnew]; rfl⟩
    · have hspent3 := hfile.spent
      rw [hnew, (hfile.ready.tight s.freeinode).n, hdata3] at hspent3
      change _ + 0 = _ at hspent3
      omega

theorem ok_addFiles (fs gs : List Input) (h : Filled fs tab s)
    (hroom : (fs ++ gs).length + 2 ≤ ninodeblocks * IPB) :
    Ends (Fits (fs ++ gs)) (addFiles ROOTINO gs)
      (fun _ s' => ∃ tab', Filled (fs ++ gs) tab' s') s := by
  induction gs generalizing fs tab s with
  | nil =>
    rw [List.append_nil]
    exact ends_pure ⟨tab, h⟩
  | cons f gs ih =>
    have hsplit : fs ++ f :: gs = fs ++ [f] ++ gs := by
      rw [List.append_assoc, List.singleton_append]
    have hlen : fs.length + 2 < ninodeblocks * IPB := by
      rw [List.length_append, List.length_cons] at hroom
      omega
    unfold addFiles
    apply ((ok_addFile h hlen).mono Fits.next fun _ _ hq => hq).bind
    rintro _ s1 ⟨tab1, h1⟩
    rw [hsplit] at hroom ⊢
    exact ih _ h1 hroom

theorem wzeroes_start (n : ℕ) : wzeroes n start = .done () { start with len := n } := by
  induction n with
  | zero => rfl
  | succ n ih =>
    unfold wzeroes
    rw [bind_of_done ih]
    change Outcome.done () { start with
      disk := update (fun _ => zeroes) n zeroes, len := max n (n + 1) } = _
    rw [update_eq_self, max_eq_right (Nat.le_succ n)]
    rfl

def blankImage : Mkfs :=
  { start with disk := update (fun _ => zeroes) 1 sbBlock, len := FSSIZE }

theorem ready_blank : Ready (fun _ => Entry.none) blankImage := by
  have hzero : ∀ b, b ≠ 1 → blankImage.disk b = zeroes := by
    intro b hb
    change update (fun _ => zeroes) 1 sbBlock b = zeroes
    rw [update_of_ne hb]
  have hsize : 1 < nmeta := by decide
  have hplace : ∀ x, places blankImage.disk (fun _ => Entry.none) x = 0 := fun x => place_zero _ x.2
  refine ⟨⟨rfl, by decide, by decide, ?_, ?_, ?_, fun _ _ => rfl, ?_, nofun⟩, fun _ => tight_none⟩
  · intro j hj _
    have hstart : sb.inodestart = 32 := rfl
    have hlow := (iblock_lt hj).1
    unfold inodeAt
    rw [hzero _ (by omega), get_zeroes]
    rfl
  · refine ⟨by decide, fun x hne => absurd (hplace x) hne, fun x _ hne => absurd (hplace x) hne, ?_⟩
    exact fun b hlo hhi => absurd (Nat.lt_of_le_of_lt hlo hhi) (Nat.lt_irrefl nmeta)
  · intro b hb _
    have hlow : nmeta ≤ b := hb
    exact hzero b (by omega)
  · exact fun j hj hj' => absurd (Nat.lt_of_le_of_lt hj hj') (Nat.lt_irrefl 1)

theorem ok_dots (s1 : Mkfs)
    (h : Ready (update (fun _ => Entry.none) ROOTINO (Entry.new T_DIR)) s1)
    (hfree : s1.freeinode = 2) (hblock : s1.freeblock = nmeta) :
    ∃ s2 s3 tab', iappend ROOTINO (encode ⟨ROOTINO, dot⟩) s1 = .done () s2 ∧
      iappend ROOTINO (encode ⟨ROOTINO, dotdot⟩) s2 = .done () s3 ∧ Filled [] tab' s3 := by
  have hlt : ROOTINO < s1.freeinode := by
    rw [hfree]
    decide
  have hdot := ok_dirent (n := 0) (e := ⟨ROOTINO, dot⟩) h hlt (by rw [update_self]; rfl)
    (by decide)
  rw [hblock] at hdot
  obtain ⟨_, s2, hrun2, tab2, hL2, hspent2⟩ := hdot.sure (by decide)
  have hdata2 : (tab2 ROOTINO).data = encode ⟨ROOTINO, dot⟩ := by
    rw [hL2.data, update_self]
    rfl
  have hdotdot := ok_dirent (n := 1) (e := ⟨ROOTINO, dotdot⟩) hL2.ready
    (by rw [hL2.freeinode]; exact hlt) (by rw [hdata2, encode_length]; rfl) (by decide)
  have hfree2 : s2.freeblock = nmeta + 1 := hspent2
  rw [hfree2] at hdotdot
  obtain ⟨_, s3, hrun3, tab3, hL3, hspent3⟩ := hdotdot.sure (by decide)
  refine ⟨s2, s3, tab3, hrun2, hrun3, hL3.ready, ?_, ?_, ?_, nofun, ?_⟩
  · rw [hL3.freeinode, hL2.freeinode, hfree]
    rfl
  · rw [hL3.data, hdata2]
    rfl
  · rw [hL3.type, hL2.type, update_self]
    rfl
  · have hcost : ∀ n, n ≤ 2 → 0 < n → cost (nblocks (DIRENT * n)) = 1 := by decide
    rw [hcost 1 (by decide) (by decide), hcost 2 le_rfl (by decide)] at hspent3
    exact Nat.add_right_cancel hspent3

def rootSize (n : ℕ) : ℕ := (DIRENT * (n + 2) / BSIZE + 1) * BSIZE

structure Finished (fs : List Input) (tab : ℕ → Entry) (s₀ s : Mkfs) : Prop where
  filled : Filled fs tab s₀
  stored : ∀ j < ninodeblocks * IPB, inodeAt sb s.disk j =
    if j = ROOTINO then { (tab j).inode with size := UInt32.ofNat (rootSize fs.length) }
    else (tab j).inode
  data : ∀ b, nmeta ≤ b → s.disk b = s₀.disk b
  bitmap : s.disk sb.bmapstart = bitmap s₀.freeblock
  trace : ∀ e ∈ s.trace, Safe (fs.length + 2) e

theorem ok_fixRoot (h : Filled fs tab s) :
    fixRoot ROOTINO s = .done () (storedInode s ROOTINO
      { (tab ROOTINO).inode with size := UInt32.ofNat (rootSize fs.length) }) := by
  have hlt : ROOTINO < ninodeblocks * IPB := by decide
  have hsize := (h.ready.file ROOTINO le_rfl h.ino_lt).size
  rw [h.root, rootData_length] at hsize
  unfold fixRoot
  rw [bind_of_done (rinode_eq h.ready.toBuilt hlt), hsize]
  exact winode_eq h.ready.len hlt _

theorem ok_finish (h : Filled fs tab s) :
    Returns (do
      fixRoot ROOTINO
      balloc (← .get).freeblock) (fun _ s' => Finished fs tab s s') s := by
  have hlt : ROOTINO < ninodeblocks * IPB := by decide
  have hblock := iblock_lt hlt
  have hbm : sb.bmapstart = 45 := rfl
  have hmeta : nmeta = 46 := rfl
  have hroot : sb.IBLOCK ROOTINO = 32 := rfl
  have hfull := h.ready.bounds.2
  have hsize : FSSIZE < BSIZE * 8 := by decide
  obtain ⟨s1, hs1⟩ : ∃ s1, s1 = storedInode s ROOTINO
      { (tab ROOTINO).inode with size := UInt32.ofNat (rootSize fs.length) } := ⟨_, rfl⟩
  have hfix := ok_fixRoot h
  rw [← hs1] at hfix
  have hlen : s1.len = FSSIZE := by
    rw [hs1]
    exact h.ready.len
  have hfree : s1.freeblock = s.freeblock := by
    rw [hs1]
    rfl
  have hmax : max s1.len (sb.bmapstart + 1) = s1.len := by
    rw [hlen]
    rfl
  have hdisk : s1.disk = setInode sb s.disk ROOTINO
      { (tab ROOTINO).inode with size := UInt32.ofNat (rootSize fs.length) } := by
    rw [hs1]
    rfl
  refine ⟨(), { s1 with
    disk := update s1.disk sb.bmapstart (bitmap s1.freeblock),
    trace := s1.trace ++ [.wroteBitmap sb.bmapstart] }, ?_, h, ?_, ?_, ?_, ?_⟩
  · rw [bind_of_done hfix]
    change balloc s1.freeblock s1 = _
    unfold balloc
    rw [if_neg (by rw [hfree]; omega)]
    change Outcome.done () { s1 with
      disk := update s1.disk sb.bmapstart (bitmap s1.freeblock),
      len := max s1.len (sb.bmapstart + 1), trace := s1.trace ++
      [Event.wroteBitmap sb.bmapstart] } = _
    rw [hmax]
  · intro j hj
    have hne : sb.IBLOCK j ≠ sb.bmapstart := Nat.ne_of_lt (iblock_lt_bmap hj)
    dsimp only
    rw [inodeAt_update sb _ hne, hdisk, inodeAt_setInode]
    split_ifs with hji
    · rw [hji]
    · exact h.ready.stored j hj nofun
  · intro b hb
    dsimp only
    rw [update_of_ne (by omega), hdisk]
    exact setInode_of_data hlt hb
  · dsimp only
    rw [update_self, hfree]
  · intro ev hev
    rcases List.mem_append.1 hev with hold | hnew
    · rw [hs1] at hold
      rcases List.mem_append.1 hold with hold | hnew
      · exact (h.ready.trace ev hold).mono h.freeinode.le
      · rw [List.mem_singleton.1 hnew]
        exact ⟨hblock.1, iblock_lt_bmap hlt⟩
    · rw [List.mem_singleton.1 hnew]
      exact ⟨le_rfl, by decide⟩

theorem ok_main (hroom : fs.length + 2 ≤ ninodeblocks * IPB) :
    Ends (Fits fs) (main fs) (fun _ s' => ∃ tab s0, Finished fs tab s0 s') start := by
  have hsb : wsect 1 sbBlock { start with len := FSSIZE } = .done () blankImage := rfl
  obtain ⟨s1, halloc, hready, hfree, hblock⟩ := ok_ialloc ready_blank T_DIR (by decide)
  unfold main
  refine Ends.of_run (bind_of_done (wzeroes_start FSSIZE)) (Ends.of_run (bind_of_done hsb)
    (Ends.of_run (bind_of_done halloc) ?_))
  have hroot : ¬ blankImage.freeinode ≠ ROOTINO := fun hne => hne rfl
  rw [if_neg hroot]
  obtain ⟨s2, s3, tab, hdot, hdotdot, hfilled⟩ := ok_dots s1 hready hfree hblock
  refine Ends.of_run (bind_of_done hdot) (Ends.of_run (bind_of_done hdotdot) ?_)
  apply (ok_addFiles [] _ hfilled hroom).bind
  rintro _ s4 ⟨tab4, h4⟩
  obtain ⟨_, s5, hrun, h5⟩ := ok_finish h4
  exact .inl ⟨_, s5, hrun, tab4, s4, h5⟩

end Xv6.MkfsImage
