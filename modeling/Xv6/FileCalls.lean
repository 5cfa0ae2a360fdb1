import Xv6.MkfsMount

set_option autoImplicit false

/-! Calls on inodes one after the other. What is read can be written at its destination. -/
namespace Xv6.FileCalls
open Xv6.Sequential DiskFormat BlockCode BlockFiles BlockWrites BlockReads BlockRelease MkfsMount
open InodeCode (readData writeData refused overwrite whole)
open MkfsImage (twoFiles finished_of_done)
open Function (update update_of_ne update_self)

inductive Call (N : ℕ) where
  | readi (i : Fin N) (off n : UInt32)
  | writei (i : Fin N) (src : List UInt8) (off n : UInt32)
  | itrunc (i : Fin N)

inductive Answer where
  | bytes (l : List UInt8)
  | count (r : ℤ)
  | done
  deriving DecidableEq

abbrev Files (N : ℕ) := Fin N → List UInt8

def Call.spec {N : ℕ} : Call N → Files N → Answer × Files N
  | .readi i off n, F => (.bytes (readData (F i) off n n.toNat), F)
  | .writei i src off n, F =>
    if refused (F i) off n then (.count (-1), F)
    else (.count n.toNat, update F i (writeData (F i) off n src))
  | .itrunc i, F => (.done, update F i [])

def specs {N : ℕ} : List (Call N) → Files N → List Answer × Files N
  | [], F => ([], F)
  | c :: cs, F => ((c.spec F).1 :: (specs cs (c.spec F).2).1, (specs cs (c.spec F).2).2)

/-- The source has as many bytes as are to be written. -/
def Call.Served {N : ℕ} : Call N → Prop
  | .writei _ src _ n => n.toNat ≤ src.length
  | _ => True

variable (sb : Superblock)

def Call.code : Call sb.ninodes → FsCode Answer
  | .readi i off n => do return .bytes (← BlockCode.readi sb i n.toNat off n)
  | .writei i src off n => do return .count (← BlockCode.writei sb i (fun j => src[j]?) off n)
  | .itrunc i => do
    BlockCode.itrunc sb i
    return .done

def run : List (Call sb.ninodes) → FsCode (List Answer)
  | [] => return []
  | c :: cs => do
    let a ← c.code sb
    let as ← run cs
    return a :: as

/-- There are blocks for what is to be written. -/
def Call.Fits (s : Fs) : Call sb.ninodes → Prop
  | .writei i _ off n => Refused s i off n ∨ missing s i (touched off.toNat n.toNat) ≤ free sb s
  | _ => True

def files (s : Fs) : Files sb.ninodes := fun i => bytesAt s i 0 (contents s i).size

variable {sb} {first i : ℕ} {s s' : Fs}

theorem bytesAt_congr {off n : ℕ}
    (h : ∀ k, off ≤ k → k < off + n → (contents s' i).byte k = (contents s i).byte k) :
    bytesAt s' i off n = bytesAt s i off n := by
  refine List.map_congr_left fun j hj => h (off + j) (Nat.le_add_right off j) ?_
  exact Nat.add_lt_add_left (List.mem_range.1 hj) off

theorem writeData_eq {off n : UInt32} {src : List UInt8}
    (hoff : off.toNat ≤ (contents s i).size) (hsrc : n.toNat ≤ src.length)
    (hnew : contents s' i = { (contents s i).overwrite off.toNat n.toNat
        (bytesFrom (fun j => src[j]?) 0) with
      size := max (contents s i).size (off.toNat + n.toNat) }) :
    bytesAt s' i 0 (contents s' i).size =
      writeData (bytesAt s i 0 (contents s i).size) off n src := by
  have hbyte : ∀ k, (contents s' i).byte k = if off.toNat ≤ k ∧ k < off.toNat + n.toNat then
      bytesFrom (fun j => src[j]?) 0 (k - off.toNat) else (contents s i).byte k := by
    intro k
    rw [hnew]
    rfl
  have hsize : (contents s' i).size =
      off.toNat + (n.toNat + ((contents s i).size - (off.toNat + n.toNat))) := by
    rw [hnew]
    dsimp only
    omega
  have hlen : (src.take n.toNat).length = n.toNat := List.length_take_of_le hsrc
  have hlow : bytesAt s' i 0 off.toNat = bytesAt s i 0 off.toNat :=
    bytesAt_congr fun k _ hk => (hbyte k).trans (if_neg (by omega))
  have hhigh : ∀ m, bytesAt s' i (off.toNat + n.toNat) m = bytesAt s i (off.toNat + n.toNat) m :=
    fun m => bytesAt_congr fun k hk _ => (hbyte k).trans (if_neg (by omega))
  have hmid : bytesAt s' i off.toNat n.toNat = src.take n.toNat := by
    refine List.ext_getElem (by rw [length_bytesAt, hlen]) fun j hj hj' => ?_
    rw [length_bytesAt] at hj
    have hj' : j < src.length := by omega
    simp [bytesAt, hbyte, hj, bytesFrom, hj']
  unfold writeData overwrite whole
  rw [hlen, if_pos hsrc, length_bytesAt, take_bytesAt s i hoff, drop_bytesAt, hsize, bytesAt_add,
    bytesAt_add, Nat.zero_add, hlow, hmid, hhigh, List.append_assoc,
    List.take_of_length_le (i := max _ _)]
  rw [List.length_append, List.length_append, length_bytesAt, length_bytesAt, hlen]
  omega

theorem kept_writei {off' k : ℕ} {P : Finset Place} {src : Source} {off n : UInt32}
    (h : Image sb first s) (hi : i < sb.ninodes) (hfine : ¬ Refused s i off n) (hn : 0 < n.toNat)
    (hw : Written sb first i src off.toNat n.toNat off' P k s s') : Kept sb first i s s' := by
  have hsize : (contents s' i).size = max (contents s i).size off' := by rw [hw.changed.becomes]
  unfold Refused at hfine
  rw [not_or, not_or, UInt32.lt_iff_toNat_lt] at hfine
  have hold : (s.mem i).size.toNat = (contents s i).size := rfl
  have hshown := hw.shown
  have hhigh := hw.high
  have hmax := h.size i hi
  refine h.kept hw.changed.sound (fun j hj hne => ⟨hw.changed.others j hj hne,
    fun pl hpl => hw.changed.slots (j, pl) hj (.inl hpl), hw.changed.mem j hne,
    hw.changed.inodes j hj hne⟩) ?_ (by omega) (hw.saved hn)
  intro b hb
  by_cases hbelow : b < (contents s i).size
  · have hne := h.whole i hi b hbelow
    exact (hw.changed.slots (i, _) hi (.inl hne)).symm ▸ hne
  · exact hw.changed.filled _ (hw.covers (data_mem_touched (by omega) (by omega)))

theorem refused_iff {off n : UInt32} :
    refused (bytesAt s i 0 (contents s i).size) off n ↔ Refused s i off n := by
  unfold refused Refused
  rw [length_bytesAt, add_lt_iff_wraps]
  rfl

theorem writei_zero (sb : Superblock) (i : ℕ) (src : Source) (off : UInt32) (s : Fs) :
    ∃ r, BlockCode.writei sb i src off 0 s = .done r s := by
  unfold BlockCode.writei
  rw [bind_of_done (rfl : inode i s = _)]
  split
  · exact ⟨_, rfl⟩
  · split <;> exact ⟨_, rfl⟩

theorem ends_writei_image (h : Image sb first s) (layout : Layout sb first) (hi : i < sb.ninodes)
    (src : List UInt8) (off n : UInt32) :
    Ends (Refused s i off n ∨ missing s i (touched off.toNat n.toNat) ≤ free sb s)
      (BlockCode.writei sb i (fun j => src[j]?) off n)
      (fun r s' => Kept sb first i s s' ∧ (n.toNat ≤ src.length →
        (Refused s i off n ∧ r = -1 ∧ s' = s ∨ ¬ Refused s i off n ∧ r = n.toNat ∧
          bytesAt s' i 0 (contents s' i).size =
            writeData (bytesAt s i 0 (contents s i).size) off n src))) s := by
  refine (ends_writei _ layout hi off n h.sound).imp_left ?_
  rintro ⟨r, s', hrun, ⟨href, rfl, rfl⟩ | ⟨hfine, rfl, off', P, k, hw⟩⟩
  · exact ⟨_, _, hrun, ⟨h, fun _ _ _ => rfl⟩, fun _ => .inl ⟨href, rfl, rfl⟩⟩
  refine ⟨_, _, hrun, ?_, fun hsrc => .inr ⟨hfine, rfl, ?_⟩⟩
  · by_cases hn : n = 0
    · obtain ⟨r, hsame⟩ := writei_zero sb i (fun j => src[j]?) off s
      rw [hn, hsame] at hrun
      cases hrun
      exact ⟨h, fun _ _ _ => rfl⟩
    · exact kept_writei h hi hfine (Nat.pos_of_ne_zero fun h0 => hn (UInt32.toNat_inj.1 h0)) hw
  · have hall : ∀ j < n.toNat, (src[j]?).isSome := by
      intro j hj
      rw [List.getElem?_eq_getElem (hj.trans_le hsrc)]
      rfl
    refine writeData_eq ?_ hsrc (hw.complete hall).2.becomes
    exact Nat.le_of_not_lt fun hlt => hfine (.inl hlt)

theorem files_update {new : List UInt8} {i : Fin sb.ninodes} (h : Kept sb first i s s')
    (hnew : bytesAt s' i 0 (contents s' i).size = new) :
    files sb s' = update (files sb s) i new := by
  funext j
  by_cases hji : j = i
  · rw [hji, update_self, ← hnew]
    rfl
  · rw [update_of_ne hji]
    unfold files bytesAt
    rw [h.others j j.isLt fun heq => hji (Fin.ext heq)]

theorem ends_call (h : Image sb first s) (layout : Layout sb first) (c : Call sb.ninodes) :
    Ends (c.Fits sb s) (c.code sb) (fun a s' => Image sb first s' ∧
      (c.Served → (a, files sb s') = c.spec (files sb s))) s := by
  cases c with
  | readi i off n =>
    exact .inl (Returns.bind ⟨_, _, readi_done h i.isLt off n, _, _, rfl, h, fun _ => rfl⟩)
  | writei i src off n =>
    refine (ends_writei_image h layout i.isLt src off n).bind fun r s' hw => ?_
    refine ends_pure ⟨hw.1.image, fun hsrc => ?_⟩
    rcases hw.2 hsrc with ⟨href, rfl, rfl⟩ | ⟨hfine, rfl, hdata⟩
    · exact (if_pos (refused_iff.2 href)).symm
    · rw [files_update hw.1 hdata]
      exact (if_neg fun href => hfine (refused_iff.1 href)).symm
  | itrunc i =>
    refine .inl (((returns_itrunc layout h i.isLt).mono fun _ s' hk => ?_).bind)
    refine ⟨_, _, rfl, hk.1.image, fun _ => congrArg _ (files_update hk.1 ?_)⟩
    rw [hk.2]
    rfl

theorem run_cons {c : Call sb.ninodes} {cs : List (Call sb.ninodes)} {as : List Answer}
    (hrun : run sb (c :: cs) s = .done as s') : ∃ a as' s1, c.code sb s = .done a s1 ∧
      run sb cs s1 = .done as' s' ∧ as = a :: as' := by
  obtain ⟨a, s1, hcall, hrest⟩ := done_bind hrun
  obtain ⟨as', s2, htail, hpure⟩ := done_bind hrest
  cases hpure
  exact ⟨a, as', s1, hcall, htail, rfl⟩

/-- Three bytes are written over the end of the second file, and the first one is emptied. -/
def session : List (Call MkfsCode.sb.ninodes) :=
  [.writei ⟨3, by decide⟩ [7, 8, 9] 1 3, .readi ⟨3, by decide⟩ 0 9, .readi ⟨2, by decide⟩ 1 9,
    .itrunc ⟨2, by decide⟩, .readi ⟨2, by decide⟩ 0 9]

def answers : List Answer := [.count 3, .bytes [5, 7, 8, 9], .bytes [2, 3, 4], .done, .bytes []]

theorem session_runs : ∃ m s', Image MkfsCode.sb MkfsCode.nmeta (mounted m) ∧
    run MkfsCode.sb session (mounted m) = .done answers s' := by
  obtain ⟨_, m, hrun, htest⟩ := Resumption.Outcome.exists_of_any
    (f := fun _ m => (run MkfsCode.sb session (mounted m.disk)).any fun as _ => as = answers)
    (by decide +kernel : (MkfsCode.mkfs twoFiles).any _ = true)
  obtain ⟨as, s', hsession, has⟩ := Resumption.Outcome.exists_of_any htest
  obtain ⟨tab, s₀, h⟩ := finished_of_done hrun (by decide)
  exact ⟨m.disk, s', image_mounted h (by decide) (by decide), of_decide_eq_true has ▸ hsession⟩

/-- Every run of calls leaves an image, also where sources end early. On it, no call panics for
    which there are blocks. -/
theorem calls_keep_image {cs : List (Call sb.ninodes)} {as : List Answer}
    (layout : Layout sb first) (h : Image sb first s) (hrun : run sb cs s = .done as s') :
    Image sb first s' ∧
      ∀ c : Call sb.ninodes, c.Fits sb s' → ∃ a s'', c.code sb s' = .done a s'' := by
  induction cs generalizing s as with
  | nil =>
    cases hrun
    refine ⟨h, fun c hfits => ?_⟩
    obtain ⟨a, s'', hcall, -⟩ := (ends_call h layout c).sure hfits
    exact ⟨a, s'', hcall⟩
  | cons c cs ih =>
    obtain ⟨a, as', s1, hcall, htail, -⟩ := run_cons hrun
    exact ih ((ends_call h layout c).done hcall).1 htail

theorem calls_keep_image_session : ∃ m s', run MkfsCode.sb session (mounted m) = .done answers s' ∧
    Image MkfsCode.sb MkfsCode.nmeta s' := by
  obtain ⟨m, s', h, hrun⟩ := session_runs
  exact ⟨m, s', hrun, (calls_keep_image layout_smallSb h hrun).1⟩

/-- What a run of calls answers, and the contents it leaves, are those of the strings of bytes. -/
theorem calls_refine_strings {cs : List (Call sb.ninodes)} {as : List Answer}
    (layout : Layout sb first) (h : Image sb first s) (hserved : ∀ c ∈ cs, c.Served)
    (hrun : run sb cs s = .done as s') : specs cs (files sb s) = (as, files sb s') := by
  induction cs generalizing s as with
  | nil =>
    cases hrun
    rfl
  | cons c cs ih =>
    obtain ⟨a, as', s1, hcall, htail, rfl⟩ := run_cons hrun
    obtain ⟨himage, hspec⟩ := (ends_call h layout c).done hcall
    have hfirst := hspec (hserved c (List.mem_cons_self ..))
    have hnext := ih himage (fun d hd => hserved d (List.mem_cons_of_mem c hd)) htail
    unfold specs
    rw [← hfirst, hnext]

theorem calls_refine_strings_session :
    ∃ m s', run MkfsCode.sb session (mounted m) = .done answers s' ∧
      specs session (files _ (mounted m)) = (answers, files _ s') := by
  obtain ⟨m, s', h, hrun⟩ := session_runs
  have hserved : ∀ c ∈ session, c.Served := by simp [session, Call.Served]
  exact ⟨m, s', hrun, calls_refine_strings layout_smallSb h hserved hrun⟩

end Xv6.FileCalls
