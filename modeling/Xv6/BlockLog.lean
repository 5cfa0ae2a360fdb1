import Xv6.BlockWrites

set_option autoImplicit false

namespace Xv6.BlockLog
open Xv6.Sequential ByteFields DiskFormat BlockCode BlockFiles BlockWrites
open LogCode (BSIZE MAXOPBLOCKS)
open InodeCode (NDIRECT MAXFILE)

variable {sb : Superblock} {first i : ℕ}
variable {P : Finset Place} {s s' : Fs} {pl : Place} {b : ℕ}

def marks (sb : Superblock) (i : ℕ) (P : Finset Place) (s s' : Fs) : Finset ℕ :=
  P.image (fun pl => slot s' (i, pl)) ∪
    (P.filter fun pl => slot s (i, pl) = 0).image fun pl => sb.BBLOCK (slot s' (i, pl))

theorem card_marks_le (sb : Superblock) (i : ℕ) (P : Finset Place) (s s' : Fs) :
    (marks sb i P s s').card ≤ P.card + missing s i P :=
  (Finset.card_union_le _ _).trans (Nat.add_le_add Finset.card_image_le Finset.card_image_le)

theorem slot_mem_marks (h : pl ∈ P) : slot s' (i, pl) ∈ marks sb i P s s' :=
  Finset.mem_union_left _ (Finset.mem_image_of_mem _ h)

theorem bitmap_mem_marks (h : pl ∈ P) (hempty : slot s (i, pl) = 0) :
    sb.BBLOCK (slot s' (i, pl)) ∈ marks sb i P s s' :=
  Finset.mem_union_right _ (Finset.mem_image_of_mem _ (Finset.mem_filter.2 ⟨h, hempty⟩))

structure Filled (sb : Superblock) (first i : ℕ) (P : Finset Place) (s s' : Fs) : Prop where
  changed : ∃ new, Changed sb first i P new s s'
  logged : ∃ l, s'.logged = s.logged ++ l ∧ ∀ b ∈ l, b ∈ marks sb i P s s'

theorem Filled.sound (h : Filled sb first i P s s') : Sound sb first s' := by
  obtain ⟨new, hc⟩ := h.changed
  exact hc.sound

theorem filled_none (h : Sound sb first s) : Filled sb first i ∅ s s :=
  ⟨⟨_, Changed.refl h fun pl hpl => absurd hpl (Finset.notMem_empty pl)⟩,
    [], (List.append_nil _).symm, fun _ hb => absurd hb List.not_mem_nil⟩

theorem Filled.trans {Q : Finset Place} {s1 : Fs} (hi : i < sb.ninodes)
    (h : Filled sb first i P s s1) (h' : Filled sb first i Q s1 s') :
    Filled sb first i (P ∪ Q) s s' := by
  obtain ⟨⟨new, hc⟩, l, hl, hin⟩ := h
  obtain ⟨⟨new', hc'⟩, l', hl', hin'⟩ := h'
  have hkeep : ∀ pl ∈ P, slot s' (i, pl) = slot s1 (i, pl) :=
    fun pl hpl => hc'.slots (i, pl) hi (.inl (hc.filled pl hpl))
  have hempty : ∀ pl, slot s1 (i, pl) = 0 → slot s (i, pl) = 0 := by
    intro pl hzero
    by_contra hne
    rw [hc.slots (i, pl) hi (.inl hne)] at hzero
    exact hne hzero
  refine ⟨⟨_, hc.trans hc' hi⟩, l ++ l', by rw [hl', hl, List.append_assoc], fun b hb => ?_⟩
  rcases List.mem_append.1 hb with hb | hb
  · rcases Finset.mem_union.1 (hin b hb) with hb | hb
    · obtain ⟨pl, hpl, rfl⟩ := Finset.mem_image.1 hb
      rw [← hkeep pl hpl]
      exact slot_mem_marks (Finset.mem_union_left _ hpl)
    · obtain ⟨pl, hpl, rfl⟩ := Finset.mem_image.1 hb
      obtain ⟨hpl, hzero⟩ := Finset.mem_filter.1 hpl
      rw [← hkeep pl hpl]
      exact bitmap_mem_marks (Finset.mem_union_left _ hpl) hzero
  · rcases Finset.mem_union.1 (hin' b hb) with hb | hb
    · obtain ⟨pl, hpl, rfl⟩ := Finset.mem_image.1 hb
      exact slot_mem_marks (Finset.mem_union_right _ hpl)
    · obtain ⟨pl, hpl, rfl⟩ := Finset.mem_image.1 hb
      obtain ⟨hpl, hzero⟩ := Finset.mem_filter.1 hpl
      exact bitmap_mem_marks (Finset.mem_union_right _ hpl) (hempty pl hzero)

theorem logged_taken (hempty : slot s (i, pl) = 0) (hslot : b = slot s' (i, pl)) (rest : List ℕ)
    (hrest : ∀ c ∈ rest, c ∈ marks sb i {pl} s s')
    (hlogged : s'.logged = (taken sb s b).logged ++ rest) :
    ∃ l, s'.logged = s.logged ++ l ∧ ∀ c ∈ l, c ∈ marks sb i {pl} s s' := by
  have hmem := Finset.mem_singleton_self pl
  refine ⟨[sb.BBLOCK b, b] ++ rest, ?_, fun c hc => ?_⟩
  · rw [hlogged]
    change s.logged ++ [sb.BBLOCK b] ++ [b] ++ rest = _
    simp only [List.append_assoc, List.cons_append, List.nil_append]
  · rcases List.mem_append.1 hc with hc | hc
    · rcases List.mem_pair.1 hc with rfl | rfl
      · rw [hslot]
        exact bitmap_mem_marks hmem hempty
      · rw [hslot]
        exact slot_mem_marks hmem
    · exact hrest c hc

theorem filled_addrOf (k : Fin (NDIRECT + 1)) (layout : Layout sb first) (h : Sound sb first s)
    (hi : i < sb.ninodes) (hrun : addrOf sb i k s = .done b s') :
    Filled sb first i {placeOf k} s s' ∧ b = slot s' (i, placeOf k) := by
  obtain ⟨hc, hslot⟩ := (ends_addrOf k layout h hi).done hrun
  refine ⟨⟨⟨_, hc⟩, ?_⟩, hslot⟩
  unfold addrOf at hrun
  rw [bind_of_done (rfl : inode i s = _)] at hrun
  by_cases hzero : (s.mem i).addrs k = 0
  · have hempty : slot s (i, placeOf k) = 0 := by
      rw [slot_placeOf, hzero]
      rfl
    rw [if_pos hzero] at hrun
    obtain ⟨b', s1, htaken, hrest⟩ := done_bind hrun
    obtain ⟨-, -, rfl⟩ := (ends_balloc s).done htaken
    cases hrest
    exact logged_taken hempty hslot [] (fun c hc => absurd hc List.not_mem_nil)
      (List.append_nil _).symm
  · rw [if_neg hzero] at hrun
    cases hrun
    exact ⟨[], (List.append_nil _).symm, fun c hc => absurd hc List.not_mem_nil⟩

theorem filled_bmap {bn : ℕ} (layout : Layout sb first) (h : Sound sb first s) (hi : i < sb.ninodes)
    (hbn : bn < MAXFILE) (hrun : bmap sb i bn s = .done b s') :
    Filled sb first i (placesOf bn) s s' ∧ b = slot s' (i, .data bn) := by
  obtain ⟨hc, hslot⟩ := (ends_bmap layout h hi hbn).done hrun
  refine ⟨?_, hslot⟩
  unfold bmap at hrun
  unfold placesOf at hc ⊢
  by_cases hdirect : bn < NDIRECT
  · rw [dif_pos hdirect] at hrun
    have haddr := (filled_addrOf _ layout h hi hrun).1
    rw [placeOf_direct hdirect] at haddr
    rw [if_pos hdirect]
    exact haddr
  have hentry := entry_lt hdirect hbn
  rw [if_neg hdirect] at hc ⊢
  rw [dif_neg hdirect, if_pos hentry] at hrun
  obtain ⟨ind, s1, hind, hrest⟩ := done_bind hrun
  have haddr := filled_addrOf _ layout h hi hind
  rw [placeOf_last] at haddr
  obtain ⟨hfirst, rfl⟩ := haddr
  obtain ⟨⟨new, hc1⟩, l, hl, hin⟩ := hfirst
  have hslot1 := slot_data_of_indirect (Nat.le_of_not_lt hdirect)
    (hc1.filled .indirect (Finset.mem_singleton_self _))
  -- the second part leaves the place of the indirect block alone
  have hfirst : slot s' (i, .indirect) = slot s1 (i, .indirect) → ∀ c ∈ l,
      c ∈ marks sb i ({.indirect} ∪ {.data bn}) s s' := by
    intro hsame c hc
    rcases Finset.mem_union.1 (hin c hc) with hc | hc
    · obtain ⟨pl, hpl, rfl⟩ := Finset.mem_image.1 hc
      rw [Finset.mem_singleton.1 hpl, ← hsame]
      exact slot_mem_marks (by simp)
    · obtain ⟨pl, hpl, rfl⟩ := Finset.mem_image.1 hc
      obtain ⟨hpl, hempty⟩ := Finset.mem_filter.1 hpl
      rw [Finset.mem_singleton.1 hpl] at hempty ⊢
      rw [← hsame]
      exact bitmap_mem_marks (by simp) hempty
  refine ⟨⟨_, hc⟩, ?_⟩
  rw [bind_of_done (rfl : bread _ s1 = _)] at hrest
  by_cases hzero : getU32 (s1.disk (slot s1 (i, .indirect))) (4 * (bn - NDIRECT)) = 0
  · rw [if_pos hzero] at hrest
    obtain ⟨b', s2, htaken, hrest⟩ := done_bind hrest
    obtain ⟨-, -, rfl⟩ := (ends_balloc s1).done htaken
    have hempty : slot s (i, .data bn) = 0 := by
      by_contra hne
      have hkeep := hc1.slots (i, .data bn) hi (.inl hne)
      rw [hslot1, hzero] at hkeep
      exact hne hkeep.symm
    obtain ⟨rfl, hmem, hlogged⟩ : b' = b ∧ s'.mem = s1.mem ∧
        s'.logged = s1.logged ++ [sb.BBLOCK b'] ++ [b'] ++ [slot s1 (i, .indirect)] := by
      cases hrest
      exact ⟨rfl, rfl, rfl⟩
    have hsame : slot s' (i, .indirect) = slot s1 (i, .indirect) := by
      unfold slot
      rw [hmem]
      rfl
    refine ⟨l ++ [sb.BBLOCK b', b', slot s1 (i, .indirect)], ?_, fun c hc => ?_⟩
    · rw [hlogged, hl]
      simp only [List.append_assoc, List.cons_append, List.nil_append]
    · rcases List.mem_append.1 hc with hc | hc
      · exact hfirst hsame c hc
      simp only [List.mem_cons, List.not_mem_nil, or_false] at hc
      rcases hc with rfl | rfl | rfl
      · rw [hslot]
        exact bitmap_mem_marks (by simp) hempty
      · rw [hslot]
        exact slot_mem_marks (by simp)
      · rw [← hsame]
        exact slot_mem_marks (by simp)
  · rw [if_neg hzero] at hrest
    cases hrest
    exact ⟨l, hl, hfirst rfl⟩

theorem filled_of_changed {new : Contents} (hi : i < sb.ninodes)
    (hc : Changed sb first i ∅ new s s') (hne : slot s (i, pl) ≠ 0) (l : List ℕ)
    (hlogged : s'.logged = s.logged ++ l) (hl : ∀ b ∈ l, b = slot s (i, pl)) :
    Filled sb first i {pl} s s' := by
  have hslot := hc.slots (i, pl) hi (.inl hne)
  have hrest : Changed sb first i {pl} (contents s' i) s' s' := Changed.refl hc.sound <| by
    intro pl' hpl
    rw [Finset.mem_singleton.1 hpl, hslot]
    exact hne
  have hall := hc.trans hrest hi
  rw [Finset.empty_union] at hall
  refine ⟨⟨_, hall⟩, l, hlogged, fun b hb => ?_⟩
  rw [hl b hb, ← hslot]
  exact slot_mem_marks (Finset.mem_singleton_self _)

theorem placesOf_data (bn : ℕ) : placesOf bn ∪ {.data bn} = placesOf bn := by
  unfold placesOf
  split_ifs <;> simp

theorem filled_writeFrom {n off' : ℕ} (src : Source) (layout : Layout sb first)
    (hi : i < sb.ninodes) (rounds tot off : ℕ) (hmax : off + (n - tot) ≤ MAXFILE * BSIZE)
    (h : Sound sb first s) (hrun : writeFrom sb i src n rounds tot off s = .done off' s') :
    ∃ P ⊆ touched off (n - tot), Filled sb first i P s s' := by
  induction rounds generalizing tot off s with
  | zero =>
    cases hrun
    exact ⟨∅, Finset.empty_subset _, filled_none h⟩
  | succ rounds ih =>
    unfold writeFrom at hrun
    by_cases hmore : tot < n
    · have hmod : off % BSIZE < BSIZE := Nat.mod_lt off (by decide)
      have hbn : off / BSIZE < MAXFILE := by
        rw [Nat.div_lt_iff_lt_mul (by decide)]
        omega
      rw [if_pos hmore] at hrun
      obtain ⟨b, s1, hb, hrest⟩ := done_bind hrun
      obtain ⟨hfirst, rfl⟩ := filled_bmap layout h hi hbn hb
      generalize hm : min (n - tot) (BSIZE - off % BSIZE) = m at hrest
      have hparts : touched off (n - tot) =
          placesOf (off / BSIZE) ∪ touched (off + m) (n - (tot + m)) := by
        rw [← touched_block (m := m) (by omega) (by omega), ← touched_add]
        congr 1
        omega
      have hne : slot s1 (i, .data (off / BSIZE)) ≠ 0 := by
        obtain ⟨new, hc⟩ := hfirst.changed
        exact hc.filled _ (by rw [← placesOf_data]; simp)
      have hk := copied_le src tot m
      have hstore := changed_store layout hfirst.sound hi hne
        (by omega : off % BSIZE + copied src tot m ≤ BSIZE) (bytesFrom src tot)
      rw [bind_of_done (rfl : setBlock _ _ s1 = _)] at hrest
      by_cases hshort : copied src tot m < m
      · rw [if_pos hshort] at hrest
        cases hrest
        have hstep := hfirst.trans hi (filled_of_changed hi (hstore s1.logged) hne []
          (List.append_nil _).symm fun _ h => by cases h)
        refine ⟨_, ?_, hstep⟩
        rw [placesOf_data, hparts]
        exact Finset.subset_union_left
      rw [if_neg hshort, bind_of_done (rfl : logWrite _ _ = _)] at hrest
      have hstep := hfirst.trans hi (filled_of_changed hi (hstore (s1.logged ++ _)) hne
        [slot s1 (i, .data (off / BSIZE))] rfl (by simp))
      rw [placesOf_data] at hstep
      obtain ⟨P, hP, hlast⟩ := ih (tot + m) (off + m) (by omega) hstep.sound hrest
      refine ⟨_, ?_, hstep.trans hi hlast⟩
      rw [hparts]
      exact Finset.union_subset_union_right hP
    · rw [if_neg hmore] at hrun
      cases hrun
      exact ⟨∅, Finset.empty_subset _, filled_none h⟩

theorem logged_writei {off n : UInt32} {r : ℤ} (src : Source) (layout : Layout sb first)
    (hi : i < sb.ninodes) (h : Sound sb first s) (hrun : writei sb i src off n s = .done r s') :
    Refused s i off n ∧ s' = s ∨ ¬ Refused s i off n ∧
      ∃ P ⊆ touched off.toNat n.toNat, ∃ s1 l, s'.logged = s.logged ++ l ∧
        ∀ b ∈ l, b ∈ insert (sb.IBLOCK i) (marks sb i P s s1) := by
  rcases (ends_writei src layout hi off n h).done hrun with ⟨hrefused, -, rfl⟩ | ⟨hfine, -⟩
  · exact .inl ⟨hrefused, rfl⟩
  refine .inr ⟨hfine, ?_⟩
  have hrange : ¬ (off > (s.mem i).size ∨ off + n < off) := by
    rw [add_lt_iff_wraps]
    exact fun h => hfine (h.imp_right .inl)
  have hmax : ¬ off.toNat + n.toNat > MAXFILE * BSIZE := fun h => hfine (.inr (.inr h))
  unfold writei at hrun
  rw [bind_of_done (rfl : inode i s = _), if_neg hrange, if_neg hmax] at hrun
  obtain ⟨off', s1, hloop, hrest⟩ := done_bind hrun
  obtain ⟨P, hP, -, l, hl, hin⟩ :=
    filled_writeFrom src layout hi n.toNat 0 off.toNat (Nat.le_of_not_lt hmax) h hloop
  have hend : s'.logged = s1.logged ∨ s'.logged = s1.logged ++ [sb.IBLOCK i] := by
    by_cases hn : 0 < n
    · rw [if_pos hn, bind_of_done (rfl : inode i s1 = _)] at hrest
      by_cases hgrow : off' > (s1.mem i).size.toNat
      · rw [if_pos hgrow] at hrest
        cases hrest
        exact .inr rfl
      · rw [if_neg hgrow] at hrest
        cases hrest
        exact .inr rfl
    · rw [if_neg hn] at hrest
      cases hrest
      exact .inl rfl
  have hin' : ∀ b ∈ l, b ∈ insert (sb.IBLOCK i) (marks sb i P s s1) :=
    fun b hb => Finset.mem_insert_of_mem (hin b hb)
  rcases hend with hend | hend
  · exact ⟨P, hP, s1, l, by rw [hend, hl], hin'⟩
  · refine ⟨P, hP, s1, l ++ [sb.IBLOCK i], by rw [hend, hl, List.append_assoc], fun b hb => ?_⟩
    rcases List.mem_append.1 hb with hb | hb
    · exact hin' b hb
    · rw [List.mem_singleton.1 hb]
      exact Finset.mem_insert_self _ _

theorem touched_subset (off len : ℕ) :
    touched off len ⊆ insert .indirect
      ((Finset.Icc (off / BSIZE) ((off + len - 1) / BSIZE)).image .data) := by
  intro pl hpl
  obtain ⟨bn, hlow, hhigh, hpos, hpl⟩ := mem_touched.1 hpl
  have hbn : bn ∈ Finset.Icc (off / BSIZE) ((off + len - 1) / BSIZE) := by
    rw [Finset.mem_Icc, Nat.le_div_iff_mul_le (by decide)]
    omega
  have hdata := Finset.mem_insert_of_mem (b := Place.indirect) (Finset.mem_image_of_mem .data hbn)
  unfold placesOf at hpl
  split_ifs at hpl
  · rw [Finset.mem_singleton.1 hpl]
    exact hdata
  · rcases Finset.mem_union.1 hpl with hpl | hpl
    · rw [Finset.mem_singleton.1 hpl]
      exact Finset.mem_insert_self _ _
    · rw [Finset.mem_singleton.1 hpl]
      exact hdata

theorem card_places {off len : ℕ} (hlen : len ≤ maxWrite) (hP : P ⊆ touched off len)
    (hfirst : off % BSIZE ≠ 0 → slot s (i, .data (off / BSIZE)) ≠ 0) :
    P.card + missing s i P < MAXOPBLOCKS := by
  by_cases hzero : len = 0
  · subst hzero
    rw [touched_zero, Finset.subset_empty] at hP
    subst hP
    have hnone : missing s i ∅ ≤ 0 := Finset.card_filter_le _ _
    rw [Finset.card_empty]
    unfold MAXOPBLOCKS
    omega
  have hsub := hP.trans (touched_subset off len)
  generalize hD : (Finset.Icc (off / BSIZE) ((off + len - 1) / BSIZE)).image Place.data = D
    at hsub
  have hD' : D.card ≤ (off + len - 1) / BSIZE + 1 - off / BSIZE := by
    rw [← hD, ← Nat.card_Icc]
    exact Finset.card_image_le
  have hplaces := (Finset.card_le_card hsub).trans (Finset.card_insert_le _ _)
  have hlen' : len ≤ 3 * 1024 := hlen
  by_cases haligned : off % BSIZE = 0
  · have hmissing : missing s i P ≤ P.card := Finset.card_filter_le _ _
    unfold MAXOPBLOCKS
    unfold BSIZE at *
    omega
  have hmem : Place.data (off / BSIZE) ∈ insert Place.indirect D := by
    rw [← hD]
    refine Finset.mem_insert_of_mem (Finset.mem_image_of_mem _ (Finset.mem_Icc.2 ⟨le_rfl, ?_⟩))
    exact Nat.div_le_div_right (by omega)
  have hmissing : missing s i P ≤ ((insert Place.indirect D).erase
    (.data (off / BSIZE))).card := by
    apply Finset.card_le_card
    intro pl hpl
    obtain ⟨hpl, hempty⟩ := Finset.mem_filter.1 hpl
    refine Finset.mem_erase.2 ⟨?_, hsub hpl⟩
    rintro rfl
    exact hfirst haligned hempty
  rw [Finset.card_erase_of_mem hmem] at hmissing
  have hins := Finset.card_insert_le Place.indirect D
  unfold MAXOPBLOCKS
  unfold BSIZE at *
  omega

/-- One round of the loop of `filewrite`: a transaction, and the advance of the offset. -/
def filewriteRound (sb : Superblock) (ip : ℕ) (src : Source) (n1 : ℕ) : Code File ℤ := do
  let off := (← (Code.get : Code File File)).off
  let r ← onFs (writei sb ip src off (UInt32.ofNat n1))
  if r > 0 then .modify fun f => { f with off := f.off + UInt32.ofNat r.toNat }
  return r

/-- A round of `filewrite` logs no more blocks than are reserved for an operation. -/
theorem filewrite_round_fits {ip n1 : ℕ} {f : File} (src : Source) (layout : Layout sb first)
    (h : Sound sb first f.fs) (hip : ip < sb.ninodes)
    (hholes : ∀ bn, bn * BSIZE < (f.fs.mem ip).size.toNat → slot f.fs (ip, .data bn) ≠ 0)
    (hn1 : n1 ≤ maxWrite) (hfree : missing f.fs ip (touched f.off.toNat n1) ≤ free sb f.fs) :
    ∃ r f' l, filewriteRound sb ip src n1 f = .done r f' ∧
      f'.fs.logged = f.fs.logged ++ l ∧ l.toFinset.card ≤ MAXOPBLOCKS := by
  have hword : (UInt32.ofNat n1).toNat = n1 := by
    apply UInt32.toNat_ofNat_of_lt'
    exact lt_of_le_of_lt hn1 (by decide)
  rw [← hword] at hfree
  obtain ⟨r, s', hrun, -⟩ := (ends_writei src layout hip f.off
    (UInt32.ofNat n1) h).sure (.inr hfree)
  have hround : ∃ f', filewriteRound sb ip src n1 f = .done r f' ∧ f'.fs = s' := by
    have hfs : onFs (writei sb ip src f.off (UInt32.ofNat n1)) f = .done r { f with fs := s' } := by
      unfold onFs Code.within
      rw [hrun]
    unfold filewriteRound
    rw [bind_of_done (rfl : Code.get f = _), bind_of_done hfs]
    split_ifs
    · exact ⟨_, rfl, rfl⟩
    · exact ⟨_, rfl, rfl⟩
  obtain ⟨f', hround, rfl⟩ := hround
  rcases logged_writei src layout hip h hrun with ⟨-, hsame⟩ | ⟨hfine, P, hP, s1, l, hl, hin⟩
  · refine ⟨r, f', [], hround, ?_, Nat.zero_le _⟩
    rw [hsame, List.append_nil]
  refine ⟨r, f', l, hround, hl, ?_⟩
  rw [hword] at hP
  have hcount := card_places (s := f.fs) (i := ip) hn1 hP fun hodd => by
    apply hholes
    have hsize : ¬ (f.fs.mem ip).size < f.off := fun h => hfine (.inl h)
    rw [UInt32.lt_iff_toNat_lt] at hsize
    have := Nat.div_add_mod' f.off.toNat BSIZE
    omega
  have hmarks := card_marks_le sb ip P f.fs s1
  calc l.toFinset.card
      ≤ (insert (sb.IBLOCK ip) (marks sb ip P f.fs s1)).card :=
        Finset.card_le_card fun b hb => hin b (List.mem_toFinset.1 hb)
    _ ≤ (marks sb ip P f.fs s1).card + 1 := Finset.card_insert_le _ _
    _ ≤ MAXOPBLOCKS := by omega

theorem filewrite_round_fits_three :
    ∃ f' l, filewriteRound smallSb 2 (fun _ => some 7) maxWrite ⟨emptyFs, 0⟩ = .done maxWrite f' ∧
      f'.fs.logged = l ∧ l.toFinset = {32, 45, 48, 49, 50} ∧ l.toFinset.card ≤ MAXOPBLOCKS := by
  obtain ⟨r, f', l, hrun, hl, hcard⟩ := filewrite_round_fits (f := ⟨emptyFs, 0⟩)
    (fun _ => some 7) layout_smallSb sound_emptyFs (by decide : 2 < smallSb.ninodes)
    (fun bn hbn => absurd hbn (Nat.not_lt_zero _)) (le_refl maxWrite) (by decide +kernel)
  have hwrites : (filewriteRound smallSb 2 (fun _ => some 7) maxWrite ⟨emptyFs, 0⟩).any
      (fun (r : ℤ) (f' : File) => decide (r = maxWrite ∧
        f'.fs.logged.toFinset = {32, 45, 48, 49, 50})) = true := by
    decide +kernel
  rw [hrun] at hwrites
  obtain ⟨rfl, hblocks⟩ := of_decide_eq_true hwrites
  have hl : f'.fs.logged = l := hl
  exact ⟨f', l, hrun, hl, hl ▸ hblocks, hcard⟩

end Xv6.BlockLog
