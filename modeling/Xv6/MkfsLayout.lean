import Xv6.MkfsFiles

set_option autoImplicit false

namespace Xv6.MkfsImage
open Resumption Xv6.Sequential ByteFields DiskFormat MkfsCode
open LogCode (Block)
open InodeCode (NDIRECT DIRENT)

variable {s : Mkfs} {files : List Input}

section Counting

variable {α β : Type} {k l : ℕ}
variable {p : Code Mkfs α}

def Noted (s : Mkfs) : Prop := ∀ n, 1 ≤ n → n < s.freeinode → .inode n ∈ s.trace

def Allocates (k : ℕ) (p : Code Mkfs α) : Prop :=
  ∀ s, Noted s → Ends False p (fun _ s' => Noted s' ∧ s'.freeinode = s.freeinode + k) s

theorem allocates_pure (a : α) : Allocates 0 (pure a : Code Mkfs α) :=
  fun _ h => ends_pure ⟨h, rfl⟩

theorem allocates_panic (msg : String) : Allocates k (.panic msg : Code Mkfs α) :=
  fun _ _ => .inr ⟨not_false, msg, rfl⟩

theorem Allocates.bind {f : α → Code Mkfs β} (h : Allocates k p) (hf : ∀ a, Allocates l (f a)) :
    Allocates (k + l) (p >>= f) := by
  intro s hs
  apply (h s hs).bind
  rintro a s1 ⟨hs1, hfree1⟩
  apply (hf a s1 hs1).mono id
  rintro _ s2 ⟨hs2, hfree2⟩
  exact ⟨hs2, by rw [hfree2, hfree1, Nat.add_assoc]⟩

theorem Allocates.seq {f : α → Code Mkfs β} (h : Allocates 0 p) (hf : ∀ a, Allocates k (f a)) :
    Allocates k (p >>= f) := by
  have hbind := h.bind hf
  rwa [Nat.zero_add] at hbind

theorem Allocates.ite {c : Prop} [Decidable c] {q : Code Mkfs α} (hp : Allocates k p)
    (hq : Allocates k q) : Allocates k (if c then p else q) := by
  split_ifs
  · exact hp
  · exact hq

theorem allocates_get : Allocates 0 (.get : Code Mkfs Mkfs) :=
  fun s h => .inl ⟨s, s, rfl, h, rfl⟩

theorem allocates_rsect (sec : ℕ) : Allocates 0 (rsect sec) := by
  intro s h
  by_cases hlt : sec < s.len
  · exact .inl ⟨_, s, rsect_eq hlt, h, rfl⟩
  · exact .inr ⟨not_false, _, rsect_fail (Nat.le_of_not_lt hlt)⟩

theorem allocates_wsect (sec : ℕ) (buf : Block) : Allocates 0 (wsect sec buf) :=
  fun _ h => .inl ⟨(), _, rfl, h, rfl⟩

theorem allocates_note (ev : Event) : Allocates 0 (note ev) :=
  fun _ h => .inl ⟨(), _, rfl, fun n hn hn' => List.mem_append_left _ (h n hn hn'), rfl⟩

theorem allocates_nextBlock : Allocates 0 nextBlock :=
  fun _ h => .inl ⟨_, _, rfl, fun n hn hn' => List.mem_append_left _ (h n hn hn'), rfl⟩

theorem allocates_nextInode : Allocates 1 nextInode := by
  intro s h
  refine .inl ⟨_, _, rfl, ?_, rfl⟩
  intro n hn hn'
  rcases Nat.lt_succ_iff_lt_or_eq.1 hn' with hlt | rfl
  · exact List.mem_append_left _ (h n hn hlt)
  · exact List.mem_append_right _ (List.mem_singleton_self _)

theorem allocates_winode (i : ℕ) (d : DiskInode) : Allocates 0 (winode i d) :=
  (allocates_rsect _).seq fun _ => (allocates_note _).seq fun _ => allocates_wsect _ _

theorem allocates_rinode (i : ℕ) : Allocates 0 (rinode i) :=
  (allocates_rsect _).seq fun _ => allocates_pure _

theorem allocates_ialloc (type : UInt16) : Allocates 1 (ialloc type) :=
  allocates_nextInode.bind fun _ => (allocates_winode _ _).seq fun _ => allocates_pure _

theorem allocates_appendBlock (din : DiskInode) (fbn : ℕ) : Allocates 0 (appendBlock din fbn) := by
  unfold appendBlock
  by_cases hdir : fbn < NDIRECT
  · rw [dif_pos hdir]
    exact (allocates_nextBlock.seq fun _ => allocates_pure _).ite (allocates_pure _)
  rw [dif_neg hdir]
  have hrest : ∀ d : DiskInode, Allocates 0 (do
      let indirect ← rsect (d.addr NDIRECT).toNat
      if getU32 indirect (4 * (fbn - NDIRECT)) = 0 then
        let b ← nextBlock
        note (.wroteData (d.addr NDIRECT).toNat)
        wsect (d.addr NDIRECT).toNat (putU32 indirect (4 * (fbn - NDIRECT)) (UInt32.ofNat b))
        return (d, (UInt32.ofNat b).toNat)
      else return (d, (getU32 indirect (4 * (fbn - NDIRECT))).toNat)) := by
    intro d
    apply (allocates_rsect _).seq
    intro blk
    apply Allocates.ite
    · exact allocates_nextBlock.seq fun _ => (allocates_note _).seq fun _ =>
        (allocates_wsect _ _).seq fun _ => allocates_pure _
    · exact allocates_pure _
  apply Allocates.ite
  · exact (allocates_nextBlock.seq fun _ => allocates_pure _).seq hrest
  · exact (allocates_pure din).seq hrest

theorem allocates_iappendFrom (fuel : ℕ) (din : DiskInode) (off : ℕ) (p : List UInt8) :
    Allocates 0 (iappendFrom fuel din off p) := by
  induction fuel generalizing din off p with
  | zero => exact allocates_pure _
  | succ fuel ih =>
    unfold iappendFrom
    apply (allocates_pure _).ite
    apply (allocates_panic _).ite
    apply (allocates_appendBlock din _).seq
    intro r
    exact (allocates_rsect _).seq fun _ => (allocates_note _).seq fun _ =>
      (allocates_wsect _ _).seq fun _ => ih _ _ _

theorem allocates_iappend (i : ℕ) (p : List UInt8) : Allocates 0 (iappend i p) :=
  (allocates_rinode i).seq fun _ => (allocates_iappendFrom _ _ _ _).seq fun _ =>
    allocates_winode _ _

theorem allocates_appendChunks (i : ℕ) (cs : List Chunk) : Allocates 0 (appendChunks i cs) := by
  induction cs with
  | nil => exact allocates_pure _
  | cons c cs ih => exact (allocates_iappend i c.1).seq fun _ => ih

theorem allocates_addFile (rootino : ℕ) (f : Input) : Allocates 1 (addFile rootino f) := by
  unfold addFile
  apply (allocates_panic _).ite
  cases f.chunks with
  | none => exact allocates_panic _
  | some chunks =>
    exact (allocates_ialloc T_FILE).bind fun _ => (allocates_iappend _ _).seq fun _ =>
      allocates_appendChunks _ _

theorem allocates_addFiles (rootino : ℕ) (fs : List Input) :
    Allocates fs.length (addFiles rootino fs) := by
  induction fs with
  | nil => exact allocates_pure _
  | cons f fs ih =>
    rw [List.length_cons, Nat.add_comm]
    exact (allocates_addFile rootino f).bind fun _ => ih

theorem allocates_wzeroes (n : ℕ) : Allocates 0 (wzeroes n) := by
  induction n with
  | zero => exact allocates_pure _
  | succ n ih => exact ih.seq fun _ => allocates_wsect _ _

theorem allocates_fixRoot (rootino : ℕ) : Allocates 0 (fixRoot rootino) :=
  (allocates_rinode _).seq fun _ => allocates_winode _ _

theorem allocates_balloc (n : ℕ) : Allocates 0 (balloc n) :=
  (allocates_panic _).ite ((allocates_note _).seq fun _ => allocates_wsect _ _)

theorem allocates_main (fs : List Input) : Allocates (fs.length + 1) (main fs) := by
  have hend : ∀ rootino, Allocates 0 (do
      fixRoot rootino
      balloc (← .get).freeblock) :=
    fun rootino => (allocates_fixRoot rootino).seq fun _ => allocates_get.seq fun _ =>
      allocates_balloc _
  unfold main
  apply (allocates_wzeroes FSSIZE).seq
  intro _
  apply (allocates_wsect 1 sbBlock).seq
  intro _
  rw [Nat.add_comm]
  apply (allocates_ialloc T_DIR).bind
  intro rootino
  apply (allocates_panic _).ite
  exact (allocates_iappend _ _).seq fun _ => (allocates_iappend _ _).seq fun _ =>
    (allocates_addFiles rootino fs).bind fun _ => hend rootino

theorem noted_start : Noted start :=
  fun _ hn hn' => absurd (Nat.lt_of_le_of_lt hn hn') (Nat.lt_irrefl 1)

end Counting

/-- The numbers given out are within the superblock's limits, and no block is written as a part of
    two regions. -/
structure Respects (s : Mkfs) : Prop where
  blocks : ∀ b, .block b ∈ s.trace → nmeta ≤ b ∧ b < FSSIZE
  inodes : ∀ n, .inode n ∈ s.trace → n < NINODES
  inodeBitmap : ∀ x y, .wroteInode x ∈ s.trace → .wroteBitmap y ∈ s.trace → x ≠ y
  inodeData : ∀ x y, .wroteInode x ∈ s.trace → .wroteData y ∈ s.trace → x ≠ y
  bitmapData : ∀ x y, .wroteBitmap x ∈ s.trace → .wroteData y ∈ s.trace → x ≠ y

theorem respects_of_safe (h : ∀ ev ∈ s.trace, Safe NINODES ev) : Respects s := by
  have hmeta : sb.bmapstart ≤ nmeta := by decide
  refine ⟨fun b hb => h _ hb, fun n hn => h _ hn, ?_, ?_, ?_⟩
  · intro x y hx hy
    exact Nat.ne_of_lt (Nat.lt_of_lt_of_le (h _ hx).2 (h _ hy).1)
  · intro x y hx hy
    exact Nat.ne_of_lt (Nat.lt_of_lt_of_le (h _ hx).2 (hmeta.trans (h _ hy).1))
  · intro x y hx hy
    exact Nat.ne_of_lt (Nat.lt_of_lt_of_le (h _ hx).2 (h _ hy).1)

theorem inode_of_many (hrun : mkfs files = .done () s) (hmany : NINODES < files.length + 2) :
    .inode NINODES ∈ s.trace := by
  have hstart : start.freeinode = 1 := rfl
  rcases allocates_main files start noted_start with ⟨_, s', hrun', hnoted, hfree⟩ | ⟨-, msg, hstop⟩
  · obtain rfl : s = s' := (Outcome.done.inj (hrun.symm.trans hrun')).2
    exact hnoted NINODES (by decide) (by omega)
  · exact absurd (hrun.symm.trans hstop) nofun

theorem finished_of_done (hrun : mkfs files = .done () s)
    (hroom : files.length + 2 ≤ ninodeblocks * IPB) : ∃ tab s0, Finished files tab s0 s := by
  rcases ok_main hroom with ⟨_, s', hrun', hfin⟩ | ⟨-, msg, hstop⟩
  · obtain rfl : s = s' := (Outcome.done.inj (hrun.symm.trans hrun')).2
    exact hfin
  · exact absurd (hrun.symm.trans hstop) nofun

theorem respects_of_few (hrun : mkfs files = .done () s) (hfew : files.length + 2 ≤ NINODES) :
    Respects s := by
  have hroom : files.length + 2 ≤ ninodeblocks * IPB := hfew.trans (by decide)
  obtain ⟨tab, s0, hfin⟩ := finished_of_done hrun hroom
  exact respects_of_safe fun ev hev => (hfin.trace ev hev).mono hfew

/-- `mkfs` stops, or the image respects the superblock exactly when there are enough inodes. -/
theorem mkfs_respects_iff (files : List Input) :
    (∃ msg, mkfs files = .panic msg) ∨
      ∃ s, mkfs files = .done () s ∧ (Respects s ↔ files.length + 2 ≤ NINODES) := by
  rcases allocates_main files start noted_start with ⟨_, s, hrun, -⟩ | ⟨-, hstop⟩
  · refine .inr ⟨s, hrun, ?_, respects_of_few hrun⟩
    intro hresp
    by_contra hmany
    have hin := inode_of_many hrun (Nat.lt_of_not_le hmany)
    exact Nat.lt_irrefl NINODES (hresp.inodes NINODES hin)
  · exact .inl hstop

def emptyFile : Input := ⟨⟨[97], by decide⟩, some []⟩

theorem fits_emptyFiles {n : ℕ} (h : nmeta + cost (nblocks (DIRENT * (n + 2))) ≤ FSSIZE) :
    Fits (List.replicate n emptyFile) := by
  refine ⟨?_, ?_, ?_, ?_⟩
  · intro f hf
    rw [List.eq_of_mem_replicate hf]
    decide
  · intro f hf
    rw [List.eq_of_mem_replicate hf]
    exact nofun
  · intro f hf
    rw [List.eq_of_mem_replicate hf]
    exact Nat.zero_le _
  · have hzero : cost (nblocks (fileBytes emptyFile).length) = 0 := by decide
    unfold needed
    rw [List.map_replicate, List.sum_replicate, hzero, List.length_replicate]
    exact h

/-- With 199 files the last one gets inode 200. -/
theorem many_files_overrun :
    ∃ s, mkfs (List.replicate 199 emptyFile) = .done () s ∧ ¬ Respects s := by
  have hfits : Fits (List.replicate 199 emptyFile) := fits_emptyFiles (by decide)
  have hroom : (List.replicate 199 emptyFile).length + 2 ≤ ninodeblocks * IPB := by
    rw [List.length_replicate]
    decide
  obtain ⟨_, s, hrun, -⟩ := (ok_main hroom).sure hfits
  refine ⟨s, hrun, fun hresp => ?_⟩
  have hin := inode_of_many hrun (by rw [List.length_replicate]; decide)
  exact Nat.lt_irrefl NINODES (hresp.inodes NINODES hin)

end Xv6.MkfsImage
