import Xv6.MkfsImage

set_option autoImplicit false

namespace Xv6.MkfsImage
open Resumption Xv6.Sequential ByteFields DiskFormat MkfsCode
open LogCode (Block BSIZE)
open InodeCode (NDIRECT MAXFILE)
open Function (update update_eq_self update_idem update_of_ne update_self)

variable {cur : Option ℕ} {tab : ℕ → Entry} {s : Mkfs} {i : ℕ}
variable {din : DiskInode} {fbn n : ℕ} {p : List UInt8} {e : Entry} {s₁ : Mkfs}

def cost (n : ℕ) : ℕ := n + if NDIRECT < n then 1 else 0

theorem rsect_eq {sec : ℕ} (h : sec < s.len) : rsect sec s = .done (s.disk sec) s := if_pos h

theorem rsect_fail {sec : ℕ} (h : s.len ≤ sec) : rsect sec s = .panic "read" :=
  if_neg (Nat.not_lt.2 h)

def storedInode (s : Mkfs) (i : ℕ) (d : DiskInode) : Mkfs :=
  { s with disk := setInode sb s.disk i d, trace := s.trace ++ [.wroteInode (sb.IBLOCK i)] }

theorem iblock_lt_len (h : Built cur tab s) (hi : i < ninodeblocks * IPB) : sb.IBLOCK
    i < s.len := by
  have hlt := (iblock_lt hi).2
  have hsize : nmeta ≤ FSSIZE := by decide
  rw [h.len]
  omega

theorem winode_eq (hlen : s.len = FSSIZE) (hi : i < ninodeblocks * IPB) (d : DiskInode) :
    winode i d s = .done () (storedInode s i d) := by
  have hlt := (iblock_lt hi).2
  have hsize : nmeta ≤ FSSIZE := by decide
  have hmax : max s.len (sb.IBLOCK i + 1) = s.len := max_eq_left (by omega)
  unfold winode
  rw [bind_of_done (rsect_eq (by omega))]
  change Outcome.done () { s with
    disk := setInode sb s.disk i d, len := max s.len (sb.IBLOCK i + 1), trace := _ } = _
  rw [hmax]
  rfl

theorem rinode_eq (h : Built none tab s) (hi : i < ninodeblocks * IPB) :
    rinode i s = .done (tab i).inode s := by
  unfold rinode
  rw [bind_of_done (rsect_eq (iblock_lt_len h hi))]
  exact congrArg (fun d => Outcome.done d s) (h.stored i hi nofun)

theorem Built.inum_lt (h : Built cur tab s) (hi : i < s.freeinode) : i < ninodeblocks * IPB := by
  exact Nat.lt_of_lt_of_le hi h.inodes.2

theorem setInode_of_data {d : DiskInode} {b : ℕ} (hi : i < ninodeblocks * IPB) (hb : nmeta ≤ b) :
    setInode sb s.disk i d b = s.disk b := by
  have hlt := (iblock_lt hi).2
  exact update_of_ne (by omega) _ _

theorem Built.store (h : Built (some i) tab s) (hi' : i < s.freeinode) :
    Built none tab (storedInode s i (tab i).inode) := by
  have hi := h.inum_lt hi'
  have hlt := iblock_lt hi
  have hplace : ∀ j, place (storedInode s i (tab i).inode).disk (tab j).inode =
      place s.disk (tab j).inode := by
    intro j
    apply place_congr
    intro hne
    have hne0 : ((tab j).inode.addr NDIRECT).toNat ≠ 0 := fun h0 => hne (UInt32.toNat_inj.1 h0)
    exact setInode_of_data hi (h.place_lt j .indirect hne0).1
  refine ⟨h.len, h.inodes, h.bounds, ?_, ?_, ?_, h.unused, ?_, ?_⟩
  · intro j hj _
    change inodeAt sb (setInode sb s.disk i (tab i).inode) j = _
    rw [inodeAt_setInode]
    split_ifs with hji
    · rw [hji]
    · exact h.stored j hj fun heq => hji (Option.some.inj heq).symm
  · have heq : places (storedInode s i (tab i).inode).disk tab = places s.disk tab := by
      funext x
      exact congrFun (hplace x.1) x.2
    rw [heq]
    exact h.numbered
  · intro b hb hb'
    have hmeta := h.bounds.1
    change nmeta ≤ s.freeblock at hmeta
    rw [← h.blank b hb hb']
    exact setInode_of_data hi (hmeta.trans hb)
  · intro j hj hj'
    apply (h.file j hj hj').congr
    · intro hne
      have hne0 : ((tab j).inode.addr NDIRECT).toNat ≠ 0 := fun h0 => hne (UInt32.toNat_inj.1 h0)
      exact setInode_of_data hi (h.place_lt j .indirect hne0).1
    · intro bn hbn
      have hne := ((h.file j hj hj').blocks bn).2 hbn
      exact setInode_of_data hi (h.place_lt j (.data bn) hne).1
  · intro ev hev
    rcases List.mem_append.1 hev with hold | hnew
    · exact h.trace ev hold
    · rw [List.mem_singleton] at hnew
      rw [hnew]
      exact ⟨hlt.1, iblock_lt_bmap hi⟩

structure Appended (tab : ℕ → Entry) (s : Mkfs) (i fbn : ℕ) (din : DiskInode) (x : ℕ) (e : Entry)
    (s' : Mkfs) : Prop where
  built : Built (some i) (update tab i e) s'
  inode : e.inode = { din with size := (tab i).inode.size }
  type : e.inode.type = (tab i).inode.type
  data : e.data = (tab i).data
  n : e.n = fbn + 1
  block : x = blockOf s'.disk e.inode fbn
  indirect : e.inode.addr NDIRECT ≠ 0 → NDIRECT < e.n
  freeinode : s'.freeinode = s.freeinode
  spent : s'.freeblock + cost (tab i).n = s.freeblock + cost (fbn + 1)

theorem appendBlock_old (h : Built (some i) tab s) (hi : 1 ≤ i) (hi' : i < s.freeinode)
    (hdin : (tab i).inode = { din with size := (tab i).inode.size }) (hn : (tab i).n = fbn + 1) :
    appendBlock din fbn s = .done (din, blockOf s.disk (tab i).inode fbn) s := by
  have hfile := h.file i hi hi'
  have hne : blockOf s.disk (tab i).inode fbn ≠ 0 := (hfile.blocks fbn).2 (by omega)
  have haddr : ∀ k, (tab i).inode.addr k = din.addr k := by
    intro k
    rw [hdin]
    rfl
  unfold blockOf at hne ⊢
  rw [haddr, haddr] at hne ⊢
  unfold appendBlock
  by_cases hdir : fbn < NDIRECT
  · rw [if_pos hdir] at hne ⊢
    have hne' : din.addr fbn ≠ 0 := fun h0 => hne (by rw [h0]; rfl)
    rw [dif_pos hdir, if_neg hne']
    rfl
  rw [if_neg hdir] at hne ⊢
  have hind : din.addr NDIRECT ≠ 0 := fun h0 => hne (if_pos h0)
  rw [if_neg hind] at hne ⊢
  have hind0 : (din.addr NDIRECT).toNat ≠ 0 := fun h0 => hind (UInt32.toNat_inj.1 h0)
  have hrange := h.place_lt i .indirect (by change UInt32.toNat _ ≠ 0; rwa [haddr])
  have hlt : (din.addr NDIRECT).toNat < s.len := by
    rw [h.len, ← haddr]
    exact Nat.lt_of_lt_of_le hrange.2 h.bounds.2
  have hentry : getU32 (s.disk (din.addr NDIRECT).toNat) (4 * (fbn - NDIRECT)) ≠ 0 :=
    fun h0 => hne (by rw [h0]; rfl)
  rw [dif_neg hdir, if_neg hind]
  change (rsect (din.addr NDIRECT).toNat >>= fun indirect => _) s = _
  rw [bind_of_done (rsect_eq hlt), if_neg hentry]
  rfl

theorem appendBlock_direct (hdir : fbn < NDIRECT) (hnone : din.addr fbn = 0) :
    appendBlock din fbn s = .done
      (din.setAddr ⟨fbn, Nat.lt_succ_of_lt hdir⟩ (UInt32.ofNat s.freeblock),
        (UInt32.ofNat s.freeblock).toNat) (spent s) := by
  unfold appendBlock
  rw [dif_pos hdir, if_pos hnone]
  rfl

theorem appendBlock_entry (hdir : ¬ fbn < NDIRECT) (hind : din.addr NDIRECT ≠ 0)
    (hlt : (din.addr NDIRECT).toNat < s.len)
    (hnone : getU32 (s.disk (din.addr NDIRECT).toNat) (4 * (fbn - NDIRECT)) = 0) :
    appendBlock din fbn s = .done (din, (UInt32.ofNat s.freeblock).toNat)
      (entered s (din.addr NDIRECT).toNat (fbn - NDIRECT)) := by
  have hmax : max s.len ((din.addr NDIRECT).toNat + 1) = s.len := max_eq_left hlt
  unfold appendBlock
  rw [dif_neg hdir, if_neg hind]
  change (rsect (din.addr NDIRECT).toNat >>= fun indirect => _) s = _
  rw [bind_of_done (rsect_eq hlt), if_pos hnone]
  change Outcome.done _ { s with
    disk := update s.disk _ _, len := max s.len _, freeblock := _, trace := _ } = _
  rw [hmax]
  rfl

theorem appendBlock_indirect (hdir : ¬ fbn < NDIRECT) (hnone : din.addr NDIRECT = 0)
    (hne : UInt32.ofNat s.freeblock ≠ 0) :
    appendBlock din fbn s =
      appendBlock (din.setAddr (Fin.last NDIRECT) (UInt32.ofNat s.freeblock)) fbn (spent s) := by
  have haddr : (din.setAddr (Fin.last NDIRECT) (UInt32.ofNat s.freeblock)).addr NDIRECT ≠ 0 := by
    rw [DiskInode.addr_setAddr]
    exact hne
  unfold appendBlock
  rw [dif_neg hdir, dif_neg hdir, if_pos hnone, if_neg haddr]
  rfl

theorem appendBlock_past (hdir : ¬ fbn < NDIRECT) (hind : din.addr NDIRECT ≠ 0)
    (hpast : s.len ≤ (din.addr NDIRECT).toNat) :
    appendBlock din fbn s = .panic "read" := by
  unfold appendBlock
  rw [dif_neg hdir, if_neg hind]
  change Code.bind (rsect (din.addr NDIRECT).toNat) _ s = _
  unfold Code.bind
  rw [rsect_fail hpast]

theorem cost_succ_direct (h : n < NDIRECT) : cost (n + 1) = cost n + 1 := by
  unfold cost
  rw [if_neg (by omega), if_neg (by omega)]

theorem cost_succ_first : cost (NDIRECT + 1) = cost NDIRECT + 2 := rfl

theorem cost_succ_entry (h : NDIRECT < n) : cost (n + 1) = cost n + 1 := by
  unfold cost
  rw [if_pos (by omega), if_pos h]

theorem cost_mono {n' : ℕ} (h : n ≤ n') : cost n ≤ cost n' := by
  unfold cost
  split_ifs <;> omega

theorem gave_entry (h : Built (some i) tab s) (hi : 1 ≤ i) (hi' : i < s.freeinode)
    (din : DiskInode) (fbn : ℕ) (hdin : (tab i).inode = { din with size := (tab i).inode.size })
    (hn : (tab i).n = fbn) (hdir : NDIRECT ≤ fbn) (hmax : fbn < MAXFILE)
    (hind : din.addr NDIRECT ≠ 0) :
    ∃ r s', appendBlock din fbn s = .done r s' ∧
      ((∃ e, e.inode = { r.1 with size := (tab i).inode.size } ∧
        e.inode.type = (tab i).inode.type ∧ e.data = (tab i).data ∧ e.n = fbn + 1 ∧
        Built (some i) (update tab i e) s' ∧
        r.2 = blockOf s'.disk e.inode fbn ∧ s'.freeinode = s.freeinode ∧
        s'.freeblock = s.freeblock + 1) ∨
        s'.len = FSSIZE ∧ FSSIZE ≤ r.2 ∧ s.freeblock = FSSIZE) := by
  have hfile := h.file i hi hi'
  have haddr : ∀ k, (tab i).inode.addr k = din.addr k := by
    intro k
    rw [hdin]
    rfl
  have hind0 : ((tab i).inode.addr NDIRECT).toNat ≠ 0 := by
    rw [haddr]
    exact fun h0 => hind (UInt32.toNat_inj.1 h0)
  have hrange := h.place_lt i .indirect hind0
  have hlt : (din.addr NDIRECT).toNat < s.len := by
    rw [h.len, ← haddr]
    exact Nat.lt_of_lt_of_le hrange.2 h.bounds.2
  have hnone : getU32 (s.disk (din.addr NDIRECT).toNat) (4 * (fbn - NDIRECT)) = 0 := by
    by_contra hne
    have hblock : blockOf s.disk (tab i).inode fbn ≠ 0 := by
      unfold blockOf
      rw [haddr NDIRECT, if_neg (by omega), if_neg hind]
      exact fun h0 => hne (UInt32.toNat_inj.1 h0)
    have := (hfile.blocks fbn).1 hblock
    omega
  refine ⟨_, _, appendBlock_entry (by omega) hind hlt hnone, ?_⟩
  have hnat := toNat_freeblock h
  by_cases hroom : s.freeblock < FSSIZE
  · left
    have hbuilt := h.entry hi hi' (by omega) (by omega) (by rwa [haddr]) hroom
    rw [haddr, hn] at hbuilt
    refine ⟨⟨(tab i).inode, (tab i).data, fbn + 1⟩, hdin, rfl, rfl, rfl, hbuilt, ?_, rfl, rfl⟩
    dsimp only
    rw [hnat]
    unfold blockOf entered
    dsimp only
    rw [haddr NDIRECT, if_neg (by omega), if_neg hind, update_self,
      getU32_putU32_entry _ _ (by unfold MAXFILE at hmax; omega), if_pos rfl, hnat]
  · right
    have := h.bounds.2
    refine ⟨h.len, ?_, by omega⟩
    dsimp only
    rw [hnat]
    omega

/-- What `appendBlock` does with a file that has `n` blocks in place. -/
abbrev AppendEnds (tab : ℕ → Entry) (s : Mkfs) (i n : ℕ) (din : DiskInode) (fbn : ℕ) : Prop :=
  Ends (s.freeblock + cost (fbn + 1) ≤ FSSIZE + cost n) (appendBlock din fbn)
    (fun r s' => (∃ e, Appended tab s i fbn r.1 r.2 e s') ∨
      s'.len = FSSIZE ∧ FSSIZE ≤ r.2 ∧ ¬ s.freeblock + cost (fbn + 1) ≤ FSSIZE + cost n) s

section Append

variable (h : Built (some i) tab s) (hi : 1 ≤ i) (hi' : i < s.freeinode)
  (hdin : (tab i).inode = { din with size := (tab i).inode.size })
  (hind : (tab i).inode.addr NDIRECT ≠ 0 → NDIRECT < (tab i).n)
include h hi hi' hdin hind

theorem append_direct (hdir : (tab i).n < NDIRECT) :
    AppendEnds tab s i (tab i).n din (tab i).n := by
  have hnone : din.addr (tab i).n = 0 := by
    by_contra hne
    have hblock : blockOf s.disk (tab i).inode (tab i).n ≠ 0 := by
      unfold blockOf
      rw [if_pos hdir, hdin]
      exact fun h0 => hne (UInt32.toNat_inj.1 h0)
    have := ((h.file i hi hi').blocks (tab i).n).1 hblock
    omega
  refine .inl ⟨_, _, appendBlock_direct hdir hnone, ?_⟩
  have hcost := cost_succ_direct hdir
  by_cases hroom : s.freeblock < FSSIZE
  · left
    refine ⟨_, h.direct hi hi' hdir hroom, ?_, rfl, rfl, rfl, ?_, ?_, rfl, ?_⟩
    · dsimp only
      nth_rewrite 1 [hdin]
      rfl
    · dsimp only
      unfold blockOf
      rw [if_pos hdir, DiskInode.addr_setAddr, if_pos rfl, toNat_freeblock h]
    · dsimp only
      rw [DiskInode.addr_setAddr, if_neg (by dsimp only; omega)]
      intro hne
      have := hind hne
      omega
    · change s.freeblock + 1 + _ = _
      omega
  · right
    have := toNat_freeblock h
    refine ⟨h.len, ?_, by omega⟩
    dsimp only
    omega

omit hind in
/-- The indirect block is missing, so its first entry is written. -/
theorem append_first (hn : (tab i).n = NDIRECT) (hz : din.addr NDIRECT = 0) :
    AppendEnds tab s i NDIRECT din NDIRECT := by
  have hne := ofNat_freeblock_ne h
  have hset : (din.setAddr (Fin.last NDIRECT) (UInt32.ofNat s.freeblock)).addr NDIRECT =
      UInt32.ofNat s.freeblock := by
    rw [DiskInode.addr_setAddr]
    exact if_pos rfl
  have hstep := appendBlock_indirect (Nat.lt_irrefl NDIRECT) hz hne
  unfold AppendEnds
  rw [cost_succ_first]
  by_cases hroom : s.freeblock < FSSIZE
  · have hB := h.indirect hi hi' hn (by rw [hdin]; exact hz) hroom
    obtain ⟨r, s', hrun, hcase⟩ := gave_entry hB hi hi'
      (din.setAddr (Fin.last NDIRECT) (UInt32.ofNat s.freeblock)) NDIRECT
      (by rw [update_self]; nth_rewrite 1 [hdin]; rfl)
      (by rw [update_self]; exact hn) le_rfl (by decide) (hset.trans_ne hne)
    refine .inl ⟨r, s', hstep.trans hrun, ?_⟩
    rw [update_self] at hcase
    rcases hcase with ⟨e, he, htype, hdata, hen, hbuilt, hblock, hino, hfb⟩ | ⟨hlen, hpast, hfull⟩
    · left
      rw [update_idem] at hbuilt
      refine ⟨e, hbuilt, he, htype, hdata, hen, hblock, fun _ => by omega, hino, ?_⟩
      rw [hfb, hn, cost_succ_first]
      change s.freeblock + 1 + 1 + _ = _
      omega
    · right
      change s.freeblock + 1 = FSSIZE at hfull
      exact ⟨hlen, hpast, by omega⟩
  · refine .inr ⟨by omega, "read", hstep.trans ?_⟩
    apply appendBlock_past (Nat.lt_irrefl _)
    · exact hset.trans_ne hne
    · rw [hset, toNat_freeblock h]
      change s.len ≤ _
      rw [h.len]
      omega

theorem append_later (hdir : ¬ (tab i).n < NDIRECT) (hmax : (tab i).n < MAXFILE)
    (hz : din.addr NDIRECT ≠ 0) : AppendEnds tab s i (tab i).n din (tab i).n := by
  obtain ⟨r, s', hrun, hcase⟩ := gave_entry h hi hi' din _ hdin rfl (by omega) hmax hz
  have hlt : NDIRECT < (tab i).n := hind (by rw [hdin]; exact hz)
  have hcost := cost_succ_entry hlt
  refine .inl ⟨r, s', hrun, ?_⟩
  rcases hcase with ⟨e, he, htype, hdata, hen, hbuilt, hblock, hino, hfb⟩ | ⟨hlen, hpast, hfull⟩
  · left
    exact ⟨e, hbuilt, he, htype, hdata, hen, hblock, fun _ => by omega, hino, by rw [hfb]; omega⟩
  · right
    exact ⟨hlen, hpast, by omega⟩

theorem ok_appendBlock (hfbn : fbn ≤ (tab i).n) (hle : (tab i).n ≤ fbn + 1)
    (hmax : fbn < MAXFILE) : AppendEnds tab s i (tab i).n din fbn := by
  by_cases hn : (tab i).n = fbn + 1
  · refine .inl ⟨_, s, appendBlock_old h hi hi' hdin hn, .inl ⟨tab i, ?_⟩⟩
    exact ⟨by rwa [update_eq_self], hdin, rfl, rfl, hn, rfl, hind, rfl, by rw [hn]⟩
  obtain rfl : (tab i).n = fbn := by omega
  by_cases hdir : (tab i).n < NDIRECT
  · exact append_direct h hi hi' hdin hind hdir
  by_cases hz : din.addr NDIRECT = 0
  · have hfirst : (tab i).n = NDIRECT := by
      by_contra hne
      have hblock := ((h.file i hi hi').blocks NDIRECT).2 (by omega)
      unfold blockOf at hblock
      rw [if_neg (Nat.lt_irrefl _), hdin] at hblock
      exact hblock (if_pos hz)
    rw [hfirst]
    exact append_first h hi hi' hdin hfirst hz
  · exact append_later h hi hi' hdin hind hdir hmax hz

end Append

structure Entry.Tight (e : Entry) : Prop where
  n : e.n = nblocks e.data.length
  indirect : e.inode.addr NDIRECT ≠ 0 → NDIRECT < e.n

structure Extended (tab : ℕ → Entry) (s : Mkfs) (i : ℕ) (p : List UInt8) (e : Entry) (s' : Mkfs) :
    Prop where
  built : Built (some i) (update tab i e) s'
  tight : e.Tight
  data : e.data = (tab i).data ++ p
  type : e.inode.type = (tab i).inode.type
  freeinode : s'.freeinode = s.freeinode
  spent : s'.freeblock + cost (tab i).n = s.freeblock + cost e.n

def Room (e : Entry) (s : Mkfs) (more : ℕ) : Prop :=
  e.data.length + more ≤ MAXFILE * BSIZE ∧
    s.freeblock + cost (nblocks (e.data.length + more)) ≤ FSSIZE + cost e.n

theorem setBytes_take (d : Block) (off n : ℕ) (p : List UInt8) :
    setBytes d off n (fun k => p.getD k 0) = setBytes d off n fun k => (p.take n).getD k 0 := by
  funext k
  unfold setBytes
  split_ifs with hk
  · dsimp only
    rw [List.getD_eq_getElem?_getD, List.getD_eq_getElem?_getD, List.getElem?_take_of_lt (by omega)]
  · rfl

theorem Extended.trans {q : List UInt8} {e' : Entry} {s2 : Mkfs} (h : Extended tab s i p e s₁)
    (h' : Extended (update tab i e) s₁ i q e' s2) :
    Extended tab s i (p ++ q) e' s2 := by
  obtain ⟨hbuilt, htight, hdata, htype, hino, hspent⟩ := h'
  rw [update_self] at hdata htype hspent
  rw [update_idem] at hbuilt
  refine ⟨hbuilt, htight, ?_, htype.trans h.type, hino.trans h.freeinode, ?_⟩
  · rw [hdata, h.data, List.append_assoc]
  · have := h.spent
    omega

theorem Appended.write {off n1 x : ℕ} (hA : Appended tab s i fbn din x e s₁) (hi : 1 ≤ i)
    (hi' : i < s.freeinode) (hoff : off = (tab i).data.length) (hfbn : fbn = off / BSIZE)
    (hpos : 0 < n1) (hn1 : n1 ≤ p.length) (hend : n1 ≤ (fbn + 1) * BSIZE - off) :
    x < s₁.len ∧ ∃ e', Extended tab s i (p.take n1) e' (wrote s₁ x (off - fbn * BSIZE) n1 p) ∧
      e'.inode = { din with size := UInt32.ofNat (off + n1) } := by
  have hB : BSIZE = 1024 := rfl
  have hself : update tab i e i = e := update_self i e tab
  have hi1 : i < s₁.freeinode := by
    rw [hA.freeinode]
    exact hi'
  have hlen : e.data.length = off := by
    rw [hA.data, hoff]
  have htake : (p.take n1).length = n1 := List.length_take_of_le hn1
  have hfile := hA.built.file i hi hi1
  rw [hself] at hfile
  have hrange := hA.built.place_lt i (.data fbn)
    (by rw [hself]; exact (hfile.blocks fbn).2 (by rw [hA.n]; omega))
  rw [hself] at hrange
  have happ := hA.built.append hi hi1 fbn (p.take n1)
    (by rw [hself, hlen]; exact hfbn) (by rw [hself, hA.n]; omega)
    (by rw [hself, hlen, htake]; exact hend)
  rw [hself, hlen, htake, update_idem, ← hA.block] at happ
  have hwrote : wrote s₁ x (off - fbn * BSIZE) n1 (p.take n1) =
      wrote s₁ x (off - fbn * BSIZE) n1 p := by
    unfold wrote
    rw [← setBytes_take]
  rw [hwrote] at happ
  refine ⟨?_, _, ⟨happ, ⟨?_, hA.indirect⟩, ?_, hA.type, hA.freeinode, ?_⟩, ?_⟩
  · rw [hA.block, hA.built.len]
    exact Nat.lt_of_lt_of_le hrange.2 hA.built.bounds.2
  · dsimp only
    rw [hA.n, List.length_append, hlen, htake]
    unfold nblocks
    rw [hB] at hfbn hend ⊢
    omega
  · dsimp only
    rw [hA.data]
  · dsimp only
    rw [hA.n]
    exact hA.spent
  · dsimp only
    rw [hA.inode]

theorem Built.extended_nil (h : Built (some i) tab s) (ht : (tab i).Tight) :
    Extended tab s i [] (tab i) s := by
  refine ⟨?_, ht, (List.append_nil _).symm, rfl, rfl, rfl⟩
  rw [update_eq_self]
  exact h

theorem ok_iappendFrom {fuel : ℕ} (din : DiskInode) (off : ℕ) (p : List UInt8)
    (hfuel : p.length ≤ fuel) (h : Built (some i) tab s) (hi : 1 ≤ i) (hi' : i < s.freeinode)
    (ht : (tab i).Tight)
    (hdin : (tab i).inode = { din with size := UInt32.ofNat off })
    (hoff : off = (tab i).data.length) :
    Ends (Room (tab i) s p.length) (iappendFrom fuel din off p) (fun r s' => ∃ e,
      Extended tab s i p e s' ∧ r.2 = off + p.length ∧
        e.inode = { r.1 with size := UInt32.ofNat r.2 }) s := by
  have hB : BSIZE = 1024 := rfl
  induction fuel generalizing tab s off din p with
  | zero =>
    obtain rfl : p = [] := List.length_eq_zero_iff.1 (Nat.le_zero.1 hfuel)
    exact ends_pure ⟨tab i, h.extended_nil ht, rfl, hdin⟩
  | succ fuel ih =>
    unfold iappendFrom
    by_cases hp : p = []
    · rw [if_pos hp]
      subst hp
      exact ends_pure ⟨tab i, h.extended_nil ht, rfl, hdin⟩
    rw [if_neg hp]
    have hpos : 0 < p.length := List.length_pos_of_ne_nil hp
    have hn := ht.n
    rw [← hoff] at hn
    dsimp only
    by_cases hmax : MAXFILE ≤ off / BSIZE
    · rw [if_pos hmax]
      refine .inr ⟨?_, "assert", rfl⟩
      rintro ⟨hlen, -⟩
      rw [← hoff, hB] at hlen
      rw [hB] at hmax
      omega
    rw [if_neg hmax]
    have hfbn : off / BSIZE ≤ (tab i).n ∧ (tab i).n ≤ off / BSIZE + 1 := by
      rw [hn]
      unfold nblocks
      rw [hB]
      omega
    have hlocal : Room (tab i) s p.length →
        s.freeblock + cost (off / BSIZE + 1) ≤ FSSIZE + cost (tab i).n := by
      rintro ⟨-, hroom⟩
      have hgrow : off / BSIZE + 1 ≤ nblocks (off + p.length) := by
        unfold nblocks
        rw [hB]
        omega
      rw [← hoff] at hroom
      have := cost_mono hgrow
      omega
    have hdin' : (tab i).inode = { din with size := (tab i).inode.size } := by
      rw [hdin]
    apply ((ok_appendBlock h hi hi' hdin' ht.indirect hfbn.1 hfbn.2 (by omega)).mono hlocal
      fun _ _ h => h).bind
    rintro ⟨din', x⟩ s₁ (⟨e, hA⟩ | ⟨hlen, hpast, hnot⟩)
    · obtain ⟨n1, hn1⟩ : ∃ n1, n1 = min p.length ((off / BSIZE + 1) * BSIZE - off) := ⟨_, rfl⟩
      have hn1pos : 0 < n1 := by
        rw [hB] at hn1
        omega
      obtain ⟨hx, e2, hE, hin⟩ := hA.write hi hi' hoff rfl hn1pos (p := p) (by omega) (by omega)
      have hself : update tab i e2 i = e2 := update_self i e2 tab
      have htake : (p.take n1).length = n1 := List.length_take_of_le (by omega)
      have hlen2 : e2.data.length = off + n1 := by
        rw [hE.data, List.length_append, htake, hoff]
      have hrest := ih din' (off + n1) (p.drop n1) (by rw [List.length_drop]; omega) hE.built
        (by rw [hE.freeinode]; exact hi') (by rw [hself]; exact hE.tight)
        (by rw [hself]; exact hin) (by rw [hself, hlen2])
      dsimp only
      rw [← hn1]
      have hmax : max s₁.len (x + 1) = s₁.len := max_eq_left hx
      refine Ends.of_run ?_ (hrest.mono ?_ ?_)
      · rw [bind_of_done (rsect_eq hx)]
        change iappendFrom fuel din' (off + n1) (p.drop n1) { s₁ with
          disk := update s₁.disk x _, len := max s₁.len (x + 1), trace := _ } = _
        rw [hmax]
        rfl
      · rintro ⟨hbig, hroom⟩
        have hspent := hE.spent
        rw [hself]
        unfold Room
        rw [hlen2, List.length_drop, show off + n1 + (p.length - n1) = off + p.length by omega]
        rw [← hoff] at hbig hroom
        exact ⟨hbig, by omega⟩
      · rintro r s2 ⟨e3, hE3, hr, hin3⟩
        refine ⟨e3, ?_, ?_, hin3⟩
        · have htrans := hE.trans hE3
          rwa [List.take_append_drop] at htrans
        · rw [hr, List.length_drop]
          omega
    · refine .inr ⟨fun hroom => hnot (hlocal hroom), "read", ?_⟩
      change Code.bind (rsect x) _ s₁ = _
      unfold Code.bind
      rw [rsect_fail (by rw [hlen]; exact hpast)]

structure Ready (tab : ℕ → Entry) (s : Mkfs) : Prop extends Built none tab s where
  tight : ∀ j, (tab j).Tight

theorem Built.stale (h : Built none tab s) : Built (some i) tab s :=
  ⟨h.len, h.inodes, h.bounds, fun j hj _ => h.stored j hj nofun, h.numbered, h.blank, h.unused,
    h.file, h.trace⟩

theorem tight_none : Entry.none.Tight := by
  refine ⟨rfl, fun hne => absurd ?_ hne⟩
  rfl

theorem tight_update (h : ∀ j, (tab j).Tight) (he : e.Tight) (j : ℕ) :
    (update tab i e j).Tight := by
  by_cases hji : j = i
  · rw [hji, update_self]
    exact he
  · rw [update_of_ne hji]
    exact h j

structure Longer (tab : ℕ → Entry) (s : Mkfs) (i : ℕ) (p : List UInt8) (tab' : ℕ → Entry)
    (s' : Mkfs) : Prop where
  ready : Ready tab' s'
  other : ∀ j, j ≠ i → tab' j = tab j
  data : (tab' i).data = (tab i).data ++ p
  type : (tab' i).inode.type = (tab i).inode.type
  freeinode : s'.freeinode = s.freeinode
  spent : s'.freeblock + cost (tab i).n = s.freeblock + cost (tab' i).n

theorem ok_iappend (h : Ready tab s) (hi : 1 ≤ i) (hi' : i < s.freeinode) :
    Ends (Room (tab i) s p.length) (iappend i p) (fun _ s' => ∃ tab',
    Longer tab s i p tab' s') s := by
  have hlt := h.inum_lt hi'
  have hsize := (h.file i hi hi').size
  unfold iappend
  refine Ends.of_run (bind_of_done (rinode_eq h.toBuilt hlt)) ?_
  have hloop := ok_iappendFrom (tab i).inode (tab i).inode.size.toNat p le_rfl h.toBuilt.stale hi
    hi' (h.tight i) (by rw [UInt32.ofNat_toNat]) hsize
  apply hloop.bind
  rintro ⟨din, off⟩ s₁ ⟨e, hE, -, hin⟩
  have hself : update tab i e i = e := update_self i e tab
  have hi1 : i < s₁.freeinode := by
    rw [hE.freeinode]
    exact hi'
  dsimp only at hin ⊢
  rw [← hin]
  refine .inl ⟨(), _, winode_eq hE.built.len hlt e.inode, update tab i e, ?_, ?_, ?_, ?_,
    hE.freeinode, ?_⟩
  · have hstore := hE.built.store hi1
    rw [hself] at hstore
    exact ⟨hstore, tight_update h.tight hE.tight⟩
  · exact fun j hji => update_of_ne hji e tab
  · rw [hself, hE.data]
  · rw [hself, hE.type]
  · rw [hself]
    exact hE.spent

theorem Longer.trans {q : List UInt8} {tab1 tab2 : ℕ → Entry} {s2 : Mkfs}
    (h : Longer tab s i p tab1 s₁) (h' : Longer tab1 s₁ i q tab2 s2) :
    Longer tab s i (p ++ q) tab2 s2 := by
  refine ⟨h'.ready, ?_, ?_, h'.type.trans h.type, h'.freeinode.trans h.freeinode, ?_⟩
  · exact fun j hji => (h'.other j hji).trans (h.other j hji)
  · rw [h'.data, h.data, List.append_assoc]
  · have := h.spent
    have := h'.spent
    omega

def contents (cs : List Chunk) : List UInt8 := (cs.map Subtype.val).flatten

theorem Ready.longer_nil (h : Ready tab s) : Longer tab s i [] tab s :=
  ⟨h, fun _ _ => rfl, (List.append_nil _).symm, rfl, rfl, rfl⟩

theorem ok_appendChunks {cs : List Chunk} (h : Ready tab s) (hi : 1 ≤ i) (hi' : i < s.freeinode) :
    Ends (Room (tab i) s (contents cs).length) (appendChunks i cs)
      (fun _ s' => ∃ tab', Longer tab s i (contents cs) tab' s') s := by
  induction cs generalizing tab s with
  | nil => exact ends_pure ⟨tab, h.longer_nil⟩
  | cons c cs ih =>
    have hcons : contents (c :: cs) = c.1 ++ contents cs := rfl
    have hlen : (contents (c :: cs)).length = c.1.length + (contents cs).length := by
      rw [hcons, List.length_append]
    have hfirst : Room (tab i) s (contents (c :: cs)).length → Room (tab i) s c.1.length := by
      rintro ⟨hbig, hroom⟩
      rw [hlen] at hbig hroom
      refine ⟨by omega, ?_⟩
      have hle : nblocks ((tab i).data.length + c.1.length) ≤
          nblocks ((tab i).data.length + (c.1.length + (contents cs).length)) := by
        unfold nblocks
        exact Nat.div_le_div_right (by omega)
      have := cost_mono hle
      omega
    unfold appendChunks
    apply ((ok_iappend (p := c.1) h hi hi').mono hfirst fun _ _ h => h).bind
    rintro _ s₁ ⟨tab1, hL⟩
    refine (ih hL.ready (by rw [hL.freeinode]; exact hi')).mono ?_ ?_
    · rintro ⟨hbig, hroom⟩
      have hspent := hL.spent
      rw [hlen, ← Nat.add_assoc] at hbig hroom
      unfold Room
      rw [hL.data, List.length_append]
      exact ⟨hbig, by omega⟩
    · rintro _ s2 ⟨tab2, hL2⟩
      rw [hcons]
      exact ⟨tab2, hL.trans hL2⟩

def Entry.new (type : UInt16) : Entry :=
  ⟨{ DiskInode.zero with type := type, nlink := 1, size := 0 }, [], 0⟩

theorem place_new (disk : ℕ → Block) (type : UInt16) (pl : Place) :
    place disk (Entry.new type).inode pl = 0 := place_zero disk pl

theorem file_new (disk : ℕ → Block) (type : UInt16) : File disk (Entry.new type) := by
  refine ⟨rfl, rfl, Nat.zero_le _, Nat.zero_le _, ?_, fun _ => ?_, ?_⟩
  · intro bn
    have hzero := place_new disk type (.data bn)
    change blockOf disk (Entry.new type).inode bn = 0 at hzero
    rw [hzero]
    exact ⟨fun h => absurd rfl h, fun h => absurd h (Nat.not_lt_zero bn)⟩
  · rename_i hne
    exact absurd rfl hne
  · exact fun j hj => absurd hj (Nat.not_lt_zero j)

theorem tight_new (type : UInt16) : (Entry.new type).Tight := by
  refine ⟨?_, fun hne => absurd ?_ hne⟩
  · change 0 = nblocks 0
    rfl
  · rfl

def counted (s : Mkfs) : Mkfs :=
  { s with freeinode := s.freeinode + 1, trace := s.trace ++ [.inode s.freeinode] }

theorem Built.newInode (h : Built none tab s) (type : UInt16)
    (hroom : s.freeinode < ninodeblocks * IPB) :
    Built (some s.freeinode) (update tab s.freeinode (Entry.new type)) (counted s) := by
  have hother : ∀ j, j ≠ s.freeinode →
      update tab s.freeinode (Entry.new type) j = tab j :=
    fun j hj => update_of_ne hj _ tab
  have hplaces : places s.disk (update tab s.freeinode (Entry.new type)) =
      places s.disk tab := by
    funext x
    unfold places
    by_cases hx : x.1 = s.freeinode
    · rw [hx, update_self, place_new, h.unused s.freeinode (by omega)]
      exact (place_zero s.disk x.2).symm
    · rw [hother x.1 hx]
  refine ⟨h.len, ⟨Nat.le_succ_of_le h.inodes.1, hroom⟩, h.bounds, ?_, ?_, h.blank, ?_, ?_, ?_⟩
  · intro j hj hcur
    rw [hother j fun heq => hcur (by rw [heq])]
    exact h.stored j hj nofun
  · change Numbered (places s.disk _) _ _
    rw [hplaces]
    exact h.numbered
  · intro j hj
    change ¬ (1 ≤ j ∧ j < s.freeinode + 1) at hj
    have hlo := h.inodes.1
    rw [hother j (by omega)]
    exact h.unused j (by omega)
  · intro j hj hj'
    change j < s.freeinode + 1 at hj'
    by_cases hfi : j = s.freeinode
    · rw [hfi, update_self]
      exact file_new s.disk type
    · rw [hother j hfi]
      exact h.file j hj (by omega)
  · intro ev hev
    rcases List.mem_append.1 hev with hold | hnew
    · exact (h.trace ev hold).mono (Nat.le_succ s.freeinode)
    · rw [List.mem_singleton] at hnew
      rw [hnew]
      exact Nat.lt_succ_self s.freeinode

theorem ok_ialloc (h : Ready tab s) (type : UInt16) (hroom : s.freeinode < ninodeblocks * IPB) :
    ∃ s', ialloc type s = .done s.freeinode s' ∧
      Ready (update tab s.freeinode (Entry.new type)) s' ∧
        s'.freeinode = s.freeinode + 1 ∧ s'.freeblock = s.freeblock := by
  have hnew := h.toBuilt.newInode type hroom
  have hlt : s.freeinode < ninodeblocks * IPB := hnew.inum_lt (Nat.lt_succ_self s.freeinode)
  have hstore := hnew.store (Nat.lt_succ_self s.freeinode)
  rw [update_self] at hstore
  have hnext : nextInode s = .done s.freeinode (counted s) := rfl
  refine ⟨storedInode (counted s) s.freeinode (Entry.new type).inode, ?_,
    ⟨hstore, tight_update h.tight (tight_new type)⟩, rfl, rfl⟩
  unfold ialloc
  rw [bind_of_done hnext]
  exact bind_of_done (winode_eq hnew.len hlt (Entry.new type).inode)

end Xv6.MkfsImage
