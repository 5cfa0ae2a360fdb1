import Xv6.UserCopy

set_option autoImplicit false

namespace Xv6.UserAccess
open Resumption Xv6.Sequential ByteFields Paging PageOwners VmCode

variable {K : Image} {G : Ghost} {m m' m'' : Memory} {r : ℕ}
variable {src n va buf len i : ℕ} {out : Bool}

def byteAt (m : Memory) (pa : ℕ) : UInt8 := byte (m.page (PGROUNDDOWN pa)) (pa % PGSIZE)

def Within (pa n : ℕ) : Prop := KERNBASE ≤ pa ∧ pa + n ≤ PHYSTOP

instance (pa n : ℕ) : Decidable (Within pa n) := inferInstanceAs (Decidable (_ ∧ _))

def moved (m : Memory) (dst src n : ℕ) : Memory :=
  { m with
    page := fun p i =>
      if p % PGSIZE = 0 ∧ dst ≤ p + i.val ∧ p + i.val < dst + n then
        byteAt m (src + (p + i.val - dst))
      else m.page p i }

/-- `memmove(dst, src, n)` -/
def memmove (dst src n : ℕ) : Code Memory Unit := fun m =>
  if Within dst n ∧ Within src n then .done () (moved m dst src n) else .undefined

theorem memmove_within {dst : ℕ} (hdst : Within dst n) (hsrc : Within src n) :
    memmove dst src n m = .done () (moved m dst src n) :=
  if_pos ⟨hdst, hsrc⟩

theorem offset_lt (pa : ℕ) : pa % PGSIZE < PGSIZE := Nat.mod_lt _ (by decide)

theorem byteAt_moved (m : Memory) (dst src n pa : ℕ) :
    byteAt (moved m dst src n) pa =
      if dst ≤ pa ∧ pa < dst + n then byteAt m (src + (pa - dst)) else byteAt m pa := by
  have haligned : PGROUNDDOWN pa % PGSIZE = 0 := Nat.mul_mod_left _ _
  have hsplit : PGROUNDDOWN pa + pa % PGSIZE = pa := Nat.div_add_mod' pa PGSIZE
  unfold byteAt byte
  rw [dif_pos (offset_lt pa), dif_pos (offset_lt pa)]
  change (if PGROUNDDOWN pa % PGSIZE = 0 ∧ dst ≤ PGROUNDDOWN pa + pa % PGSIZE ∧
    PGROUNDDOWN pa + pa % PGSIZE < dst + n then
      byteAt m (src + (PGROUNDDOWN pa + pa % PGSIZE - dst)) else m.page (PGROUNDDOWN pa) _) = _
  rw [hsplit]
  simp only [haligned, true_and]
  rfl

theorem page_eq {q : ℕ} (hq : q % PGSIZE = 0)
    (h : ∀ pa, PGROUNDDOWN pa = q → byteAt m' pa = byteAt m pa) : m'.page q = m.page q := by
  apply bytes_ext
  intro i hi
  have hdown : PGROUNDDOWN (q + i) = q := by
    unfold PGROUNDDOWN
    unfold PGSIZE at *
    omega
  have hoff : (q + i) % PGSIZE = i := by
    unfold PGSIZE at *
    omega
  have hbyte := h (q + i) hdown
  unfold byteAt at hbyte
  rwa [hdown, hoff] at hbyte

/-- The `i`-th byte from `S i` is at `D i` now, and nothing else has changed. -/
structure Copied (D S : ℕ → ℕ) (n : ℕ) (m m' : Memory) : Prop where
  new : ∀ i < n, byteAt m' (D i) = byteAt m (S i)
  old : ∀ pa, (∀ i < n, pa ≠ D i) → byteAt m' pa = byteAt m pa
  rest : m' = { m with page := m'.page }

theorem copied_zero (D S : ℕ → ℕ) (m : Memory) : Copied D S 0 m m :=
  ⟨fun i hi => absurd hi (Nat.not_lt_zero i), fun _ _ => rfl, rfl⟩

theorem copied_moved {D S : ℕ → ℕ} {dst : ℕ} (hD : ∀ i < n, D i = dst + i)
    (hS : ∀ i < n, S i = src + i) : Copied D S n m (moved m dst src n) := by
  refine ⟨fun i hi => ?_, fun pa hpa => ?_, rfl⟩
  · rw [byteAt_moved, hD i hi, hS i hi, if_pos (by omega), Nat.add_sub_cancel_left]
  · rw [byteAt_moved, if_neg]
    rintro ⟨hle, hlt⟩
    apply hpa (pa - dst) (by omega)
    rw [hD _ (by omega)]
    omega

theorem Copied.append {D S : ℕ → ℕ} {k : ℕ} (h : Copied D S n m m')
    (h' : Copied (fun i => D (n + i)) (fun i => S (n + i)) k m' m'')
    (hinj : ∀ i < n, ∀ j < k, D i ≠ D (n + j)) (hsrc : ∀ i < n, ∀ j < k, S (n + j) ≠ D i) :
    Copied D S (n + k) m m'' := by
  refine ⟨fun i hi => ?_, fun pa hpa => ?_, ?_⟩
  · by_cases hlow : i < n
    · rw [h'.old (D i) fun j hj => hinj i hlow j hj, h.new i hlow]
    · obtain ⟨j, rfl⟩ := Nat.exists_eq_add_of_le (Nat.le_of_not_lt hlow)
      rw [h'.new j (by omega)]
      exact h.old (S (n + j)) fun i' hi' => hsrc i' hi' j (by omega)
  · rw [h'.old pa fun j hj => hpa (n + j) (by omega), h.old pa fun i hi => hpa i (by omega)]
  · rw [h'.rest, h.rest]

/-- The `memmove` of a round, to the user page or from it. -/
def move (out : Bool) (pa buf n : ℕ) : Code Memory Unit :=
  if out then memmove pa buf n else memmove buf pa n

/-- `copyout` or `copyin` between the user address `va` and the kernel address `buf`. -/
def copyFrom (out : Bool) (pagetable : ℕ) : ℕ → ℕ → ℕ → ℕ → Code Memory ℤ
  | _, _, _, 0 => return 0
  | 0, _, _, _ => .undefined
  | k + 1, va, buf, len => do
    let va0 := PGROUNDDOWN va
    let pa0 ← walkaddr pagetable va0
    if pa0 = 0 then return -1
    else
      let n := min (PGSIZE - (va - va0)) len
      move out (pa0 + (va - va0)) buf n
      copyFrom out pagetable k (u64 (va0 + PGSIZE)) (buf + n) (len - n)

def copyout (pagetable dstva src len : ℕ) : Code Memory ℤ :=
  copyFrom true pagetable len dstva src len

def copyin (pagetable dst srcva len : ℕ) : Code Memory ℤ :=
  copyFrom false pagetable len srcva dst len

def Accessible (G : Ghost) (r va : ℕ) : Prop :=
  va < MAXVA ∧ G.leaf r (va / PGSIZE) &&& PTE_V ≠ 0 ∧ G.leaf r (va / PGSIZE) &&& PTE_U ≠ 0

instance (G : Ghost) (r va : ℕ) : Decidable (Accessible G r va) :=
  inferInstanceAs (Decidable (_ ∧ _))

def frame (G : Ghost) (r va : ℕ) : ℕ := PTE2PA (G.leaf r (va / PGSIZE))

def target (G : Ghost) (r va : ℕ) : ℕ := frame G r va + va % PGSIZE

/-- What the user can access is memory outside of the table, and no two pages share a frame. -/
structure Frames (G : Ghost) (r : ℕ) : Prop where
  ram : ∀ va, Accessible G r va → InRam (frame G r va)
  apart : ∀ va, Accessible G r va → ¬ G.Nodes r (frame G r va)
  inj : ∀ va va', Accessible G r va → Accessible G r va' → frame G r va = frame G r va' →
    va / PGSIZE = va' / PGSIZE

theorem frame_aligned (G : Ghost) (r va : ℕ) : frame G r va % PGSIZE = 0 := by
  unfold frame PTE2PA u64 PGSIZE
  rw [Nat.shiftLeft_eq]
  omega

theorem target_page (G : Ghost) (r va : ℕ) : PGROUNDDOWN (target G r va) = frame G r va := by
  have haligned := frame_aligned G r va
  have hoff := offset_lt va
  unfold target PGROUNDDOWN
  unfold PGSIZE at *
  omega

theorem Frames.target_inj (h : Frames G r) {va' : ℕ} (hva : Accessible G r va)
    (hva' : Accessible G r va') (he : target G r va = target G r va') : va = va' := by
  have hframe : frame G r va = frame G r va' := by
    rw [← target_page, he, target_page]
  have hpage := h.inj va va' hva hva' hframe
  unfold target at he
  rw [hframe] at he
  unfold PGSIZE at *
  omega

theorem walkaddr_eq (hI : Inv K G m) (hagree : Agree G r m m') (hroot : G.own r = .node r 2 0)
    (va : ℕ) :
    walkaddr r va m' = .done (if Accessible G r va then frame G r va else 0) m' := by
  unfold walkaddr
  by_cases hva : MAXVA ≤ va
  · rw [if_pos hva, if_neg fun h : Accessible G r va => absurd h.1 (by omega)]
    rfl
  rw [if_neg hva, bind_of_done (hI.walk_false hagree hroot (by omega))]
  by_cases hnode : G.node r 0 (va / PGSIZE / 512) = 0
  · have hslot : slot G r (va / PGSIZE) = 0 := if_pos hnode
    rw [if_pos hslot, if_neg]
    · rfl
    · rintro ⟨-, hvalid, -⟩
      rw [hI.noLeaf r _ hnode] at hvalid
      exact hvalid rfl
  have hslot : slot G r (va / PGSIZE) = _ := if_neg hnode
  have hpos := isPage_ne_zero (hI.isPage_node hnode)
  rw [hslot, if_neg (by omega), bind_of_done (hI.load_leaf hagree hnode)]
  by_cases hvalid : G.leaf r (va / PGSIZE) &&& PTE_V = 0
  · rw [if_pos hvalid, if_neg fun h : Accessible G r va => h.2.1 hvalid]
    rfl
  · by_cases huser : G.leaf r (va / PGSIZE) &&& PTE_U = 0
    · rw [if_neg hvalid, if_pos huser, if_neg fun h : Accessible G r va => h.2.2 huser]
      rfl
    · rw [if_neg hvalid, if_neg huser, if_pos ⟨by omega, hvalid, huser⟩]
      rfl

def dest (out : Bool) (G : Ghost) (r va buf i : ℕ) : ℕ :=
  if out then target G r (va + i) else buf + i

def source (out : Bool) (G : Ghost) (r va buf i : ℕ) : ℕ :=
  if out then buf + i else target G r (va + i)

/-- The kernel's buffer is memory that the user cannot access, and for `copyin` not part of the
    table. -/
structure Buffer (out : Bool) (G : Ghost) (r buf len : ℕ) : Prop where
  within : Within buf len
  apart : ∀ va, Accessible G r va → ∀ i < len, target G r va ≠ buf + i
  table : out = false → ∀ i < len, ¬ G.Nodes r (PGROUNDDOWN (buf + i))

theorem Buffer.drop (h : Buffer out G r buf len) (hn : n ≤ len) :
    Buffer out G r (buf + n) (len - n) := by
  obtain ⟨⟨hlow, hhigh⟩, hapart, htable⟩ := h
  refine ⟨⟨by omega, by omega⟩, fun va hva i hi => ?_, fun hout i hi => ?_⟩
  · rw [Nat.add_assoc]
    exact hapart va hva (n + i) (by omega)
  · rw [Nat.add_assoc]
    exact htable hout (n + i) (by omega)

theorem accessible_add (hva : Accessible G r va) (hi : va % PGSIZE + i < PGSIZE) :
    Accessible G r (va + i) ∧ target G r (va + i) = target G r va + i := by
  have hdiv : (va + i) / PGSIZE = va / PGSIZE := by
    unfold PGSIZE at *
    omega
  have hmod : (va + i) % PGSIZE = va % PGSIZE + i := by
    unfold PGSIZE at *
    omega
  have hlt := hva.1
  unfold Accessible target frame at *
  rw [hdiv, hmod, Nat.add_assoc]
  refine ⟨⟨?_, hva.2⟩, rfl⟩
  unfold MAXVA PGSIZE at *
  omega

theorem accessible_append {k : ℕ} (h : ∀ i < n, Accessible G r (va + i))
    (h' : ∀ i < k, Accessible G r (va + n + i)) : ∀ i < n + k, Accessible G r (va + i) := by
  intro i hi
  by_cases hlow : i < n
  · exact h i hlow
  · have hlater := h' (i - n) (by omega)
    rwa [show va + n + (i - n) = va + i by omega] at hlater

theorem ram_ne_zero {pa : ℕ} (h : InRam pa) : pa ≠ 0 := by
  have := h.1
  unfold KERNBASE at this
  omega

theorem sub_page (va : ℕ) : va - PGROUNDDOWN va = va % PGSIZE := by
  have := Nat.div_add_mod' va PGSIZE
  unfold PGROUNDDOWN
  omega

theorem next_page (hva : va < MAXVA) :
    u64 (PGROUNDDOWN va + PGSIZE) = va + (PGSIZE - va % PGSIZE) := by
  have := Nat.div_add_mod' va PGSIZE
  unfold u64 PGROUNDDOWN
  unfold MAXVA PGSIZE at *
  omega

theorem accessible_page (G : Ghost) (r va : ℕ) :
    (Accessible G r (PGROUNDDOWN va) ↔ Accessible G r va) ∧
      frame G r (PGROUNDDOWN va) = frame G r va := by
  have hdiv : PGROUNDDOWN va / PGSIZE = va / PGSIZE := Nat.mul_div_cancel _ (by decide)
  have hlt : PGROUNDDOWN va < MAXVA ↔ va < MAXVA := by
    unfold PGROUNDDOWN MAXVA PGSIZE
    omega
  unfold Accessible frame
  rw [hdiv, hlt]
  exact ⟨Iff.rfl, rfl⟩

theorem dest_apart (hframes : Frames G r) (hbuf : Buffer out G r buf len)
    (hva : Accessible G r (va + i)) (hi : i < len) :
    ¬ G.Nodes r (PGROUNDDOWN (dest out G r va buf i)) := by
  unfold dest
  split_ifs with hout
  · rw [target_page]
    exact hframes.apart (va + i) hva
  · exact hbuf.table (by simpa using hout) i hi

theorem dest_inj {j : ℕ} (hframes : Frames G r) (hi : Accessible G r (va + i))
    (hj : Accessible G r (va + j)) (hne : i ≠ j) :
    dest out G r va buf i ≠ dest out G r va buf j := by
  unfold dest
  split_ifs with hout
  · intro he
    have := hframes.target_inj hi hj he
    omega
  · omega

theorem source_ne_dest {j : ℕ} (hbuf : Buffer out G r buf len) (hi : Accessible G r (va + i))
    (hilt : i < len) (hj : Accessible G r (va + j)) (hjlt : j < len) :
    source out G r va buf j ≠ dest out G r va buf i := by
  unfold source dest
  split_ifs with hout
  · exact (hbuf.apart (va + i) hi j hjlt).symm
  · exact hbuf.apart (va + j) hj i hilt

theorem agree_of_bytes (hI : Inv K G m) (hagree : Agree G r m m')
    (h : ∀ pa, G.Nodes r (PGROUNDDOWN pa) → byteAt m'' pa = byteAt m' pa) : Agree G r m m'' := by
  intro q hq
  rw [← hagree q hq]
  have hpage : K.IsPage q := by
    obtain ⟨ℓ, k, hnode⟩ := hq
    exact hI.isPage (hnode.trans_ne nofun)
  apply page_eq hpage.1
  rintro pa rfl
  exact h pa hq

theorem Copied.agree (hI : Inv K G m) (hframes : Frames G r) (hbuf : Buffer out G r buf len)
    (hn : n ≤ len) (hva : ∀ i < n, Accessible G r (va + i))
    (h : Copied (dest out G r va buf) (source out G r va buf) n m' m'') (hagree : Agree G r m m') :
    Agree G r m m'' := by
  apply agree_of_bytes hI hagree
  intro pa hnode
  apply h.old
  rintro i hi rfl
  exact dest_apart hframes hbuf (hva i hi) (by omega) hnode

theorem copyFrom_zero (out : Bool) (pagetable k va buf : ℕ) :
    copyFrom out pagetable k va buf 0 = (pure 0 : Code Memory ℤ) := by
  unfold copyFrom
  rfl

theorem within_target {va n : ℕ} (hram : InRam (frame G r va))
    (hpage : va % PGSIZE + n ≤ PGSIZE) : Within (target G r va) n := by
  obtain ⟨hlow, hhigh⟩ := hram
  have haligned := frame_aligned G r va
  unfold Within target
  unfold PHYSTOP KERNBASE PGSIZE at *
  omega

theorem move_chunk (hframes : Frames G r) (hbuf : Buffer out G r buf len) (hn : n ≤ len)
    (hva : Accessible G r va) (hpage : va % PGSIZE + n ≤ PGSIZE) (m : Memory) :
    ∃ m', move out (target G r va) buf n m = .done () m' ∧
      Copied (dest out G r va buf) (source out G r va buf) n m m' := by
  have hbuf' : Within buf n := ⟨hbuf.within.1, by have := hbuf.within.2; omega⟩
  have huser := within_target (hframes.ram va hva) hpage
  have htarget : ∀ i < n, target G r (va + i) = target G r va + i :=
    fun i hi => (accessible_add hva (by omega)).2
  unfold dest source
  cases out with
  | true =>
    refine ⟨moved m (target G r va) buf n, ?_, copied_moved htarget fun _ _ => rfl⟩
    exact memmove_within huser hbuf'
  | false =>
    refine ⟨moved m buf (target G r va) n, ?_, copied_moved (fun _ _ => rfl) htarget⟩
    exact memmove_within hbuf' huser

theorem returns_copyFrom {fuel : ℕ} (va : ℕ) (hI : Inv K G m) (hroot : G.own r = .node r 2 0)
    (hframes : Frames G r) (hfuel : len ≤ fuel) (hbuf : Buffer out G r buf len)
    (hagree : Agree G r m m') :
    Returns (copyFrom out r fuel va buf len) (fun a m'' => ∃ n ≤ len,
      (∀ i < n, Accessible G r (va + i)) ∧
      Copied (dest out G r va buf) (source out G r va buf) n m' m'' ∧
      (a = 0 ∧ n = len ∨ a = -1 ∧ n < len ∧ ¬ Accessible G r (va + n))) m' := by
  induction fuel generalizing va buf len m' with
  | zero =>
    obtain rfl : len = 0 := by omega
    rw [copyFrom_zero]
    exact returns_pure ⟨0, le_rfl, fun i hi => absurd hi (Nat.not_lt_zero i), copied_zero _ _ m',
      .inl ⟨rfl, rfl⟩⟩
  | succ fuel ih =>
    obtain ⟨hpage, hframe⟩ := accessible_page G r va
    have hoff := offset_lt va
    cases len with
    | zero =>
      rw [copyFrom_zero]
      exact returns_pure ⟨0, le_rfl, fun i hi => absurd hi (Nat.not_lt_zero i), copied_zero _ _ m',
        .inl ⟨rfl, rfl⟩⟩
    | succ len =>
      unfold copyFrom
      apply Returns.bind
      refine ⟨_, m', walkaddr_eq hI hagree hroot _, ?_⟩
      dsimp only
      by_cases hva : Accessible G r va
      · rw [if_pos (hpage.2 hva), hframe, if_neg (ram_ne_zero (hframes.ram va hva)), sub_page]
        have hn : min (PGSIZE - va % PGSIZE) (len + 1) ≤ len + 1 := min_le_right _ _
        have hchunk : va % PGSIZE + min (PGSIZE - va % PGSIZE) (len + 1) ≤ PGSIZE := by omega
        have hacc : ∀ i < min (PGSIZE - va % PGSIZE) (len + 1), Accessible G r (va + i) :=
          fun i hi => (accessible_add hva (by omega)).1
        obtain ⟨m₁, hrun, hcopied⟩ := move_chunk hframes hbuf hn hva hchunk m'
        apply Returns.bind
        refine ⟨(), m₁, hrun, ?_⟩
        by_cases hlast : len + 1 ≤ PGSIZE - va % PGSIZE
        · -- the last round
          rw [min_eq_right hlast] at *
          rw [Nat.sub_self, copyFrom_zero]
          exact returns_pure ⟨len + 1, le_rfl, hacc, hcopied, .inl ⟨rfl, rfl⟩⟩
        rw [min_eq_left (by omega)] at *
        rw [next_page hva.1]
        have hagree1 := hcopied.agree hI hframes hbuf hn hacc hagree
        refine (ih _ (by omega) (hbuf.drop hn) hagree1).mono ?_
        rintro a m₂ ⟨k, hk, hacc', hcopied', hend⟩
        have hacc2 := accessible_append hacc hacc'
        refine ⟨PGSIZE - va % PGSIZE + k, by omega, hacc2, ?_, ?_⟩
        · apply hcopied.append
          · unfold dest source at hcopied' ⊢
            simp only [Nat.add_assoc] at hcopied' ⊢
            exact hcopied'
          · intro i hi j hj
            exact dest_inj hframes (hacc2 i (by omega)) (hacc2 _ (by omega)) (by omega)
          · intro i hi j hj
            exact source_ne_dest hbuf (hacc2 i (by omega)) (by omega) (hacc2 _ (by omega))
              (by omega)
        · rw [← Nat.add_assoc]
          refine hend.imp (fun h => ⟨h.1, by omega⟩) fun h => ⟨h.1, by omega, h.2.2⟩
      · rw [if_neg (hpage.not.2 hva), if_pos rfl]
        exact returns_pure ⟨0, Nat.zero_le _, fun i hi => absurd hi (Nat.not_lt_zero i),
          copied_zero _ _ m', .inr ⟨rfl, Nat.succ_pos _, hva⟩⟩

theorem copyFrom_exact (va : ℕ) (hI : Inv K G m) (hroot : G.own r = .node r 2 0)
    (hframes : Frames G r) (hbuf : Buffer out G r buf len) :
    ∃ a m', copyFrom out r len va buf len m = .done a m' ∧ (a = 0 ∨ a = -1) ∧
      (a = 0 ↔ ∀ i < len, Accessible G r (va + i)) ∧
      (a = 0 → ∀ i < len,
        byteAt m' (dest out G r va buf i) = byteAt m (source out G r va buf i)) ∧
      (∀ pa, (∀ i < len, Accessible G r (va + i) → pa ≠ dest out G r va buf i) →
        byteAt m' pa = byteAt m pa) ∧
      m' = { m with page := m'.page } := by
  obtain ⟨a, m', hrun, n, hn, hacc, hcopied, hend⟩ :=
    returns_copyFrom va hI hroot hframes le_rfl hbuf agree_self
  refine ⟨a, m', hrun, ?_, ?_, ?_, ?_, hcopied.rest⟩
  · exact hend.imp (fun h => h.1) fun h => h.1
  · rcases hend with ⟨ha, rfl⟩ | ⟨ha, hlt, hnot⟩
    · exact ⟨fun _ => hacc, fun _ => ha⟩
    · refine ⟨fun h => ?_, fun h => absurd (h n hlt) hnot⟩
      rw [h] at ha
      cases ha
  · intro h
    rcases hend with ⟨-, rfl⟩ | ⟨ha, -⟩
    · exact hcopied.new
    · rw [h] at ha
      cases ha
  · exact fun pa hpa => hcopied.old pa fun i hi => hpa i (by omega) (hacc i hi)

/-- `copyout` and `copyin` succeed just when the user may access all the addresses, copy those
    bytes then, and change no byte that is not among them. -/
theorem copies_exact_confined (hI : Inv K G m) (hroot : G.own r = .node r 2 0)
    (hframes : Frames G r) (va buf len : ℕ) (hwithin : Within buf len)
    (hapart : ∀ va', Accessible G r va' → ∀ i < len, target G r va' ≠ buf + i) :
    (∃ a m', copyout r va buf len m = .done a m' ∧ (a = 0 ∨ a = -1) ∧
      (a = 0 ↔ ∀ i < len, Accessible G r (va + i)) ∧
      (a = 0 → ∀ i < len, byteAt m' (target G r (va + i)) = byteAt m (buf + i)) ∧
      (∀ pa, (∀ i < len, Accessible G r (va + i) → pa ≠ target G r (va + i)) →
        byteAt m' pa = byteAt m pa) ∧
      m' = { m with page := m'.page }) ∧
    ((∀ i < len, ¬ G.Nodes r (PGROUNDDOWN (buf + i))) →
      ∃ a m', copyin r buf va len m = .done a m' ∧ (a = 0 ∨ a = -1) ∧
        (a = 0 ↔ ∀ i < len, Accessible G r (va + i)) ∧
        (a = 0 → ∀ i < len, byteAt m' (buf + i) = byteAt m (target G r (va + i))) ∧
        (∀ pa, (∀ i < len, pa ≠ buf + i) → byteAt m' pa = byteAt m pa) ∧
        m' = { m with page := m'.page }) := by
  constructor
  · exact copyFrom_exact va hI hroot hframes ⟨hwithin, hapart, nofun⟩
  · intro htable
    obtain ⟨a, m', hrun, hanswer, hiff, hnew, hold, hrest⟩ :=
      copyFrom_exact va hI hroot hframes ⟨hwithin, hapart, fun _ => htable⟩
    exact ⟨a, m', hrun, hanswer, hiff, hnew, fun pa hpa => hold pa fun i hi _ => hpa i hi, hrest⟩

theorem page_fork {va : ℕ} (h : Accessible forkGhost (lastPage 8) va) :
    va / PGSIZE = 0 ∧ frame forkGhost (lastPage 8) va = lastPage 5 := by
  have hpage : va / PGSIZE = 0 := by
    obtain ⟨-, hvalid, -⟩ := h
    by_contra hne
    have hleaf : forkGhost.leaf (lastPage 8) (va / PGSIZE) = 0 :=
      (if_neg fun h => hne h.2 :
        (if lastPage 8 = lastPage 8 ∧ va / PGSIZE = 0 then parentEntry else 0) = 0)
    rw [hleaf] at hvalid
    exact hvalid rfl
  refine ⟨hpage, ?_⟩
  unfold frame
  rw [hpage]
  decide

theorem frames_fork : Frames forkGhost (lastPage 8) := by
  refine ⟨fun va hva => ?_, fun va hva => ?_, fun va va' hva hva' _ => ?_⟩
  · rw [(page_fork hva).2]
    decide
  · rw [(page_fork hva).2]
    rintro ⟨ℓ, k, hnode⟩
    cases hnode
  · rw [(page_fork hva).1, (page_fork hva').1]

theorem buffer_fork {len : ℕ} (hlen : len ≤ PGSIZE) (out : Bool) :
    Buffer out forkGhost (lastPage 8) KERNBASE len := by
  unfold PGSIZE at hlen
  refine ⟨⟨le_rfl, ?_⟩, fun va hva i hi => ?_, fun _ i hi => ?_⟩
  · unfold PHYSTOP KERNBASE
    omega
  · unfold target
    rw [(page_fork hva).2]
    unfold lastPage PHYSTOP KERNBASE PGSIZE
    omega
  · have hdown : PGROUNDDOWN (KERNBASE + i) = KERNBASE := by
      unfold PGROUNDDOWN KERNBASE PGSIZE
      omega
    rw [hdown]
    rintro ⟨ℓ, k, hnode⟩
    cases hnode

theorem copies_exact_confined_fork :
    (∀ i < 3, Accessible forkGhost (lastPage 8) (7 + i)) ∧
      ∃ m', copyout (lastPage 8) 7 KERNBASE 3 forkMemory = .done 0 m' := by
  have hacc : ∀ i < 3, Accessible forkGhost (lastPage 8) (7 + i) := by decide
  have hbuf : Buffer true forkGhost (lastPage 8) KERNBASE 3 := buffer_fork (by decide) true
  obtain ⟨⟨a, m', hrun, -, hiff, -⟩, -⟩ := copies_exact_confined inv_fork (by decide) frames_fork
    7 KERNBASE 3 hbuf.within hbuf.apart
  rw [hiff.2 hacc] at hrun
  exact ⟨hacc, m', hrun⟩

structure MapsPage (G : Ghost) (m : Memory) (r v pa : ℕ) (G' : Ghost) (m' : Memory) : Prop where
  own : ∀ q, G.own q ≠ .free → G'.own q = G.own q
  users : (∀ q u, G.own q ≠ .user r u) → ∀ q u, G'.own q ≠ .user r u
  kernel : ∀ q, G.own q = .reserved → m'.page q = m.page q
  leaf : G'.leaf r v = PA2PTE pa ||| uvmPerm ||| PTE_V
  other : ∀ u, u ≠ v → G'.leaf r u = G.leaf r u

theorem mappages_page (v pa : ℕ) (hI : Inv K G m) (hroot : G.own r = .node r 2 0)
    (hv : v < 2 ^ 26) (hpa : pa < PHYSTOP) (hleaf : G.leaf r v = 0)
    (hroom : missing G r v 2 ≤ room G m) :
    ∃ m' G', mappages r (v * PGSIZE) PGSIZE pa uvmPerm m = .done 0 m' ∧ Inv K G' m' ∧
      MapsPage G m r v pa G' m' := by
  have hdiv : v * PGSIZE / PGSIZE = v := Nat.mul_div_cancel v (by decide)
  have hva : v * PGSIZE < MAXVA := by
    unfold PGSIZE MAXVA
    omega
  have hmap : Spec K (G.Nodes r) (mappages r (v * PGSIZE) PGSIZE pa uvmPerm) _ G m :=
    ok_mappages hroot (Nat.mul_mod_left v PGSIZE) hva (hpa.trans (by decide)) (by decide)
      (by rw [hdiv]; exact hleaf)
  obtain ⟨a, m', hrun, G', hI', hF, hM⟩ := hmap hI
  rw [hdiv] at hM
  have ha : a = 0 := by
    by_contra ha
    have hless := (hM.fail ha).2.1
    unfold cost at hless
    omega
  subst ha
  refine ⟨m', G', hrun, hI', hM.taken.own, fun hnone q u => ?_, fun q hq => hF.page q ?_ ?_, ?_,
    fun u hu => ?_⟩
  · by_cases hfree : G.own q = .free
    · rcases hM.taken.new q hfree with h | ⟨ℓ, k, h⟩ <;> (rw [h]; exact nofun)
    · rw [hM.taken.own q hfree]
      exact hnone q u
  · rintro ⟨ℓ, k, hnode⟩
    rw [hq] at hnode
    cases hnode
  · rw [hq]
    exact nofun
  · rw [hM.ok rfl, mapped_self hpa]
  · rw [hM.ok rfl, mapped_of_ne (by omega)]

theorem accessible_of_leaf {pa : ℕ} (hva : va < MAXVA) (hpa : pa < PHYSTOP)
    (haligned : pa % PGSIZE = 0)
    (hleaf : G.leaf r (va / PGSIZE) = PA2PTE pa ||| uvmPerm ||| PTE_V) :
    Accessible G r va ∧ frame G r va = pa := by
  unfold Accessible frame
  rw [hleaf, Nat.lor_assoc, or_and_of_lt hpa (by decide) (by decide),
    or_and_of_lt hpa (by decide) (by decide)]
  exact ⟨⟨hva, by decide, by decide⟩, PTE2PA_or hpa haligned (by decide)⟩

theorem copyout_fails : (mappages (lastPage 8) (509 * PGSIZE) PGSIZE (KERNBASE + PGSIZE) uvmPerm
      eightMemory).any (fun _ m₁ =>
      (mappages (lastPage 8) (510 * PGSIZE) PGSIZE (lastPage 2) uvmPerm m₁).any fun _ m₂ =>
      (mappages (lastPage 8) (511 * PGSIZE) PGSIZE (KERNBASE + 2 * PGSIZE) uvmPerm m₂).any
        fun _ m₃ => (copyout (lastPage 8) (510 * PGSIZE + 8 * 511) KERNBASE 9 m₃).any
          fun a _ => a == -1) = true := by
  decide +kernel

/-- A table maps the page that holds its own entries. A `copyout` of nine zero bytes to accessible
    addresses clears the entry of the second page and fails there. -/
theorem copyout_over_table :
    ∃ T m₁ m₂ m₃ m₄ G,
      mappages (lastPage 8) (509 * PGSIZE) PGSIZE (KERNBASE + PGSIZE) uvmPerm eightMemory =
        .done 0 m₁ ∧
      mappages (lastPage 8) (510 * PGSIZE) PGSIZE T uvmPerm m₁ = .done 0 m₂ ∧
      mappages (lastPage 8) (511 * PGSIZE) PGSIZE (KERNBASE + 2 * PGSIZE) uvmPerm m₂ =
        .done 0 m₃ ∧
      KERNBASE + 2 * PGSIZE < T ∧ Inv eight G m₃ ∧
      (∀ i < 9, Accessible G (lastPage 8) (510 * PGSIZE + 8 * 511 + i)) ∧
      copyout (lastPage 8) (510 * PGSIZE + 8 * 511) KERNBASE 9 m₃ = .done (-1) m₄ := by
  obtain ⟨a₁, m₁, hfirst, hruns⟩ := Outcome.exists_of_any copyout_fails
  obtain ⟨a₂, m₂, hsecond, hruns⟩ := Outcome.exists_of_any hruns
  obtain ⟨a₃, m₃, hthird, hruns⟩ := Outcome.exists_of_any hruns
  obtain ⟨a₄, m₄, hrun4, ha₄⟩ := Outcome.exists_of_any hruns
  have hroot : eightGhost.own (lastPage 8) = .node (lastPage 8) 2 0 := by decide
  obtain ⟨_, G1, hrun1, hI1, hmap1⟩ :=
    mappages_page 509 (KERNBASE + PGSIZE) inv_eight hroot (by decide) (by decide) rfl
      (by decide)
  cases hfirst.symm.trans hrun1
  have hroot1 := (hmap1.own _ (hroot.trans_ne nofun)).trans hroot
  have hnode1 : G1.node (lastPage 8) 0 0 ≠ 0 := by
    intro hzero
    have hnone := hI1.noLeaf (lastPage 8) 509 hzero
    rw [hmap1.leaf] at hnone
    exact absurd hnone (by decide)
  obtain ⟨_, G2, hrun2, hI2, hmap2⟩ :=
    mappages_page 510 (lastPage 2) hI1 hroot1 (by decide) (by decide)
      (by rw [hmap1.other 510 (by decide)]; rfl)
      (by rw [hI1.missing_eq_zero hnode1]; exact Nat.zero_le _)
  cases hsecond.symm.trans hrun2
  have hroot2 := (hmap2.own _ (hroot1.trans_ne nofun)).trans hroot1
  have hnode2 : G2.node (lastPage 8) 0 0 ≠ 0 := by
    have htable := hI1.node_own _ _ _ hnode1
    rw [hI2.own_node _ _ _ _ ((hmap2.own _ (htable.trans_ne nofun)).trans htable)]
    exact hnode1
  obtain ⟨_, G3, hrun3, hI3, hmap3⟩ :=
    mappages_page 511 (KERNBASE + 2 * PGSIZE) hI2 hroot2 (by decide) (by decide)
      (by rw [hmap2.other 511 (by decide), hmap1.other 511 (by decide)]; rfl)
      (by rw [hI2.missing_eq_zero hnode2]; exact Nat.zero_le _)
  cases hthird.symm.trans hrun3
  rw [beq_iff_eq.1 ha₄] at hrun4
  refine ⟨_, m₁, m₂, m₃, m₄, G3, hrun1, hrun2, hrun3, by decide, hI3, fun i hi => ?_, hrun4⟩
  have hleaf3 := (hmap3.other 510 (by decide)).trans hmap2.leaf
  by_cases hlast : i = 8
  · subst hlast
    exact (accessible_of_leaf (by decide) (by decide) (by decide) hmap3.leaf).1
  have hdiv : (510 * PGSIZE + 8 * 511 + i) / PGSIZE = 510 := by
    unfold PGSIZE
    omega
  have hva : 510 * PGSIZE + 8 * 511 + i < MAXVA := by
    unfold MAXVA PGSIZE
    omega
  rw [← hdiv] at hleaf3
  exact (accessible_of_leaf hva (by decide) (by decide) hleaf3).1

end Xv6.UserAccess
