import Xv6.UserAccess

set_option autoImplicit false

namespace Xv6.UserStrings
open Resumption Xv6.Sequential ByteFields Paging PageOwners VmCode UserAccess

variable {K : Image} {G : Ghost} {m m' m'' : Memory} {r va dst n : ℕ}

def poke (m : Memory) (pa : ℕ) (b : UInt8) : Memory :=
  { m with
    page := fun p i => if p % PGSIZE = 0 ∧ p + i.val = pa then b else m.page p i }

theorem byteAt_poke (m : Memory) (pa : ℕ) (b : UInt8) (q : ℕ) :
    byteAt (poke m pa b) q = if q = pa then b else byteAt m q := by
  have haligned : PGROUNDDOWN q % PGSIZE = 0 := Nat.mul_mod_left _ _
  have hsplit : PGROUNDDOWN q + q % PGSIZE = q := Nat.div_add_mod' q PGSIZE
  unfold byteAt byte
  rw [dif_pos (offset_lt q), dif_pos (offset_lt q)]
  change (if PGROUNDDOWN q % PGSIZE = 0 ∧ PGROUNDDOWN q + q % PGSIZE = pa then b
    else m.page (PGROUNDDOWN q) _) = _
  rw [hsplit]
  simp only [haligned, true_and]

theorem copied_poke (m : Memory) {D S : ℕ → ℕ} {b : UInt8} (hb : byteAt m (S 0) = b) :
    Copied D S 1 m (poke m (D 0) b) := by
  refine ⟨fun i hi => ?_, fun pa hpa => ?_, rfl⟩
  · obtain rfl : i = 0 := by omega
    rw [byteAt_poke, if_pos rfl, hb]
  · rw [byteAt_poke, if_neg (hpa 0 Nat.one_pos)]

/-- `*p` -/
def loadByte (p : ℕ) : Code Memory UInt8 := fun m =>
  if Within p 1 then .done (byteAt m p) m else .undefined

/-- `*p = b` -/
def storeByte (p : ℕ) (b : UInt8) : Code Memory Unit := fun m =>
  if Within p 1 then .done () (poke m p b) else .undefined

/-- The inner loop of `copyinstr`; it answers whether it found the end of the string. -/
def copyChars : ℕ → ℕ → ℕ → Code Memory Bool
  | 0, _, _ => return false
  | n + 1, p, dst => do
    let c ← loadByte p
    if c = 0 then
      storeByte dst 0
      return true
    else
      storeByte dst c
      copyChars n (p + 1) (dst + 1)

def copyinstrFrom (pagetable : ℕ) : ℕ → ℕ → ℕ → ℕ → Code Memory ℤ
  | _, _, _, 0 => return -1
  | 0, _, _, _ => .undefined
  | k + 1, dst, srcva, max => do
    let va0 := PGROUNDDOWN srcva
    let pa0 ← walkaddr pagetable va0
    if pa0 = 0 then return -1
    else
      let n := min (PGSIZE - (srcva - va0)) max
      if ← copyChars n (pa0 + (srcva - va0)) dst then return 0
      else copyinstrFrom pagetable k (dst + n) (u64 (va0 + PGSIZE)) (max - n)

def copyinstr (pagetable dst srcva max : ℕ) : Code Memory ℤ :=
  copyinstrFrom pagetable max dst srcva max

structure EndsAt (m : Memory) (S : ℕ → ℕ) (k : ℕ) : Prop where
  last : byteAt m (S k) = 0
  before : ∀ i < k, byteAt m (S i) ≠ 0

theorem EndsAt.unique {S : ℕ → ℕ} {k k' : ℕ} (h : EndsAt m S k) (h' : EndsAt m S k') : k = k' := by
  rcases Nat.lt_trichotomy k k' with hlt | heq | hlt
  · exact absurd h.last (h'.before k hlt)
  · exact heq
  · exact absurd h'.last (h.before k' hlt)

/-- What the copy of at most `n` bytes does: it ends with the string, or it copies all the bytes. -/
def Stops (m m' : Memory) (D S : ℕ → ℕ) (n : ℕ) (found : Bool) : Prop :=
  (found = true ∧ ∃ k < n, EndsAt m S k ∧ Copied D S (k + 1) m m') ∨
    (found = false ∧ (∀ i < n, byteAt m (S i) ≠ 0) ∧ Copied D S n m m')

theorem Stops.after {D S : ℕ → ℕ} {k : ℕ} {found : Bool} (h : Copied D S n m m')
    (hne : ∀ i < n, byteAt m (S i) ≠ 0)
    (h' : Stops m' m'' (fun i => D (n + i)) (fun i => S (n + i)) k found)
    (hinj : ∀ i < n, ∀ j < k, D i ≠ D (n + j)) (hsrc : ∀ i < n, ∀ j < k, S (n + j) ≠ D i) :
    Stops m m'' D S (n + k) found := by
  have hbyte : ∀ j < k, byteAt m' (S (n + j)) = byteAt m (S (n + j)) :=
    fun j hj => h.old _ fun i hi => hsrc i hi j hj
  have hne' : ∀ k' ≤ k, (∀ j < k', byteAt m' (S (n + j)) ≠ 0) → ∀ i < n + k',
      byteAt m (S i) ≠ 0 := by
    intro k' hk' hrest i hi
    by_cases hlow : i < n
    · exact hne i hlow
    · obtain ⟨j, rfl⟩ := Nat.exists_eq_add_of_le (Nat.le_of_not_lt hlow)
      rw [← hbyte j (by omega)]
      exact hrest j (by omega)
  rcases h' with ⟨rfl, j, hj, hend, hcopied⟩ | ⟨rfl, hrest, hcopied⟩
  · refine .inl ⟨rfl, n + j, by omega, ⟨?_, hne' j hj.le hend.before⟩, ?_⟩
    · rw [← hbyte j hj]
      exact hend.last
    · exact h.append hcopied (fun i hi j' hj' => hinj i hi j' (by omega))
        fun i hi j' hj' => hsrc i hi j' (by omega)
  · exact .inr ⟨rfl, hne' k le_rfl hrest, h.append hcopied hinj hsrc⟩

theorem returns_copyChars (p dst : ℕ) (S : ℕ → ℕ) (hp : Within p n) (hdst : Within dst n)
    (hS : ∀ i < n, S i = p + i) (hapart : ∀ i < n, ∀ j < n, S i ≠ dst + j) (m : Memory) :
    Returns (copyChars n p dst) (fun found m' => Stops m m' (dst + ·) S n found) m := by
  obtain ⟨hplow, hphigh⟩ := hp
  obtain ⟨hdlow, hdhigh⟩ := hdst
  induction n generalizing p dst S m with
  | zero =>
    exact returns_pure (.inr ⟨rfl, fun i hi => absurd hi (Nat.not_lt_zero i), copied_zero _ _ m⟩)
  | succ n ih =>
    have hload : loadByte p m = .done (byteAt m p) m := if_pos ⟨hplow, by omega⟩
    have hstore (b : UInt8) : storeByte dst b m = .done () (poke m dst b) :=
      if_pos ⟨hdlow, by omega⟩
    have hS0 : S 0 = p := hS 0 (Nat.succ_pos n)
    have hfirst : Copied (dst + ·) S 1 m (poke m dst (byteAt m p)) := copied_poke m (by rw [hS0])
    unfold copyChars
    apply Returns.bind
    refine ⟨_, m, hload, ?_⟩
    dsimp only
    by_cases hc : byteAt m p = 0
    · rw [hc] at hfirst
      have hend : EndsAt m S 0 := ⟨by rw [hS0, hc], fun i hi => absurd hi (Nat.not_lt_zero i)⟩
      rw [if_pos hc]
      apply Returns.bind
      exact ⟨(), _, hstore 0, returns_pure (.inl ⟨rfl, 0, Nat.succ_pos n, hend, hfirst⟩)⟩
    rw [if_neg hc]
    apply Returns.bind
    refine ⟨(), _, hstore _, ?_⟩
    have hrest := ih (p + 1) (dst + 1) (fun i => S (1 + i))
      (fun i hi => by rw [hS (1 + i) (by omega), Nat.add_assoc])
      (fun i hi j hj => by have := hapart (1 + i) (by omega) (1 + j) (by omega); omega)
      (poke m dst (byteAt m p)) (by omega) (by omega) (by omega) (by omega)
    refine hrest.mono fun found m' hstops => ?_
    rw [Nat.add_comm n 1]
    apply Stops.after hfirst
    · intro i hi
      obtain rfl : i = 0 := by omega
      rwa [hS0]
    · simpa only [Nat.add_assoc] using hstops
    · intro i hi j hj
      omega
    · intro i hi j hj
      exact hapart (1 + j) (by omega) i (by omega)

def Readable (G : Ghost) (r : ℕ) : Prop := ∀ va, Accessible G r va → InRam (frame G r va)

theorem agree_of_copied {k : ℕ} {S : ℕ → ℕ} (hI : Inv K G m) (hbuf : Buffer false G r dst n)
    (hk : k ≤ n) (h : Copied (dst + ·) S k m' m'') (hagree : Agree G r m m') :
    Agree G r m m'' := by
  apply agree_of_bytes hI hagree
  intro pa hnode
  apply h.old
  rintro i hi rfl
  exact hbuf.table rfl i (by omega) hnode

theorem copyinstrFrom_zero (pagetable k dst va : ℕ) :
    copyinstrFrom pagetable k dst va 0 = (pure (-1) : Code Memory ℤ) := by
  unfold copyinstrFrom
  rfl

/-- What `copyinstr` does in the memory and answers: it stops at the end of the string, after
    `max` bytes or at an address that the user cannot access. -/
def Answers (G : Ghost) (r dst va max : ℕ) (m : Memory) (a : ℤ) (m' : Memory) : Prop :=
  ∃ j ≤ max, ∃ found, (∀ i < j, Accessible G r (va + i)) ∧
    Stops m m' (dst + ·) (fun i => target G r (va + i)) j found ∧
    a = (if found then 0 else -1) ∧ (found = true ∨ j = max ∨ ¬ Accessible G r (va + j))

theorem answers_none (m : Memory) {max : ℕ} (h : 0 = max ∨ ¬ Accessible G r va) :
    Answers G r dst va max m (-1) m :=
  ⟨0, Nat.zero_le max, false, fun i hi => absurd hi (Nat.not_lt_zero i),
    .inr ⟨rfl, fun i hi => absurd hi (Nat.not_lt_zero i), copied_zero _ _ m⟩, rfl, .inr h⟩

theorem returns_copyinstrFrom {fuel max : ℕ} (va : ℕ) (hI : Inv K G m)
    (hroot : G.own r = .node r 2 0) (hread : Readable G r) (hfuel : max ≤ fuel)
    (hbuf : Buffer false G r dst max)
    (hagree : Agree G r m m') :
    Returns (copyinstrFrom r fuel dst va max) (Answers G r dst va max m') m' := by
  induction fuel generalizing va dst max m' with
  | zero =>
    obtain rfl : max = 0 := by omega
    rw [copyinstrFrom_zero]
    exact returns_pure (answers_none m' (.inl rfl))
  | succ fuel ih =>
    cases max with
    | zero =>
      rw [copyinstrFrom_zero]
      exact returns_pure (answers_none m' (.inl rfl))
    | succ max =>
      obtain ⟨hpage, hframe⟩ := accessible_page G r va
      have hoff := offset_lt va
      unfold copyinstrFrom
      apply Returns.bind
      refine ⟨_, m', walkaddr_eq hI hagree hroot _, ?_⟩
      dsimp only
      by_cases hva : Accessible G r va
      · rw [if_pos (hpage.2 hva), hframe, if_neg (ram_ne_zero (hread va hva)), sub_page]
        have hn : min (PGSIZE - va % PGSIZE) (max + 1) ≤ max + 1 := min_le_right _ _
        have hchunk : va % PGSIZE + min (PGSIZE - va % PGSIZE) (max + 1) ≤ PGSIZE := by omega
        have hacc : ∀ i < min (PGSIZE - va % PGSIZE) (max + 1), Accessible G r (va + i) :=
          fun i hi => (accessible_add hva (by omega)).1
        have hchars := returns_copyChars _ dst (fun i => target G r (va + i))
          (within_target (hread va hva) hchunk) ⟨hbuf.within.1, by have := hbuf.within.2; omega⟩
          (fun i hi => (accessible_add hva (by omega)).2)
          (fun i hi j hj => hbuf.apart _ (hacc i hi) j (by omega)) m'
        apply Returns.bind
        obtain ⟨found, m1, hrun, hstops⟩ := hchars
        refine ⟨found, m1, hrun, ?_⟩
        rcases hstops with ⟨rfl, hfound⟩ | ⟨rfl, hchars, hcopied⟩
        · exact returns_pure ⟨_, hn, true, hacc, .inl ⟨rfl, hfound⟩, rfl, .inl rfl⟩
        rw [if_neg Bool.false_ne_true]
        by_cases hlast : max + 1 ≤ PGSIZE - va % PGSIZE
        · rw [min_eq_right hlast] at *
          rw [Nat.sub_self, copyinstrFrom_zero]
          exact returns_pure ⟨max + 1, le_rfl, false, hacc, .inr ⟨rfl, hchars, hcopied⟩, rfl,
            .inr (.inl rfl)⟩
        rw [min_eq_left (by omega)] at *
        rw [next_page hva.1]
        have hrest := ih (va + (PGSIZE - va % PGSIZE)) (by omega) (hbuf.drop hn)
          (agree_of_copied hI hbuf hn hcopied hagree)
        refine hrest.mono ?_
        rintro a m2 ⟨j, hj, found, hacc', hstops, ha, hwhy⟩
        have hacc2 := accessible_append hacc hacc'
        refine ⟨PGSIZE - va % PGSIZE + j, by omega, found, hacc2, ?_, ha, ?_⟩
        · apply Stops.after hcopied hchars
          · simpa only [Nat.add_assoc] using hstops
          · intro i hi j' hj'
            omega
          · intro i hi j' hj'
            exact hbuf.apart _ (hacc2 _ (by omega)) i (by omega)
        · rw [← Nat.add_assoc]
          exact hwhy.imp_right fun h => h.imp_left fun h => by omega
      · rw [if_neg (hpage.not.2 hva), if_pos rfl]
        exact returns_pure (answers_none m' (.inr hva))

/-- `copyinstr` succeeds just when the string ends among the first `max` bytes and the user may
    access it up to there; it has then copied the string. -/
theorem copyinstr_exact (hI : Inv K G m) (hroot : G.own r = .node r 2 0) (hread : Readable G r)
    (dst va max : ℕ) (hbuf : Buffer false G r dst max) :
    ∃ a m', copyinstr r dst va max m = .done a m' ∧ (a = 0 ∨ a = -1) ∧
      (a = 0 ↔ ∃ k < max, (∀ i ≤ k, Accessible G r (va + i)) ∧
        EndsAt m (fun i => target G r (va + i)) k) ∧
      (∀ k < max, (∀ i ≤ k, Accessible G r (va + i)) →
        EndsAt m (fun i => target G r (va + i)) k →
          ∀ i ≤ k, byteAt m' (dst + i) = byteAt m (target G r (va + i))) ∧
      (∀ pa, (∀ i < max, pa ≠ dst + i) → byteAt m' pa = byteAt m pa) ∧
      m' = { m with page := m'.page } := by
  obtain ⟨a, m', hrun, j, hj, found, hacc, hstops, ha, hwhy⟩ :=
    returns_copyinstrFrom va hI hroot hread le_rfl hbuf agree_self
  refine ⟨a, m', hrun, ?_⟩
  rcases hstops with ⟨rfl, k, hk, hend, hcopied⟩ | ⟨rfl, hne, hcopied⟩
  · refine ⟨.inl ha, ⟨fun _ => ⟨k, by omega, fun i hi => hacc i (by omega), hend⟩, fun _ => ha⟩, ?_,
      fun pa hpa => hcopied.old pa fun i hi => hpa i (by omega), hcopied.rest⟩
    intro k' _ _ hend' i hi
    obtain rfl := hend.unique hend'
    exact hcopied.new i (by omega)
  have hnot : ∀ k < max, (∀ i ≤ k, Accessible G r (va + i)) →
      ¬ EndsAt m (fun i => target G r (va + i)) k := by
    intro k hk hacc' hend
    by_cases hkj : k < j
    · exact hne k hkj hend.last
    · rcases hwhy with h | h | h
      · cases h
      · omega
      · exact h (hacc' j (by omega))
  refine ⟨.inr ha, ⟨fun h => ?_, ?_⟩, fun k hk hacc' hend => absurd hend (hnot k hk hacc'),
    fun pa hpa => hcopied.old pa fun i hi => hpa i (by omega), hcopied.rest⟩
  · rw [ha] at h
    cases h
  · rintro ⟨k, hk, hacc', hend⟩
    exact absurd hend (hnot k hk hacc')

/-- The parent's page ends with a word of two letters. -/
def wordMemory : Memory :=
  setPage forkMemory (lastPage 5) fun i => if i.val = 4093 then 97 else if i.val = 4094 then 98 else 0

theorem copyinstr_exact_word : ¬ Accessible forkGhost (lastPage 8) 4096 ∧
    (∃ m', copyinstr (lastPage 8) KERNBASE 4093 5 wordMemory = .done 0 m' ∧
      byteAt m' KERNBASE = 97 ∧ byteAt m' (KERNBASE + 1) = 98 ∧ byteAt m' (KERNBASE + 2) = 0) ∧
    ∃ m', copyinstr (lastPage 8) KERNBASE 4093 2 wordMemory = .done (-1) m' := by
  have hI : Inv eight forkGhost wordMemory := inv_fork.setPage (by decide) fun _ _ _ => nofun
  have hacc : ∀ i ≤ 2, Accessible forkGhost (lastPage 8) (4093 + i) := by decide
  have hend : EndsAt wordMemory (fun i => target forkGhost (lastPage 8) (4093 + i)) 2 :=
    ⟨by decide +kernel, by decide +kernel⟩
  obtain ⟨a, m', hrun, -, hiff, hnew, -⟩ := copyinstr_exact hI (by decide) frames_fork.ram KERNBASE
    4093 5 (buffer_fork (by decide) false)
  obtain ⟨b, m'', hshort, hb, hiff', -⟩ := copyinstr_exact hI (by decide) frames_fork.ram KERNBASE
    4093 2 (buffer_fork (by decide) false)
  rw [hiff.2 ⟨2, by decide, hacc, hend⟩] at hrun
  have hbyte := hnew 2 (by decide) hacc hend
  refine ⟨by decide, ⟨m', hrun, (hbyte 0 (by decide)).trans (by decide +kernel),
    (hbyte 1 (by decide)).trans (by decide +kernel), (hbyte 2 le_rfl).trans hend.last⟩, m'', ?_⟩
  rw [hshort, hb.resolve_left fun h => ?_]
  obtain ⟨k, hk, -, hend'⟩ := hiff'.1 h
  rw [← hend.unique hend'] at hk
  exact absurd hk (by decide)

end Xv6.UserStrings
