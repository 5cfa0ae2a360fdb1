import Xv6.UserGrowth

set_option autoImplicit false

namespace Xv6.PageOwners
open Xv6.Sequential ByteFields Paging VmCode

variable {K : Image} {G₀ G G' : Ghost} {m₀ m m' : Memory} {old new n sz : ℕ}
variable {r p v : ℕ}

theorem ok_memmove {c pa : ℕ} (hc : G.own c = .fresh) (hram : InRam pa) (hpa : pa % PGSIZE = 0) :
    Spec K (· = c) (memmove c pa) (fun _ G' m' => G' = G ∧ m' = setPage m c (m.page pa)) G m := by
  intro hI
  have hpage : K.IsPage c := hI.isPage (hc.trans_ne nofun)
  refine ⟨(), setPage m c (m.page pa), ?_, G, ?_, frame_setPage, rfl, rfl⟩
  · unfold memmove
    rw [if_pos ⟨inRam_of_isPage hpage, hpage.1, hram, hpa⟩]
  · exact hI.setPage (hc.trans_ne nofun) fun r ℓ k => hc.trans_ne nofun

theorem PTE2PA_aligned (pte : ℕ) : PTE2PA pte % PGSIZE = 0 := by
  unfold PTE2PA u64 PGSIZE
  rw [Nat.shiftLeft_eq]
  omega

theorem PTE_FLAGS_valid {pte : ℕ} (h : pte &&& PTE_V ≠ 0) :
    PTE_FLAGS pte ||| PTE_V = PTE_FLAGS pte := by
  have hodd : PTE_FLAGS pte = 2 ^ 1 * (PTE_FLAGS pte / 2) + 1 := by
    rw [PTE_FLAGS_eq]
    unfold PTE_V at h
    rw [Nat.and_one_is_mod] at h
    omega
  rw [hodd, Nat.two_pow_add_eq_or_of_lt (by decide), Nat.lor_assoc]
  rfl

/-- The pages below the size are mapped to memory that is neither free nor part of the child's
    table. -/
structure Parent (G : Ghost) (old new sz : ℕ) : Prop where
  root : G.own old = .node old 2 0
  mapped : ∀ u < pages sz, LeafPte (G.leaf old u)
  ram : ∀ u < pages sz, InRam (PTE2PA (G.leaf old u))
  held : ∀ u, G.leaf old u ≠ 0 → G.own (PTE2PA (G.leaf old u)) ≠ .free
  apart : ∀ u < pages sz, ¬ G.Nodes new (PTE2PA (G.leaf old u))

structure Child (G : Ghost) (new sz : ℕ) : Prop where
  root : G.own new = .node new 2 0
  empty : ∀ u < pages sz, G.leaf new u = 0
  held : ∀ u, G.leaf new u ≠ 0 → G.own (PTE2PA (G.leaf new u)) ≠ .free

theorem uvmcopyFrom_succ (hI : Inv K G m) (hroot : G.own old = .node old 2 0) (new fuel : ℕ)
    {u : ℕ} (hu : u * PGSIZE < sz) (hva : u * PGSIZE < MAXVA) (hpte : LeafPte (G.leaf old u)) :
    uvmcopyFrom K old new sz (fuel + 1) (u * PGSIZE) m =
      addPage K new u (PTE_FLAGS (G.leaf old u)) (memmove · (PTE2PA (G.leaf old u)))
        (do uvmunmap K new 0 (u * PGSIZE / PGSIZE) true; return -1)
        (uvmcopyFrom K old new sz fuel (u64 (u * PGSIZE + PGSIZE))) m := by
  have hdiv : u * PGSIZE / PGSIZE = u := Nat.mul_div_cancel u (by decide)
  have hnode : G.node old 0 (u / 512) ≠ 0 := fun hzero =>
    hpte.ne_zero (hI.noLeaf old u hzero)
  have hslot : slot G old u = G.node old 0 (u / 512) + 8 * (u % 512) := if_neg hnode
  have hwalk := hI.walk_false agree_self hroot hva
  rw [hdiv, hslot] at hwalk
  rw [uvmcopyFrom, if_pos hu, bind_of_done hwalk, if_neg (by omega),
    bind_of_done (hI.load_leaf agree_self hnode), if_neg hpte.valid]
  rfl

def flagsOf (G : Ghost) (r u : ℕ) : ℕ := PTE_FLAGS (G.leaf r u)

def pageOf (G : Ghost) (m : Memory) (r u : ℕ) : Page := m.page (PTE2PA (G.leaf r u))

theorem ok_uvmcopyFrom {k fuel : ℕ} (hfuel : k < fuel) (hparent : Parent G₀ old new sz)
    (hchild : Child G₀ new sz) (hne : old ≠ new) (hsz : pages sz = 0 + n + k) (hmax : sz ≤ MAXVA)
    (hadded : Added (flagsOf G₀ old) (pageOf G₀ m₀ old) G₀ new 0 n G m) :
    Run K (G₀.Nodes new) G₀ m₀ (uvmcopyFrom K old new sz fuel ((0 + n) * PGSIZE))
      (Attempt (need G new (0 + n) k ≤ room G m) 0 (-1)
        (Added (flagsOf G₀ old) (pageOf G₀ m₀ old) G₀ new 0 (n + k))
        fun G' _ => Undone G₀ new G') G m := by
  induction k generalizing G m n fuel with
  | zero =>
    obtain ⟨fuel, rfl⟩ : ∃ f, fuel = f + 1 := ⟨fuel - 1, by omega⟩
    unfold uvmcopyFrom
    rw [if_neg fun hless => absurd (lt_pages.2 hless) (by omega)]
    exact run_pure fun _ _ => attempt_none hadded
  | succ k ih =>
    obtain ⟨fuel, rfl⟩ : ∃ f, fuel = f + 1 := ⟨fuel - 1, by omega⟩
    have hpage : 0 + n < pages sz := by omega
    have hless := lt_pages.1 hpage
    have hv : 0 + n + (k + 1) ≤ 2 ^ 26 := by
      unfold pages at hsz
      unfold MAXVA at hmax
      omega
    have hdiv : (0 + n) * PGSIZE / PGSIZE = n := by
      rw [zero_add]
      exact Nat.mul_div_cancel n (by decide)
    have hown : ∀ {G : Ghost} {m : Memory} {n : ℕ},
        Added (flagsOf G₀ old) (pageOf G₀ m₀ old) G₀ new 0 n G m → G.own new = .node new 2 0 := by
      intro G m n hadded
      rw [hadded.old new (hchild.root.trans_ne nofun), hchild.root]
    have hsame : ∀ u, G.leaf old u = G₀.leaf old u := fun u =>
      hadded.leaf old u fun h => hne h.1
    have hleaf : G.leaf new (0 + n) = 0 := by
      rw [hadded.leaf new (0 + n) (by omega)]
      exact hchild.empty (0 + n) hpage
    have hempty : ∀ u, 0 ≤ u → u < 0 + n → G₀.leaf new u = 0 :=
      fun u _ hlt => hchild.empty u (by omega)
    have hpte := hparent.mapped (0 + n) hpage
    have hheld := hparent.held (0 + n) hpte.ne_zero
    apply run_same
    intro hI hF
    have hroot : G.own old = .node old 2 0 := by
      rw [hadded.old old (hparent.root.trans_ne nofun), hparent.root]
    have hstep := uvmcopyFrom_succ hI hroot new fuel hless (hless.trans_le hmax)
      (by rwa [hsame])
    rw [hsame, u64_next (by omega), Nat.add_assoc 0, hdiv] at hstep
    refine ⟨hstep, run_addPage (flagsOf G₀ old) (pageOf G₀ m₀ old) (hown hadded) (by omega) hleaf
      ?_ ?_ hadded ?_ ?_ ?_⟩
    · unfold flagsOf
      rw [PTE_FLAGS_eq]
      exact Nat.mod_lt _ (by decide)
    · unfold flagsOf
      rw [PTE_FLAGS_valid hpte.valid]
      exact hpte.flags
    · intro c m1 hfree hm1
      have hne' : PTE2PA (G₀.leaf old (0 + n)) ≠ c := by
        rintro rfl
        rw [hadded.old _ hheld] at hfree
        exact hheld hfree
      have hfill : m1.page (PTE2PA (G₀.leaf old (0 + n))) = pageOf G₀ m₀ old (0 + n) := by
        rw [hm1 _ hne']
        exact hF.page _ (hparent.apart _ hpage) hheld
      rw [← hfill]
      exact ok_memmove own_take_self (hparent.ram _ hpage) (PTE2PA_aligned _)
    · intro G' m' hadded' hJ
      have hunmaps := hadded'.unmaps hJ.1 hJ.2
      revert hJ
      have hremove := ok_remove (K := K) (hown hadded') (by omega) hadded' hempty
      rw [zero_mul] at hremove
      apply hremove.call hunmaps
      intro _ G'' m'' _ _ _ hundone
      exact run_pure fun _ _ => ⟨rfl, hundone⟩
    · intro G' m' hadded'
      exact ih (by omega) (by omega) hadded'

/-- `uvmcopy` copies all pages of the parent to pages of the child's own, or none. -/
theorem uvmcopy_exact (hI : Inv K G m) (hparent : Parent G old new sz) (hchild : Child G new sz)
    (hne : old ≠ new) (hmax : sz ≤ MAXVA) :
    ∃ a m' G', uvmcopy K old new sz m = .done a m' ∧ Inv K G' m' ∧
      (G'.node old = G.node old ∧ G'.leaf old = G.leaf old ∧
        ∀ u < pages sz, m'.page (PTE2PA (G.leaf old u)) = m.page (PTE2PA (G.leaf old u))) ∧
      (need G new 0 (pages sz) ≤ room G m → a = 0) ∧
      (room G m < need G new 0 (pages sz) → a = -1) ∧
      (a = 0 → ∀ u < pages sz, ∃ c, G.own c = .free ∧ G'.own c = .user new u ∧
        PTE2PA (G'.leaf new u) = c ∧
        PTE_FLAGS (G'.leaf new u) = PTE_FLAGS (G.leaf old u) ∧
        m'.page c = m.page (PTE2PA (G.leaf old u)) ∧
        ∀ r' u', r' = old ∨ r' = new → G'.leaf r' u' ≠ 0 → PTE2PA (G'.leaf r' u') = c →
          r' = new ∧ u' = u) ∧
      (a ≠ 0 → a = -1 ∧ (∀ u < pages sz, G'.leaf new u = 0) ∧
        ∀ q, G.own q = .free → G'.fl.count q = 1 ∨ G'.Nodes new q) := by
  have hfuel : pages sz < maxRounds := by
    unfold MAXVA at hmax
    unfold pages maxRounds
    omega
  have hrun : Run K (G.Nodes new) G m (uvmcopyFrom K old new sz maxRounds ((0 + 0) * PGSIZE)) _
      G m := ok_uvmcopyFrom hfuel hparent hchild hne (by omega) hmax (added_none _ _ G new 0 m)
  obtain ⟨a, m', hrun, G', hI', hF, hfits, hshort⟩ := hrun.spec hI
  rw [zero_add] at hfits hshort
  have hout : ¬ G.Nodes new old := by
    rintro ⟨ℓ, k, hnode⟩
    rw [hparent.root] at hnode
    cases hnode
    exact hne rfl
  obtain ⟨hnode, hleaf⟩ := hF.table old hout hparent.root
  have hpage : ∀ u < pages sz, m'.page (PTE2PA (G.leaf old u)) = m.page (PTE2PA (G.leaf old u)) :=
    fun u hu => hF.page _ (hparent.apart u hu) (hparent.held u (hparent.mapped u hu).ne_zero)
  refine ⟨a, m', G', hrun, hI', ⟨hnode, hleaf, hpage⟩, fun h => (hfits h).1,
    fun h => (hshort (Nat.not_le_of_gt h)).1, fun ha => ?_, fun ha => ?_⟩
  · have hroom : need G new 0 (pages sz) ≤ room G m := by
      by_contra hnot
      rw [(hshort hnot).1] at ha
      cases ha
    have hadded := (hfits hroom).2
    intro u hu
    obtain ⟨c, hfree, hown, hentry, hfill⟩ := hadded.page u (Nat.zero_le u) (by omega)
    have hpa := (hI'.user c new u hown).2
    refine ⟨c, hfree, hown, hpa, ?_, hfill, ?_⟩
    · have hlt : c < PHYSTOP := (hI'.isPage (hown.trans_ne nofun)).2.2
      have hvalid := (hparent.mapped u hu).valid
      have hsmall : flagsOf G old u < 1024 := by
        unfold flagsOf
        rw [PTE_FLAGS_eq]
        exact Nat.mod_lt _ (by decide)
      rw [hentry, Nat.lor_assoc]
      unfold flagsOf at hsmall ⊢
      rw [PTE_FLAGS_valid hvalid]
      exact PTE_FLAGS_or hlt hsmall
    · rintro r' u' (rfl | rfl) hne' hsame
      · rw [hleaf] at hne' hsame
        have hheld := hparent.held u' hne'
        rw [hsame] at hheld
        exact absurd hfree hheld
      · refine ⟨rfl, ?_⟩
        rcases Nat.lt_or_ge u' (pages sz) with hin | hbeyond
        · obtain ⟨c', -, hown', -⟩ := hadded.page u' (Nat.zero_le u') (by omega)
          rw [(hI'.user c' r' u' hown').2] at hsame
          rw [hsame, hown] at hown'
          cases hown'
          rfl
        · rw [hadded.leaf r' u' (by omega)] at hne' hsame
          have hheld := hchild.held u' hne'
          rw [hsame] at hheld
          exact absurd hfree hheld
  · have hroom : ¬ need G new 0 (pages sz) ≤ room G m := fun h => ha (hfits h).1
    obtain ⟨hminus, hundone⟩ := hshort hroom
    refine ⟨hminus, fun u hu => ?_, fun q hq => (hundone.new q hq).imp_left fun hfree => ?_⟩
    · rw [hundone.leaf]
      exact hchild.empty u hu
    · exact List.count_eq_one_of_mem hI'.nodup ((hI'.mem_fl q).2 hfree)

/-- A parent with one page at 0, an empty table for the child and three free pages. -/
def parentEntry : ℕ := PA2PTE (lastPage 5) ||| uvmPerm ||| PTE_V

def treeGhost : Ghost :=
  (((Ghost.idle eight).attach (lastPage 8) (lastPage 8) 2 0).attach (lastPage 7) (lastPage 8) 1
    (512 * 0 + 0)).attach (lastPage 6) (lastPage 8) 0 (512 * 0 + 0)

def forkGhost : Ghost :=
  [3, 2, 1].foldl (fun G i => G.give (lastPage i))
    (((treeGhost.setLeaf (lastPage 8) 0 parentEntry).label (lastPage 5)
      (.user (lastPage 8) 0)).attach (lastPage 4) (lastPage 4) 2 0)

def forkMemory : Memory :=
  [3, 2, 1].foldl (fun m i => given m (lastPage i)) <|
    setPage (setPage (setPage blank (lastPage 8) (putNat zeroPage 0 8 (link (lastPage 7))))
      (lastPage 7) (putNat zeroPage 0 8 (link (lastPage 6))))
      (lastPage 6) (putNat zeroPage 0 8 parentEntry)

theorem not_user_attach {c ℓ k r' : ℕ} (h : G.own p ≠ .user r' v) :
    (G.attach c r ℓ k).own p ≠ .user r' v := by
  by_cases hp : p = c
  · rw [hp, own_attach_self]
    exact nofun
  · rwa [own_attach_of_ne hp]

theorem not_user_idle : (Ghost.idle K).own p ≠ .user r v := by
  change (if K.IsPage p then Owner.fresh else .reserved) ≠ _
  split_ifs <;> exact nofun

theorem leafPte_parentEntry : LeafPte parentEntry :=
  leafPte_or (by decide) (by decide) (by decide)

theorem inv_fork : Inv eight forkGhost forkMemory := by
  have hroot := (inv_idle eight).plant (c := lastPage 8) (by decide) fun j _ => word_zero_page j
  have hmid := hroot.attach (c := lastPage 7) (r := lastPage 8) (ℓ := 1) (k := 0) (j := 0)
    (by decide) (fun j _ => word_zero_page j) (by decide) (by decide) (by decide) rfl
  have hlow := hmid.attach (c := lastPage 6) (r := lastPage 8) (ℓ := 0) (k := 0) (j := 0)
    (by decide) (fun j _ => word_zero_page j) (by decide) (by decide) (by decide) rfl
  have hnone : ∀ p, treeGhost.own p ≠ .user (lastPage 8) 0 := fun p =>
    not_user_attach (not_user_attach (not_user_attach not_user_idle))
  have hleaf := hlow.setLeaf (r := lastPage 8) (v := 0) (by decide)
    (.inr leafPte_parentEntry.toValidPte) fun p hp => absurd hp (hnone p)
  have hfresh : treeGhost.own (lastPage 5) = .fresh := by decide
  have hlabel := hleaf.label (p := lastPage 5) (o := .user (lastPage 8) 0)
    (hfresh ▸ held_fresh) held_user fun r v he => by
      cases he
      exact ⟨leafPte_parentEntry, by decide⟩
  have hchild := hlabel.plant (c := lastPage 4) (by decide) fun j _ => word_zero_page j
  exact ((hchild.give (by decide)).give (by decide)).give (by decide)

theorem uvmcopy_exact_fork :
    ∃ m', uvmcopy eight (lastPage 8) (lastPage 4) 5 forkMemory = .done 0 m' := by
  have hpages : pages 5 = 1 := rfl
  have honly : ∀ u, forkGhost.leaf (lastPage 8) u ≠ 0 → u = 0 := by
    intro u hu
    by_contra hne
    exact hu (if_neg fun h => hne h.2)
  have hparent : Parent forkGhost (lastPage 8) (lastPage 4) 5 := by
    refine ⟨by decide, fun u hu => ?_, fun u hu => ?_, fun u hu => ?_, fun u hu => ?_⟩
    · obtain rfl : u = 0 := by omega
      exact leafPte_parentEntry
    · obtain rfl : u = 0 := by omega
      decide
    · rw [honly u hu]
      decide
    · obtain rfl : u = 0 := by omega
      rintro ⟨ℓ, k, hnode⟩
      cases hnode
  have hempty : ∀ u, forkGhost.leaf (lastPage 4) u = 0 := by
    intro u
    have hne : ¬ (lastPage 4 = lastPage 8 ∧ u = 0) := fun h => absurd h.1 (by decide)
    exact (if_neg hne : (if lastPage 4 = lastPage 8 ∧ u = 0 then parentEntry else 0) = 0)
  have hchild : Child forkGhost (lastPage 4) 5 :=
    ⟨by decide, fun u _ => hempty u, fun u hu => absurd (hempty u) hu⟩
  obtain ⟨a, m', G', hrun, -, -, hfits, -⟩ :=
    uvmcopy_exact inv_fork hparent hchild (by decide) (by decide)
  rw [hfits (by decide)] at hrun
  exact ⟨m', hrun⟩

end Xv6.PageOwners
