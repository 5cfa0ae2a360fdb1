import Xv6.PageMoves

set_option autoImplicit false

namespace Xv6.PageOwners
open Xv6.Sequential ByteFields Paging VmCode

variable {K : Image} {G G' : Ghost} {m m' : Memory} {p r ℓ k v : ℕ} {S : ℕ → Prop}
variable {i e j va pa perm : ℕ}

theorem place_of_isPage (hp : K.IsPage p) (hi : i < PGSIZE) :
    InRam (p + i) ∧ PGROUNDDOWN (p + i) = p ∧ (p + i) % PGSIZE = i := by
  obtain ⟨haligned, hkend, hstop⟩ := hp
  have hbase := K.kernbase_le
  have htext := K.etext_le
  unfold InRam PGROUNDDOWN PHYSTOP KERNBASE PGSIZE at *
  omega

theorem load_of_isPage (hp : K.IsPage p) {w : ℕ} (hi : i < PGSIZE) (hw : (p + i) % w = 0) :
    load w (p + i) m = .done (getNat (m.page p) i w) m := by
  obtain ⟨hram, hbase, hoff⟩ := place_of_isPage hp hi
  unfold load
  rw [if_pos ⟨hram, hw⟩, hbase, hoff]

theorem store_of_isPage (hp : K.IsPage p) {w : ℕ} (hi : i < PGSIZE) (hw : (p + i) % w = 0) :
    store w (p + i) e m = .done () (setPage m p (putNat (m.page p) i w e)) := by
  obtain ⟨hram, hbase, hoff⟩ := place_of_isPage hp hi
  unfold store
  rw [if_pos ⟨hram, hw⟩, hbase, hoff]

theorem word_aligned (hp : K.IsPage p) (hj : j < 512) : 8 * j < PGSIZE ∧ (p + 8 * j) % 8 = 0 := by
  have haligned := hp.1
  unfold PGSIZE at *
  omega

theorem load_word (hp : K.IsPage p) (hj : j < 512) :
    load 8 (p + 8 * j) m = .done (word (m.page p) j) m :=
  load_of_isPage hp (word_aligned hp hj).1 (word_aligned hp hj).2

theorem Inv.store_word (hI : Inv K G m) (hp : G.node r ℓ k ≠ 0) (hj : j < 512) :
    store 8 (G.node r ℓ k + 8 * j) e m = .done () (storeEntry G m r ℓ k j e) :=
  store_of_isPage (hI.isPage_node hp) (word_aligned (hI.isPage_node hp) hj).1
    (word_aligned (hI.isPage_node hp) hj).2

theorem inRam_of_isPage (hp : K.IsPage p) : InRam p :=
  (place_of_isPage hp (by decide : 0 < PGSIZE)).1

theorem ok_memset {c : UInt8} (hp : G.own p = .fresh) :
    Spec K (· = p) (memset p c) (fun _ G' m' => G' = G ∧ m' = setPage m p fun _ => c) G m := by
  intro hI
  have hpage : K.IsPage p := hI.isPage (hp.trans_ne nofun)
  refine ⟨(), setPage m p fun _ => c, ?_, G, ?_, frame_setPage, rfl, rfl⟩
  · unfold memset
    rw [if_pos ⟨inRam_of_isPage hpage, hpage.1⟩]
  · apply hI.setPage
    · rw [hp]
      exact nofun
    · rw [hp]
      exact nofun

theorem frame_take (hp : G.own p = .free) (hpage : m'.page = Function.update m.page p fun _ => 5) :
    Frame (fun _ => False) G m (G.take p) m' := by
  have hne : ∀ q, G.own q ≠ .free → q ≠ p := by
    rintro q hq rfl
    exact hq hp
  constructor
  · intro q _ hq
    exact Function.update_of_ne (hne q hq) _ G.own
  · intro q _ hq
    rw [hpage, Function.update_of_ne (hne q hq)]
  · exact fun _ _ _ => ⟨rfl, rfl⟩

theorem ok_kalloc :
    Spec K (fun _ => False) kalloc (fun a G' m' =>
      a = 0 ∧ G' = G ∧ m'.page = m.page ∧ room G m = 0 ∨
      a ≠ 0 ∧ G.own a = .free ∧ G' = G.take a ∧
        m'.page = Function.update m.page a (fun _ => 5) ∧ room G m = room G' m' + 1) G m := by
  intro hI
  by_cases hfail : m.denied.head? = some true ∨ m.freelist = 0
  · refine ⟨0, { m with denied := m.denied.tail }, ?_, G, ?_, ?_, .inl ⟨rfl, rfl, rfl, ?_⟩⟩
    · unfold kalloc
      rw [if_pos hfail]
    · exact ⟨hI.toPool.congr rfl rfl rfl (fun _ => Iff.rfl) (fun _ => Iff.rfl) (fun _ _ => rfl),
        hI.toTables.congr rfl rfl (fun _ _ _ _ => Iff.rfl) (fun _ _ _ _ _ => rfl), hI.user⟩
    · exact ⟨fun _ _ _ => rfl, fun _ _ _ => rfl, fun _ _ _ => ⟨rfl, rfl⟩⟩
    · unfold room
      rcases hfail with hdenied | hempty
      · exact grants_denied hdenied
      have hchain := hI.chain
      rw [hempty] at hchain
      cases hfl : G.fl with
      | nil => exact grants_zero _
      | cons q l =>
        rw [hfl] at hchain
        exact absurd hchain.1.symm hchain.2.1
  · have hne : m.freelist ≠ 0 := fun h => hfail (.inr h)
    have hfree := hI.own_freelist hne
    refine ⟨m.freelist, taken m, ?_, G.take m.freelist, hI.take hne, frame_take hfree rfl,
      .inr ⟨hne, hfree, rfl, rfl, ?_⟩⟩
    · unfold kalloc
      rw [if_neg hfail]
      rfl
    · obtain ⟨l, hfl, -⟩ := hI.toPool.head hne
      unfold room taken Ghost.take
      rw [hfl]
      exact grants_tail fun h => hfail (.inl h)

theorem frame_give (hpage : ∀ q, q ≠ p → m'.page q = m.page q) :
    Frame (· = p) G m (G.give p) m' := by
  constructor
  · intro q hq _
    exact Function.update_of_ne hq _ G.own
  · intro q hq _
    exact hpage q hq
  · exact fun _ _ _ => ⟨rfl, rfl⟩

theorem ok_kfree (hp : G.own p = .fresh) :
    Spec K (· = p) (kfree K p) (fun _ G' m' => G' = G.give p ∧ room G m ≤ room G' m') G m := by
  intro hI
  have hpage : K.IsPage p := hI.isPage (hp.trans_ne nofun)
  refine ⟨(), given m p, ?_, G.give p, hI.give hp, frame_give ?_, rfl, ?_⟩
  · unfold kfree
    rw [if_neg]
    · rfl
    · obtain ⟨haligned, hkend, hstop⟩ := hpage
      omega
  · intro q hq
    exact Function.update_of_ne hq _ m.page
  · exact grants_le_succ m.denied G.fl.length

def slot (G : Ghost) (r v : ℕ) : ℕ :=
  if G.node r 0 (v / 512) = 0 then 0 else G.node r 0 (v / 512) + 8 * (v % 512)

theorem link_zero : link 0 &&& PTE_V = 0 := rfl

theorem link_of_isPage (h : K.IsPage p) : link p &&& PTE_V ≠ 0 ∧ PTE2PA (link p) = p := by
  unfold link
  rw [if_neg (isPage_ne_zero h)]
  exact ⟨by rw [or_and_of_lt h.2.2 (by decide) (by decide)]; decide,
    PTE2PA_or h.2.2 h.1 (by decide)⟩

theorem place_below (v ℓ : ℕ) :
    512 * (v / 512 ^ (ℓ + 2)) + v / 512 ^ (ℓ + 1) % 512 = v / 512 ^ (ℓ + 1) := by
  rw [pow_succ 512 (ℓ + 1), ← Nat.div_div_eq_div_mul]
  exact Nat.div_add_mod _ 512

def Agree (G : Ghost) (r : ℕ) (m m' : Memory) : Prop := ∀ q, G.Nodes r q → m'.page q = m.page q

theorem agree_self : Agree G r m m := fun _ _ => rfl

theorem Agree.page_node (h : Agree G r m m') (hI : Inv K G m) (hne : G.node r ℓ k ≠ 0) :
    m'.page (G.node r ℓ k) = m.page (G.node r ℓ k) :=
  h _ ⟨ℓ, k, hI.node_own r ℓ k hne⟩

theorem Inv.load_entry (hI : Inv K G m) (hagree : Agree G r m m')
    (h : G.node r (ℓ + 1) (va / PGSIZE / 512 ^ (ℓ + 2)) ≠ 0) :
    load 8 (G.node r (ℓ + 1) (va / PGSIZE / 512 ^ (ℓ + 2)) + 8 * PX (ℓ + 1) va) m' =
      .done (link (G.node r ℓ (va / PGSIZE / 512 ^ (ℓ + 1)))) m' := by
  rw [load_word (hI.isPage_node h) (PX_lt _ va), hagree.page_node hI h,
    hI.entry r ℓ _ _ h (PX_lt _ va), PX_eq, place_below]

theorem Inv.node_eq_zero_of_above (hI : Inv K G m) (hℓ : ℓ < 2)
    (h : G.node r ℓ (v / 512 ^ (ℓ + 1)) = 0) : G.node r 0 (v / 512) = 0 := by
  by_contra hlow
  cases ℓ with
  | zero =>
    rw [zero_add, pow_one] at h
    exact hlow h
  | succ ℓ =>
    obtain rfl : ℓ = 0 := by omega
    have hup := hI.node_up (by decide) hlow
    rw [Nat.div_div_eq_div_mul] at hup
    exact hup h

theorem Inv.walkFrom_false (hI : Inv K G m) (hagree : Agree G r m m') (hℓ : ℓ ≤ 2)
    (h : G.node r ℓ (va / PGSIZE / 512 ^ (ℓ + 1)) ≠ 0) :
    walkFrom va false ℓ (G.node r ℓ (va / PGSIZE / 512 ^ (ℓ + 1))) m' =
      .done (slot G r (va / PGSIZE)) m' := by
  induction ℓ with
  | zero =>
    unfold walkFrom slot
    rw [pow_one] at h ⊢
    rw [if_neg h, PX_eq, pow_zero, Nat.div_one]
    rfl
  | succ ℓ ih =>
    unfold walkFrom
    rw [bind_of_done (hI.load_entry hagree h)]
    by_cases hnext : G.node r ℓ (va / PGSIZE / 512 ^ (ℓ + 1)) = 0
    · have hslot : slot G r (va / PGSIZE) = 0 :=
        if_pos (hI.node_eq_zero_of_above (by omega) hnext)
      rw [hnext, hslot]
      rfl
    · have hpage := hI.isPage_node hnext
      rw [if_pos (link_of_isPage hpage).1, (link_of_isPage hpage).2]
      exact ih (by omega) hnext

theorem Inv.node_top (hI : Inv K G m) (hroot : G.own r = .node r 2 0) (hva : va < MAXVA) :
    G.node r 2 (va / PGSIZE / 512 ^ (2 + 1)) = r ∧ r ≠ 0 := by
  have htop : va / PGSIZE / 512 ^ (2 + 1) = 0 := by
    unfold MAXVA at hva
    unfold PGSIZE
    omega
  rw [htop]
  exact ⟨hI.node_root hroot, isPage_ne_zero (hI.isPage (hroot.trans_ne nofun))⟩

theorem Inv.walk_false (hI : Inv K G m) (hagree : Agree G r m m') (hroot : G.own r = .node r 2 0)
    (hva : va < MAXVA) :
    walk r va false m' = .done (slot G r (va / PGSIZE)) m' := by
  obtain ⟨htop, hr0⟩ := hI.node_top hroot hva
  have h := hI.walkFrom_false hagree (le_refl 2) (htop.trans_ne hr0)
  unfold walk
  rw [if_neg (by omega)]
  rwa [htop] at h

structure Taken (r : ℕ) (G G' : Ghost) : Prop where
  own : ∀ p, G.own p ≠ .free → G'.own p = G.own p
  new : ∀ p, G.own p = .free → G'.own p = .free ∨ G'.Nodes r p

theorem Taken.refl (r : ℕ) (G : Ghost) : Taken r G G := ⟨fun _ _ => rfl, fun _ hp => .inl hp⟩

theorem Taken.trans {G'' : Ghost} (h : Taken r G G') (h' : Taken r G' G'') : Taken r G G'' := by
  constructor
  · intro p hp
    rw [h'.own p (by rw [h.own p hp]; exact hp), h.own p hp]
  · intro p hp
    rcases h.new p hp with hfree | ⟨ℓ, k, hnode⟩
    · exact h'.new p hfree
    · exact .inr ⟨ℓ, k, by rw [h'.own p (hnode.trans_ne nofun), hnode]⟩

structure Grown (r : ℕ) (G G' : Ghost) : Prop extends Taken r G G' where
  leaf : G'.leaf = G.leaf

theorem Grown.refl (r : ℕ) (G : Ghost) : Grown r G G := ⟨Taken.refl r G, rfl⟩

theorem Grown.trans {G'' : Ghost} (h : Grown r G G') (h' : Grown r G' G'') : Grown r G G'' :=
  ⟨h.toTaken.trans h'.toTaken, h'.leaf.trans h.leaf⟩

def missing (G : Ghost) (r v : ℕ) : ℕ → ℕ
  | 0 => 0
  | ℓ + 1 => missing G r v ℓ + if G.node r ℓ (v / 512 ^ (ℓ + 1)) = 0 then 1 else 0

theorem missing_congr (h : ∀ i < ℓ, G'.node r i (v / 512 ^ (i + 1)) = G.node r i
    (v / 512 ^ (i + 1))) :
    missing G' r v ℓ = missing G r v ℓ := by
  induction ℓ with
  | zero => rfl
  | succ ℓ ih =>
    unfold missing
    rw [ih fun i hi => h i (by omega), h ℓ (by omega)]

theorem missing_le (G : Ghost) (r v ℓ : ℕ) : missing G r v ℓ ≤ ℓ := by
  induction ℓ with
  | zero => exact le_rfl
  | succ ℓ ih =>
    unfold missing
    split_ifs <;> omega

theorem ok_attach {c : ℕ} (hc : G.own c = .fresh) (hzero : ∀ j < 512, word (m.page c) j = 0)
    (hℓ : ℓ < 2) (hp : G.node r (ℓ + 1) k ≠ 0) (hj : j < 512)
    (hnone : G.node r ℓ (512 * k + j) = 0) :
    Spec K (fun q => q = c ∨ G.Nodes r q)
      (store 8 (G.node r (ℓ + 1) k + 8 * j) (PA2PTE c ||| PTE_V))
      (fun _ G' m' => G' = G.attach c r ℓ (512 * k + j) ∧ room G' m' = room G m) G m := by
  intro hI
  have hc0 : c ≠ 0 := isPage_ne_zero (hI.isPage (hc.trans_ne nofun))
  have hlink : PA2PTE c ||| PTE_V = link c := (if_neg hc0).symm
  rw [hlink]
  exact ⟨(), _, hI.store_word hp hj, _, hI.attach hc hzero hℓ hp hj hnone, hI.frame_attach hp,
    rfl, rfl⟩

theorem word_zero_page (j : ℕ) : word (fun _ => 0) j = 0 := by
  have hzero : ∀ w (f : ℕ → UInt8), (∀ i, f i = 0) → leDecode f w = 0 := by
    intro w
    induction w with
    | zero => exact fun _ _ => rfl
    | succ w ih =>
      intro f hf
      unfold leDecode
      rw [hf 0, ih _ fun i => hf (i + 1)]
      rfl
  apply hzero
  intro i
  unfold byte
  split_ifs <;> rfl

structure Walked (G : Ghost) (m : Memory) (r v ℓ a : ℕ) (G' : Ghost) (m' : Memory) : Prop where
  grown : Grown r G G'
  found : a ≠ 0 → G'.node r 0 (v / 512) ≠ 0 ∧ a = G'.node r 0 (v / 512) + 8 * (v % 512)
  enough : a = 0 → room G m < missing G r v ℓ
  spent : room G m ≤ room G' m' + missing G r v ℓ
  exact : a ≠ 0 → room G m = room G' m' + missing G r v ℓ
  path : ∀ i k, G'.node r i k ≠ G.node r i k → k = v / 512 ^ (i + 1)

theorem Walked.descend {a : ℕ} {G' : Ghost} {m' : Memory} (h : Walked G m r v ℓ a G' m')
    (hnext : G.node r ℓ (v / 512 ^ (ℓ + 1)) ≠ 0) : Walked G m r v (ℓ + 1) a G' m' := by
  have hmissing : missing G r v (ℓ + 1) = missing G r v ℓ := by
    rw [missing, if_neg hnext, add_zero]
  refine ⟨h.grown, h.found, ?_, ?_, ?_, h.path⟩
  · rw [hmissing]
    exact h.enough
  · rw [hmissing]
    exact h.spent
  · rw [hmissing]
    exact h.exact

theorem grown_attach {c : ℕ} (hfree : G.own c = .free) :
    Grown r G ((G.take c).attach c r ℓ k) := by
  refine ⟨⟨fun q hq => ?_, fun q hq => ?_⟩, rfl⟩
  · have hqc : q ≠ c := by
      rintro rfl
      exact hq hfree
    rw [own_attach_of_ne hqc, own_take_of_ne hqc]
  · by_cases hqc : q = c
    · rw [hqc]
      exact .inr ⟨ℓ, k, own_attach_self⟩
    · rw [own_attach_of_ne hqc, own_take_of_ne hqc]
      exact .inl hq

/-- The walk went on in a new table page, which took one of the free pages. -/
theorem Walked.attached {a c : ℕ} {G' : Ghost} {m1 m' : Memory}
    (h : Walked ((G.take c).attach c r ℓ (v / 512 ^ (ℓ + 1))) m1 r v ℓ a G' m')
    (hfree : G.own c = .free) (hnext : G.node r ℓ (v / 512 ^ (ℓ + 1)) = 0)
    (hroom : room G m = room ((G.take c).attach c r ℓ (v / 512 ^ (ℓ + 1))) m1 + 1) :
    Walked G m r v (ℓ + 1) a G' m' := by
  have hmissing : missing G r v (ℓ + 1) = missing G r v ℓ + 1 := by
    rw [missing, if_pos hnext]
  have hsame : missing ((G.take c).attach c r ℓ (v / 512 ^ (ℓ + 1))) r v ℓ = missing G r v ℓ := by
    apply missing_congr
    intro i hi
    exact if_neg fun he => absurd he.2.1 (by omega)
  have hspent := h.spent
  refine ⟨(grown_attach hfree).trans h.grown, h.found, fun ha => ?_, ?_, fun ha => ?_, ?_⟩
  · have := h.enough ha
    omega
  · omega
  · have := h.exact ha
    omega
  · intro i k hne
    by_cases hhere : i = ℓ ∧ k = v / 512 ^ (ℓ + 1)
    · rw [hhere.1, hhere.2]
    · apply h.path i k
      rw [node_attach_of_ne hhere]
      exact hne

theorem ok_walkFrom (hℓ : ℓ ≤ 2) (h : G.node r ℓ (va / PGSIZE / 512 ^ (ℓ + 1)) ≠ 0) :
    Spec K (G.Nodes r) (walkFrom va true ℓ (G.node r ℓ (va / PGSIZE / 512 ^ (ℓ + 1))))
      (Walked G m r (va / PGSIZE) ℓ) G m := by
  induction ℓ generalizing G m with
  | zero =>
    apply Run.spec
    apply run_pure
    intro hI _
    rw [zero_add, pow_one] at h ⊢
    have haddr : 8 * PX 0 va = 8 * (va / PGSIZE % 512) := by
      rw [PX_eq, pow_zero, Nat.div_one]
    rw [haddr]
    refine ⟨Grown.refl r G, fun _ => ⟨h, rfl⟩, fun hzero => ?_, Nat.le_add_right _ _, fun _ => rfl,
      fun _ _ hne => absurd rfl hne⟩
    omega
  | succ ℓ ih =>
    apply Run.spec
    unfold walkFrom
    apply run_read fun hI _ => hI.load_entry agree_self h
    by_cases hnext : G.node r ℓ (va / PGSIZE / 512 ^ (ℓ + 1)) = 0
    · rw [hnext, if_neg (not_not.2 link_zero), if_neg Bool.noConfusion]
      apply ok_kalloc.call fun _ hfalse => hfalse.elim
      intro c G1 m1 hI1 _ _ hc
      rcases hc with ⟨rfl, rfl, -, hroom⟩ | ⟨hc0, hfree, rfl, hpage, hroom⟩
      · rw [if_pos rfl]
        apply run_pure
        intro _ _
        refine ⟨Grown.refl r _, fun hne => absurd rfl hne, fun _ => ?_, by omega,
          fun hne => absurd rfl hne, fun _ _ hne => absurd rfl hne⟩
        rw [missing, if_pos hnext]
        omega
      rw [if_neg hc0]
      apply (ok_memset own_take_self).call
      · rintro q rfl
        exact .inr hfree
      · rintro _ _ _ _ hF _ ⟨rfl, rfl⟩
        have hnode : (G.take c).node r (ℓ + 1) (va / PGSIZE / 512 ^ (ℓ + 2)) ≠ 0 := h
        have hplace : (G.take c).node r ℓ
            (512 * (va / PGSIZE / 512 ^ (ℓ + 2)) + PX (ℓ + 1) va) = 0 := by
          rw [PX_eq, place_below]
          exact hnext
        apply (ok_attach own_take_self (fun j _ => ?_) (by omega) hnode (PX_lt _ va) hplace).call
        · rintro q (rfl | hq)
          · exact .inr hfree
          · exact hF.nodes (fun _ => id) q hq
        · rintro _ _ m2 _ hF' _ ⟨rfl, hroom'⟩
          rw [PX_eq, place_below] at hF' hroom' ⊢
          have hbelow := ih (G := (G.take c).attach c r ℓ (va / PGSIZE / 512 ^ (ℓ + 1))) (m := m2)
            (by omega) (by rw [node_attach_self]; exact hc0)
          rw [node_attach_self] at hbelow
          apply hbelow.last (hF'.nodes fun _ => id)
          intro a G' m' _ _ _ hW
          change room _ m2 = room (G.take c) m1 at hroom'
          exact hW.attached hfree hnext (by omega)
        · change word (Function.update m1.page c (fun _ => 0) c) j = 0
          rw [Function.update_self]
          exact word_zero_page j
    · intro hJ
      have hpage := hJ.1.isPage_node hnext
      rw [if_pos (link_of_isPage hpage).1, (link_of_isPage hpage).2]
      revert hJ
      apply (ih (by omega) hnext).last fun _ => .inl
      exact fun a G' m' _ _ _ hW => hW.descend hnext

theorem ok_walk (hroot : G.own r = .node r 2 0) (hva : va < MAXVA) :
    Spec K (G.Nodes r) (walk r va true) (Walked G m r (va / PGSIZE) 2) G m := by
  intro hI
  obtain ⟨htop, hr0⟩ := hI.node_top hroot hva
  have h := ok_walkFrom (K := K) (m := m) (le_refl 2) (htop.trans_ne hr0)
  unfold walk
  rw [if_neg (by omega)]
  rw [htop] at h
  exact h hI

theorem ok_setLeaf (hp : G.node r 0 (v / 512) ≠ 0) (he : e = 0 ∨ ValidPte e)
    (huser : ∀ p, G.own p = .user r v → LeafPte e ∧ PTE2PA e = p) :
    Spec K (G.Nodes r) (store 8 (G.node r 0 (v / 512) + 8 * (v % 512)) e)
      (fun _ G' m' => G' = G.setLeaf r v e ∧ room G' m' = room G m) G m := by
  intro hI
  exact ⟨(), _, hI.store_word hp (Nat.mod_lt _ (by decide)), _, hI.setLeaf hp he huser,
    hI.frame_setLeaf hp, rfl, rfl⟩

theorem Inv.load_leaf (hI : Inv K G m) (hagree : Agree G r m m')
    (hp : G.node r 0 (v / 512) ≠ 0) :
    load 8 (G.node r 0 (v / 512) + 8 * (v % 512)) m' = .done (G.leaf r v) m' := by
  have hj : v % 512 < 512 := Nat.mod_lt _ (by decide)
  rw [load_word (hI.isPage_node hp) hj, hagree.page_node hI hp, hI.leafEntry r _ _ hp hj,
    Nat.div_add_mod]

def mapped (leaf : ℕ → ℕ → ℕ) (r v n pa perm : ℕ) : ℕ → ℕ → ℕ := fun r' v' =>
  if r' = r ∧ v ≤ v' ∧ v' < v + n then PA2PTE (u64 (pa + (v' - v) * PGSIZE)) ||| perm ||| PTE_V
  else leaf r' v'

theorem mapped_zero (leaf : ℕ → ℕ → ℕ) (pa perm : ℕ) : mapped leaf r v 0 pa perm = leaf := by
  funext r' v'
  exact if_neg (by omega)

theorem mapped_succ (hpa : pa < 2 ^ 64) (perm n : ℕ) :
    mapped (G.setLeaf r v (PA2PTE pa ||| perm ||| PTE_V)).leaf r (v + 1) n
    (u64 (pa + PGSIZE)) perm =
      mapped G.leaf r v (n + 1) pa perm := by
  funext r' v'
  simp only [mapped, Ghost.setLeaf]
  by_cases hv : r' = r ∧ v' = v
  · obtain ⟨rfl, rfl⟩ := hv
    have hbefore : ¬ (r' = r' ∧ v' + 1 ≤ v' ∧ v' < v' + 1 + n) := by omega
    have hfirst : r' = r' ∧ v' ≤ v' ∧ v' < v' + (n + 1) := by omega
    have hself : u64 (pa + (v' - v') * PGSIZE) = pa := by
      rw [Nat.sub_self, zero_mul, add_zero]
      exact Nat.mod_eq_of_lt hpa
    rw [if_neg hbefore, if_pos ⟨rfl, rfl⟩, if_pos hfirst, hself]
  have hiff : r' = r ∧ v + 1 ≤ v' ∧ v' < v + 1 + n ↔ r' = r ∧ v ≤ v' ∧ v' < v + (n + 1) := by
    omega
  rw [if_neg hv, if_congr hiff rfl rfl]
  split_ifs with hin
  · have hpages : (v' - v) * PGSIZE = (v' - (v + 1)) * PGSIZE + PGSIZE := by
      rw [show v' - v = v' - (v + 1) + 1 by omega, Nat.succ_mul]
    have hstep : u64 (u64 (pa + PGSIZE) + (v' - (v + 1)) * PGSIZE) =
        u64 (pa + (v' - v) * PGSIZE) := by
      unfold u64
      omega
    rw [hstep]
  · rfl

theorem mapped_self {leaf : ℕ → ℕ → ℕ} (hpa : pa < PHYSTOP) :
    mapped leaf r v 1 pa perm r v = PA2PTE pa ||| perm ||| PTE_V := by
  have hself : u64 (pa + (v - v) * PGSIZE) = pa := by
    rw [Nat.sub_self, zero_mul, add_zero]
    exact Nat.mod_eq_of_lt (hpa.trans (by decide))
  unfold mapped
  rw [if_pos (by omega), hself]

theorem mapped_of_ne {leaf : ℕ → ℕ → ℕ} {r' v' : ℕ} (h : ¬ (r' = r ∧ v' = v)) :
    mapped leaf r v 1 pa perm r' v' = leaf r' v' :=
  if_neg (by omega)

theorem validPte_or (hperm : perm < 2 ^ 64) : ValidPte (PA2PTE pa ||| perm ||| PTE_V) := by
  constructor
  · have hpte : PA2PTE pa < 2 ^ 64 := Nat.mod_lt _ (by decide)
    exact Nat.or_lt_two_pow (Nat.or_lt_two_pow hpte hperm) (by decide)
  · rw [Nat.and_or_distrib_right]
    intro hzero
    exact absurd (Nat.or_eq_zero_iff.1 hzero).2 (by decide)

theorem leafPte_or (hpa : pa < PHYSTOP) (hperm : perm < 1024) (hflags : perm ||| PTE_V ≠ PTE_V) :
    LeafPte (PA2PTE pa ||| perm ||| PTE_V) := by
  refine ⟨validPte_or (by omega), ?_⟩
  rw [Nat.lor_assoc, PTE_FLAGS_or hpa (Nat.or_lt_two_pow (n := 10) hperm (by decide))]
  exact hflags

def cost (G : Ghost) (r v n : ℕ) : ℕ := 2 * ((v % 512 + n) / 512) + missing G r v 2

structure Mapped (G : Ghost) (m : Memory) (r v n pa perm : ℕ) (a : ℤ) (G' : Ghost) (m' : Memory) :
    Prop where
  taken : Taken r G G'
  ok : a = 0 → G'.leaf = mapped G.leaf r v (n + 1) pa perm
  fail : a ≠ 0 → a = -1 ∧ room G m < cost G r v n ∧ ∃ i ≤ n, G'.leaf = mapped G.leaf r v i pa perm
  spent : room G m ≤ room G' m' + cost G r v n
  exact : n = 0 → a = 0 → room G m = room G' m' + missing G r v 2
  path : n = 0 → ∀ i k, G'.node r i k ≠ G.node r i k → k = v / 512 ^ (i + 1)

theorem Inv.missing_eq_zero (hI : Inv K G m) (h : G.node r 0 (v / 512) ≠ 0) :
    missing G r v 2 = 0 := by
  have hup : G.node r 1 (v / 512 / 512) ≠ 0 := hI.node_up (by decide) h
  rw [Nat.div_div_eq_div_mul, ← sq] at hup
  simp only [missing, zero_add, pow_one, h, hup, Nat.reduceAdd, ↓reduceIte, add_zero]

theorem Inv.cost_succ (hI : Inv K G' m') {n : ℕ} (h : G'.node r 0 (v / 512) ≠ 0) :
    missing G r v 2 + cost G' r (v + 1) n ≤ cost G r v (n + 1) := by
  unfold cost
  by_cases hlast : v % 512 = 511
  · have hle := missing_le G' r (v + 1) 2
    omega
  · have hsame : (v + 1) / 512 = v / 512 := by omega
    rw [hI.missing_eq_zero (by rw [hsame]; exact h)]
    omega

theorem ok_mappagesFrom {n fuel : ℕ} (hfuel : n < fuel) (hroot : G.own r = .node r 2 0)
    (hv : v + n < 2 ^ 26) (hpa : pa < 2 ^ 64) (hperm : perm < 2 ^ 64)
    (hleaf : ∀ i ≤ n, G.leaf r (v + i) = 0) :
    Spec K (G.Nodes r) (mappagesFrom r perm ((v + n) * PGSIZE) fuel (v * PGSIZE) pa)
      (Mapped G m r v n pa perm) G m := by
  induction fuel generalizing G m v pa n with
  | zero => exact absurd hfuel (Nat.not_lt_zero n)
  | succ fuel ih =>
    have hva : v * PGSIZE < MAXVA := by
      unfold MAXVA PGSIZE
      omega
    have hdiv : v * PGSIZE / PGSIZE = v := Nat.mul_div_cancel v (by decide)
    apply Run.spec
    unfold mappagesFrom
    apply (ok_walk hroot hva).call fun _ => .inl
    rw [hdiv]
    intro a G1 m1 hI1 hF1 _ hW
    have hspent := hW.spent
    have hcost : missing G r v 2 ≤ cost G r v n := Nat.le_add_left _ _
    by_cases ha : a = 0
    · rw [if_pos ha]
      have henough := hW.enough ha
      apply run_pure
      intro _ _
      refine ⟨hW.grown.toTaken, nofun, fun _ => ⟨rfl, by omega, 0, Nat.zero_le n, ?_⟩, by omega,
        nofun, fun _ => hW.path⟩
      rw [mapped_zero, hW.grown.leaf]
    rw [if_neg ha]
    obtain ⟨hnode, hslot⟩ := hW.found ha
    rw [hslot]
    apply run_read fun hI _ => hI.load_leaf agree_self hnode
    have hzero : G1.leaf r v = 0 := by
      rw [hW.grown.leaf]
      exact hleaf 0 (Nat.zero_le n)
    rw [hzero, if_neg (not_not.2 (Nat.zero_and PTE_V))]
    apply (ok_setLeaf hnode (.inr (validPte_or hperm)) ?_).call (hF1.nodes fun _ => id)
    · rintro _ _ m2 hI2 hF2 _ ⟨rfl, hroom⟩
      cases n with
      | zero =>
        rw [add_zero, if_pos rfl]
        apply run_pure
        intro _ _
        refine ⟨⟨hW.grown.own, hW.grown.new⟩, fun _ => ?_, fun h => absurd rfl h, by omega,
          fun _ _ => ?_, fun _ => hW.path⟩
        swap
        · rw [hroom]
          exact hW.exact ha
        rw [← mapped_succ hpa, mapped_zero]
        change (fun r' v' => if r' = r ∧ v' = v then _ else G1.leaf r' v') = _
        rw [hW.grown.leaf]
        rfl
      | succ n =>
        have hne : v * PGSIZE ≠ (v + (n + 1)) * PGSIZE := by
          unfold PGSIZE
          omega
        have hend : (v + (n + 1)) * PGSIZE = (v + 1 + n) * PGSIZE := by ring
        rw [if_neg hne, u64_next (by omega), hend]
        have hroot1 : (G1.setLeaf r v (PA2PTE pa ||| perm ||| PTE_V)).own r = .node r 2 0 := by
          change G1.own r = _
          rw [hW.grown.own r (hroot.trans_ne nofun), hroot]
        have hpa1 : u64 (pa + PGSIZE) < 2 ^ 64 := Nat.mod_lt _ (by decide)
        have hleaf1 : ∀ i ≤ n,
            (G1.setLeaf r v (PA2PTE pa ||| perm ||| PTE_V)).leaf r (v + 1 + i) = 0 := by
          intro i hi
          change (if r = r ∧ v + 1 + i = v then _ else G1.leaf r (v + 1 + i)) = 0
          rw [if_neg (by omega), hW.grown.leaf, show v + 1 + i = v + (i + 1) by omega]
          exact hleaf (i + 1) (by omega)
        refine (ih (by omega) hroot1 (by omega) hpa1 hleaf1).last (hF2.nodes fun _ => id) ?_
        intro b G' m' hI' _ _ hM
        have hcost' := hI2.cost_succ (G := G) (n := n) hnode
        have hspent' := hM.spent
        have hleafs : ∀ i, mapped (G1.setLeaf r v (PA2PTE pa ||| perm ||| PTE_V)).leaf r (v + 1) i
            (u64 (pa + PGSIZE)) perm = mapped G.leaf r v (i + 1) pa perm := by
          intro i
          rw [mapped_succ hpa, hW.grown.leaf]
        have htaken : Taken r G (G1.setLeaf r v (PA2PTE pa ||| perm ||| PTE_V)) :=
          ⟨hW.grown.own, hW.grown.new⟩
        refine ⟨htaken.trans hM.taken, fun hb => ?_, fun hb => ?_, ?_, nofun, nofun⟩
        · rw [hM.ok hb, hleafs]
        · obtain ⟨hminus, henough, i, hi, hleaf'⟩ := hM.fail hb
          exact ⟨hminus, by omega, i + 1, by omega, by rw [hleaf', hleafs]⟩
        · omega
    · intro p hp
      exact absurd hzero (hI1.user p r v hp).1.ne_zero

theorem ok_mappages (hroot : G.own r = .node r 2 0) (haligned : va % PGSIZE = 0) (hva : va < MAXVA)
    (hpa : pa < 2 ^ 64) (hperm : perm < 2 ^ 64) (hleaf : G.leaf r (va / PGSIZE) = 0) :
    Spec K (G.Nodes r) (mappages r va PGSIZE pa perm)
      (Mapped G m r (va / PGSIZE) 0 pa perm) G m := by
  have hlast : PGROUNDDOWN (u64 (va + PGSIZE + (2 ^ 64 - 1))) = (va / PGSIZE + 0) * PGSIZE := by
    unfold PGROUNDDOWN u64
    unfold MAXVA at hva
    unfold PGSIZE at *
    omega
  have hfuel : 0 < maxRounds := Nat.succ_pos _
  unfold mappages
  rw [hlast]
  apply ok_mappagesFrom hfuel hroot
  · unfold MAXVA at hva
    unfold PGSIZE
    omega
  · exact hpa
  · exact hperm
  · intro i hi
    obtain rfl : i = 0 := by omega
    exact hleaf

end Xv6.PageOwners
