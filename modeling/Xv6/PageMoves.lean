import Xv6.PageOwners

set_option autoImplicit false

namespace Xv6.PageOwners
open ByteFields Paging VmCode LinkedList Accounting
open Function (update update_of_ne update_self)

variable {K : Image} {G G' : Ghost} {m m' : Memory} {p r ℓ k v : ℕ}
variable {q e j c : ℕ} {o : Owner}

/-- The last event about a page decides whether it is free. -/
theorem freed_snoc {l : List Event} {e : Event} :
    freed (l ++ [e]) p ↔ e = .kfree p ∨ e ≠ .kalloc p ∧ freed l p := by
  unfold freed
  rw [List.reverse_append, List.reverse_singleton, List.singleton_append, List.find?_cons]
  by_cases halloc : e = .kalloc p
  · simp [halloc]
  · by_cases hfree : e = .kfree p
    · simp [hfree]
    · simp [halloc, hfree]

theorem Pool.congr (h : Pool K G m) (hfl : G'.fl = G.fl) (hlist : m'.freelist = m.freelist)
    (htrace : m'.trace = m.trace) (hreserved : ∀ p, G'.own p = .reserved ↔ G.own p = .reserved)
    (hfree : ∀ p, G'.own p = .free ↔ G.own p = .free)
    (hpage : ∀ p, G.own p = .free → m'.page p = m.page p) : Pool K G' m' := by
  constructor
  · intro p
    rw [hreserved p]
    exact h.reserved p
  · rw [hfl, hlist]
    apply h.chain.congr
    intro p hp
    unfold next
    rw [hpage p ((h.mem_fl p).1 hp)]
  · rw [hfl]
    exact h.nodup
  · intro p
    rw [hfl, hfree p]
    exact h.mem_fl p
  · rw [htrace]
    exact h.once
  · intro p
    rw [htrace, hfree p]
    exact h.freed_iff p

theorem Tables.congr (h : Tables G m) (hnode : G'.node = G.node) (hleaf : G'.leaf = G.leaf)
    (hown : ∀ p r ℓ k, G'.own p = .node r ℓ k ↔ G.own p = .node r ℓ k)
    (hpage : ∀ p r ℓ k, G.own p = .node r ℓ k → m'.page p = m.page p) : Tables G' m' := by
  constructor
  · intro r ℓ k hne
    rw [hnode] at hne ⊢
    exact (hown _ r ℓ k).2 (h.node_own r ℓ k hne)
  · intro p r ℓ k hp
    rw [hnode]
    exact h.own_node p r ℓ k ((hown p r ℓ k).1 hp)
  · rw [hnode]
    exact h.up
  · intro r ℓ k j hne hj
    rw [hnode] at hne ⊢
    rw [hpage _ r (ℓ + 1) k (h.node_own r (ℓ + 1) k hne)]
    exact h.entry r ℓ k j hne hj
  · intro r k j hne hj
    rw [hnode] at hne
    rw [hnode, hleaf, hpage _ r 0 k (h.node_own r 0 k hne)]
    exact h.leafEntry r k j hne hj
  · rw [hnode, hleaf]
    exact h.noLeaf
  · rw [hleaf]
    exact h.validPte

structure Held (o : Owner) : Prop where
  reserved : o ≠ .reserved
  free : o ≠ .free
  node : ∀ r ℓ k, o ≠ .node r ℓ k

theorem held_fresh : Held .fresh := ⟨nofun, nofun, nofun⟩

theorem held_user : Held (.user r v) := ⟨nofun, nofun, nofun⟩

theorem Inv.setPage (hI : Inv K G m) {d : Page} (hfree : G.own p ≠ .free)
    (hnode : ∀ r ℓ k, G.own p ≠ .node r ℓ k) : Inv K G (setPage m p d) := by
  have hother : ∀ q, q ≠ p → (VmCode.setPage m p d).page q = m.page q := by
    intro q hq
    exact update_of_ne hq d m.page
  refine ⟨?_, ?_, hI.user⟩
  · refine hI.toPool.congr rfl rfl rfl (fun _ => Iff.rfl) (fun _ => Iff.rfl) ?_
    intro q hq
    apply hother
    rintro rfl
    exact hfree hq
  · refine hI.toTables.congr rfl rfl (fun _ _ _ _ => Iff.rfl) ?_
    intro q r ℓ k hq
    apply hother
    rintro rfl
    exact hnode r ℓ k hq

theorem frame_setPage {d : Page} : Frame (· = p) G m G (setPage m p d) := by
  constructor
  · exact fun _ _ _ => rfl
  · intro q hq _
    exact update_of_ne hq d m.page
  · exact fun _ _ _ => ⟨rfl, rfl⟩

def Ghost.take (G : Ghost) (p : ℕ) : Ghost :=
  { G with own := update G.own p .fresh, fl := G.fl.tail }

def Ghost.give (G : Ghost) (p : ℕ) : Ghost :=
  { G with own := update G.own p .free, fl := p :: G.fl }

def Ghost.label (G : Ghost) (p : ℕ) (o : Owner) : Ghost :=
  { G with own := update G.own p o }

@[simp] theorem own_take_self : (G.take p).own p = .fresh := update_self p _ G.own

theorem own_take_of_ne (h : q ≠ p) : (G.take p).own q = G.own q :=
  update_of_ne h _ G.own

@[simp] theorem own_give_self : (G.give p).own p = .free := update_self p _ G.own

theorem own_give_of_ne (h : q ≠ p) : (G.give p).own q = G.own q :=
  update_of_ne h _ G.own

@[simp] theorem own_label_self : (G.label p o).own p = o :=
  update_self p _ G.own

theorem own_label_of_ne (h : q ≠ p) : (G.label p o).own q = G.own q :=
  update_of_ne h _ G.own

def grants : List Bool → ℕ → ℕ
  | _, 0 => 0
  | [], n + 1 => n + 1
  | true :: _, _ + 1 => 0
  | false :: l, n + 1 => grants l n + 1

theorem grants_zero (l : List Bool) : grants l 0 = 0 := by
  cases l <;> rfl

theorem grants_denied {l : List Bool} {n : ℕ} (h : l.head? = some true) : grants l n = 0 := by
  cases l with
  | nil => cases h
  | cons b l =>
    cases n with
    | zero => rfl
    | succ n =>
      cases h
      rfl

theorem grants_tail {l : List Bool} {n : ℕ} (h : l.head? ≠ some true) :
    grants l (n + 1) = grants l.tail n + 1 := by
  match l with
  | [] => cases n <;> rfl
  | true :: _ => exact absurd rfl h
  | false :: _ => rfl

theorem grants_le_succ (l : List Bool) (n : ℕ) : grants l n ≤ grants l (n + 1) := by
  induction l generalizing n with
  | nil =>
    cases n with
    | zero => exact Nat.zero_le 1
    | succ n => exact Nat.le_succ _
  | cons b l ih =>
    cases n with
    | zero => exact Nat.zero_le _
    | succ n =>
      cases b with
      | true => exact le_rfl
      | false => exact Nat.succ_le_succ (ih n)

def room (G : Ghost) (m : Memory) : ℕ := grants m.denied G.fl.length

theorem Pool.head (h : Pool K G m) (hne : m.freelist ≠ 0) :
    ∃ l, G.fl = m.freelist :: l ∧ m.freelist ∉ l ∧ l.Nodup ∧
      Chain (next m) (next m m.freelist) l := by
  have hchain := h.chain
  have hnodup := h.nodup
  cases hfl : G.fl with
  | nil =>
    rw [hfl] at hchain
    exact absurd hchain hne
  | cons p l =>
    rw [hfl] at hchain hnodup
    obtain ⟨hhead, -, htail⟩ := hchain
    rw [List.nodup_cons] at hnodup
    rw [hhead]
    exact ⟨l, rfl, hnodup.1, hnodup.2, htail⟩

def taken (m : Memory) : Memory :=
  { page := update m.page m.freelist fun _ => 5
    freelist := next m m.freelist
    denied := m.denied.tail
    trace := m.trace ++ [.kalloc m.freelist] }

theorem Inv.own_freelist (hI : Inv K G m) (hne : m.freelist ≠ 0) : G.own m.freelist = .free := by
  obtain ⟨l, hfl, -⟩ := hI.toPool.head hne
  apply (hI.mem_fl _).1
  rw [hfl]
  exact List.mem_cons_self

theorem Inv.take (hI : Inv K G m) (hne : m.freelist ≠ 0) : Inv K (G.take m.freelist) (taken m) := by
  obtain ⟨l, hfl, hnotMem, hnodup, hchain⟩ := hI.toPool.head hne
  have hfree := hI.own_freelist hne
  have hl : (G.take m.freelist).fl = l := by
    unfold Ghost.take
    rw [hfl, List.tail_cons]
  refine ⟨⟨?_, ?_, ?_, ?_, ?_, ?_⟩, ?_, ?_⟩
  · intro q
    have := hI.reserved q
    unfold Ghost.take
    grind
  · rw [hl]
    apply hchain.congr
    intro q hq
    have hqne : q ≠ m.freelist := fun he => hnotMem (he ▸ hq)
    unfold next taken
    simp only [update_of_ne hqne]
  · rw [hl]
    exact hnodup
  · intro q
    have hq := hI.mem_fl q
    rw [hfl, List.mem_cons] at hq
    rw [hl]
    unfold Ghost.take
    grind
  · exact hI.once.snoc ((hI.freed_iff _).2 hfree)
  · intro q
    have := hI.freed_iff q
    unfold Ghost.take taken
    simp only [freed_snoc]
    grind
  · refine hI.toTables.congr rfl rfl ?_ ?_
    · intro q r ℓ k
      unfold Ghost.take
      grind
    · intro q r ℓ k hq
      have hqne : q ≠ m.freelist := by
        rintro rfl
        rw [hfree] at hq
        cases hq
      exact update_of_ne hqne _ m.page
  · intro q r v
    have := hI.user q r v
    unfold Ghost.take
    grind

def given (m : Memory) (p : ℕ) : Memory :=
  { m with
    page := update m.page p (putNat (fun _ => 1) 0 8 m.freelist)
    freelist := p
    trace := m.trace ++ [.kfree p] }

theorem next_given_self (hlt : m.freelist < 2 ^ 64) : next (given m p) p = m.freelist := by
  unfold next given word
  simp only [update_self]
  rw [getNat_putNat _ _ _ _ (by decide)]
  exact Nat.mod_eq_of_lt hlt

theorem Inv.freelist_lt (hI : Inv K G m) : m.freelist < 2 ^ 64 := by
  by_cases hne : m.freelist = 0
  · rw [hne]
    decide
  · have hpage : K.IsPage m.freelist := hI.isPage ((hI.own_freelist hne).trans_ne nofun)
    have hlt := hpage.2.2
    unfold PHYSTOP KERNBASE at hlt
    omega

theorem Inv.give (hI : Inv K G m) (hp : G.own p = .fresh) : Inv K (G.give p) (given m p) := by
  have hpage : K.IsPage p := hI.isPage (hp.trans_ne nofun)
  have hnotMem : p ∉ G.fl := by
    rw [hI.mem_fl, hp]
    exact nofun
  refine ⟨⟨?_, ?_, ?_, ?_, ?_, ?_⟩, ?_, ?_⟩
  · intro q
    have := hI.reserved q
    unfold Ghost.give
    grind
  · refine ⟨rfl, isPage_ne_zero hpage, ?_⟩
    rw [next_given_self hI.freelist_lt]
    apply hI.chain.congr
    intro q hq
    have hqne : q ≠ p := fun he => hnotMem (he ▸ hq)
    unfold next given
    simp only [update_of_ne hqne]
  · exact List.nodup_cons.2 ⟨hnotMem, hI.nodup⟩
  · intro q
    have hq := hI.mem_fl q
    unfold Ghost.give
    simp only [List.mem_cons]
    grind
  · apply hI.once.snoc
    change ¬ freed m.trace p
    rw [hI.freed_iff, hp]
    exact nofun
  · intro q
    have := hI.freed_iff q
    unfold Ghost.give given
    simp only [freed_snoc]
    grind
  · refine hI.toTables.congr rfl rfl ?_ ?_
    · intro q r ℓ k
      unfold Ghost.give
      grind
    · intro q r ℓ k hq
      have hqne : q ≠ p := by
        rintro rfl
        rw [hp] at hq
        cases hq
      exact update_of_ne hqne _ m.page
  · intro q r v
    have := hI.user q r v
    unfold Ghost.give
    grind

theorem Inv.label (hI : Inv K G m) (hold : Held (G.own p)) (hnew : Held o)
    (huser : ∀ r v, o = .user r v → LeafPte (G.leaf r v) ∧ PTE2PA (G.leaf r v) = p) :
    Inv K (G.label p o) m := by
  have h1 := hold.reserved
  have h2 := hold.free
  have h3 := hold.node
  have h4 := hnew.reserved
  have h5 := hnew.free
  have h6 := hnew.node
  refine ⟨?_, ?_, ?_⟩
  · refine hI.toPool.congr rfl rfl rfl ?_ ?_ ?_
    · intro q
      unfold Ghost.label
      grind
    · intro q
      unfold Ghost.label
      grind
    · exact fun _ _ => rfl
  · refine hI.toTables.congr rfl rfl ?_ ?_
    · intro q r ℓ k
      unfold Ghost.label
      grind
    · exact fun _ _ _ _ _ => rfl
  · intro q r v
    have := hI.user q r v
    have := huser r v
    unfold Ghost.label
    grind

theorem frame_label : Frame (· = p) G m (G.label p o) m := by
  constructor
  · intro q hq _
    exact update_of_ne hq o G.own
  · exact fun _ _ _ => rfl
  · exact fun _ _ _ => ⟨rfl, rfl⟩

theorem word_putNat_self (d : Page) {i : ℕ} (hi : i < 512) (he : e < 2 ^ 64) :
    word (putNat d (8 * i) 8 e) i = e := by
  unfold word
  rw [getNat_putNat d (8 * i) 8 e (by unfold PGSIZE; omega)]
  exact Nat.mod_eq_of_lt he

theorem word_putNat_of_ne (d : Page) {i : ℕ} (hne : j ≠ i) :
    word (putNat d (8 * i) 8 e) j = word d j := by
  unfold word
  exact getNat_putNat_of_disjoint d (8 * i) 8 e (8 * j) 8 (by omega)

theorem link_lt (h : K.IsPage c) : link c < 2 ^ 64 := by
  have hlt := h.2.2
  unfold link
  rw [if_neg (isPage_ne_zero h), PA2PTE_or hlt (by decide)]
  unfold PHYSTOP KERNBASE at hlt
  unfold PTE_V
  omega

def storeEntry (G : Ghost) (m : Memory) (r ℓ k j e : ℕ) : Memory :=
  setPage m (G.node r ℓ k) (putNat (m.page (G.node r ℓ k)) (8 * j) 8 e)

theorem Inv.word_storeEntry (hI : Inv K G m) {r' ℓ' k' j' : ℕ} (hp : G.node r ℓ k ≠ 0)
    (hp' : G.node r' ℓ' k' ≠ 0) (hj : j < 512) (he : e < 2 ^ 64) :
    word ((storeEntry G m r ℓ k j e).page (G.node r' ℓ' k')) j' =
      if r' = r ∧ ℓ' = ℓ ∧ k' = k ∧ j' = j then e else word (m.page (G.node r' ℓ' k')) j' := by
  unfold storeEntry VmCode.setPage
  by_cases hsame : G.node r' ℓ' k' = G.node r ℓ k
  · obtain ⟨rfl, rfl, rfl⟩ := hI.node_inj hp' hsame
    simp only [update_self, true_and]
    split_ifs with hj'
    · rw [hj', word_putNat_self _ hj he]
    · exact word_putNat_of_ne _ hj'
  · rw [if_neg]
    · simp only [update_of_ne hsame]
    · rintro ⟨rfl, rfl, rfl, -⟩
      exact hsame rfl

theorem Inv.page_storeEntry (hI : Inv K G m) (hp : G.node r ℓ k ≠ 0) (hne : G.own p ≠ .node r ℓ k) :
    (storeEntry G m r ℓ k j e).page p = m.page p := by
  apply update_of_ne
  rintro rfl
  exact hne (hI.node_own r ℓ k hp)

def Ghost.attach (G : Ghost) (c r ℓ k : ℕ) : Ghost :=
  { G with
    own := update G.own c (.node r ℓ k)
    node := fun r' ℓ' k' => if r' = r ∧ ℓ' = ℓ ∧ k' = k then c else G.node r' ℓ' k' }

@[simp] theorem own_attach_self : (G.attach c r ℓ k).own c = .node r ℓ k :=
  update_self c _ G.own

theorem own_attach_of_ne (h : q ≠ c) : (G.attach c r ℓ k).own q = G.own q :=
  update_of_ne h _ G.own

@[simp] theorem node_attach_self : (G.attach c r ℓ k).node r ℓ k = c :=
  if_pos ⟨rfl, rfl, rfl⟩

theorem node_attach_of_ne {ℓ' k' : ℕ} (h : ¬ (ℓ' = ℓ ∧ k' = k)) :
    (G.attach c r ℓ k).node r ℓ' k' = G.node r ℓ' k' := if_neg fun he => h he.2

theorem Inv.node_ne (hI : Inv K G m) (hc : G.own c = .fresh) (h : G.node r ℓ k ≠ 0) :
    G.node r ℓ k ≠ c := by
  rintro rfl
  rw [hI.node_own r ℓ k h] at hc
  cases hc

theorem Inv.attach_nodes (hI : Inv K G m) (hc : G.own c = .fresh) (hnone : G.node r ℓ k = 0) :
    (∀ r' ℓ' k', (G.attach c r ℓ k).node r' ℓ' k' ≠ 0 →
      (G.attach c r ℓ k).own ((G.attach c r ℓ k).node r' ℓ' k') = .node r' ℓ' k') ∧
    ∀ q r' ℓ' k', (G.attach c r ℓ k).own q = .node r' ℓ' k' →
      (G.attach c r ℓ k).node r' ℓ' k' = q := by
  unfold Ghost.attach
  constructor
  · intro r' ℓ' k'
    by_cases hnew : r' = r ∧ ℓ' = ℓ ∧ k' = k
    · obtain ⟨rfl, rfl, rfl⟩ := hnew
      simp only [and_self, ↓reduceIte, update_self, implies_true]
    · simp only [hnew, ↓reduceIte]
      intro hne
      rw [update_of_ne (hI.node_ne hc hne)]
      exact hI.node_own r' ℓ' k' hne
  · intro q r' ℓ' k'
    by_cases hq : q = c
    · subst hq
      simp only [update_self, Owner.node.injEq]
      rintro ⟨rfl, rfl, rfl⟩
      simp only [and_self, ↓reduceIte]
    simp only [update_of_ne hq]
    intro hown
    have hnode := hI.own_node q r' ℓ' k' hown
    have hq0 : q ≠ 0 := isPage_ne_zero (hI.isPage (hown.trans_ne nofun))
    rw [if_neg]
    · exact hnode
    · rintro ⟨rfl, rfl, rfl⟩
      exact hq0 (hnode.symm.trans hnone)

theorem Inv.attach (hI : Inv K G m) (hc : G.own c = .fresh)
    (hzero : ∀ j < 512, word (m.page c) j = 0) (hℓ : ℓ < 2) (hp : G.node r (ℓ + 1) k ≠ 0)
    (hj : j < 512) (hnone : G.node r ℓ (512 * k + j) = 0) :
    Inv K (G.attach c r ℓ (512 * k + j)) (storeEntry G m r (ℓ + 1) k j (link c)) := by
  have hcpage : K.IsPage c := hI.isPage (hc.trans_ne nofun)
  have hc0 := isPage_ne_zero hcpage
  have hcsame : (storeEntry G m r (ℓ + 1) k j (link c)).page c = m.page c :=
    hI.page_storeEntry hp (hc.trans_ne nofun)
  obtain ⟨hnode_own, hown_node⟩ := hI.attach_nodes hc hnone
  refine ⟨?_, ⟨hnode_own, hown_node, ?_, ?_, ?_, ?_, hI.validPte⟩, ?_⟩
  · refine hI.toPool.congr rfl rfl rfl ?_ ?_ ?_
    · intro q
      unfold Ghost.attach
      grind
    · intro q
      unfold Ghost.attach
      grind
    · intro q hq
      exact hI.page_storeEntry hp (hq.trans_ne nofun)
  · intro r' ℓ' k' hne
    have hdiv : (512 * k + j) / 512 = k := by omega
    have hup := hI.up r' ℓ' k'
    unfold Ghost.attach at hne ⊢
    grind
  · intro r' ℓ' k' j' hne hj'
    by_cases hnew : r' = r ∧ ℓ' + 1 = ℓ ∧ k' = 512 * k + j
    · -- The new table has no entries, and there was nothing below its place.
      obtain ⟨rfl, rfl, rfl⟩ := hnew
      have hbelow : G.node r' ℓ' (512 * (512 * k + j) + j') = 0 := by
        by_contra hne'
        apply hI.node_up (by omega) hne'
        rw [show (512 * (512 * k + j) + j') / 512 = 512 * k + j by omega]
        exact hnone
      have hnode : (G.attach c r' (ℓ' + 1) (512 * k + j)).node r' (ℓ' + 1) (512 * k + j) = c := by
        simp only [Ghost.attach, and_self, ↓reduceIte]
      have hnode' : (G.attach c r' (ℓ' + 1) (512 * k + j)).node r' ℓ'
          (512 * (512 * k + j) + j') = 0 := by
        simp only [Ghost.attach, hbelow]
        rw [if_neg (by omega)]
      rw [hnode, hnode', hcsame, hzero j' hj']
      rfl
    · have hold : (G.attach c r ℓ (512 * k + j)).node r' (ℓ' + 1) k' = G.node r' (ℓ' + 1) k' := by
        simp only [Ghost.attach, hnew, ↓reduceIte]
      rw [hold] at hne ⊢
      rw [hI.word_storeEntry hp hne hj (link_lt hcpage)]
      have hentry := hI.entry r' ℓ' k' j' hne hj'
      by_cases hhere : r' = r ∧ ℓ' + 1 = ℓ + 1 ∧ k' = k ∧ j' = j
      · rw [if_pos hhere]
        obtain ⟨rfl, hℓ', rfl, rfl⟩ := hhere
        obtain rfl : ℓ' = ℓ := by omega
        simp only [Ghost.attach, and_self, ↓reduceIte]
      · rw [if_neg hhere, hentry]
        simp only [Ghost.attach]
        rw [if_neg (by omega)]
  · intro r' k' j' hne hj'
    by_cases hnew : r' = r ∧ 0 = ℓ ∧ k' = 512 * k + j
    · obtain ⟨rfl, rfl, rfl⟩ := hnew
      have hnode : (G.attach c r' 0 (512 * k + j)).node r' 0 (512 * k + j) = c := by
        simp only [Ghost.attach, and_self, ↓reduceIte]
      rw [hnode, hcsame, hzero j' hj']
      symm
      apply hI.noLeaf
      rw [show (512 * (512 * k + j) + j') / 512 = 512 * k + j by omega]
      exact hnone
    · have hold : (G.attach c r ℓ (512 * k + j)).node r' 0 k' = G.node r' 0 k' := by
        simp only [Ghost.attach, hnew, ↓reduceIte]
      rw [hold] at hne ⊢
      rw [hI.word_storeEntry hp hne hj (link_lt hcpage), if_neg (by omega)]
      exact hI.leafEntry r' k' j' hne hj'
  · intro r' v hv
    apply hI.noLeaf
    unfold Ghost.attach at hv
    simp only at hv
    split_ifs at hv with hnew
    · exact absurd hv hc0
    · exact hv
  · intro q r' v
    have := hI.user q r' v
    unfold Ghost.attach
    grind

def Ghost.Nodes (G : Ghost) (r p : ℕ) : Prop := ∃ ℓ k, G.own p = .node r ℓ k

theorem Frame.nodes {S : ℕ → Prop} (h : Frame S G m G' m') (hS : ∀ q, G.Nodes r q → S q) (q : ℕ)
    (hq : G'.Nodes r q) : S q ∨ G.own q = .free := by
  by_contra hnot
  rw [not_or] at hnot
  obtain ⟨ℓ, k, hown⟩ := hq
  rw [h.own q hnot.1 hnot.2] at hown
  exact hnot.1 (hS q ⟨ℓ, k, hown⟩)

theorem Inv.nodes_root (hI : Inv K G m) (h : G.node r ℓ k ≠ 0) : G.Nodes r r :=
  ⟨2, 0, hI.root_of_node h⟩

theorem Inv.frame_attach (hI : Inv K G m) (hp : G.node r (ℓ + 1) k ≠ 0) :
    Frame (fun q => q = c ∨ G.Nodes r q) G m (G.attach c r ℓ (512 * k + j))
      (storeEntry G m r (ℓ + 1) k j e) := by
  constructor
  · intro q hq _
    exact update_of_ne (fun he => hq (.inl he)) _ G.own
  · intro q hq _
    apply hI.page_storeEntry hp
    exact fun hown => hq (.inr ⟨_, _, hown⟩)
  · intro r' hr' hroot
    have hne : r' ≠ r := by
      rintro rfl
      exact hr' (.inr (hI.nodes_root hp))
    refine ⟨?_, rfl⟩
    funext ℓ' k'
    simp only [Ghost.attach, hne, false_and, ↓reduceIte]

def Ghost.setLeaf (G : Ghost) (r v e : ℕ) : Ghost :=
  { G with leaf := fun r' v' => if r' = r ∧ v' = v then e else G.leaf r' v' }

@[simp] theorem own_setLeaf : (G.setLeaf r v e).own = G.own := rfl

theorem Inv.setLeaf (hI : Inv K G m) (hp : G.node r 0 (v / 512) ≠ 0) (he : e = 0 ∨ ValidPte e)
    (huser : ∀ p, G.own p = .user r v → LeafPte e ∧ PTE2PA e = p) :
    Inv K (G.setLeaf r v e) (storeEntry G m r 0 (v / 512) (v % 512) e) := by
  have hj : v % 512 < 512 := Nat.mod_lt _ (by decide)
  have hlt : e < 2 ^ 64 := by
    rcases he with rfl | he
    · decide
    · exact he.lt
  refine ⟨?_, ⟨hI.node_own, hI.own_node, hI.up, ?_, ?_, ?_, ?_⟩, ?_⟩
  · refine hI.toPool.congr rfl rfl rfl (fun _ => Iff.rfl) (fun _ => Iff.rfl) ?_
    intro q hq
    exact hI.page_storeEntry hp (hq.trans_ne nofun)
  · intro r' ℓ' k' j' hne hj'
    change word ((storeEntry G m r 0 (v / 512) (v % 512) e).page (G.node r' (ℓ' + 1) k')) j' = _
    rw [hI.word_storeEntry hp hne hj hlt, if_neg (by omega)]
    exact hI.entry r' ℓ' k' j' hne hj'
  · intro r' k' j' hne hj'
    change word ((storeEntry G m r 0 (v / 512) (v % 512) e).page (G.node r' 0 k')) j' = _
    rw [hI.word_storeEntry hp hne hj hlt]
    have hentry := hI.leafEntry r' k' j' hne hj'
    have hplace : r' = r ∧ 0 = 0 ∧ k' = v / 512 ∧ j' = v % 512 ↔ r' = r ∧ 512 * k' + j' = v := by
      omega
    rw [if_congr hplace rfl rfl, hentry]
    rfl
  · intro r' v' hv
    have hne : ¬ (r' = r ∧ v' = v) := by
      rintro ⟨rfl, rfl⟩
      exact hp hv
    simp only [Ghost.setLeaf, hne, ↓reduceIte]
    exact hI.noLeaf r' v' hv
  · intro r' v'
    have := hI.validPte r' v'
    unfold Ghost.setLeaf
    grind
  · intro q r' v' hq
    have := hI.user q r' v' hq
    have := huser q
    unfold Ghost.setLeaf at hq ⊢
    grind

theorem Inv.frame_setLeaf (hI : Inv K G m) (hp : G.node r 0 (v / 512) ≠ 0) :
    Frame (G.Nodes r) G m (G.setLeaf r v e) (storeEntry G m r 0 (v / 512) j e) := by
  constructor
  · exact fun _ _ _ => rfl
  · intro q hq _
    apply hI.page_storeEntry hp
    exact fun hown => hq ⟨_, _, hown⟩
  · intro r' hr' hroot
    have hne : r' ≠ r := by
      rintro rfl
      exact hr' (hI.nodes_root hp)
    refine ⟨rfl, ?_⟩
    funext v'
    simp only [Ghost.setLeaf, hne, false_and, ↓reduceIte]

theorem Inv.plant (hI : Inv K G m) (hc : G.own c = .fresh)
    (hzero : ∀ j < 512, word (m.page c) j = 0) : Inv K (G.attach c c 2 0) m := by
  have hcpage : K.IsPage c := hI.isPage (hc.trans_ne nofun)
  have hc0 := isPage_ne_zero hcpage
  have hnone : ∀ ℓ k, G.node c ℓ k = 0 := fun ℓ k =>
    hI.node_eq_zero (hc.trans_ne nofun)
  have hnoLeaf : ∀ v, G.leaf c v = 0 := fun v => hI.noLeaf c v (hnone 0 _)
  obtain ⟨hnode_own, hown_node⟩ := hI.attach_nodes hc (hnone 2 0)
  have hold : ∀ r' ℓ' k', r' ≠ c → (G.attach c c 2 0).node r' ℓ' k' = G.node r' ℓ' k' := by
    intro r' ℓ' k' hne
    simp only [Ghost.attach, hne, false_and, ↓reduceIte]
  have hbelow : ∀ ℓ' k', ℓ' < 2 → (G.attach c c 2 0).node c ℓ' k' = 0 := by
    intro ℓ' k' hlt
    simp only [Ghost.attach, hnone]
    rw [if_neg (by omega)]
  refine ⟨?_, ⟨hnode_own, hown_node, ?_, ?_, ?_, ?_, hI.validPte⟩, ?_⟩
  · refine hI.toPool.congr rfl rfl rfl ?_ ?_ (fun _ _ => rfl)
    · intro q
      unfold Ghost.attach
      grind
    · intro q
      unfold Ghost.attach
      grind
  · intro r' ℓ' k' hne
    have hup := hI.up r' ℓ' k'
    have := hnone ℓ' k'
    unfold Ghost.attach at hne ⊢
    grind
  · intro r' ℓ' k' j' hne hj'
    by_cases hr : r' = c
    · subst hr
      have hroot : ℓ' = 1 ∧ k' = 0 := by
        by_contra hnot
        apply hne
        simp only [Ghost.attach, hnone]
        rw [if_neg (by omega)]
      obtain ⟨rfl, rfl⟩ := hroot
      rw [hbelow 1 _ (by decide)]
      simp only [Ghost.attach, and_self, ↓reduceIte]
      exact hzero j' hj'
    · rw [hold _ _ _ hr] at hne ⊢
      rw [hold _ _ _ hr]
      exact hI.entry r' ℓ' k' j' hne hj'
  · intro r' k' j' hne hj'
    by_cases hr : r' = c
    · subst hr
      exact absurd (hbelow 0 k' (by decide)) hne
    · rw [hold _ _ _ hr] at hne ⊢
      exact hI.leafEntry r' k' j' hne hj'
  · intro r' v hv
    by_cases hr : r' = c
    · subst hr
      exact hnoLeaf v
    · rw [hold _ _ _ hr] at hv
      exact hI.noLeaf r' v hv
  · intro q r' v
    have := hI.user q r' v
    unfold Ghost.attach
    grind

def Ghost.idle (K : Image) : Ghost where
  own p := if K.IsPage p then .fresh else .reserved
  node _ _ _ := 0
  leaf _ _ := 0
  fl := []

def blank : Memory := ⟨fun _ _ => 0, 0, [], []⟩

theorem inv_idle (K : Image) : Inv K (.idle K) blank := by
  have hown : ∀ p, (Ghost.idle K).own p = .fresh ∨ (Ghost.idle K).own p = .reserved := by
    intro p
    by_cases hp : K.IsPage p
    · exact .inl (if_pos hp)
    · exact .inr (if_neg hp)
  have hnot : ∀ p o, o ≠ .fresh → o ≠ .reserved → (Ghost.idle K).own p ≠ o := by
    rintro p o hfresh hreserved rfl
    exact (hown p).elim hfresh hreserved
  refine ⟨⟨fun p => ?_, rfl, List.nodup_nil, fun p => ?_, Accounted.nil, fun p => ?_⟩,
    ⟨fun _ _ _ h => absurd rfl h, fun p r ℓ k h => ?_, fun _ _ _ h => absurd rfl h,
      fun _ _ _ _ h => absurd rfl h, fun _ _ _ h => absurd rfl h, fun _ _ _ => rfl,
      fun _ _ h => absurd rfl h⟩, fun p r v h => ?_⟩
  · change (if K.IsPage p then Owner.fresh else .reserved) = .reserved ↔ _
    split_ifs with hp
    · exact ⟨nofun, fun h => absurd hp h⟩
    · exact ⟨fun _ => hp, fun _ => rfl⟩
  · exact iff_of_false List.not_mem_nil (hnot p .free nofun nofun)
  · exact iff_of_false nofun (hnot p .free nofun nofun)
  · exact absurd h (hnot p _ nofun nofun)
  · exact absurd h (hnot p _ nofun nofun)

end Xv6.PageOwners
