import Mathlib.Data.Finset.Card
import Mathlib.Data.Finset.Image
import Mathlib.Data.Fintype.Card
import Mathlib.Order.Interval.Finset.Nat
import Mathlib.Tactic.IntervalCases
import Xv6.PageRelease

set_option autoImplicit false

namespace Xv6.PageOwners
open Xv6.Sequential Paging VmCode

variable {K : Image} {G₀ G G' G'' : Ghost} {m₀ m m' m'' : Memory} {p r v n : ℕ}

theorem Inv.count_le (hI : Inv K G m) (h : ∀ v < n, ∃ pa, G.own pa = .user r v) : n ≤ 32768 := by
  choose pa hpa using fun v : Fin n => h v.val v.isLt
  have hpage : ∀ v, K.IsPage (pa v) := fun v => hI.isPage ((hpa v).trans_ne nofun)
  have hbase := K.kernbase_le
  have htext := K.etext_le
  have hplace : ∀ v, (pa v - KERNBASE) / PGSIZE < 32768 := by
    intro v
    have hstop := (hpage v).2.2
    unfold PHYSTOP at hstop
    unfold PGSIZE
    omega
  have hinj : Function.Injective fun v => (⟨(pa v - KERNBASE) / PGSIZE, hplace v⟩ : Fin 32768) := by
    intro v w h
    have hnum := congrArg Fin.val h
    have hv := hpage v
    have hw := hpage w
    have heq : pa v = pa w := by
      obtain ⟨hv1, hv2, -⟩ := hv
      obtain ⟨hw1, hw2, -⟩ := hw
      unfold KERNBASE at *
      unfold PGSIZE at *
      dsimp only at hnum
      omega
    have hown := hpa v
    rw [heq, hpa w] at hown
    exact Fin.ext (Owner.user.inj hown).2.symm
  have hcard := Fintype.card_le_of_injective _ hinj
  rwa [Fintype.card_fin, Fintype.card_fin] at hcard

def absent (G : Ghost) (r ℓ v n : ℕ) : ℕ :=
  (((Finset.Ico v (v + n)).image (· / 512 ^ (ℓ + 1))).filter (G.node r ℓ · = 0)).card

def need (G : Ghost) (r v n : ℕ) : ℕ := n + absent G r 0 v n + absent G r 1 v n

theorem absent_zero (G : Ghost) (r ℓ v : ℕ) : absent G r ℓ v 0 = 0 := by
  unfold absent
  rw [add_zero, Finset.Ico_self]
  rfl

structure Opened (r v : ℕ) (G G' : Ghost) : Prop where
  path : ∀ i k, G'.node r i k ≠ G.node r i k → k = v / 512 ^ (i + 1)
  there : ∀ i < 2, G'.node r i (v / 512 ^ (i + 1)) ≠ 0

theorem absent_succ (h : Opened r v G G') {ℓ : ℕ} (hℓ : ℓ < 2) (n : ℕ) :
    absent G r ℓ v (n + 1) =
      (if G.node r ℓ (v / 512 ^ (ℓ + 1)) = 0 then 1 else 0) + absent G' r ℓ (v + 1) n := by
  unfold absent
  have hIco : Finset.Ico v (v + (n + 1)) = insert v (Finset.Ico (v + 1) (v + 1 + n)) := by
    ext k
    rw [Finset.mem_insert, Finset.mem_Ico, Finset.mem_Ico]
    omega
  rw [hIco, Finset.image_insert]
  generalize (Finset.Ico (v + 1) (v + 1 + n)).image (· / 512 ^ (ℓ + 1)) = T
  generalize ha : v / 512 ^ (ℓ + 1) = a
  have hrest : T.filter (G'.node r ℓ · = 0) = (T.filter (G.node r ℓ · = 0)).erase a := by
    ext k
    rw [Finset.mem_erase, Finset.mem_filter, Finset.mem_filter]
    by_cases hk : k = a
    · subst hk
      have hthere := h.there ℓ hℓ
      rw [ha] at hthere
      exact ⟨fun h => absurd h.2 hthere, fun h => absurd rfl h.1⟩
    · have hsame : G'.node r ℓ k = G.node r ℓ k := by
        by_contra hne
        exact hk ((h.path ℓ k hne).trans ha)
      rw [hsame]
      exact ⟨fun h => ⟨hk, h⟩, fun h => h.2⟩
  rw [hrest, Finset.filter_insert]
  split_ifs with hzero
  · rw [← Finset.erase_insert_eq_erase, add_comm, Finset.card_erase_add_one]
    exact Finset.mem_insert_self a _
  · rw [zero_add, Finset.erase_eq_of_notMem]
    exact fun hmem => hzero (Finset.mem_filter.1 hmem).2

theorem need_zero (G : Ghost) (r v : ℕ) : need G r v 0 = 0 := by
  unfold need
  rw [absent_zero, absent_zero]

theorem need_succ (h : Opened r v G G') (n : ℕ) :
    need G r v (n + 1) = 1 + missing G r v 2 + need G' r (v + 1) n := by
  unfold need missing missing missing
  rw [absent_succ h (by decide) n, absent_succ h (by decide) n]
  omega

theorem le_absent (G : Ghost) (r ℓ v n : ℕ) :
    (if G.node r ℓ (v / 512 ^ (ℓ + 1)) = 0 then 1 else 0) ≤ absent G r ℓ v (n + 1) := by
  split_ifs with hzero
  · refine Finset.card_pos.2 ⟨v / 512 ^ (ℓ + 1), Finset.mem_filter.2 ⟨?_, hzero⟩⟩
    exact Finset.mem_image_of_mem _ (Finset.mem_Ico.2 ⟨le_rfl, by omega⟩)
  · exact Nat.zero_le _

theorem missing_lt_need (G : Ghost) (r v n : ℕ) : missing G r v 2 < need G r v (n + 1) := by
  have hlow := le_absent G r 0 v n
  have hmid := le_absent G r 1 v n
  unfold need missing missing missing
  omega

/-- What `mappages` leaves after it was called to map the page `c`, which was fresh, at `v`. -/
structure Hung (G : Ghost) (m : Memory) (r c v perm : ℕ) (a : ℤ) (G' : Ghost) (m' : Memory) :
    Prop where
  old : ∀ q, q ≠ c → G.own q ≠ .free → G'.own q = G.own q
  new : ∀ q, q ≠ c → G.own q = .free → G'.own q = .free ∨ G'.Nodes r q
  kept : m'.page c = m.page c
  ok : a = 0 → G'.own c = .user r v ∧ G'.leaf r v = PA2PTE c ||| perm ||| PTE_V ∧
    (∀ r' u, ¬ (r' = r ∧ u = v) → G'.leaf r' u = G.leaf r' u) ∧
    room G m = room G' m' + missing G r v 2 ∧ Opened r v G G'
  fail : a ≠ 0 → G'.own c = .fresh ∧ G'.leaf = G.leaf ∧ room G m < missing G r v 2

theorem ok_hang {c perm : ℕ} (hroot : G.own r = .node r 2 0) (hv : v < 2 ^ 26)
    (hc : G.own c = .fresh) (hperm : perm < 1024)
    (hflags : perm ||| PTE_V ≠ PTE_V) (hleaf : G.leaf r v = 0) :
    Spec K (fun q => q = c ∨ G.Nodes r q) (mappages r (v * PGSIZE) PGSIZE c perm)
      (Hung G m r c v perm) G m := by
  intro hI
  have hpage : K.IsPage c := hI.isPage (hc.trans_ne nofun)
  revert hI
  have hdiv : v * PGSIZE / PGSIZE = v := Nat.mul_div_cancel v (by decide)
  have hva : v * PGSIZE < MAXVA := by
    unfold PGSIZE MAXVA
    omega
  have hmap : Spec K (fun q => q = c ∨ G.Nodes r q) (mappages r (v * PGSIZE) PGSIZE c perm)
      (fun a G' m' => Mapped G m r v 0 c perm a G' m' ∧ m'.page c = m.page c) G m := by
    have h := ok_mappages (K := K) (m := m) (G := G) hroot (Nat.mul_mod_left v PGSIZE) hva
      (hpage.2.2.trans (by decide)) (hperm.trans (by decide)) (by rw [hdiv]; exact hleaf)
    rw [hdiv] at h
    apply Run.spec
    refine h.last (fun q hq => .inl (.inr hq)) fun _ _ _ _ _ hF hM => ⟨hM, hF.page c ?_ ?_⟩
    · rintro ⟨ℓ, k, hnode⟩
      rw [hc] at hnode
      cases hnode
    · rw [hc]
      exact nofun
  apply hmap.after (T := (· = c)) fun _ hq => .inl (.inl hq)
  rintro a G' m' hI' _ ⟨hM, hkept⟩
  have hcost : cost G r v 0 = missing G r v 2 := by
    unfold cost
    omega
  have hown : G'.own c = .fresh := by
    rw [hM.taken.own c (hc.trans_ne nofun), hc]
  by_cases ha : a = 0
  · have hleaf' := hM.ok ha
    have hnew : G'.leaf r v = PA2PTE c ||| perm ||| PTE_V := by
      rw [hleaf', mapped_self hpage.2.2]
    have hother : ∀ r' u, ¬ (r' = r ∧ u = v) → G'.leaf r' u = G.leaf r' u := by
      intro r' u hne
      rw [hleaf', mapped_of_ne hne]
    have hentry : LeafPte (G'.leaf r v) ∧ PTE2PA (G'.leaf r v) = c := by
      rw [hnew]
      refine ⟨leafPte_or hpage.2.2 hperm hflags, ?_⟩
      rw [Nat.lor_assoc]
      exact PTE2PA_or hpage.2.2 hpage.1 (Nat.or_lt_two_pow (n := 10) hperm (by decide))
    have hnode : G'.node r 0 (v / 512) ≠ 0 := fun hzero => hentry.1.ne_zero (hI'.noLeaf r v hzero)
    refine ⟨G'.label c (.user r v), ?_, frame_label, ?_⟩
    · apply hI'.label (by rw [hown]; exact held_fresh) held_user
      intro r' v' he
      cases he
      exact hentry
    · refine ⟨fun q hq hfree => ?_, fun q hq hfree => ?_, hkept,
        fun _ => ⟨own_label_self, hnew, hother, hM.exact rfl ha, ⟨hM.path rfl, fun i hi => ?_⟩⟩,
        fun h => absurd ha h⟩
      · rw [own_label_of_ne hq, hM.taken.own q hfree]
      · rw [own_label_of_ne hq]
        refine (hM.taken.new q hfree).imp_right fun ⟨ℓ, k, hnode⟩ => ⟨ℓ, k, ?_⟩
        rw [own_label_of_ne hq]
        exact hnode
      · have hmid := hI'.node_up (by decide) hnode
        change G'.node r i (v / 512 ^ (i + 1)) ≠ 0
        interval_cases i
        · rwa [pow_one]
        · rwa [pow_two, ← Nat.div_div_eq_div_mul]
  · obtain ⟨-, hroom, i, hi, hleaf'⟩ := hM.fail ha
    obtain rfl : i = 0 := by omega
    rw [mapped_zero] at hleaf'
    exact ⟨G', hI', Frame.refl _ G' m', fun q _ hq => hM.taken.own q hq,
      fun q _ hq => hM.taken.new q hq, hkept, fun h => absurd h ha,
      fun _ => ⟨hown, hleaf', by omega⟩⟩

section
variable {flags : ℕ → ℕ} {fill : ℕ → Page}

/-- Since `G₀` the table `r` has got `n` pages from `v` on with their flags and contents, and the
    tables on the way to them. -/
structure Added (flags : ℕ → ℕ) (fill : ℕ → Page) (G₀ : Ghost) (r v n : ℕ) (G : Ghost)
    (m : Memory) : Prop where
  leaf : ∀ r' u, ¬ (r' = r ∧ v ≤ u ∧ u < v + n) → G.leaf r' u = G₀.leaf r' u
  page : ∀ u, v ≤ u → u < v + n → ∃ c, G₀.own c = .free ∧ G.own c = .user r u ∧
    G.leaf r u = PA2PTE c ||| flags u ||| PTE_V ∧ m.page c = fill u
  old : ∀ q, G₀.own q ≠ .free → G.own q = G₀.own q
  new : ∀ q, G₀.own q = .free → G.own q = .free ∨ G.Nodes r q ∨
    ∃ u, v ≤ u ∧ u < v + n ∧ G.own q = .user r u

theorem added_none (flags : ℕ → ℕ) (fill : ℕ → Page) (G : Ghost) (r v : ℕ) (m : Memory) :
    Added flags fill G r v 0 G m := by
  refine ⟨fun _ _ _ => rfl, fun u hle hlt => ?_, fun _ _ => rfl, fun _ hq => .inl hq⟩
  omega

theorem Added.grow (h : Added flags fill G₀ r v n G m) (hleaf : G'.leaf = G.leaf)
    (hold : ∀ q, G.own q ≠ .free → G'.own q = G.own q)
    (hnew : ∀ q, G.own q = .free → G'.own q = .free ∨ G'.Nodes r q)
    (hpage : ∀ q u, G.own q = .user r u → m'.page q = m.page q) :
    Added flags fill G₀ r v n G' m' := by
  refine ⟨?_, ?_, ?_, ?_⟩
  · intro r' u hu
    rw [hleaf]
    exact h.leaf r' u hu
  · intro u hle hlt
    obtain ⟨c, hfree, hown, hentry, hfill⟩ := h.page u hle hlt
    refine ⟨c, hfree, ?_, ?_, ?_⟩
    · rw [hold c (hown.trans_ne nofun), hown]
    · rw [hleaf, hentry]
    · rw [hpage c u hown, hfill]
  · intro q hq
    have hsame := h.old q hq
    rw [hold q (by rw [hsame]; exact hq), hsame]
  · intro q hq
    rcases h.new q hq with hfree | hnodes | ⟨u, hle, hlt, hown⟩
    · exact (hnew q hfree).imp_right .inl
    · obtain ⟨ℓ, k, hnode⟩ := hnodes
      refine .inr (.inl ⟨ℓ, k, ?_⟩)
      rw [hold q (hnode.trans_ne nofun), hnode]
    · refine .inr (.inr ⟨u, hle, hlt, ?_⟩)
      rw [hold q (hown.trans_ne nofun), hown]

theorem Added.push (h : Added flags fill G₀ r v n G m) {c : ℕ} (hc : G.own c = .free)
    (hown : G'.own c = .user r (v + n))
    (hentry : G'.leaf r (v + n) = PA2PTE c ||| flags (v + n) ||| PTE_V)
    (hother : ∀ r' u, ¬ (r' = r ∧ u = v + n) → G'.leaf r' u = G.leaf r' u)
    (hfill : m'.page c = fill (v + n))
    (hold : ∀ q, q ≠ c → G.own q ≠ .free → G'.own q = G.own q)
    (hnew : ∀ q, q ≠ c → G.own q = .free → G'.own q = .free ∨ G'.Nodes r q)
    (hpage : ∀ q u, G.own q = .user r u → m'.page q = m.page q) :
    Added flags fill G₀ r v (n + 1) G' m' := by
  have hne : ∀ q, G.own q ≠ .free → q ≠ c := by
    rintro q hq rfl
    exact hq hc
  have hfree : G₀.own c = .free := by
    by_contra hnot
    have hsame := h.old c hnot
    rw [hc] at hsame
    exact hnot hsame.symm
  refine ⟨?_, ?_, ?_, ?_⟩
  · intro r' u hu
    rw [hother r' u (by omega)]
    exact h.leaf r' u (by omega)
  · intro u hle hlt
    by_cases hu : u = v + n
    · subst hu
      exact ⟨c, hfree, hown, hentry, hfill⟩
    obtain ⟨c', hfree', hown', hentry', hfill'⟩ := h.page u hle (by omega)
    have hheld : G.own c' ≠ .free := by
      rw [hown']
      exact nofun
    refine ⟨c', hfree', ?_, ?_, ?_⟩
    · rw [hold c' (hne c' hheld) hheld, hown']
    · rw [hother r u (by omega), hentry']
    · rw [hpage c' u hown', hfill']
  · intro q hq
    have hsame := h.old q hq
    have hheld : G.own q ≠ .free := by
      rw [hsame]
      exact hq
    rw [hold q (hne q hheld) hheld, hsame]
  · intro q hq
    by_cases hqc : q = c
    · subst hqc
      exact .inr (.inr ⟨v + n, by omega, by omega, hown⟩)
    rcases h.new q hq with hfree | hnodes | ⟨u, hle, hlt, hown'⟩
    · exact (hnew q hqc hfree).imp_right .inl
    · obtain ⟨ℓ, k, hnode⟩ := hnodes
      refine .inr (.inl ⟨ℓ, k, ?_⟩)
      rw [hold q hqc (hnode.trans_ne nofun), hnode]
    · refine .inr (.inr ⟨u, hle, by omega, ?_⟩)
      rw [hold q hqc (hown'.trans_ne nofun), hown']

def addPage {α : Type} (K : Image) (r u perm : ℕ) (write : ℕ → Code Memory Unit)
    (fail next : Code Memory α) : Code Memory α := do
  let mem ← kalloc
  if mem = 0 then fail
  else
    write mem
    if (← mappages r (u * PGSIZE) PGSIZE mem perm) ≠ 0 then
      kfree K mem
      fail
    else next

/-- The entries are as before, and pages have gone from the free list to the tables of `r` only. -/
structure Undone (G₀ : Ghost) (r : ℕ) (G : Ghost) : Prop where
  leaf : G.leaf = G₀.leaf
  old : ∀ q, G₀.own q ≠ .free → G.own q = G₀.own q
  new : ∀ q, G₀.own q = .free → G.own q = .free ∨ G.Nodes r q

def Attempt {α : Type} (fits : Prop) (ok fail : α) (Done Undone : Ghost → Memory → Prop) (a : α)
    (G : Ghost) (m : Memory) : Prop :=
  (fits → a = ok ∧ Done G m) ∧ (¬ fits → a = fail ∧ Undone G m)

theorem attempt_none {α : Type} {a fail : α} {Done Undone : Ghost → Memory → Prop} (h : Done G m) :
    Attempt (need G r v 0 ≤ room G m) a fail Done Undone a G m := by
  rw [need_zero]
  exact ⟨fun _ => ⟨rfl, h⟩, fun h => absurd (Nat.zero_le _) h⟩

theorem run_addPage {α : Type} (flags : ℕ → ℕ) (fill : ℕ → Page) {k : ℕ} {done failed : α}
    {write : ℕ → Code Memory Unit} {fail next : Code Memory α}
    (hroot : G.own r = .node r 2 0) (hv : v + n < 2 ^ 26) (hleaf : G.leaf r (v + n) = 0)
    (hperm : flags (v + n) < 1024) (hflags : flags (v + n) ||| PTE_V ≠ PTE_V)
    (hadded : Added flags fill G₀ r v n G m)
    (hwrite : ∀ c m1, G.own c = .free → (∀ q, q ≠ c → m1.page q = m.page q) →
      Spec K (· = c) (write c)
        (fun _ G' m' => G' = G.take c ∧ m' = setPage m1 c (fill (v + n))) (G.take c) m1)
    (hfail : ∀ G' m', Added flags fill G₀ r v n G' m' →
      Run K (G₀.Nodes r) G₀ m₀ fail (fun a G' _ => a = failed ∧ Undone G₀ r G') G' m')
    (hnext : ∀ G' m', Added flags fill G₀ r v (n + 1) G' m' → Run K (G₀.Nodes r) G₀ m₀ next
      (Attempt (need G' r (v + (n + 1)) k ≤ room G' m') done failed
        (Added flags fill G₀ r v (n + 1 + k)) fun G' _ => Undone G₀ r G') G' m') :
    Run K (G₀.Nodes r) G₀ m₀ (addPage K r (v + n) (flags (v + n)) write fail next)
      (Attempt (need G r (v + n) (k + 1) ≤ room G m) done failed
        (Added flags fill G₀ r v (n + (k + 1))) fun G' _ => Undone G₀ r G') G m := by
  have hless := missing_lt_need G r (v + n) k
  have hfree0 : ∀ q, G.own q = .free → G₀.Nodes r q ∨ G₀.own q = .free := by
    intro q hq
    refine .inr (Classical.not_not.1 fun hnot => ?_)
    rw [hadded.old q hnot] at hq
    exact hnot hq
  unfold addPage
  apply ok_kalloc.call fun _ h => h.elim
  rintro c G1 m1 hI1 _ - (⟨rfl, rfl, hpage1, hroom1⟩ | ⟨hc0, hc, rfl, hpage1, hroom1⟩)
  · rw [if_pos rfl]
    refine (hfail _ m1 ?_).mono fun _ _ _ _ _ h => ⟨fun hfits => absurd hfits (by omega), fun _ => h⟩
    exact hadded.grow rfl (fun _ _ => rfl) (fun _ hq => .inl hq) fun q _ _ => by rw [hpage1]
  · rw [if_neg hc0]
    have hne : ∀ q, G.own q ≠ .free → q ≠ c := by
      rintro q hq rfl
      exact hq hc
    have hsame1 : ∀ q, q ≠ c → m1.page q = m.page q := by
      intro q hq
      rw [hpage1]
      exact Function.update_of_ne hq _ m.page
    apply (hwrite c m1 hc hsame1).call fun q hq => hfree0 q (hq ▸ hc)
    rintro _ _ _ hI2 hF2 - ⟨rfl, rfl⟩
    have hroot2 : (G.take c).own r = .node r 2 0 := by
      rw [own_take_of_ne (hne r (hroot.trans_ne nofun)), hroot]
    apply (ok_hang hroot2 hv own_take_self hperm hflags hleaf).call
    · rintro q (rfl | hq)
      · exact hfree0 q hc
      · exact hF2.nodes (fun _ => id) q hq
    intro a G3 m3 hI3 _ hF3 hH
    have hold3 : ∀ q, q ≠ c → G.own q ≠ .free → G3.own q = G.own q := by
      intro q hq hfree
      rw [← own_take_of_ne (G := G) hq] at hfree ⊢
      exact hH.old q hq hfree
    have hnew3 : ∀ q, q ≠ c → G.own q = .free → G3.own q = .free ∨ G3.Nodes r q := by
      intro q hq hfree
      rw [← own_take_of_ne (G := G) hq] at hfree
      exact hH.new q hq hfree
    have hpage3 : ∀ q u, G.own q = .user r u → m3.page q = m.page q := by
      intro q u hq
      have hqc : q ≠ c := hne q (hq.trans_ne nofun)
      have htake : (G.take c).own q = .user r u := by rw [own_take_of_ne hqc, hq]
      rw [hF3.page q ?_ (htake.trans_ne nofun), ← hsame1 q hqc]
      · exact Function.update_of_ne hqc _ m1.page
      · rintro (h | ⟨ℓ, k, h⟩)
        · exact hqc h
        · rw [htake] at h
          cases h
    have hmissing : missing (G.take c) r (v + n) 2 = missing G r (v + n) 2 := rfl
    have hroom2 : room (G.take c) (setPage m1 c (fill (v + n))) = room (G.take c) m1 := rfl
    by_cases ha : a = 0
    · rw [if_neg (not_not.2 ha)]
      obtain ⟨hown, hentry, hother, hroom3, hopened⟩ := hH.ok ha
      have hfill : m3.page c = fill (v + n) := hH.kept.trans (Function.update_self c _ m1.page)
      have hneed := need_succ (G := G) ⟨hopened.path, hopened.there⟩ k
      have hadded3 := hadded.push hc hown hentry hother hfill hold3 hnew3 hpage3
      refine (hnext G3 m3 hadded3).mono fun _ _ _ _ _ h => ?_
      rw [Nat.add_right_comm n 1 k] at h
      refine ⟨fun hfits => h.1 ?_, fun hshort => h.2 ?_⟩ <;> rw [← Nat.add_assoc] <;> omega
    rw [if_pos ha]
    obtain ⟨hfresh, hleaf3, hroom3⟩ := hH.fail ha
    apply (ok_kfree hfresh).call fun q hq => hfree0 q (hq ▸ hc)
    rintro _ _ m4 _ _ hF4 ⟨rfl, -⟩
    refine (hfail _ m4 ?_).mono fun _ _ _ _ _ h => ⟨fun hfits => absurd hfits (by omega), fun _ => h⟩
    refine hadded.grow hleaf3 (fun q hq => ?_) (fun q hq => ?_) fun q u hq => ?_
    · rw [own_give_of_ne (hne q hq)]
      exact hold3 q (hne q hq) hq
    · by_cases hqc : q = c
      · rw [hqc]
        exact .inl own_give_self
      · rw [own_give_of_ne hqc]
        refine (hnew3 q hqc hq).imp_right fun ⟨ℓ, k, hnode⟩ => ⟨ℓ, k, ?_⟩
        rw [own_give_of_ne hqc, hnode]
    · have hqc : q ≠ c := hne q (hq.trans_ne nofun)
      rw [hF4.page q hqc ?_, hpage3 q u hq]
      rw [hold3 q hqc (hq.trans_ne nofun), hq]
      exact nofun

theorem Added.fresh (h : Added flags fill G₀ r v n G m) (hI : Inv K G m) {q i : ℕ} (hi : i < n)
    (hq : G.own q = .user r (v + i)) : G₀.own q = .free := by
  obtain ⟨c, hfree, hown, -⟩ := h.page (v + i) (by omega) (by omega)
  rw [← (hI.user q r (v + i) hq).2, (hI.user c r (v + i) hown).2]
  exact hfree

theorem ok_remove (hroot : G.own r = .node r 2 0) (hv : v + n ≤ 2 ^ 26)
    (hadded : Added flags fill G₀ r v n G m)
    (hzero : ∀ u, v ≤ u → u < v + n → G₀.leaf r u = 0) :
    Spec K (G.Unmaps r v n) (uvmunmap K r (v * PGSIZE) n true) (fun _ G' _ => Undone G₀ r G')
      G m := by
  intro hI
  have howned : ∀ i < n, LeafPte (G.leaf r (v + i)) ∧
      G.own (PTE2PA (G.leaf r (v + i))) = .user r (v + i) := by
    intro i hi
    obtain ⟨c, -, hown, -⟩ := hadded.page (v + i) (by omega) (by omega)
    obtain ⟨hne, hpa⟩ := hI.user c r (v + i) hown
    rw [hpa]
    exact ⟨hne, hown⟩
  have hfreeable : Freeable G r v n true := by
    intro i hi
    rw [if_pos rfl]
    exact (howned i hi).2
  have hfresh := fun q i hi => hadded.fresh hI (q := q) (i := i) hi
  revert hI
  apply (ok_uvmunmap hroot rfl hv (fun i hi => (howned i hi).1) hfreeable).mono
  intro _ G' m' _ _ hU
  refine ⟨?_, ?_, ?_⟩
  · funext r' u
    rw [hU.leaf]
    unfold cleared
    split_ifs with hin
    · rw [hin.1, hzero u hin.2.1 hin.2.2]
    · exact hadded.leaf r' u hin
  · intro q hq
    rw [hU.own q fun i hi hown => hq (hfresh q i hi hown)]
    exact hadded.old q hq
  · intro q hq
    by_cases hmapped : ∃ i < n, G.own q = .user r (v + i)
    · obtain ⟨i, hi, hown⟩ := hmapped
      exact .inl (hU.freed q i hi hown)
    have hsame : G'.own q = G.own q := hU.own q fun i hi hown => hmapped ⟨i, hi, hown⟩
    rw [hsame]
    rcases hadded.new q hq with hfree | ⟨ℓ, k, hnode⟩ | ⟨u, hle, hlt, hown⟩
    · exact .inl hfree
    · exact .inr ⟨ℓ, k, by rw [hsame, hnode]⟩
    · refine absurd ⟨u - v, by omega, ?_⟩ hmapped
      rw [Nat.add_sub_cancel' hle]
      exact hown

theorem Added.unmaps (h : Added flags fill G₀ r v n G m) (hI : Inv K G m)
    (hF : Frame (G₀.Nodes r) G₀ m₀ G m) (q : ℕ) (hq : G.Unmaps r v n q) :
    G₀.Nodes r q ∨ G₀.own q = .free := by
  rcases hq with hq | ⟨i, hi, hq⟩
  · exact hF.nodes (fun _ => id) q hq
  · exact .inr (h.fresh hI hi hq)

end

theorem PGROUNDUP_page {x : ℕ} (hx : x ≤ 2 ^ 26) : PGROUNDUP (x * PGSIZE) = x * PGSIZE := by
  rw [PGROUNDUP_eq (by unfold PGSIZE; omega)]
  unfold pages PGSIZE
  omega

theorem ok_uvmdealloc_added {flags : ℕ → ℕ} {fill : ℕ → Page} (hroot : G.own r = .node r 2 0)
    (hv : v + n ≤ 2 ^ 26) (hadded : Added flags fill G₀ r v n G m)
    (hzero : ∀ u, v ≤ u → u < v + n → G₀.leaf r u = 0) :
    Spec K (G.Unmaps r v n) (uvmdealloc K r ((v + n) * PGSIZE) (v * PGSIZE))
      (fun _ G' _ => Undone G₀ r G') G m := by
  apply Run.spec
  unfold uvmdealloc
  by_cases hn : n = 0
  · subst hn
    rw [add_zero, if_pos le_rfl]
    apply run_pure
    intro _ _
    refine ⟨?_, hadded.old, fun q hq => ?_⟩
    · funext r' u
      exact hadded.leaf r' u (by omega)
    · rcases hadded.new q hq with hfree | hnodes | ⟨u, hle, hlt, -⟩
      · exact .inl hfree
      · exact .inr hnodes
      · omega
  · have hless : v * PGSIZE < (v + n) * PGSIZE := by
      unfold PGSIZE
      omega
    have hcount : s32 (((v + n) * PGSIZE - v * PGSIZE) / PGSIZE) = n := by
      rw [← Nat.sub_mul, Nat.mul_div_cancel _ (by decide), Nat.add_sub_cancel_left]
      unfold s32 u32
      rw [Nat.mod_eq_of_lt (by omega), if_pos (by omega)]
    rw [if_neg (Nat.not_le_of_gt hless), PGROUNDUP_page hv, PGROUNDUP_page (by omega)]
    dsimp only
    rw [if_pos hless, hcount]
    apply (ok_remove hroot hv hadded hzero).call fun _ => .inl
    intro _ G' m' _ _ _ hundone
    exact run_pure fun _ _ => hundone

def uvmPerm : ℕ := PTE_W ||| PTE_X ||| PTE_R ||| PTE_U

def zeroPage : Page := fun _ => 0

theorem uvmallocFrom_succ {oldsz newsz fuel u : ℕ} (h : u * PGSIZE < newsz) :
    uvmallocFrom K r oldsz newsz (fuel + 1) (u * PGSIZE) =
      addPage K r u uvmPerm (fun c => memset c 0)
        (do let _ ← uvmdealloc K r (u * PGSIZE) oldsz; return 0)
        (uvmallocFrom K r oldsz newsz fuel (u64 (u * PGSIZE + PGSIZE))) := by
  rw [uvmallocFrom, if_pos h]
  rfl

theorem ok_uvmallocFrom {k fuel newsz : ℕ} (hfuel : k < fuel) (hroot : G₀.own r = .node r 2 0)
    (hsz : pages newsz = v + n + k) (hv : v + n + k ≤ 2 ^ 26)
    (hadded : Added (fun _ => uvmPerm) (fun _ => zeroPage) G₀ r v n G m)
    (hzero : ∀ u, v ≤ u → u < v + n + k → G₀.leaf r u = 0) :
    Run K (G₀.Nodes r) G₀ m₀ (uvmallocFrom K r (v * PGSIZE) newsz fuel ((v + n) * PGSIZE))
      (Attempt (need G r (v + n) k ≤ room G m) newsz 0
        (Added (fun _ => uvmPerm) (fun _ => zeroPage) G₀ r v (n + k))
        fun G' _ => Undone G₀ r G') G m := by
  induction k generalizing G m n fuel with
  | zero =>
    obtain ⟨fuel, rfl⟩ : ∃ f, fuel = f + 1 := ⟨fuel - 1, by omega⟩
    unfold uvmallocFrom
    rw [if_neg fun hless => absurd (lt_pages.2 hless) (by omega)]
    exact run_pure fun _ _ => attempt_none hadded
  | succ k ih =>
    obtain ⟨fuel, rfl⟩ : ∃ f, fuel = f + 1 := ⟨fuel - 1, by omega⟩
    have hown : ∀ {G : Ghost} {m : Memory} {n : ℕ},
        Added (fun _ => uvmPerm) (fun _ => zeroPage) G₀ r v n G m → G.own r = .node r 2 0 := by
      intro G m n hadded
      rw [hadded.old r (hroot.trans_ne nofun), hroot]
    have hleaf : G.leaf r (v + n) = 0 := by
      rw [hadded.leaf r (v + n) (by omega)]
      exact hzero (v + n) (by omega) (by omega)
    rw [uvmallocFrom_succ (lt_pages.1 (by omega)), u64_next (by omega), Nat.add_assoc v]
    refine run_addPage (fun _ => uvmPerm) (fun _ => zeroPage) (hown hadded) (by omega) hleaf
      (by decide) (by decide) hadded ?_ ?_ ?_
    · intro c m1 _ _
      exact ok_memset own_take_self
    · intro G' m' hadded' hJ
      have hzero' : ∀ u, v ≤ u → u < v + n → G₀.leaf r u = 0 :=
        fun u hle hlt => hzero u hle (by omega)
      have hunmaps := hadded'.unmaps hJ.1 hJ.2
      revert hJ
      apply (ok_uvmdealloc_added (hown hadded') (by omega) hadded' hzero').call hunmaps
      intro _ G'' m'' _ _ _ hundone
      exact run_pure fun _ _ => ⟨rfl, hundone⟩
    · intro G' m' hadded'
      exact ih (by omega) (by omega) (by omega) hadded' fun u hle hlt => hzero u hle (by omega)

theorem ok_uvmalloc {oldsz newsz : ℕ} (hroot : G.own r = .node r 2 0) (hle : oldsz ≤ newsz)
    (hnew : newsz ≤ TRAPFRAME)
    (hzero : ∀ u, pages oldsz ≤ u → u < pages newsz → G.leaf r u = 0) :
    Spec K (G.Nodes r) (uvmalloc K r oldsz newsz)
      (Attempt (need G r (pages oldsz) (pages newsz - pages oldsz) ≤ room G m) newsz 0
        (Added (fun _ => uvmPerm) (fun _ => zeroPage) G r (pages oldsz)
          (pages newsz - pages oldsz))
        fun G' _ => Undone G r G') G m := by
  have hpages : pages oldsz ≤ pages newsz ∧ pages newsz ≤ 2 ^ 26 := by
    unfold TRAPFRAME TRAMPOLINE MAXVA PGSIZE at hnew
    unfold pages
    omega
  have hround : PGROUNDUP oldsz = pages oldsz * PGSIZE := by
    apply PGROUNDUP_eq
    unfold TRAPFRAME TRAMPOLINE MAXVA at hnew
    omega
  apply Run.spec
  unfold uvmalloc
  rw [if_neg (Nat.not_lt_of_le hle), hround]
  have hadded := added_none (fun _ => uvmPerm) (fun _ => zeroPage) G r (pages oldsz) m
  have hsz : pages newsz = pages oldsz + 0 + (pages newsz - pages oldsz) := by omega
  have hfuel : pages newsz - pages oldsz < maxRounds := by
    unfold maxRounds
    omega
  have hrun : Run K (G.Nodes r) G m (uvmallocFrom K r (pages oldsz * PGSIZE) newsz maxRounds
      ((pages oldsz + 0) * PGSIZE)) _ G m :=
    ok_uvmallocFrom hfuel hroot hsz (by omega) hadded fun u hge hlt => hzero u hge (by omega)
  rw [add_zero, zero_add] at hrun
  exact hrun

/-- `uvmalloc` maps all the pages it is asked for, or none. -/
theorem uvmalloc_atomic (oldsz newsz : ℕ) (hI : Inv K G m) (hroot : G.own r = .node r 2 0)
    (hmapped : ∀ u, u * PGSIZE < TRAPFRAME → (G.leaf r u ≠ 0 ↔ u < PGROUNDUP oldsz / PGSIZE))
    (hle : oldsz ≤ newsz) (hnew : newsz ≤ TRAPFRAME) :
    ∃ a m' G', uvmalloc K r oldsz newsz m = .done a m' ∧ Inv K G' m' ∧
      (∀ q, G.own q ≠ .free → G'.own q = G.own q) ∧
      (∀ q, G.own q ≠ .free → ¬ G.Nodes r q → m'.page q = m.page q) ∧
      (room G m < need G r (pages oldsz) (pages newsz - pages oldsz) →
        a = 0 ∧ G'.leaf = G.leaf ∧
          ∀ q, G.own q = .free → G'.fl.count q = 1 ∨ G'.Nodes r q) ∧
      (need G r (pages oldsz) (pages newsz - pages oldsz) ≤ room G m →
        a = newsz ∧
          (∀ r' u, ¬ (r' = r ∧ PGROUNDUP oldsz / PGSIZE ≤ u ∧ u < PGROUNDUP newsz / PGSIZE) →
            G'.leaf r' u = G.leaf r' u) ∧
          ∀ u, PGROUNDUP oldsz / PGSIZE ≤ u → u < PGROUNDUP newsz / PGSIZE →
            ∃ c, G.own c = .free ∧ G'.own c = .user r u ∧
              G'.leaf r u = PA2PTE c ||| (PTE_W ||| PTE_X ||| PTE_R ||| PTE_U) ||| PTE_V ∧
              m'.page c = fun _ => 0) := by
  have hbound : newsz < 2 ^ 63 := by
    unfold TRAPFRAME TRAMPOLINE MAXVA at hnew
    omega
  have hround : ∀ sz, sz < 2 ^ 63 → PGROUNDUP sz / PGSIZE = pages sz := by
    intro sz hsz
    rw [PGROUNDUP_eq hsz, Nat.mul_div_cancel _ (by decide)]
  rw [hround oldsz (by omega)] at hmapped ⊢
  rw [hround newsz hbound]
  have hzero : ∀ u, pages oldsz ≤ u → u < pages newsz → G.leaf r u = 0 := by
    intro u hge hlt
    have hlow : u * PGSIZE < TRAPFRAME := (lt_pages.1 hlt).trans_le hnew
    exact Classical.not_not.1 fun hne => Nat.not_lt_of_le hge ((hmapped u hlow).1 hne)
  have hsum : pages oldsz + (pages newsz - pages oldsz) = pages newsz := by
    unfold pages
    omega
  obtain ⟨a, m', hrun, G', hI', hF, hfits, hshort⟩ := ok_uvmalloc hroot hle hnew hzero hI
  refine ⟨a, m', G', hrun, hI', ?_, fun q hq hnodes => hF.page q hnodes hq, fun h => ?_,
    fun h => ?_⟩
  · by_cases h : need G r (pages oldsz) (pages newsz - pages oldsz) ≤ room G m
    · exact (hfits h).2.old
    · exact (hshort h).2.old
  · obtain ⟨ha, hundone⟩ := hshort (Nat.not_le_of_gt h)
    refine ⟨ha, hundone.leaf, fun q hq => (hundone.new q hq).imp_left fun hfree => ?_⟩
    exact List.count_eq_one_of_mem hI'.nodup ((hI'.mem_fl q).2 hfree)
  · obtain ⟨ha, hadded⟩ := hfits h
    have hleaf := hadded.leaf
    have hpage := hadded.page
    rw [hsum] at hleaf hpage
    exact ⟨ha, hleaf, hpage⟩

/-- The last pages of the memory, counted from its end, and an image that leaves no others. -/
def lastPage (i : ℕ) : ℕ := PHYSTOP - i * PGSIZE

def lastPages (n : ℕ) (hn : n ≤ 1000) : Image where
  trampoline := KERNBASE
  kend := lastPage n
  aligned := by decide
  kernbase_le := le_rfl
  etext_le := by
    unfold lastPage PHYSTOP KERNBASE PGSIZE
    omega
  kend_le := Nat.sub_le _ _

def eight : Image := lastPages 8 (by decide)

def eightGhost : Ghost :=
  [6, 5, 4, 3, 2, 1].foldl (fun G i => G.give (lastPage i))
    (((Ghost.idle eight).attach (lastPage 8) (lastPage 8) 2 0).attach (lastPage 7) (lastPage 7) 2 0)

def eightMemory : Memory := [6, 5, 4, 3, 2, 1].foldl (fun m i => given m (lastPage i)) blank

theorem inv_eight : Inv eight eightGhost eightMemory := by
  have hfirst := (inv_idle eight).plant (c := lastPage 8) (by decide) fun j _ => word_zero_page j
  have hsecond := hfirst.plant (c := lastPage 7) (by decide) fun j _ => word_zero_page j
  exact (((((hsecond.give (by decide)).give (by decide)).give (by decide)).give (by decide)).give
    (by decide)).give (by decide)

theorem uvmalloc_atomic_eight : ∃ m', uvmalloc eight (lastPage 8) 0 5 eightMemory = .done 5 m' := by
  have hzero : ∀ u, eightGhost.leaf (lastPage 8) u = 0 := fun _ => rfl
  obtain ⟨a, m', G', hrun, -, -, -, -, hfits⟩ := uvmalloc_atomic 0 5 inv_eight (by decide)
    (fun u _ => ⟨fun h => absurd (hzero u) h, fun h => absurd h (Nat.not_lt_zero u)⟩) (by decide)
    (by decide)
  rw [(hfits (by decide)).1] at hrun
  exact ⟨m', hrun⟩

end Xv6.PageOwners
