import Xv6.PageTables

set_option autoImplicit false

namespace Xv6.PageOwners
open Paging VmCode

variable {K : Image} {G G' : Ghost} {m m' : Memory} {p r ℓ k v : ℕ} {S : ℕ → Prop}
variable {do_free : Bool} {n : ℕ}

def cleared (leaf : ℕ → ℕ → ℕ) (r v n : ℕ) : ℕ → ℕ → ℕ := fun r' v' =>
  if r' = r ∧ v ≤ v' ∧ v' < v + n then 0 else leaf r' v'

theorem cleared_zero (leaf : ℕ → ℕ → ℕ) : cleared leaf r v 0 = leaf := by
  funext r' v'
  exact if_neg (by omega)

theorem cleared_succ (n : ℕ) :
    cleared (G.setLeaf r v 0).leaf r (v + 1) n = cleared G.leaf r v (n + 1) := by
  funext r' v'
  simp only [cleared, Ghost.setLeaf]
  split_ifs <;> first | rfl | omega

def Ghost.Unmaps (G : Ghost) (r v n q : ℕ) : Prop :=
  G.Nodes r q ∨ ∃ i < n, G.own q = .user r (v + i)

structure Unmapped (G : Ghost) (m : Memory) (r v n : ℕ) (G' : Ghost) (m' : Memory) : Prop where
  leaf : G'.leaf = cleared G.leaf r v n
  node : G'.node = G.node
  freed : ∀ p, ∀ i < n, G.own p = .user r (v + i) → G'.own p = .free
  own : ∀ p, (∀ i < n, G.own p ≠ .user r (v + i)) → G'.own p = G.own p
  room : room G m ≤ room G' m'

def Freeable (G : Ghost) (r v n : ℕ) (do_free : Bool) : Prop :=
  ∀ i < n, if do_free = true then G.own (PTE2PA (G.leaf r (v + i))) = .user r (v + i)
    else ∀ p, G.own p ≠ .user r (v + i)

theorem ok_kfree_user (hp : G.own p = .user r v) :
    Spec K (· = p) (kfree K p)
      (fun _ G' m' => G' = (G.label p .fresh).give p ∧ room G m ≤ room G' m') G m := by
  apply Run.spec
  refine Run.ghost (fun hI => hI.label (by rw [hp]; exact held_user) held_fresh nofun)
    (fun _ => frame_label) (fun _ => .inl) ?_
  exact (ok_kfree own_label_self).last (fun _ => .inl) fun _ _ _ _ _ _ h => h

theorem ok_unmapPage (hleaf : G.leaf r v ≠ 0) (hfree : Freeable G r v 1 do_free) :
    Spec K (G.Unmaps r v 1)
      (unmapPage K do_free (G.node r 0 (v / 512) + 8 * (v % 512)) (G.leaf r v))
      (fun _ => Unmapped G m r v 1) G m := by
  have hfree0 := hfree 0 Nat.one_pos
  have hzero : ∀ i < 1, v + i = v := fun i hi => by omega
  intro hI
  have hnode : G.node r 0 (v / 512) ≠ 0 := fun h => hleaf (hI.noLeaf r v h)
  have huser : ∀ p, G.own p = .user r v → PTE2PA (G.leaf r v) = p := fun p hp =>
    (hI.user p r v hp).2
  have hcleared : (G.setLeaf r v 0).leaf = cleared G.leaf r v 1 := by
    rw [← cleared_succ, cleared_zero]
  revert hI
  apply Run.spec
  unfold unmapPage
  split_ifs with hdo
  · rw [if_pos hdo, add_zero] at hfree0
    apply (ok_kfree_user hfree0).call
    · rintro q rfl
      exact .inl (.inr ⟨0, Nat.one_pos, hfree0⟩)
    · rintro _ _ m1 _ hF _ ⟨rfl, hroom⟩
      have hgone : ∀ p, ((G.label (PTE2PA (G.leaf r v)) .fresh).give (PTE2PA (G.leaf r v))).own p ≠
          .user r v := by
        intro p hp
        by_cases hpa : p = PTE2PA (G.leaf r v)
        · rw [hpa, own_give_self] at hp
          cases hp
        · rw [own_give_of_ne hpa, own_label_of_ne hpa] at hp
          exact hpa (huser p hp).symm
      have hnode' : ((G.label (PTE2PA (G.leaf r v)) .fresh).give (PTE2PA (G.leaf r v))).node r 0
          (v / 512) ≠ 0 := hnode
      refine (ok_setLeaf hnode' (.inl rfl) fun p hp => absurd hp (hgone p)).last
        (hF.nodes fun _ => .inl) ?_
      rintro _ _ m2 _ _ _ ⟨rfl, hroom'⟩
      refine ⟨hcleared, rfl, fun p i hi hp => ?_, fun p hp => ?_, by omega⟩
      · rw [hzero i hi] at hp
        rw [← huser p hp, own_setLeaf, own_give_self]
      · have hne : p ≠ PTE2PA (G.leaf r v) := by
          rintro rfl
          exact hp 0 Nat.one_pos hfree0
        rw [own_setLeaf, own_give_of_ne hne, own_label_of_ne hne]
  · rw [if_neg hdo] at hfree0
    refine (ok_setLeaf hnode (.inl rfl) fun p hp => absurd hp (hfree0 p)).last
      (fun _ hq => .inl (.inl hq)) ?_
    rintro _ _ m2 _ _ _ ⟨rfl, hroom⟩
    refine ⟨hcleared, rfl, fun p i hi hp => ?_, fun _ _ => rfl, hroom.ge⟩
    rw [hzero i hi] at hp
    exact absurd hp (hfree0 p)

theorem Unmapped.own_later (h : Unmapped G m r v 1 G' m') (p : ℕ) :
    G'.own p = .user r (v + 1 + n) ↔ G.own p = .user r (v + 1 + n) := by
  constructor
  · intro hp
    by_cases hnow : G.own p = .user r v
    · rw [h.freed p 0 Nat.one_pos hnow] at hp
      cases hp
    · rw [h.own p fun i hi => by rw [show v + i = v by omega]; exact hnow] at hp
      exact hp
  · intro hp
    rw [h.own p fun i hi => ?_, hp]
    rw [hp, Ne, Owner.user.injEq]
    omega

theorem Unmapped.leaf_later (h : Unmapped G m r v 1 G' m') :
    G'.leaf r (v + 1 + n) = G.leaf r (v + 1 + n) := by
  rw [h.leaf]
  exact if_neg (by omega)

theorem Unmapped.cons {G1 : Ghost} {m1 : Memory} (h : Unmapped G m r v 1 G1 m1)
    (rest : Unmapped G1 m1 r (v + 1) n G' m') : Unmapped G m r v (n + 1) G' m' := by
  have hshift : ∀ i, v + (i + 1) = v + 1 + i := fun i => by omega
  refine ⟨?_, rest.node.trans h.node, ?_, ?_, h.room.trans rest.room⟩
  · rw [rest.leaf, h.leaf]
    funext r' v'
    unfold cleared
    split_ifs <;> first | rfl | omega
  · intro p i hi hp
    cases i with
    | zero =>
      have hgone := h.freed p 0 Nat.one_pos hp
      rw [rest.own p fun j _ => hgone.trans_ne nofun, hgone]
    | succ i =>
      rw [hshift] at hp
      exact rest.freed p i (by omega) ((h.own_later p).2 hp)
  · intro p hp
    have hsame : G1.own p = G.own p := by
      apply h.own
      intro i hi
      rw [show v + i = v + 0 by omega]
      exact hp 0 (by omega)
    rw [rest.own p fun i hi => ?_, hsame]
    intro he
    apply hp (i + 1) (by omega)
    rw [hshift]
    exact (h.own_later p).1 he

theorem Freeable.tail (h : Freeable G r v (n + 1) do_free) (one : Unmapped G m r v 1 G' m') :
    Freeable G' r (v + 1) n do_free := by
  intro i hi
  have hi' := h (i + 1) (by omega)
  rw [show v + (i + 1) = v + 1 + i by omega] at hi'
  rw [one.leaf_later]
  split_ifs at hi' ⊢
  · exact (one.own_later _).2 hi'
  · exact fun p hp => hi' p ((one.own_later p).1 hp)

theorem ok_uvmunmapFrom {fuel : ℕ} (hfuel : n < fuel) (hroot : G.own r = .node r 2 0)
    (hv : v + n ≤ 2 ^ 26) (hleaf : ∀ i < n, LeafPte (G.leaf r (v + i)))
    (hfree : Freeable G r v n do_free) :
    Spec K (G.Unmaps r v n)
      (uvmunmapFrom K r ((v + n) * PGSIZE) do_free fuel (v * PGSIZE))
      (fun _ => Unmapped G m r v n) G m := by
  induction n generalizing G m v fuel with
  | zero =>
    obtain ⟨fuel, rfl⟩ : ∃ f, fuel = f + 1 := ⟨fuel - 1, by omega⟩
    apply Run.spec
    unfold uvmunmapFrom
    rw [add_zero, if_neg (Nat.lt_irrefl _)]
    apply run_pure
    intro _ _
    exact ⟨(cleared_zero _).symm, rfl, nofun, fun _ _ => rfl, le_rfl⟩
  | succ n ih =>
    obtain ⟨fuel, rfl⟩ : ∃ f, fuel = f + 1 := ⟨fuel - 1, by omega⟩
    have hva : v * PGSIZE < MAXVA := by
      unfold MAXVA PGSIZE
      omega
    have hlt : v * PGSIZE < (v + (n + 1)) * PGSIZE := by
      unfold PGSIZE
      omega
    have hend : (v + (n + 1)) * PGSIZE = (v + 1 + n) * PGSIZE := by ring
    have hdiv : v * PGSIZE / PGSIZE = v := Nat.mul_div_cancel v (by decide)
    have hpte : LeafPte (G.leaf r v) := hleaf 0 (by omega)
    have hfree0 : Freeable G r v 1 do_free := fun i hi => hfree i (by omega)
    intro hI
    have hnode : G.node r 0 (v / 512) ≠ 0 := fun h => hpte.ne_zero (hI.noLeaf r v h)
    have hslot : slot G r v = G.node r 0 (v / 512) + 8 * (v % 512) := if_neg hnode
    revert hI
    apply Run.spec
    unfold uvmunmapFrom
    rw [if_pos hlt]
    apply run_read fun hI _ => hI.walk_false agree_self hroot hva
    rw [hdiv, hslot, if_neg (by omega)]
    apply run_read fun hI _ => hI.load_leaf agree_self hnode
    rw [if_neg hpte.valid, if_neg hpte.flags]
    apply (ok_unmapPage hpte.ne_zero hfree0).call
    · rintro q (hq | ⟨i, hi, hq⟩)
      · exact .inl (.inl hq)
      · exact .inl (.inr ⟨i, by omega, hq⟩)
    · intro _ G1 m1 _ hF _ hone
      have hroot1 : G1.own r = .node r 2 0 := by
        rw [hone.own r (by rw [hroot]; exact nofun), hroot]
      rw [u64_next (by omega), hend]
      refine (ih (by omega) hroot1 (by omega) (fun i hi => ?_) (hfree.tail hone)).last ?_ ?_
      · rw [hone.leaf_later, show v + 1 + i = v + (i + 1) by omega]
        exact hleaf (i + 1) (by omega)
      · rintro q (hq | ⟨i, hi, hq⟩)
        · exact hF.nodes (fun _ => .inl) q hq
        · refine .inl (.inr ⟨i + 1, by omega, ?_⟩)
          rw [show v + (i + 1) = v + 1 + i by omega]
          exact (hone.own_later q).1 hq
      · exact fun _ _ _ _ _ _ hrest => hone.cons hrest

theorem ok_uvmunmap {va : ℕ} (hroot : G.own r = .node r 2 0) (hva : va = v * PGSIZE)
    (hv : v + n ≤ 2 ^ 26) (hleaf : ∀ i < n, LeafPte (G.leaf r (v + i)))
    (hfree : Freeable G r v n do_free) :
    Spec K (G.Unmaps r v n) (uvmunmap K r va n do_free) (fun _ => Unmapped G m r v n) G m := by
  have haligned : va % PGSIZE = 0 := by
    rw [hva]
    exact Nat.mul_mod_left v PGSIZE
  have hend : u64 (v * PGSIZE + n * PGSIZE) = (v + n) * PGSIZE := by
    unfold u64 PGSIZE
    omega
  unfold uvmunmap
  rw [if_neg (not_not.2 haligned), hva, hend]
  have hfuel : n < maxRounds := by
    unfold maxRounds
    omega
  exact ok_uvmunmapFrom hfuel hroot hv hleaf hfree

def pages (sz : ℕ) : ℕ := (sz + 4095) / 4096

theorem lt_pages {u sz : ℕ} : u < pages sz ↔ u * PGSIZE < sz := by
  unfold pages PGSIZE
  omega

theorem PGROUNDUP_eq {sz : ℕ} (h : sz < 2 ^ 63) : PGROUNDUP sz = pages sz * PGSIZE := by
  have hsum : sz + (PGSIZE - 1) < 2 ^ 64 := by
    unfold PGSIZE
    omega
  unfold PGROUNDUP u64
  rw [Nat.mod_eq_of_lt hsum]
  rfl

end Xv6.PageOwners
