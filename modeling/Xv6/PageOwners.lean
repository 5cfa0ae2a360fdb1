import Mathlib.Data.List.Nodup
import Xv6.Accounting
import Xv6.LinkedList
import Xv6.LogCode
import Xv6.VmCode

set_option autoImplicit false

/-! A ghost value gives every page of the allocator its owner: the free list, a place in a page
table, a virtual page of a user address space, or another use. It also maps the places to the pages
of the tables and virtual pages to entries. The table at place `(level + 1, k)` refers to those at
`(level, 512 * k + j)`. -/
namespace Xv6.PageOwners
open Resumption Xv6.Sequential Paging VmCode LinkedList Accounting
open LogCode (Proc)

inductive Owner where
  | reserved
  | free
  | fresh
  | node (root level k : ℕ)
  | user (root vpn : ℕ)
  | trapframe (q : Proc)
  | kstack (q : Proc)
  | pipe
  deriving DecidableEq

structure Ghost where
  own : ℕ → Owner
  node : ℕ → ℕ → ℕ → ℕ
  leaf : ℕ → ℕ → ℕ
  fl : List ℕ

def freed (l : List Event) (pa : ℕ) : Prop :=
  (l.reverse.find? fun e => e = .kalloc pa ∨ e = .kfree pa) = some (.kfree pa)

def Once (before : List Event) : Event → Prop
  | .kalloc pa => freed before pa
  | .kfree pa => ¬ freed before pa

structure Pool (K : Image) (G : Ghost) (m : Memory) : Prop where
  reserved : ∀ p, G.own p = .reserved ↔ ¬ K.IsPage p
  chain : Chain (next m) m.freelist G.fl
  nodup : G.fl.Nodup
  mem_fl : ∀ p, p ∈ G.fl ↔ G.own p = .free
  once : Accounted Once m.trace
  freed_iff : ∀ p, freed m.trace p ↔ G.own p = .free

structure Tables (G : Ghost) (m : Memory) : Prop where
  node_own : ∀ r ℓ k, G.node r ℓ k ≠ 0 → G.own (G.node r ℓ k) = .node r ℓ k
  own_node : ∀ p r ℓ k, G.own p = .node r ℓ k → G.node r ℓ k = p
  up : ∀ r ℓ k, G.node r ℓ k ≠ 0 →
    ℓ = 2 ∧ k = 0 ∧ G.node r ℓ k = r ∨ ℓ < 2 ∧ G.node r (ℓ + 1) (k / 512) ≠ 0
  entry : ∀ r ℓ k j, G.node r (ℓ + 1) k ≠ 0 → j < 512 →
    word (m.page (G.node r (ℓ + 1) k)) j = link (G.node r ℓ (512 * k + j))
  leafEntry : ∀ r k j, G.node r 0 k ≠ 0 → j < 512 →
    word (m.page (G.node r 0 k)) j = G.leaf r (512 * k + j)
  noLeaf : ∀ r v, G.node r 0 (v / 512) = 0 → G.leaf r v = 0
  validPte : ∀ r v, G.leaf r v ≠ 0 → ValidPte (G.leaf r v)

structure Inv (K : Image) (G : Ghost) (m : Memory) : Prop extends Pool K G m, Tables G m where
  user : ∀ p r v, G.own p = .user r v → LeafPte (G.leaf r v) ∧ PTE2PA (G.leaf r v) = p

variable {K : Image} {G G' G'' : Ghost} {m m' m'' : Memory} {p r ℓ k v : ℕ}

theorem Inv.isPage (hI : Inv K G m) (h : G.own p ≠ .reserved) : K.IsPage p :=
  Classical.not_not.1 fun hp => h ((hI.reserved p).2 hp)

theorem isPage_ne_zero (h : K.IsPage p) : p ≠ 0 := by
  have hbase := K.kernbase_le
  have htext := K.etext_le
  have hkend := h.2.1
  unfold KERNBASE at hbase
  omega

theorem Inv.isPage_node (hI : Inv K G m) (h : G.node r ℓ k ≠ 0) : K.IsPage (G.node r ℓ k) := by
  apply hI.isPage
  rw [hI.node_own r ℓ k h]
  exact nofun

theorem Inv.root_of_node (hI : Inv K G m) (h : G.node r ℓ k ≠ 0) : G.own r = .node r 2 0 := by
  have hroot : ∀ k, G.node r 2 k ≠ 0 → G.own r = .node r 2 0 := by
    intro k h
    rcases hI.up r 2 k h with ⟨-, hk, hr⟩ | ⟨hlt, -⟩
    · rw [hk] at h hr
      have hown := hI.node_own r 2 0 h
      rwa [hr] at hown
    · exact absurd hlt (Nat.lt_irrefl 2)
  rcases hI.up r ℓ k h with ⟨hℓ, -, -⟩ | ⟨hℓ, hup⟩
  · rw [hℓ] at h
    exact hroot k h
  · rcases hI.up r (ℓ + 1) (k / 512) hup with ⟨hℓ', -, -⟩ | ⟨hℓ', hup'⟩
    · rw [hℓ'] at hup
      exact hroot _ hup
    · have htop : ℓ + 1 + 1 = 2 := by omega
      rw [htop] at hup'
      exact hroot _ hup'

theorem Inv.node_root (hI : Inv K G m) (h : G.own r = .node r 2 0) : G.node r 2 0 = r :=
  hI.own_node r r 2 0 h

theorem Inv.node_up (hI : Inv K G m) (hℓ : ℓ < 2) (h : G.node r ℓ k ≠ 0) :
    G.node r (ℓ + 1) (k / 512) ≠ 0 := by
  rcases hI.up r ℓ k h with ⟨hℓ', -, -⟩ | ⟨-, hup⟩
  · omega
  · exact hup

theorem Inv.node_inj (hI : Inv K G m) {r' ℓ' k' : ℕ} (h : G.node r ℓ k ≠ 0)
    (he : G.node r ℓ k = G.node r' ℓ' k') : r' = r ∧ ℓ' = ℓ ∧ k' = k := by
  have hown := hI.node_own r ℓ k h
  rw [he, hI.node_own r' ℓ' k' (he ▸ h)] at hown
  cases hown
  exact ⟨rfl, rfl, rfl⟩

theorem Inv.node_eq_zero (hI : Inv K G m) (h : G.own r ≠ .node r 2 0) : G.node r ℓ k = 0 :=
  Classical.not_not.1 fun hne => h (hI.root_of_node hne)

/-- Only free pages and those of `S` change hands or contents, and only tables with a root in `S`
    change. -/
structure Frame (S : ℕ → Prop) (G : Ghost) (m : Memory) (G' : Ghost) (m' : Memory) : Prop where
  own : ∀ p, ¬ S p → G.own p ≠ .free → G'.own p = G.own p
  page : ∀ p, ¬ S p → G.own p ≠ .free → m'.page p = m.page p
  table : ∀ r, ¬ S r → G.own r = .node r 2 0 → G'.node r = G.node r ∧ G'.leaf r = G.leaf r

theorem Frame.refl (S : ℕ → Prop) (G : Ghost) (m : Memory) : Frame S G m G m :=
  ⟨fun _ _ _ => rfl, fun _ _ _ => rfl, fun _ _ _ => ⟨rfl, rfl⟩⟩

theorem Frame.trans {S T : ℕ → Prop} (h : Frame S G m G' m') (h' : Frame T G' m' G'' m'')
    (hT : ∀ p, T p → S p ∨ G.own p = .free) : Frame S G m G'' m'' := by
  have hnot : ∀ p, ¬ S p → G.own p ≠ .free → ¬ T p ∧ G'.own p ≠ .free := by
    intro p hS hfree
    constructor
    · intro hp
      rcases hT p hp with h | h
      · exact hS h
      · exact hfree h
    · rw [h.own p hS hfree]
      exact hfree
  constructor
  · intro p hS hfree
    rw [h'.own p (hnot p hS hfree).1 (hnot p hS hfree).2, h.own p hS hfree]
  · intro p hS hfree
    rw [h'.page p (hnot p hS hfree).1 (hnot p hS hfree).2, h.page p hS hfree]
  · intro r hS hroot
    have hfree : G.own r ≠ .free := by
      rw [hroot]
      exact nofun
    obtain ⟨hnode, hleaf⟩ := h.table r hS hroot
    obtain ⟨hnode', hleaf'⟩ := h'.table r (hnot r hS hfree).1 (by rw [h.own r hS hfree, hroot])
    exact ⟨hnode'.trans hnode, hleaf'.trans hleaf⟩

/-- The code returns, keeps the invariant, and changes only free pages and those of `S`. -/
def Spec {α : Type} (K : Image) (S : ℕ → Prop) (c : Code Memory α)
    (Q : α → Ghost → Memory → Prop) (G : Ghost) (m : Memory) : Prop :=
  Inv K G m → Returns c (fun a m' => ∃ G', Inv K G' m' ∧ Frame S G m G' m' ∧ Q a G' m') m

/-- The same for code that follows other code, which started from `G₀` and `m₀`. -/
def Run {α : Type} (K : Image) (S : ℕ → Prop) (G₀ : Ghost) (m₀ : Memory) (c : Code Memory α)
    (Q : α → Ghost → Memory → Prop) (G : Ghost) (m : Memory) : Prop :=
  Keeps (fun G m => Inv K G m ∧ Frame S G₀ m₀ G m) c Q G m

variable {α β : Type} {S T : ℕ → Prop} {G₀ : Ghost} {m₀ : Memory}
variable {Q : α → Ghost → Memory → Prop}
variable {c : Code Memory α} {R : α → Ghost → Memory → Prop}

theorem Run.spec (h : Run K S G m c Q G m) : Spec K S c Q G m := by
  intro hI
  apply (h ⟨hI, Frame.refl S G m⟩).mono
  rintro a m' ⟨G', ⟨hI', hF⟩, hQ⟩
  exact ⟨G', hI', hF, hQ⟩

theorem run_pure {a : α} (h : Inv K G m → Frame S G₀ m₀ G m → Q a G m) :
    Run K S G₀ m₀ (pure a) Q G m := keeps_pure fun hJ => h hJ.1 hJ.2

theorem Spec.call {c : Code Memory β} {f : β → Code Memory α} {R : β → Ghost → Memory → Prop}
    (h : Spec K T c R G m) (hT : ∀ p, T p → S p ∨ G₀.own p = .free)
    (rest : ∀ b G' m', Inv K G' m' → Frame S G₀ m₀ G' m' → Frame T G m G' m' → R b G' m' →
      Run K S G₀ m₀ (f b) Q G' m') : Run K S G₀ m₀ (c >>= f) Q G m := by
  intro hJ
  apply Returns.bind
  apply (h hJ.1).mono
  rintro b m' ⟨G', hI', hF, hR⟩
  have hF' : Frame S G₀ m₀ G' m' := hJ.2.trans hF hT
  exact rest b G' m' hI' hF' hF hR ⟨hI', hF'⟩

theorem Spec.last (h : Spec K T c R G m)
    (hT : ∀ p, T p → S p ∨ G₀.own p = .free)
    (rest : ∀ a G' m', Inv K G' m' → Frame S G₀ m₀ G' m' → Frame T G m G' m' → R a G' m' →
      Q a G' m') : Run K S G₀ m₀ c Q G m := by
  intro hJ
  apply (h hJ.1).mono
  rintro a m' ⟨G', hI', hF, hR⟩
  have hF' : Frame S G₀ m₀ G' m' := hJ.2.trans hF hT
  exact ⟨G', ⟨hI', hF'⟩, rest a G' m' hI' hF' hF hR⟩

theorem run_read {c : Code Memory β} {f : β → Code Memory α} {b : β}
    (h : Inv K G m → Frame S G₀ m₀ G m → c m = .done b m) (rest : Run K S G₀ m₀ (f b) Q G m) :
    Run K S G₀ m₀ (c >>= f) Q G m := Keeps.read (fun hJ => h hJ.1 hJ.2) rest

theorem run_same {c' : Code Memory α}
    (h : Inv K G m → Frame S G₀ m₀ G m → c m = c' m ∧ Run K S G₀ m₀ c' Q G m) :
    Run K S G₀ m₀ c Q G m := by
  intro hJ
  obtain ⟨hsame, hrun⟩ := h hJ.1 hJ.2
  unfold Returns
  rw [hsame]
  exact hrun hJ

theorem Run.ghost (hI : Inv K G m → Inv K G' m) (hF : Inv K G m → Frame T G m G' m)
    (hT : ∀ p, T p → S p ∨ G₀.own p = .free) (rest : Run K S G₀ m₀ c Q G' m) :
    Run K S G₀ m₀ c Q G m :=
  fun hJ => rest ⟨hI hJ.1, hJ.2.trans (hF hJ.1) hT⟩

theorem Run.mono (h : Run K S G₀ m₀ c R G m)
    (weaker : ∀ a G' m', Inv K G' m' → Frame S G₀ m₀ G' m' → R a G' m' → Q a G' m') :
    Run K S G₀ m₀ c Q G m :=
  Keeps.mono h fun a G' m' hJ => weaker a G' m' hJ.1 hJ.2

theorem Spec.mono (h : Spec K S c R G m)
    (weaker : ∀ a G' m', Inv K G' m' → Frame S G m G' m' → R a G' m' → Q a G' m') :
    Spec K S c Q G m := by
  intro hI
  apply (h hI).mono
  rintro a m' ⟨G', hI', hF, hR⟩
  exact ⟨G', hI', hF, weaker a G' m' hI' hF hR⟩

theorem Spec.after (h : Spec K S c R G m)
    (hT : ∀ p, T p → S p ∨ G.own p = .free)
    (step : ∀ a G' m', Inv K G' m' → Frame S G m G' m' → R a G' m' →
      ∃ G'', Inv K G'' m' ∧ Frame T G' m' G'' m' ∧ Q a G'' m') : Spec K S c Q G m := by
  intro hI
  apply (h hI).mono
  rintro a m' ⟨G', hI', hF, hR⟩
  obtain ⟨G'', hI'', hF', hQ⟩ := step a G' m' hI' hF hR
  exact ⟨G'', hI'', hF.trans hF' hT, hQ⟩

end Xv6.PageOwners
