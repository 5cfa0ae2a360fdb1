import Xv6.Scripts
import Xv6.VirtioSafety

set_option autoImplicit false

namespace Xv6.VirtioInvariant
open Resumption Interleaving VirtioCode
open Function (update update_eq_self update_idem update_of_ne update_self)

variable {T B : Type} [DecidableEq B] {p : Party T} {bufs : List B} {v : View B} {b : B}
variable {i i₀ i₁ i₂ : Fin NUM}

theorem inv_boot : Inv (boot T B).g fun _ => unlocked [] [] none := by
  refine ⟨⟨?_, nofun, ?_, fun _ => List.nodup_nil⟩, ⟨fun _ => List.nodup_nil, ?_, nofun⟩,
    ⟨nofun, nofun, nofun, ?_, fun _ => rfl, nofun, nofun⟩,
    ⟨.empty _ _, .empty _ _, rfl, List.prefix_rfl, fun _ => rfl, nofun, nofun, nofun, nofun⟩,
    ⟨List.nodup_nil, ?_⟩, ⟨fun _ _ => rfl, nofun, nofun, nofun⟩, fun _ _ => ⟨rfl, .inl rfl⟩, rfl⟩
  · exact fun _ => ⟨nofun, fun hne => absurd rfl hne⟩
  · exact fun _ _ => ⟨nofun, nofun⟩
  · exact fun _ => ⟨fun _ _ => List.not_mem_nil, fun _ => rfl⟩
  · exact fun _ _ => ⟨nofun, nofun⟩
  · exact fun _ => ⟨nofun, nofun⟩

def chain (s : Disk T B) (h : Fin NUM) : List (Fin NUM) :=
  let i₁ := Fin.ofNat NUM (s.desc h).next.toNat
  [h, i₁, Fin.ofNat NUM (s.desc i₁).next.toNat]

/-- A request is in flight while `info` names its buffer. -/
structure Protocol (s : Disk T B) : Prop where
  recorded : ∀ b, phase b s.trace ≠ .idle → ∃ h, (s.info h).b = some b
  linked : ∀ h b, (s.info h).b = some b → ∃ i₁ i₂,
    chain s h = [h, i₁, i₂] ∧ Linked s.desc ⟨b, h, i₁, i₂, .live⟩
  used : ∀ h b, (s.info h).b = some b → ∀ i ∈ chain s h, s.free i = false
  disjoint : ∀ h h' b b', (s.info h).b = some b → (s.info h').b = some b' → h ≠ h' →
    List.Disjoint (chain s h) (chain s h')
  free : s.vdiskLock = none → ∀ i, s.free i = true ↔ ∀ h b, (s.info h).b = some b → i ∉ chain s h
  /-- Every request is submitted, posted, completed and given up, once each and in this order. -/
  order : ∀ b, phase b s.trace ≠ .wrong
  /-- `b->disk` is set until the request is completed. -/
  disk : ∀ b, phase b s.trace = .submitted ∨ phase b s.trace = .posted → s.disk b = true
  /-- A request that is not completed is in one place. -/
  once : (queue (record s.trace) s).Nodup
  mem_queue : ∀ h, h ∈ queue (record s.trace) s ↔ ∃ b, (s.info h).b = some b ∧
    (phase b s.trace = .submitted ∨ phase b s.trace = .posted)
  /-- When the device is idle and `virtio_disk_intr` finds nothing, every request is completed. -/
  complete : s.vdiskLock = none → s.seen = s.idx → s.taken = [] → s.posting = none →
    slot s.usedIdx = slot s.id → ∀ b, phase b s.trace = .idle ∨ phase b s.trace = .cleared

section Guarantees

variable {s : Disk T B} {Λ : Party T → Ghost B} {r : Req B} {h : Fin NUM}

omit [DecidableEq B] in
theorem Linked.chain_eq (hk : Linked s.desc r) : chain s r.i₀ = [r.i₀, r.i₁, r.i₂] := by
  unfold chain
  have h1 : Fin.ofNat NUM (s.desc r.i₀).next.toNat = r.i₁ := by
    rw [hk.next₀]
    exact Fin.ofNat_val_eq_self r.i₁
  have h2 : Fin.ofNat NUM (s.desc r.i₁).next.toNat = r.i₂ := by
    rw [hk.next₁]
    exact Fin.ofNat_val_eq_self r.i₂
  dsimp only
  rw [h1, h2]

theorem Inv.req_of_info (hI : Inv s Λ) (hinfo : (s.info h).b = some b) :
    ∃ p r, (Λ p).req = some r ∧ r.i₀ = h ∧ r.b = b ∧ r.stage ≠ .armed ∧ chain s h = (Λ p).owns := by
  obtain ⟨p, r, hreq, rfl, rfl, hst⟩ := (hI.requests.info h b).1 hinfo
  refine ⟨p, r, hreq, rfl, rfl, hst, ?_⟩
  rw [(hI.requests.linked p r hreq).chain_eq]
  exact (hI.requests.chain p r hreq).symm

theorem Inv.info_of_req (hI : Inv s Λ) (hreq : (Λ p).req = some r)
    (hst : r.stage = .live ∨ r.stage = .ended) : (s.info r.i₀).b = some r.b := by
  refine (hI.requests.info r.i₀ r.b).2 ⟨p, r, hreq, rfl, rfl, fun harmed => ?_⟩
  rw [harmed] at hst
  exact absurd hst (by simp)

theorem Inv.phase_cases (hI : Inv s Λ) (b : B) : phase b s.trace = .idle ∨
    ∃ p r, (Λ p).req = some r ∧ r.b = b ∧ (r.stage = .live ∨ r.stage = .ended) ∧
      (phase b s.trace = .submitted ∧ s.disk b = true ∧
          r.i₀ ∈ inDevice (record s.trace) s ∨
        phase b s.trace = .posted ∧ s.disk b = true ∧ r.i₀ ∈ unread (record s.trace) ∨
        phase b s.trace = .cleared ∧ s.disk b = false) := by
  by_cases hex : ∃ p r, (Λ p).req = some r ∧ r.b = b ∧ (r.stage = .live ∨ r.stage = .ended)
  · obtain ⟨p, r, hreq, rfl, hst⟩ := hex
    refine .inr ⟨p, r, hreq, rfl, hst, ?_⟩
    cases hon : s.disk r.b with
    | false => exact .inr (.inr ⟨hI.phases.cleared p r hreq hst hon, rfl⟩)
    | true =>
      have hlive : r.stage = .live := by
        refine hst.resolve_right fun hover => ?_
        rw [hI.requests.ended p r hreq hover] at hon
        exact absurd hon nofun
      have hin := (hI.queue.mem r.i₀).2 ⟨p, r, hreq, rfl, hlive, hon⟩
      rcases List.mem_append.1 hin with hdev | hun
      · exact .inl ⟨hI.phases.submitted p r hreq hlive hdev, rfl, hdev⟩
      · exact .inr (.inl ⟨hI.phases.posted p r hreq hlive hun, rfl, hun⟩)
  · refine .inl (hI.phases.idle b fun p r hreq hb => ?_)
    cases hst : r.stage with
    | armed => exact .inl rfl
    | ready => exact .inr rfl
    | live => exact absurd ⟨p, r, hreq, hb, .inl hst⟩ hex
    | ended => exact absurd ⟨p, r, hreq, hb, .inr hst⟩ hex

theorem Inv.lock_free (hI : Inv s Λ) (hlock : s.vdiskLock = none) (p : Party T) : Calm (Λ p) := by
  apply hI.calm
  by_contra hne
  have hsome := (hI.locks.lock p).2 hne
  rw [hlock] at hsome
  exact absurd hsome nofun

theorem Inv.free_iff (hI : Inv s Λ) (hlock : s.vdiskLock = none) (i : Fin NUM) :
    s.free i = true ↔ ∀ h b, (s.info h).b = some b → i ∉ chain s h := by
  rw [hI.owners.free]
  constructor
  · intro hout h b hinfo
    obtain ⟨p, r, -, -, -, -, hchain⟩ := hI.req_of_info hinfo
    rw [hchain]
    exact hout p
  · intro hout p hin
    rcases (hI.lock_free hlock p).2 with hnil | ⟨r, hreq, hlive⟩
    · rw [hnil] at hin
      exact absurd hin List.not_mem_nil
    · apply hout r.i₀ r.b
      · exact hI.info_of_req hreq (.inl hlive)
      · rw [(hI.requests.linked p r hreq).chain_eq, ← hI.requests.chain p r hreq]
        exact hin

theorem unread_nil (hI : Inv s Λ) (hlock : s.vdiskLock = none)
    (heq : slot s.usedIdx = slot s.id) : unread (record s.trace) = [] := by
  have hsame : (record s.trace).clears = (record s.trace).advances := by
    apply hI.rings.same
    intro p h hread
    rw [(hI.lock_free hlock p).1] at hread
    exact absurd hread nofun
  have hlen : (unread (record s.trace)).length ≤ 6 := by
    have hle := hI.length_le
    unfold queue at hle
    rw [List.length_append] at hle
    omega
  have horder := hI.rings.order.length_le
  rw [hI.rings.slot_usedIdx, hI.rings.slot_id, ← hsame] at heq
  have hmod : (record s.trace).clears.length % 8 = (record s.trace).posts.length % 8 :=
    congrArg Fin.val heq
  apply List.eq_nil_of_length_eq_zero
  unfold unread at hlen ⊢
  rw [List.length_drop] at hlen ⊢
  omega

omit [DecidableEq B] in
theorem Rings.pending_nil {R : Record} {reading : Party T → Reading} {written : Bool}
    (hg : Rings R s reading written) (heq : s.seen = s.idx) : pending R = [] := by
  have hall := (hg.avail.empty_iff (by decide)).1 (congrArg UInt16.toNat heq)
  have hlen := congrArg List.length hall
  rw [List.length_map, List.length_map] at hlen
  unfold pending
  rw [hlen, List.drop_length]

theorem mem_queue_iff (hI : Inv s Λ) : h ∈ queue (record s.trace) s ↔ ∃ b, (s.info h).b = some b ∧
    (phase b s.trace = .submitted ∨ phase b s.trace = .posted) := by
  constructor
  · intro hin
    obtain ⟨p, r, hreq, rfl, hlive, -⟩ := (hI.queue.mem h).1 hin
    refine ⟨r.b, hI.info_of_req hreq (.inl hlive), ?_⟩
    rcases List.mem_append.1 hin with hdev | hun
    · exact .inl (hI.phases.submitted p r hreq hlive hdev)
    · exact .inr (hI.phases.posted p r hreq hlive hun)
  · rintro ⟨b, hb, hphase⟩
    obtain ⟨p, r, hreq, rfl, rfl, -⟩ := (hI.requests.info h b).1 hb
    rcases hI.phase_cases r.b with hidle | ⟨q, r', hreq', hbuf, -, hcase⟩
    · rw [hidle] at hphase
      exact absurd hphase (by simp)
    have hpq := hI.requests.eq_of_buf hI.locks hreq' hreq hbuf
    rw [hpq, hreq] at hreq'
    rw [← Option.some.inj hreq'] at hcase
    rcases hcase with ⟨-, -, hdev⟩ | ⟨-, -, hun⟩ | ⟨hcleared, -⟩
    · exact List.mem_append_left _ hdev
    · exact List.mem_append_right _ hun
    · rw [hcleared] at hphase
      exact absurd hphase (by simp)

theorem completed (hI : Inv s Λ) (hqueue : queue (record s.trace) s = []) (b : B) :
    phase b s.trace = .idle ∨ phase b s.trace = .cleared := by
  rcases hI.phase_cases b with hp | ⟨p, r, -, -, -, ⟨-, -, hin⟩ | ⟨-, -, hin⟩ | ⟨hp, -⟩⟩
  · exact .inl hp
  · have hqu := List.mem_append_left (unread (record s.trace)) hin
    change r.i₀ ∈ queue (record s.trace) s at hqu
    rw [hqueue] at hqu
    exact absurd hqu List.not_mem_nil
  · have hqu := List.mem_append_right (inDevice (record s.trace) s) hin
    change r.i₀ ∈ queue (record s.trace) s at hqu
    rw [hqueue] at hqu
    exact absurd hqu List.not_mem_nil
  · exact .inr hp

theorem protocol_of_inv (hI : Inv s Λ) : Protocol s := by
  refine ⟨?_, ?_, ?_, ?_, hI.free_iff, ?_, ?_, hI.queue.nodup, fun _ => mem_queue_iff hI, ?_⟩
  · intro b hne
    rcases hI.phase_cases b with hidle | ⟨p, r, hreq, rfl, hst, -⟩
    · exact absurd hidle hne
    · exact ⟨r.i₀, hI.info_of_req hreq hst⟩
  · intro h b hb
    obtain ⟨p, r, hreq, rfl, rfl, -⟩ := (hI.requests.info h b).1 hb
    have hk := hI.requests.linked p r hreq
    exact ⟨r.i₁, r.i₂, hk.chain_eq, hk.nodup, hk.flags₀, hk.next₀, hk.addr₁, hk.flags₁, hk.next₁,
      hk.addr₂, hk.flags₂⟩
  · intro h b hb i hi
    obtain ⟨p, r, -, -, -, -, hchain⟩ := hI.req_of_info hb
    rw [hchain] at hi
    rw [Bool.eq_false_iff]
    exact fun hfree => (hI.owners.free i).1 hfree p hi
  · intro h h' b b' hb hb' hne i hi hi'
    obtain ⟨p, r, hreq, hhead, -, -, hchain⟩ := hI.req_of_info hb
    obtain ⟨q, r', hreq', hhead', -, -, hchain'⟩ := hI.req_of_info hb'
    rw [hchain] at hi
    rw [hchain'] at hi'
    have hpq := hI.owners.own p q i hi hi'
    rw [hpq, hreq'] at hreq
    rw [← hhead, ← hhead', Option.some.inj hreq] at hne
    exact hne rfl
  · intro b hwrong
    rcases hI.phase_cases b with hidle | ⟨p, r, -, -, -, ⟨hp, -⟩ | ⟨hp, -⟩ | ⟨hp, -⟩⟩
    · exact absurd (hidle.symm.trans hwrong) nofun
    · exact absurd (hp.symm.trans hwrong) nofun
    · exact absurd (hp.symm.trans hwrong) nofun
    · exact absurd (hp.symm.trans hwrong) nofun
  · intro b hphase
    rcases hI.phase_cases b with hp | ⟨p, r, -, -, -, ⟨-, hon, -⟩ | ⟨-, hon, -⟩ | ⟨hp, -⟩⟩
    · rw [hp] at hphase
      exact absurd hphase (by simp)
    · exact hon
    · exact hon
    · rw [hp] at hphase
      exact absurd hphase (by simp)
  · intro hlock hseen htaken hposting hslot
    apply completed hI
    unfold queue inDevice
    rw [hI.rings.pending_nil hseen, htaken, hposting, unread_nil hI hlock hslot]
    rfl

end Guarantees

variable [DecidableEq T]

theorem ok_alloc3Desc :
    Ok p (alloc3Desc : Prog (Act B) _) (locked bufs v [] none) fun x ℓ' => ∃ v', match x with
      | none => ℓ' = locked bufs v' [] none
      | some (i₀, i₁, i₂) => ℓ' = locked bufs v' [i₀, i₁, i₂] none ∧ [i₀, i₁, i₂].Nodup := by
  unfold alloc3Desc
  apply Valid.seq (ok_allocDesc rfl rfl)
  rintro (_ | i₀) ℓ1 h1
  · exact ⟨v, h1⟩
  obtain ⟨rfl, -⟩ := h1
  apply Valid.seq (ok_allocDesc rfl rfl)
  rintro (_ | i₁) ℓ2 h2
  · subst h2
    apply Valid.seq (ok_freeDesc rfl rfl List.mem_cons_self)
    rintro _ ℓ3 h3
    rw [List.nil_append, List.erase_cons_head] at h3
    exact ⟨_, h3⟩
  obtain ⟨rfl, h10⟩ := h2
  apply Valid.seq (ok_allocDesc rfl rfl)
  rintro (_ | i₂) ℓ3 h3
  · subst h3
    apply Valid.seq (ok_freeDesc rfl rfl List.mem_cons_self)
    rintro _ ℓ4 h4
    rw [List.nil_append, List.singleton_append, List.erase_cons_head] at h4
    subst h4
    apply Valid.seq (ok_freeDesc rfl rfl List.mem_cons_self)
    rintro _ ℓ5 h5
    rw [List.erase_cons_head] at h5
    exact ⟨_, h5⟩
  · obtain ⟨rfl, h2⟩ := h3
    have h01 : i₁ ≠ i₀ := by simpa using h10
    refine ⟨v, rfl, ?_⟩
    simp only [List.nil_append, List.singleton_append, List.mem_cons, List.not_mem_nil, or_false,
      not_or] at h2
    simp [h01.symm, Ne.symm h2.1, Ne.symm h2.2]

theorem ok_setDesc_seq {α : Type} {owns : List (Fin NUM)} {f : VRingDesc B → VRingDesc B}
    {c : Prog (Act B) α} {Q : α → Ghost B → Prop} (hi : i ∈ owns)
    (h : Ok p c (locked bufs { v with desc := update v.desc i (f (v.desc i)) } owns none) Q) :
    Ok p (act (.setDesc i f) >>= fun _ => c) (locked bufs v owns none) Q := by
  refine (ok_setDesc rfl rfl hi).next fun _ => ?_
  exact h

omit [DecidableEq B] in
theorem linked_format {desc : Fin NUM → VRingDesc B} {a : Addr B} {l0 l1 l2 : UInt32}
    {fl n : UInt16} (hn : [i₀, i₁, i₂].Nodup) (hfl : fl = 0 ∨ fl = VRING_DESC_F_WRITE) :
    Linked (update (update (update desc
      i₀ ⟨a, l0, VRING_DESC_F_NEXT, UInt16.ofNat i₁.val⟩)
      i₁ ⟨.data b, l1, fl ||| VRING_DESC_F_NEXT, UInt16.ofNat i₂.val⟩)
      i₂ ⟨.status i₀, l2, VRING_DESC_F_WRITE, n⟩) ⟨b, i₀, i₁, i₂, .armed⟩ := by
  have h₀₁ : i₀ ≠ i₁ := by
    rintro rfl
    simp at hn
  have h02 : i₀ ≠ i₂ := by
    rintro rfl
    simp at hn
  have h12 : i₁ ≠ i₂ := by
    rintro rfl
    simp at hn
  refine ⟨hn, ?_, ?_, ?_, ?_, ?_, ?_, ?_⟩ <;> simp only
    [update_self, update_of_ne h₀₁, update_of_ne h02, update_of_ne h12]
  · decide
  · exact toNat_head16 i₁
  · rcases hfl with rfl | rfl <;> decide
  · exact toNat_head16 i₂
  · decide

theorem ok_format (write : Bool) (hn : [i₀, i₁, i₂].Nodup) :
    Ok p (format b write i₀ i₁ i₂) (locked bufs v [i₀, i₁, i₂] none) fun _ ℓ' =>
      ∃ v', ℓ' = locked bufs v' [i₀, i₁, i₂] none ∧ Linked v'.desc ⟨b, i₀, i₁, i₂, .armed⟩ := by
  have hm0 : i₀ ∈ [i₀, i₁, i₂] := List.mem_cons_self
  have hm1 : i₁ ∈ [i₀, i₁, i₂] := by simp
  have hm2 : i₂ ∈ [i₀, i₁, i₂] := by simp
  have h10 : i₁ ≠ i₀ := by
    rintro rfl
    simp at hn
  have h20 : i₂ ≠ i₀ := by
    rintro rfl
    simp at hn
  have h21 : i₂ ≠ i₁ := by
    rintro rfl
    simp at hn
  unfold format
  cases write <;>
  · iterate 4 apply ok_setDesc_seq hm0
    iterate 5 apply ok_setDesc_seq hm1
    refine (ok_setStatus i₀).next fun _ => ?_
    iterate 3 apply ok_setDesc_seq hm2
    apply Valid.mono (ok_setDesc rfl rfl hm2)
    rintro _ _ rfl
    refine ⟨_, rfl, ?_⟩
    simp only [update_idem, update_self, update_of_ne h10, update_of_ne h20, update_of_ne h21]
    exact linked_format hn (by simp)

theorem ok_submit (hb : b ∈ bufs) (hk : Linked v.desc ⟨b, i₀, i₁, i₂, .armed⟩) :
    Ok p (submit b i₀) (locked bufs v [i₀, i₁, i₂] none) fun _ ℓ' => ∃ v', v'.desc = v.desc ∧
      ℓ' = locked bufs v' [i₀, i₁, i₂] (some ⟨b, i₀, i₁, i₂, .live⟩) := by
  unfold submit
  refine (ok_setDisk (r := ⟨b, i₀, i₁, i₂, .armed⟩) rfl rfl hb rfl hk rfl).next fun _ => ?_
  refine (ok_setInfo rfl (r := ⟨b, i₀, i₁, i₂, .armed⟩) rfl rfl).next fun _ => ?_
  refine (ok_putAvail rfl).next fun _ => ?_
  apply Valid.mono (ok_bumpAvail (r := ⟨b, i₀, i₁, i₂, .ready⟩) rfl rfl rfl (update_self ..))
  rintro _ _ rfl
  exact ⟨⟨v.desc, update v.ring (slot v.idx) (UInt16.ofNat i₀.val), v.idx + 1⟩, rfl, rfl⟩

theorem ok_freeChain {n : ℕ} {r : Req B} (hk : Linked v.desc r) :
    Ok p (freeChain (n + 3) r.i₀.val) (locked bufs v [r.i₀, r.i₁, r.i₂] none) fun _ ℓ' =>
      ∃ v', ℓ' = locked bufs v' [] none := by
  have hn := hk.nodup
  have h10 : r.i₁ ≠ r.i₀ := by
    intro heq
    rw [heq] at hn
    simp at hn
  have h20 : r.i₂ ≠ r.i₀ := by
    intro heq
    rw [heq] at hn
    simp at hn
  have h21 : r.i₂ ≠ r.i₁ := by
    intro heq
    rw [heq] at hn
    simp at hn
  -- each round frees a descriptor and goes on to the next
  unfold freeChain
  apply Valid.seq (ok_freeDesc rfl rfl List.mem_cons_self)
  rintro _ _ h1
  rw [List.erase_cons_head] at h1
  subst h1
  apply Valid.seq (ok_getDesc rfl)
  rintro _ _ ⟨rfl, rfl⟩
  simp only [update_self, if_pos hk.flags₀, hk.next₀]
  unfold freeChain
  apply Valid.seq (ok_freeDesc rfl rfl List.mem_cons_self)
  rintro _ _ h2
  rw [List.erase_cons_head] at h2
  subst h2
  apply Valid.seq (ok_getDesc rfl)
  rintro _ _ ⟨rfl, rfl⟩
  simp only [update_self, update_of_ne h10, if_pos hk.flags₁, hk.next₁]
  unfold freeChain
  apply Valid.seq (ok_freeDesc rfl rfl List.mem_cons_self)
  rintro _ _ h3
  rw [List.erase_cons_head] at h3
  subst h3
  apply Valid.seq (ok_getDesc rfl)
  rintro _ _ ⟨rfl, rfl⟩
  simp only [update_self, update_of_ne h20, update_of_ne h21, hk.flags₂]
  exact ⟨_, rfl⟩

theorem ok_waitDisk {r : Req B} (hst : r.stage = .live) (hk : Linked v.desc r) :
    Ok p (waitDisk r.b r.i₀) (locked bufs v [r.i₀, r.i₁, r.i₂] (some r)) fun w ℓ' =>
      Rest bufs ℓ' w := by
  unfold waitDisk
  apply Valid.seq (ok_getDisk rfl rfl hst)
  rintro (_ | _) ℓ1 h1
  · simp only [Bool.false_eq_true, ↓reduceIte] at h1 ⊢
    subst h1
    refine (ok_clearInfo rfl (r := { r with stage := .ended }) rfl rfl).next fun _ => ?_
    apply Valid.seq (ok_freeChain (n := 6) hk)
    rintro _ _ ⟨v', rfl⟩
    refine (ok_release rfl ⟨rfl, .inl rfl⟩).next fun _ => ?_
    rfl
  · simp only [↓reduceIte] at h1 ⊢
    subst h1
    refine (ok_release rfl ⟨rfl, .inr ⟨r, rfl, hst⟩⟩).next fun _ => ?_
    exact ⟨r, hst, rfl, rfl, rfl⟩

theorem ok_virtioDiskRw (write : Bool) (hb : b ∈ bufs) :
    Ok p (virtioDiskRw b write) (unlocked bufs [] none) fun w ℓ' => Rest bufs ℓ' w := by
  unfold virtioDiskRw
  apply Valid.seq (ok_acquire rfl)
  rintro _ _ ⟨v, rfl, -⟩
  apply Valid.seq ok_alloc3Desc
  rintro (_ | ⟨i₀, i₁, i₂⟩) ℓ1 ⟨v1, h1⟩
  · subst h1
    refine (ok_release rfl ⟨rfl, .inl rfl⟩).next fun _ => ?_
    exact ⟨hb, rfl⟩
  · obtain ⟨rfl, hn⟩ := h1
    apply Valid.seq (ok_format (b := b) write hn)
    rintro _ _ ⟨v2, rfl, hk⟩
    apply Valid.seq (ok_submit hb hk)
    rintro _ _ ⟨v3, hdesc, rfl⟩
    have hk3 : Linked v3.desc ⟨b, i₀, i₁, i₂, .live⟩ := by
      rw [hdesc]
      exact { hk with }
    exact ok_waitDisk (r := ⟨b, i₀, i₁, i₂, .live⟩) rfl hk3

theorem ok_intrRound :
    Ok p (intrRound : Prog (Act B) _) (locked bufs v [] none) fun w ℓ' => Rest bufs ℓ' w := by
  unfold intrRound
  apply Valid.seq (ok_more rfl rfl)
  rintro (_ | _) ℓ1 h1
  · simp only [Bool.false_eq_true, ↓reduceIte] at h1 ⊢
    subst h1
    refine (ok_release rfl ⟨rfl, .inl rfl⟩).next fun _ => ?_
    rfl
  · simp only [↓reduceIte] at h1 ⊢
    subst h1
    apply Valid.seq (ok_elem rfl rfl)
    rintro _ _ ⟨h, rfl, rfl⟩
    apply Valid.seq (ok_getStatus h)
    rintro _ _ ⟨rfl, rfl⟩
    simp only [ne_eq, not_true_eq_false, ↓reduceIte]
    refine (ok_clearDisk rfl rfl).next fun _ => ?_
    refine (ok_bumpUsed rfl rfl).next fun _ => ?_
    exact ⟨v, rfl⟩

theorem ok_call {t : T} {l : Loc B} {c : Prog (Act B) (Loc B)} {ℓ : Ghost B} (hc : Calls l c)
    (hrest : Rest l.bufs ℓ l.work) : Ok (.cpu t) c ℓ ((outline T B).rest (.cpu t)) := by
  cases hc with
  | lock b =>
    obtain rfl := hrest
    refine (ok_acquiresleep b).next fun _ => ?_
    rfl
  | unlock b hb =>
    obtain rfl := hrest
    refine (ok_releasesleep hb rfl).next fun _ => ?_
    rfl
  | rw b write hb =>
    obtain rfl := hrest
    exact Valid.seq (ok_virtioDiskRw write hb) fun _ _ hw => hw
  | wakeAlloc b write =>
    obtain ⟨hb, rfl⟩ := hrest
    exact Valid.seq (ok_virtioDiskRw write hb) fun _ _ hw => hw
  | wakeWait b i₀ =>
    obtain ⟨r, hst, rfl, rfl, rfl⟩ := hrest
    apply Valid.seq (ok_acquire rfl)
    rintro _ _ ⟨v, rfl, hk⟩
    exact Valid.seq (ok_waitDisk hst (hk r rfl)) fun _ _ hw => hw
  | intr =>
    obtain rfl := hrest
    apply Valid.seq (ok_acquire rfl)
    rintro _ _ ⟨v, rfl, -⟩
    exact ⟨v, rfl⟩
  | round =>
    obtain ⟨v, rfl⟩ := hrest
    exact Valid.seq ok_intrRound fun _ _ hw => hw

theorem ok_device {l : Loc B} {c : Prog (Act B) (Loc B)} (hc : DeviceSteps l c) :
    Ok (.device : Party T) c (unlocked l.bufs [] none) ((outline T B).rest .device) := by
  cases hc with
  | take =>
    apply Valid.seq ok_take
    rintro _ _ rfl
    rfl
  | post h =>
    refine (ok_pick rfl rfl).next fun _ => ?_
    refine (ok_writeStatus rfl).next fun _ => ?_
    refine (ok_putUsed rfl).next fun _ => ?_
    refine (ok_bumpId rfl rfl).next fun _ => ?_
    rfl

theorem holds_of_reach {s : Sys (Party T) (Act B) (Loc B) (Disk T B)}
    (h : Reach (diskSystem T B) always (boot T B) s) :
    ∃ Λ, Holds (diskSystem T B) always (outline T B) s Λ := by
  refine Holds.reach (Λ := fun _ => unlocked [] [] none) ?_ ?_ ?_ h
  · rintro (_ | t) l c ℓ hstart hrest
    · obtain rfl := hrest
      exact ok_device hstart
    · exact ok_call hstart hrest
  · exact fun _ _ _ _ hint => hint.elim
  · exact ⟨inv_boot, fun | .device => rfl | .cpu _ => rfl⟩

section Alone

variable {p : Party T} {g g' : Disk T B} {α : Type} {Q : α → Disk T B → Prop}

theorem total_allocDesc_none {k : Option (Fin NUM) → Prog (Act B) α} (h : firstFree g.free = none)
    (tail : Total (diskSystem T B).toMachine p (k none) Q g) :
    Total (diskSystem T B).toMachine p (act .allocDesc >>= k) Q g := by
  refine total_act (b := none) (h := g) ?_ tail
  change exec p .allocDesc g = _
  simp only [exec, h]

theorem total_allocDesc_some {k : Option (Fin NUM) → Prog (Act B) α}
    (h : firstFree g.free = some i)
    (tail : Total (diskSystem T B).toMachine p (k (some i)) Q
      { g with free := update g.free i false }) :
    Total (diskSystem T B).toMachine p (act .allocDesc >>= k) Q g := by
  refine total_act (b := some i) (h := { g with free := update g.free i false }) ?_ tail
  change exec p .allocDesc g = _
  simp only [exec, h]

theorem total_freeDesc {k : Unit → Prog (Act B) α} (h : g.free i = false)
    (tail : Total (diskSystem T B).toMachine p (k ()) Q { g with
      desc := update g.desc i { g.desc i with addr := .null }
      free := update g.free i true }) :
    Total (diskSystem T B).toMachine p (act (.freeDesc i.val) >>= k) Q g := by
  have hused : ¬ g.free i = true := by
    rw [h]
    exact nofun
  exact total_act ((dif_pos i.isLt).trans (if_neg hused)) tail

theorem free_unchanged {β : Type} {a : Act B β} {x : β} (hfrees : ¬ Frees a)
    (h : exec p a g = .done x g') : g'.free = g.free := by
  cases a with
  | allocDesc => exact absurd trivial hfrees
  | freeDesc i => exact absurd trivial hfrees
  | _ =>
    simp only [exec, within] at h
    grind

theorem total_alloc3Desc : Total (diskSystem T B).toMachine p alloc3Desc
    (fun x g' => x = none → g'.free = g.free) g := by
  unfold alloc3Desc
  cases h0 : firstFree g.free with
  | none => exact total_allocDesc_none h0 fun _ => rfl
  | some i₀ =>
    have hi0 := free_of_firstFree h0
    refine total_allocDesc_some h0 ?_
    cases h1 : firstFree (update g.free i₀ false) with
    | none =>
      refine total_allocDesc_none h1 (total_freeDesc (update_self ..) fun _ => ?_)
      change update (update g.free i₀ false) i₀ true = g.free
      rw [update_idem, ← hi0, update_eq_self]
    | some i₁ =>
      have hi1 := free_of_firstFree h1
      have hne : i₁ ≠ i₀ := by
        rintro rfl
        rw [update_self] at hi1
        exact absurd hi1 nofun
      rw [update_of_ne hne] at hi1
      refine total_allocDesc_some h1 ?_
      cases h2 : firstFree (update (update g.free i₀ false) i₁ false) with
      | some i₂ => exact total_allocDesc_some h2 nofun
      | none =>
        refine total_allocDesc_none h2 (total_freeDesc ?_ (total_freeDesc ?_ fun _ => ?_))
        · change update (update g.free i₀ false) i₁ false i₀ = false
          rw [update_of_ne hne.symm, update_self]
        · grind
        · grind

theorem alloc3Desc_none (h : run (diskSystem T B).toMachine p alloc3Desc g =
    .done none g') : g'.free = g.free := by
  obtain ⟨x, g'', hrun, hfree⟩ := total_iff_run.1 (total_alloc3Desc (p := p) (g := g))
  obtain ⟨rfl, rfl⟩ := Outcome.done.inj (hrun.symm.trans h)
  exact hfree rfl

end Alone

theorem virtio_disk_safe {s : Sys (Party T) (Act B) (Loc B) (Disk T B)}
    (h : Reach (diskSystem T B) always (boot T B) s) : Protocol s.g ∧
    (∀ p β (a : Act B β) k, s.thr p = .act a k →
      (∀ msg, exec p a s.g ≠ .panic msg) ∧ exec p a s.g ≠ .undefined ∧
      ∀ x g', exec p a s.g = .done x g' → s.g.vdiskLock ≠ some p → g'.free = s.g.free) ∧
    ∀ p g g', run (diskSystem T B).toMachine p (alloc3Desc (B := B)) (g : Disk T B) =
    .done none g' →
      g'.free = g.free := by
  obtain ⟨Λ, hholds⟩ := holds_of_reach h
  refine ⟨protocol_of_inv hholds.1, ?_, fun _ _ _ => alloc3Desc_none⟩
  intro p β a k hnext
  obtain ⟨hpanic, hundef, hfrees⟩ := hholds.safe hnext
  refine ⟨hpanic, hundef, fun x g' hdone hlock => ?_⟩
  exact free_unchanged (fun hmoves => hlock (hfrees hmoves)) hdone

/-- A process writes a buffer, the device posts its request and another process completes it. -/
def oneRequest : List (Move (diskSystem ℕ ℕ)) :=
  [.start (.cpu 0) ⟨[], .idle⟩ _ (.lock 5), .acts (.cpu 0) 1,
    .start (.cpu 0) ⟨[5], .idle⟩ _ (.rw 5 true (by decide)), .acts (.cpu 0) 24,
    .start .device ⟨[], .idle⟩ _ .take, .acts .device 1,
    .start .device ⟨[], .idle⟩ _ (.post 0), .acts .device 4,
    .start (.cpu 1) ⟨[], .idle⟩ _ .intr, .acts (.cpu 1) 1,
    .start (.cpu 1) ⟨[], .intr⟩ _ .round, .acts (.cpu 1) 5,
    .start (.cpu 1) ⟨[], .intr⟩ _ .round, .acts (.cpu 1) 2,
    .start (.cpu 0) ⟨[5], .waiting 5 0⟩ _ (.wakeWait 5 0), .acts (.cpu 0) 10]

theorem virtio_disk_safe_one :
    ∃ s, Reach (diskSystem ℕ ℕ) always (boot ℕ ℕ) s ∧
      s.g.trace = [.submit 5 0, .take 0, .post 5 0, .clear 5 0, .advance 0, .retire 5 0] ∧
      Protocol s.g := by
  obtain ⟨s, hreach, htest⟩ := exists_of_freely oneRequest (boot ℕ ℕ) (fun s => decide
    (s.g.trace = [.submit 5 0, .take 0, .post 5 0, .clear 5 0, .advance 0, .retire 5 0]))
    (by decide +kernel)
  exact ⟨s, hreach, of_decide_eq_true htest, (virtio_disk_safe hreach).1⟩

end Xv6.VirtioInvariant
