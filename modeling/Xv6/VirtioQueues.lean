import Mathlib.Data.Fintype.Card
import Xv6.VirtioInvariant

set_option autoImplicit false

namespace Xv6.VirtioInvariant
open Interleaving VirtioCode RingBuffer
open Function (update update_of_ne update_self)

variable {T B : Type} {s s' : Disk T B} {p q : Party T}
variable {held : Party T → Option (View B)} {bufs : Party T → List B}
variable {owns : Party T → List (Fin NUM)} {req : Party T → Option (Req B)}
variable {R R' : Record} {reading : Party T → Reading} {written : Bool} {r r' : Req B} {b : B}
    {i h : Fin NUM}

theorem Queue.keep (hq : Queue R s req) (hperm : (queue R' s').Perm (queue R s))
    (hdisk : s'.disk = s.disk) :
    Queue R' s' req := by
  refine ⟨hperm.nodup_iff.2 hq.nodup, fun h => ?_⟩
  rw [hperm.mem_iff, hq.mem h, hdisk]

theorem Queue.restage [DecidableEq T] (hq : Queue R s req) {x : Option (Req B)}
    (hold : ∀ r, req p = some r → r.stage = .live → s.disk r.b = false)
    (hnew : ∀ r, x = some r → r.stage ≠ .live) (hqueue : queue R' s' = queue R s)
    (hdisk : s'.disk = s.disk) : Queue R' s' (update req p x) := by
  refine ⟨by rw [hqueue]; exact hq.nodup, fun h => ?_⟩
  rw [hqueue, hq.mem h, hdisk, exists_req_congr]
  constructor
  · rintro ⟨r, hx, -, hst, -⟩
    exact absurd hst (hnew r hx)
  · rintro ⟨r, hp, -, hst, hd⟩
    rw [hold r hp hst] at hd
    exact absurd hd nofun

theorem Queue.arm [DecidableEq T] [DecidableEq B] (hq : Queue R s req)
    (hr : Requests s bufs owns req) (hl : Locks s held bufs)
    (hp : req p = none) (hb : r.b ∈ bufs p) (hst : r.stage = .armed) :
    Queue R { s with disk := update s.disk r.b true }
    (update req p (some r)) := by
  refine ⟨hq.nodup, fun h => ?_⟩
  change h ∈ queue R s ↔ _
  rw [hq.mem h, exists_req_update]
  dsimp only
  have hother : ∀ q r', req q = some r' → q ≠ p ∧ r'.b ≠ r.b :=
    fun q r' hreq => hr.other_buf hl hp hb hreq
  constructor
  · grind
  · grind

/-- The head of a request enters the queue when the device may see it. -/
theorem Queue.submit [DecidableEq T] (hq : Queue R s req) (hr : Requests s bufs owns req)
    (ho : Owners s owns)
    (hp : req p = some r) (hst : r.stage = .ready) (hqueue : (queue R' s').Perm (r.i₀ :: queue R s))
    (hdisk : s'.disk = s.disk) :
    Queue R' s' (update req p (some { r with stage := .live })) := by
  have hnew : r.i₀ ∉ queue R s := by
    intro hin
    obtain ⟨q, r', hreq, hhead, hlive, -⟩ := (hq.mem r.i₀).1 hin
    obtain ⟨-, rfl⟩ := hr.eq_of_head ho hreq hp hhead
    rw [hst] at hlive
    exact absurd hlive nofun
  have hon : s.disk r.b = true := hr.set p r hp (.inr hst)
  refine ⟨hqueue.nodup_iff.2 (List.nodup_cons.2 ⟨hnew, hq.nodup⟩), fun h => ?_⟩
  rw [hqueue.mem_iff, List.mem_cons, hq.mem h, hdisk, exists_req_update]
  constructor
  · rintro (rfl | ⟨q, r', hreq, hhead, hlive, hd⟩)
    · exact .inl ⟨_, rfl, rfl, rfl, hon⟩
    · refine .inr ⟨q, r', ?_, hreq, hhead, hlive, hd⟩
      rintro rfl
      rw [hp] at hreq
      rw [← Option.some.inj hreq, hst] at hlive
      exact absurd hlive nofun
  · rintro (⟨r', heq, hhead, -⟩ | ⟨q, r', hqp, hreq, hhead, hlive, hd⟩)
    · rw [← Option.some.inj heq] at hhead
      exact .inl hhead.symm
    · exact .inr ⟨q, r', hreq, hhead, hlive, hd⟩

theorem Queue.clear [DecidableEq B] (hq : Queue R s req) (hr : Requests s bufs owns req)
    (hl : Locks s held bufs)
    (ho : Owners s owns) (hp : req p = some r) (hqueue : (queue R s).Perm (r.i₀ :: queue R' s'))
    (hdisk : s'.disk = update s.disk r.b false) : Queue R' s' req := by
  have hnodup := hqueue.nodup_iff.1 hq.nodup
  refine ⟨(List.nodup_cons.1 hnodup).2, fun h => ?_⟩
  have hsplit : h ∈ queue R' s' ↔ h ∈ queue R s ∧ h ≠ r.i₀ := by
    rw [hqueue.mem_iff, List.mem_cons]
    constructor
    · intro hin
      refine ⟨.inr hin, ?_⟩
      rintro rfl
      exact (List.nodup_cons.1 hnodup).1 hin
    · rintro ⟨hor, hne⟩
      exact hor.resolve_left hne
  rw [hsplit, hq.mem h, hdisk]
  constructor
  · rintro ⟨⟨q, r', hreq, hhead, hlive, hd⟩, hne⟩
    refine ⟨q, r', hreq, hhead, hlive, ?_⟩
    rw [update_of_ne, hd]
    intro hb
    have hqp := hr.eq_of_buf hl hreq hp hb
    rw [hqp, hp] at hreq
    exact hne (by rw [← hhead, ← Option.some.inj hreq])
  · rintro ⟨q, r', hreq, hhead, hlive, hd⟩
    have hb : r'.b ≠ r.b := by
      intro hb
      rw [hb, update_self] at hd
      exact absurd hd nofun
    rw [update_of_ne hb] at hd
    refine ⟨⟨q, r', hreq, hhead, hlive, hd⟩, ?_⟩
    rintro rfl
    obtain ⟨-, rfl⟩ := hr.eq_of_head ho hreq hp hhead
    exact hb rfl

section Snoc

variable [DecidableEq B] (l : List (Event B))

theorem phase_take (b : B) (h : Fin NUM) : phase b (l ++ [.take h]) = phase b l := phase_snoc ..

theorem phase_advance (b : B) (h : Fin NUM) : phase b (l ++ [.advance h]) = phase b l :=
  phase_snoc ..

end Snoc

theorem Phases.keep [DecidableEq B] (hf : Phases R s req)
    (hphase : ∀ b, phase b s'.trace = phase b s.trace)
    (hdev : ∀ h, h ∈ inDevice R' s' ↔ h ∈ inDevice R s) (hun : ∀ h, h ∈ unread R' ↔ h ∈ unread R)
    (hdisk : s'.disk = s.disk) : Phases R' s' req := by
  refine ⟨?_, ?_, ?_, ?_⟩
  · intro b hall
    rw [hphase]
    exact hf.idle b hall
  · intro p r hp hst hin
    rw [hphase]
    exact hf.submitted p r hp hst ((hdev _).1 hin)
  · intro p r hp hst hin
    rw [hphase]
    exact hf.posted p r hp hst ((hun _).1 hin)
  · grind [hf.cleared]

theorem Phases.arm [DecidableEq T] [DecidableEq B] (hf : Phases R s req)
    (hr : Requests s bufs owns req) (hl : Locks s held bufs)
    (hp : req p = none) (hb : r.b ∈ bufs p) (hst : r.stage = .armed) :
    Phases R { s with disk := update s.disk r.b true }
    (update req p (some r)) := by
  have hother : ∀ q r', req q = some r' → q ≠ p ∧ r'.b ≠ r.b :=
    fun q r' hreq => hr.other_buf hl hp hb hreq
  have hcase : ∀ {q r'}, update req p (some r) q = some r' → r'.stage ≠ .armed →
      req q = some r' := by
    intro q r' hq hne
    grind
  refine ⟨?_, ?_, ?_, ?_⟩
  · grind [hf.idle]
  · intro q r' hq hlive hin
    exact hf.submitted q r' (hcase hq (hlive.trans_ne nofun)) hlive hin
  · intro q r' hq hlive hin
    exact hf.posted q r' (hcase hq (hlive.trans_ne nofun)) hlive hin
  · grind [hf.cleared]

theorem Phases.restage [DecidableEq T] [DecidableEq B] (hf : Phases R s req)
    (hp : req p = some r) {st : Stage}
    (hst : (r.stage = .armed ∧ st = .ready) ∨ (r.stage = .live ∧ st = .ended ∧ s.disk r.b = false))
    (htrace : s'.trace = s.trace) (hdev : inDevice R' s' = inDevice R s)
    (hun : unread R' = unread R)
    (hdisk : s'.disk = s.disk) :
    Phases R' s' (update req p (some { r with stage := st })) := by
  have hcase : ∀ {q r'}, update req p (some { r with stage := st }) q = some r' →
      q = p ∧ r' = { r with stage := st } ∨ q ≠ p ∧ req q = some r' := by
    intro q r' hq
    grind
  have hnot : st ≠ .live := by
    rcases hst with ⟨-, rfl⟩ | ⟨-, rfl, -⟩ <;> exact nofun
  refine ⟨?_, ?_, ?_, ?_⟩
  · grind [hf.idle]
  · grind [hf.submitted]
  · grind [hf.posted]
  · grind [hf.cleared]

theorem Phases.event [DecidableEq T] [DecidableEq B] (hf : Phases R s req)
    (hr : Requests s bufs owns req) (hl : Locks s held bufs)
    (ho : Owners s owns) (hp : req p = some r) {x : Option (Req B)}
    (hx : ∀ r', x = some r' → r'.b = r.b)
    (hphase : ∀ b, b ≠ r.b → phase b s'.trace = phase b s.trace)
    (hdev : ∀ h, h ≠ r.i₀ → (h ∈ inDevice R' s' ↔ h ∈ inDevice R s))
    (hun : ∀ h, h ≠ r.i₀ → (h ∈ unread R' ↔ h ∈ unread R))
    (hdisk : ∀ b, b ≠ r.b → s'.disk b = s.disk b)
    (hidle : (∀ r', x = some r' → r'.stage = .armed ∨ r'.stage = .ready) →
      phase r.b s'.trace = .idle)
    (hsub : ∀ r', x = some r' → r'.stage = .live → r'.i₀ ∈ inDevice R' s' →
      phase r.b s'.trace = .submitted)
    (hpost : ∀ r', x = some r' → r'.stage = .live → r'.i₀ ∈ unread R' →
      phase r.b s'.trace = .posted)
    (hclear : ∀ r', x = some r' → r'.stage = .live ∨ r'.stage = .ended → s'.disk r.b = false →
      phase r.b s'.trace = .cleared) : Phases R' s' (update req p x) := by
  have hcase : ∀ {q r'}, update req p x q = some r' →
      x = some r' ∨ req q = some r' ∧ r'.b ≠ r.b ∧ r'.i₀ ≠ r.i₀ := by
    intro q r' hq
    by_cases hqp : q = p
    · rw [hqp, update_self] at hq
      exact .inl hq
    · rw [update_of_ne hqp] at hq
      exact .inr ⟨hq, fun hb => hqp (hr.eq_of_buf hl hq hp hb),
        fun hh => hqp (hr.eq_of_head ho hq hp hh).1⟩
  refine ⟨?_, ?_, ?_, ?_⟩
  · intro b hall
    grind [hf.idle]
  · grind [hf.submitted]
  · grind [hf.posted]
  · grind [hf.cleared]

theorem Queue.length_le (hq : Queue R s req) (hr : Requests s bufs owns req) (ho : Owners s owns) :
    (queue R s).length ≤ 6 := by
  cases hcons : queue R s with
  | nil => exact Nat.zero_le _
  | cons h tail =>
    obtain ⟨p, r, hp, -⟩ := (hq.mem h).1 (by rw [hcons]; exact List.mem_cons_self)
    have hmem := hr.mem_owns hp
    have hnodup := (hr.linked p r hp).nodup
    have hnot : ∀ j, j ∈ owns p → j ≠ r.i₀ → j ∉ queue R s := by
      intro j hj hne hin
      obtain ⟨q, r', hq', hhead, -⟩ := (hq.mem j).1 hin
      have hj' := (hr.mem_owns hq').1
      rw [hhead] at hj'
      have hpq := ho.own p q j hj hj'
      rw [← hpq, hp] at hq'
      exact hne (by rw [← hhead, Option.some.inj hq'])
    simp only [List.nodup_cons, List.mem_cons, List.not_mem_nil, or_false, not_or] at hnodup
    have hall : (r.i₁ :: r.i₂ :: queue R s).Nodup := by
      refine List.nodup_cons.2 ⟨?_, List.nodup_cons.2 ⟨?_, hq.nodup⟩⟩
      · rw [List.mem_cons, not_or]
        exact ⟨hnodup.2.1, hnot r.i₁ hmem.2.1 fun heq => hnodup.1.1 heq.symm⟩
      · exact hnot r.i₂ hmem.2.2 fun heq => hnodup.1.2 heq.symm
    have hcard := List.Nodup.length_le_card hall
    rw [List.length_cons, List.length_cons, Fintype.card_fin, hcons] at hcard
    have hnum : NUM = 8 := rfl
    omega

theorem num_dvd : NUM ∣ 2 ^ 16 := by decide

theorem toNat_head16 (i : Fin NUM) : (UInt16.ofNat i.val).toNat = i.val := by
  have hlt : i.val < UInt16.size := i.isLt.trans (by decide)
  exact UInt16.toNat_ofNat_of_lt' hlt

theorem toNat_head32 (i : Fin NUM) : (UInt32.ofNat i.val).toNat = i.val := by
  have hlt : i.val < UInt32.size := i.isLt.trans (by decide)
  exact UInt32.toNat_ofNat_of_lt' hlt

section

variable (hg : Rings R s reading written)
include hg

theorem Rings.avail_le : R.takes.length ≤ R.submits.length := by
  have hle := hg.avail.length_le
  rwa [List.length_map, List.length_map] at hle

/-- The driver does not overwrite an entry that the device has yet to take. -/
theorem Rings.avail_room (hlen : (queue R s).length ≤ 6) :
    (R.submits.map Fin.val).length < (R.takes.map Fin.val).length + NUM := by
  have hnum : NUM = 8 := rfl
  have hle := hg.avail_le
  unfold queue inDevice pending at hlen
  simp only [List.length_append, List.length_drop] at hlen
  rw [List.length_map, List.length_map]
  omega

theorem Rings.cleared_le :
    R.clears.length ≤ R.advances.length + 1 := by
  by_cases hsome : ∃ p h, reading p = .cleared h
  · obtain ⟨p, h, hp⟩ := hsome
    rw [hg.cleared p h hp, List.length_append, List.length_singleton]
  · rw [hg.same fun p h hp => hsome ⟨p, h, hp⟩]
    exact Nat.le_succ _

theorem Rings.used_room (hlen : (queue R s).length ≤ 6) :
    (R.posts.map Fin.val).length < (R.advances.map Fin.val).length + NUM := by
  have hnum : NUM = 8 := rfl
  have hle := hg.cleared_le
  unfold queue unread at hlen
  simp only [List.length_append, List.length_drop] at hlen
  rw [List.length_map, List.length_map]
  omega

theorem Rings.put_avail (hlen : (queue R s).length ≤ 6) :
    Rings R { s with ring := update s.ring (slot s.idx) (UInt16.ofNat i.val) } reading
      written := by
  refine ⟨?_, hg.used, hg.usedIdx, hg.order, hg.same, hg.cleared, hg.found, hg.read, hg.written⟩
  have hring := hg.avail.scribble num_dvd (hg.avail_room hlen) (UInt16.ofNat i.val).toNat
  dsimp only
  rw [Function.comp_update]
  exact hring

theorem Rings.bump_avail (hlen : (queue R s).length ≤ 6)
    (hput : s.ring (slot s.idx) = UInt16.ofNat i.val) :
    Rings (R.after (.submit b i)) { s with idx := s.idx + 1, trace := s.trace ++ [.submit b i] }
      reading written := by
  refine ⟨?_, hg.used, hg.usedIdx, hg.order, hg.same, hg.cleared, hg.found, hg.read, hg.written⟩
  have hval : (UInt16.toNat ∘ s.ring) (Fin.ofNat NUM s.idx.toNat) = i.val := by
    change (s.ring (slot s.idx)).toNat = _
    rw [hput, toNat_head16]
  have hring := hg.avail.publish num_dvd (hg.avail_room hlen) hval
  change Ring _ _ _ (s.idx + 1).toNat ((R.submits ++ [i]).map Fin.val) _
  rw [List.map_append, UInt16.toNat_add]
  exact hring

/-- The device takes the oldest head that it has not taken yet. -/
theorem Rings.next (hne : s.seen ≠ s.idx) :
    ∃ h, (s.ring (slot s.seen)).toNat = h.val ∧ pending R = h :: R.submits.drop
    (R.takes.length + 1) ∧
      Rings (R.after (.take h : Event B))
        { s with seen := s.seen + 1, taken := s.taken ++ [h], trace := s.trace ++ [.take h] }
        reading written := by
  have hdiff : R.takes.map Fin.val ≠ R.submits.map Fin.val := by
    intro heq
    have hempty := (hg.avail.empty_iff (by decide)).2 heq
    exact hne (UInt16.toNat_inj.1 hempty)
  have hlt : R.takes.length < R.submits.length := by
    apply Nat.lt_of_le_of_ne hg.avail_le
    intro heq
    exact hdiff (hg.avail.order.eq_of_length (by rw [List.length_map, List.length_map, heq]))
  have hread := hg.avail.read
  have hwindow := hg.avail.data R.takes.length (by rw [List.length_map]; exact hlt)
    (by rw [List.length_map])
  rw [List.getElem_map] at hwindow
  have hslot : slot s.seen = Fin.ofNat NUM R.takes.length := by
    unfold slot
    rw [hread, List.length_map, place_mod num_dvd]
  have hval : (s.ring (slot s.seen)).toNat = R.submits[R.takes.length].val := by
    rw [hslot]
    exact hwindow
  refine ⟨R.submits[R.takes.length], hval, List.drop_eq_getElem_cons hlt, ?_⟩
  refine ⟨?_, hg.used, hg.usedIdx, hg.order, hg.same, hg.cleared, hg.found, hg.read, hg.written⟩
  have hpop := hg.avail.pop num_dvd hdiff
  change Ring _ _ (s.seen + 1).toNat _ _ ((R.takes ++ [R.submits[R.takes.length]]).map Fin.val)
  rw [List.map_append, UInt16.toNat_add, List.map_singleton, ← hval]
  exact hpop

theorem Rings.put_used (hlen : (queue R s).length ≤ 6)
    (hpost : s.posting = some h) :
    Rings R { s with elems := update s.elems (slot s.id) (UInt32.ofNat h.val) } reading
      true := by
  refine ⟨hg.avail, ?_, hg.usedIdx, hg.order, hg.same, hg.cleared, hg.found, hg.read, ?_⟩
  · have hring := hg.used.scribble num_dvd (hg.used_room hlen) (UInt32.ofNat h.val).toNat
    dsimp only
    rw [Function.comp_update]
    exact hring
  · intro _ h' hpost'
    dsimp only at hpost' ⊢
    rw [hpost] at hpost'
    rw [update_self, ← Option.some.inj hpost', toNat_head32]

theorem Rings.unread_post :
    unread (R.after (.post b h)) = unread R ++ [h] := by
  change (R.posts ++ [h]).drop R.clears.length = _
  rw [List.drop_append_of_le_length hg.order.length_le]
  rfl

omit hg in
theorem Rings.bump_id (hg : Rings R s reading true) (hlen : (queue R s).length ≤ 6)
    (hpost : s.posting = some h) :
    Rings (R.after (.post b h))
      { s with id := s.id + 1, posting := none, trace := s.trace ++
      [.post b h] } reading false := by
  refine ⟨hg.avail, ?_, hg.usedIdx, ?_, hg.same, hg.cleared, ?_, ?_, nofun⟩
  · have hval : (UInt32.toNat ∘ s.elems) (Fin.ofNat NUM s.id.toNat) = h.val :=
      hg.written rfl h hpost
    have hring := hg.used.publish num_dvd (hg.used_room hlen) hval
    change Ring _ _ _ (s.id + 1).toNat ((R.posts ++ [h]).map Fin.val) _
    rw [List.map_append, UInt16.toNat_add]
    exact hring
  · exact hg.order.trans (List.prefix_append R.posts [h])
  · intro p _
    rw [hg.unread_post]
    simp
  · intro p h' hp
    rw [hg.unread_post, List.head?_append, hg.read p h' hp]
    rfl

section Reading

variable (hother : ∀ q, q ≠ p → reading q = .nothing)

include hother

theorem Rings.reread [DecidableEq T] {x : Reading}
    (hsame : (∀ h, x ≠ .cleared h) → R.clears = R.advances)
    (hcleared : ∀ h, x = .cleared h → R.clears = R.advances ++ [h])
    (hfound : x = .found → unread R ≠ []) (hread : ∀ h, x = .read h → (unread R).head? = some h) :
    Rings R s (update reading p x) written := by
  have hcase : ∀ q, update reading p x q = .nothing ∨ update reading p x q = x := by
    intro q
    grind
  refine ⟨hg.avail, hg.used, hg.usedIdx, hg.order, ?_, ?_, ?_, ?_, hg.written⟩
  · intro hall
    refine hsame fun h hx => hall p h ?_
    rw [update_self, hx]
  · grind
  · grind
  · grind

theorem Rings.same_of (hp : ∀ h, reading p ≠ .cleared h) :
    R.clears = R.advances := by
  apply hg.same
  intro q h
  by_cases hqp : q = p
  · rw [hqp]
    exact hp h
  · rw [hother q hqp]
    exact nofun

omit hother in
theorem Rings.slot_usedIdx :
    slot s.usedIdx = Fin.ofNat NUM R.advances.length := by
  unfold slot
  rw [hg.usedIdx, place_mod dvd_rfl]

omit hother in
theorem Rings.slot_id :
    slot s.id = Fin.ofNat NUM R.posts.length := by
  unfold slot
  rw [hg.used.write, List.length_map, place_mod num_dvd]

theorem Rings.more [DecidableEq T] (hp : reading p = .nothing)
    (hne : slot s.usedIdx ≠ slot s.id) : Rings R s (update reading p .found) written := by
  have hsame := hg.same_of hother (by rw [hp]; exact nofun)
  refine hg.reread hother (x := .found) (fun _ => hsame) (fun _ heq => absurd heq nofun) ?_
    fun _ heq => absurd heq nofun
  intro _ hnil
  apply hne
  have hge : R.posts.length ≤ R.clears.length := List.drop_eq_nil_iff.1 hnil
  rw [hg.slot_usedIdx, hg.slot_id, ← hsame, Nat.le_antisymm hge hg.order.length_le]

theorem Rings.elem [DecidableEq T] (hp : reading p = .found) :
    ∃ h, (∃ hlt : s.usedIdx.toNat < NUM, (s.elems ⟨s.usedIdx.toNat, hlt⟩).toNat = h.val) ∧
      Rings R s (update reading p (.read h)) written := by
  have hsame := hg.same_of hother (by rw [hp]; exact nofun)
  have hlt : R.advances.length < R.posts.length := by
    rw [← hsame]
    by_contra hge
    exact hg.found p hp (List.drop_eq_nil_iff.2 (Nat.le_of_not_lt hge))
  have hidx : s.usedIdx.toNat < NUM := by
    rw [hg.usedIdx]
    exact Nat.mod_lt _ (by decide)
  have hwindow := hg.used.data R.advances.length (by rw [List.length_map]; exact hlt)
    (by rw [List.length_map])
  rw [List.getElem_map] at hwindow
  have hplace : (⟨s.usedIdx.toNat, hidx⟩ : Fin NUM) = Fin.ofNat NUM R.advances.length :=
    Fin.ext hg.usedIdx
  refine ⟨R.posts[R.advances.length], ⟨hidx, ?_⟩, ?_⟩
  · rw [hplace]
    exact hwindow
  · refine hg.reread hother (x := .read R.posts[R.advances.length]) (fun _ => hsame)
      (fun _ heq => absurd heq nofun) (fun heq => absurd heq nofun) ?_
    intro h heq
    obtain rfl := Reading.read.inj heq
    unfold unread
    rw [hsame, List.head?_drop, List.getElem?_eq_getElem hlt]

omit hother in
theorem Rings.unread_clear (hp : reading p = .read h) :
    unread R = h :: unread (R.after (.clear b h)) := by
  have hhead := hg.read p h hp
  unfold unread at hhead ⊢
  change _ = h :: R.posts.drop (R.clears ++ [h]).length
  rw [List.length_append, List.length_singleton, ← List.drop_drop, List.drop_one]
  exact (List.cons_head?_tail hhead).symm

theorem Rings.clear [DecidableEq T] (hp : reading p = .read h)
    {disk : B → Bool} :
    Rings (R.after (.clear b h)) { s with disk := disk, trace := s.trace ++ [.clear b h] }
      (update reading p (.cleared h)) written := by
  have hsame := hg.same_of hother (by rw [hp]; exact nofun)
  have hcons := hg.unread_clear (b := b) hp
  have hposts : R.clears ++ [h] ++ unread (R.after (.clear b h)) = R.posts := by
    rw [List.append_assoc, List.singleton_append, ← hcons]
    exact List.prefix_iff_eq_append.1 hg.order
  have hcase : ∀ q, update reading p (Reading.cleared h) q = .nothing ∨
      q = p ∧ update reading p (Reading.cleared h) q = .cleared h := by
    intro q
    grind
  refine ⟨hg.avail, hg.used, hg.usedIdx, ?_, ?_, ?_, ?_, ?_, hg.written⟩
  · exact ⟨_, hposts⟩
  · intro hall
    exact absurd (update_self p (Reading.cleared h) reading) (hall p h)
  · intro q h' hq
    rcases hcase q with hnone | ⟨-, hx⟩
    · rw [hnone] at hq
      exact absurd hq nofun
    · rw [hx] at hq
      rw [← Reading.cleared.inj hq]
      change R.clears ++ [h] = _
      rw [hsame]
      rfl
  · grind
  · grind

theorem Rings.advance [DecidableEq T]
    (hp : reading p = .cleared h) :
    Rings (R.after (.advance h : Event B))
      { s with usedIdx := (s.usedIdx + 1) % UInt16.ofNat NUM, trace := s.trace ++ [.advance h] }
      (update reading p .nothing) written := by
  have hclears := hg.cleared p h hp
  have horder := hg.order
  rw [hclears] at horder
  have hlt : R.advances.length < R.posts.length := by
    have hlen := horder.length_le
    rw [List.length_append] at hlen
    exact hlen
  have hhead : R.posts[R.advances.length] = h := by
    have hget := horder.getElem (i := R.advances.length) (by rw [List.length_append]; simp)
    rw [List.getElem_concat_length rfl] at hget
    exact hget.symm
  have hnone : ∀ q, update reading p .nothing q = .nothing := by
    intro q
    grind
  refine ⟨hg.avail, ?_, ?_, hg.order, fun _ => hclears, ?_, ?_, ?_, hg.written⟩
  · have hwindow := hg.used.data R.advances.length (by rw [List.length_map]; exact hlt)
      (by rw [List.length_map])
    rw [List.getElem_map, hhead] at hwindow
    have hne : R.advances.map Fin.val ≠ R.posts.map Fin.val := by
      intro heq
      have hlen := congrArg List.length heq
      rw [List.length_map, List.length_map] at hlen
      omega
    have hpop := hg.used.pop num_dvd hne
    rw [place_mod num_dvd, hwindow, Nat.mod_add_mod] at hpop
    change Ring _ _ ((R.advances ++ [h]).length % 2 ^ 16) _ _ ((R.advances ++ [h]).map Fin.val)
    rw [List.length_append, List.map_append]
    exact hpop
  · have hidx := hg.usedIdx
    change ((s.usedIdx + 1) % UInt16.ofNat NUM).toNat = (R.advances ++ [h]).length % NUM
    rw [List.length_append, List.length_singleton, UInt16.toNat_mod, UInt16.toNat_add, hidx]
    change (R.advances.length % 8 + 1) % 2 ^ 16 % 8 = (R.advances.length + 1) % 8
    omega
  · intro q h' hq
    rw [hnone q] at hq
    exact absurd hq nofun
  · intro q hq
    rw [hnone q] at hq
    exact absurd hq nofun
  · intro q h' hq
    rw [hnone q] at hq
    exact absurd hq nofun

end Reading

end

end Xv6.VirtioInvariant
