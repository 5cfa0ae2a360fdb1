import Xv6.VirtioQueues

set_option autoImplicit false

namespace Xv6.VirtioInvariant
open Resumption Interleaving VirtioCode
open Function (update update_eq_self update_of_ne update_self)

variable {T B : Type} [DecidableEq T] [DecidableEq B]
variable {i h : Fin NUM}
variable {v : View B} {r : Req B}

abbrev locked (bufs : List B) (v : View B) (owns : List (Fin NUM)) (req : Option (Req B)) :
    Ghost B := ⟨bufs, some v, owns, req, .nothing, none, false⟩

abbrev unlocked (bufs : List B) (owns : List (Fin NUM)) (req : Option (Req B)) : Ghost B :=
  ⟨bufs, none, owns, req, .nothing, none, false⟩

def Rest (bufs : List B) (ℓ : Ghost B) : Work B → Prop
  | .idle => ℓ = unlocked bufs [] none
  | .allocating b _ => b ∈ bufs ∧ ℓ = unlocked bufs [] none
  | .waiting b i₀ => ∃ r, r.stage = .live ∧ r.b = b ∧ r.i₀ = i₀ ∧
      ℓ = unlocked bufs [r.i₀, r.i₁, r.i₂] (some r)
  | .intr => ∃ v, ℓ = locked bufs v [] none

def Frees : {β : Type} → Act B β → Prop
  | _, .allocDesc => True
  | _, .freeDesc _ => True
  | _, _ => False

def outline (T B : Type) [DecidableEq T] [DecidableEq B] :
    Outline (Party T) (Act B) (Loc B) (Disk T B) (Ghost B) where
  I := Inv
  safe := fun p {_} a s _ => (∀ msg, exec p a s ≠ .panic msg) ∧ exec p a s ≠ .undefined ∧
    (Frees a → s.vdiskLock = some p)
  rest := fun
    | .device, l, ℓ => ℓ = unlocked l.bufs [] none
    | .cpu _, l, ℓ => Rest l.bufs ℓ l.work

abbrev Ok {α : Type} (p : Party T) (c : Prog (Act B) α) (ℓ : Ghost B) (Q : α → Ghost B → Prop) :
    Prop := Valid (diskSystem T B) always (outline T B) p c ℓ Q

variable {s s' : Disk T B} {Λ : Party T → Ghost B} {p : Party T} {ℓ ℓ' : Ghost B} {β : Type}
variable {a : Act B β} {Q : β → Ghost B → Prop}

omit [DecidableEq B] in
theorem held_ne (hheld : ℓ.held = some v) : ℓ.held ≠ none := by
  rw [hheld]
  exact nofun

omit [DecidableEq T] [DecidableEq B] in
theorem within_eq {i : ℕ} {j : Fin NUM} (h : i = j.val)
    (k : Fin NUM → Outcome β (Disk T B)) : within i k = k j := by
  have hlt : i < NUM := by
    rw [h]
    exact j.isLt
  have hfin : (⟨i, hlt⟩ : Fin NUM) = j := Fin.ext h
  unfold within
  rw [dif_pos hlt, hfin]

theorem ok_wait (hfrees : Frees a → ℓ.held ≠ none) (h : ∀ s Λ, Λ p = ℓ → Inv s Λ →
    exec p a s = .blocked ∨ ∃ x s' ℓ', exec p a s = .done x s' ∧ Inv s' (update Λ p ℓ') ∧ Q x ℓ') :
    Ok p (act a) ℓ Q := by
  apply Valid.perform
  intro s Λ hp hI
  have hlock (hmoves : Frees a) : (Λ p).held ≠ none := by
    rw [hp]
    exact hfrees hmoves
  rw [← hI.locks.lock] at hlock
  rcases h s Λ hp hI with hblocked | ⟨x, s', ℓ', hexec, hI', hQ⟩
  · refine ⟨⟨fun msg => ?_, ?_, hlock⟩, ?_⟩
    · rw [hblocked]
      exact nofun
    · rw [hblocked]
      exact nofun
    · intro _ y s'' hdone
      exact absurd (hblocked.symm.trans hdone) nofun
  refine ⟨⟨fun msg => ?_, ?_, hlock⟩, ?_⟩
  · rw [hexec]
    exact nofun
  · rw [hexec]
    exact nofun
  · intro _ y s'' hdone
    obtain ⟨rfl, rfl⟩ := Outcome.done.inj (hexec.symm.trans hdone)
    exact ⟨ℓ', hI', hQ⟩

theorem ok_done (hfrees : Frees a → ℓ.held ≠ none)
    (h : ∀ s Λ, Λ p = ℓ → Inv s Λ → ∃ x s' ℓ', exec p a s = .done x s' ∧
      Inv s' (update Λ p ℓ') ∧ Q x ℓ') : Ok p (act a) ℓ Q :=
  ok_wait hfrees fun s Λ hp hI => .inr (h s Λ hp hI)

/-- The fields of its ghost that a step of a party sets. -/
structure Change (B : Type) where
  bufs : Option (List B) := none
  held : Option (Option (View B)) := none
  owns : Option (List (Fin NUM)) := none
  req : Option (Option (Req B)) := none
  reading : Option Reading := none
  post : Option (Option (Fin NUM)) := none
  written : Option Bool := none

def Change.apply (c : Change B) (ℓ : Ghost B) : Ghost B :=
  ⟨c.bufs.getD ℓ.bufs, c.held.getD ℓ.held, c.owns.getD ℓ.owns, c.req.getD ℓ.req,
    c.reading.getD ℓ.reading, c.post.getD ℓ.post, c.written.getD ℓ.written⟩

/-- One field of the ghosts of all parties after the step. -/
def put {α : Type} (o : Option α) (f : Party T → α) (p : Party T) : Party T → α :=
  match o with
  | none => f
  | some x => update f p x

omit [DecidableEq B] in
theorem proj_put {α : Type} (f : Ghost B → α) (m : Ghost B) {o : Option α}
    (h : f m = o.getD (f (Λ p))) :
    (fun q => f (update Λ p m q)) = put o (fun q => f (Λ q)) p := by
  cases o with
  | none => exact proj_same f h
  | some x => exact (proj_new f Λ p m).trans (congrArg _ h)

theorem Inv.step (hI : Inv s Λ) (c : Change B)
    (post : s'.posting = put c.post (fun q => (Λ q).post) p .device)
    (locks : Locks s' (put c.held (fun q => (Λ q).held) p) (put c.bufs (fun q => (Λ q).bufs) p))
    (owners : Owners s' (put c.owns (fun q => (Λ q).owns) p))
    (requests : Requests s' (put c.bufs (fun q => (Λ q).bufs) p)
      (put c.owns (fun q => (Λ q).owns) p) (put c.req (fun q => (Λ q).req) p))
    (rings : Rings (record s'.trace) s' (put c.reading (fun q => (Λ q).reading) p)
      (put c.written (fun q => (Λ q).written) p .device))
    (queue : Queue (record s'.trace) s' (put c.req (fun q => (Λ q).req) p))
    (phases : Phases (record s'.trace) s' (put c.req (fun q => (Λ q).req) p))
    (calm : (c.apply (Λ p)).held = none → Calm (c.apply (Λ p))) :
    Inv s' (update Λ p (c.apply (Λ p))) := by
  have hbufs := proj_put Ghost.bufs (c.apply (Λ p)) rfl
  have hheld := proj_put Ghost.held (c.apply (Λ p)) rfl
  have howns := proj_put Ghost.owns (c.apply (Λ p)) rfl
  have hreq := proj_put Ghost.req (c.apply (Λ p)) rfl
  have hreading := proj_put Ghost.reading (c.apply (Λ p)) rfl
  have hpost := proj_put Ghost.post (c.apply (Λ p)) rfl
  have hwritten := proj_put Ghost.written (c.apply (Λ p)) rfl
  refine ⟨hheld ▸ hbufs ▸ locks, howns ▸ owners, hbufs ▸ howns ▸ hreq ▸ requests,
    hreading ▸ congrFun hwritten .device ▸ rings, hreq ▸ queue, hreq ▸ phases, ?_,
    post.trans (congrFun hpost .device).symm⟩
  intro q
  grind [hI.calm]

theorem Inv.relock (hI : Inv s Λ) (lock : Option (Party T)) (locked : B → Option (Party T))
    (held' : Option (View B)) (bufs' : List B)
    (locks : Locks { s with vdiskLock := lock, locked := locked }
      (update (fun q => (Λ q).held) p held') (update (fun q => (Λ q).bufs) p bufs'))
    (hbufs : ∀ r, (Λ p).req = some r → r.b ∈ bufs')
    (hcalm : held' = none → Calm (Λ p)) :
    Inv { s with vdiskLock := lock, locked := locked }
      (update Λ p { Λ p with held := held', bufs := bufs' }) := by
  have hr := hI.requests
  refine hI.step { held := some held', bufs := some bufs' } hI.post locks { hI.owners with }
    ⟨?_, hr.chain, hr.linked, hr.info, hr.status, hr.set, hr.ended⟩ { hI.rings with }
    { hI.queue with } { hI.phases with } hcalm
  intro q r hreq
  dsimp only [put] at hreq ⊢
  grind [hr.buf]

theorem ok_acquire (hheld : ℓ.held = none) :
    Ok p (act .acquire) ℓ fun _ ℓ' => ∃ v, ℓ' = { ℓ with held := some v } ∧
      ∀ r, ℓ.req = some r → Linked v.desc r := by
  apply ok_wait False.elim
  rintro s Λ rfl hI
  by_cases hfree : s.vdiskLock = none
  · refine .inr ⟨(), { s with vdiskLock := some p }, { Λ p with held := some (viewOf s) },
      if_pos hfree, ?_, _, rfl, hI.requests.linked p⟩
    apply hI.relock (some p) s.locked (some (viewOf s)) (Λ p).bufs
    · rw [update_eq_self]
      exact hI.locks.acquire hfree
    · exact hI.requests.buf p
    · exact nofun
  · exact .inl (if_neg hfree)

theorem ok_release (hheld : ℓ.held = some v) (hcalm : Calm ℓ) :
    Ok p (act .release) ℓ fun _ ℓ' => ℓ' = { ℓ with held := none } := by
  apply ok_done False.elim
  rintro s Λ rfl hI
  have hne := held_ne hheld
  refine ⟨(), { s with vdiskLock := none }, { Λ p with held := none },
    if_pos ((hI.locks.lock p).2 hne), ?_, rfl⟩
  apply hI.relock none s.locked none (Λ p).bufs
  · rw [update_eq_self]
    exact hI.locks.release hne
  · exact hI.requests.buf p
  · exact fun _ => hcalm

theorem ok_acquiresleep (b : B) :
    Ok p (act (.acquiresleep b)) ℓ fun _ ℓ' => ℓ' = { ℓ with bufs := b :: ℓ.bufs } := by
  apply ok_wait False.elim
  rintro s Λ rfl hI
  by_cases hfree : s.locked b = none
  · refine .inr ⟨(), _, _, if_pos hfree, ?_, rfl⟩
    apply hI.relock s.vdiskLock _ (Λ p).held (b :: (Λ p).bufs)
    · rw [update_eq_self]
      exact hI.locks.acquiresleep hfree
    · exact fun r hreq => List.mem_cons_of_mem b (hI.requests.buf p r hreq)
    · exact hI.calm p
  · exact .inl (if_neg hfree)

theorem ok_releasesleep {b : B} (hb : b ∈ ℓ.bufs) (hreq : ℓ.req = none) :
    Ok p (act (.releasesleep b)) ℓ fun _ ℓ' => ℓ' = { ℓ with bufs := ℓ.bufs.erase b } := by
  apply ok_done False.elim
  rintro s Λ rfl hI
  refine ⟨(), _, _, rfl, ?_, rfl⟩
  apply hI.relock s.vdiskLock _ (Λ p).held ((Λ p).bufs.erase b)
  · rw [update_eq_self]
    exact hI.locks.releasesleep hb
  · intro r hr
    rw [hreq] at hr
    exact absurd hr nofun
  · exact hI.calm p

theorem Inv.redesc (hI : Inv s Λ) (hheld : (Λ p).held ≠ none) (hreq : (Λ p).req = none)
    (desc : Fin NUM → VRingDesc B) (free : Fin NUM → Bool) (o : List (Fin NUM))
    (hdesc : ∀ j, j ∉ (Λ p).owns → desc j = s.desc j)
    (owners : Owners { s with desc := desc, free := free }
      (update (fun q => (Λ q).owns) p o)) :
    Inv { s with desc := desc, free := free }
      (update Λ p { Λ p with held := some ⟨desc, s.ring, s.idx⟩, owns := o }) := by
  exact hI.step { held := some (some ⟨desc, s.ring, s.idx⟩), owns := some o } hI.post
    (hI.locks.touch hheld rfl rfl) owners (hI.requests.own_descs hI.owners hreq hdesc o)
    { hI.rings with } { hI.queue with } { hI.phases with } nofun

omit [DecidableEq T] in
theorem Inv.restatus (hI : Inv s Λ) (i : Fin NUM) :
    Inv { s with info := update s.info i { s.info i with status := 0 } } Λ := by
  exact ⟨hI.locks.keep rfl rfl rfl, { hI.owners with }, hI.requests.set_status, { hI.rings with },
    { hI.queue with }, { hI.phases with }, hI.calm, hI.post⟩

theorem ok_setStatus (i : Fin NUM) : Ok p (act (.setStatus i 0)) ℓ fun _ ℓ' => ℓ' = ℓ := by
  apply ok_done False.elim
  rintro s Λ rfl hI
  refine ⟨(), _, Λ p, rfl, ?_, rfl⟩
  rw [update_eq_self]
  exact hI.restatus i

omit [DecidableEq T] in
theorem Inv.length_le (hI : Inv s Λ) : (VirtioInvariant.queue (record s.trace) s).length ≤ 6 :=
  hI.queue.length_le hI.requests hI.owners

omit [DecidableEq T] in
theorem Inv.alone (hI : Inv s Λ) (hheld : (Λ p).held ≠ none) (q : Party T) (hqp : q ≠ p) :
    (Λ q).reading = .nothing :=
  (hI.calm q (hI.locks.alone hheld hqp)).1

theorem Inv.reread (hI : Inv s Λ) (hheld : (Λ p).held ≠ none) (x : Reading)
    (rings : Rings (record s.trace) s (update (fun q => (Λ q).reading) p x)
      (Λ .device).written) : Inv s (update Λ p { Λ p with reading := x }) := by
  exact hI.step { reading := some x } hI.post hI.locks hI.owners hI.requests rings hI.queue
    hI.phases (fun hnone => absurd hnone hheld)

theorem ok_getStatus (h : Fin NUM) :
    Ok p (act (.getStatus h.val)) ℓ fun x ℓ' => x = 0 ∧ ℓ' = ℓ := by
  apply ok_done False.elim
  rintro s Λ rfl hI
  refine ⟨(s.info h).status, s, Λ p, dif_pos h.isLt, ?_, hI.requests.status h, rfl⟩
  rw [update_eq_self]
  exact hI

section

variable (hheld : ℓ.held = some v)
include hheld

theorem ok_allocDesc (hreq : ℓ.req = none) :
    Ok p (act .allocDesc) ℓ fun x ℓ' => match x with
      | none => ℓ' = ℓ
      | some i => ℓ' = { ℓ with owns := ℓ.owns ++ [i] } ∧ i ∉ ℓ.owns := by
  apply ok_done (fun _ => held_ne hheld)
  rintro s Λ rfl hI
  have hview := hI.locks.view p v hheld
  have hne := held_ne hheld
  cases hfree : firstFree s.free with
  | none =>
    refine ⟨none, s, Λ p, ?_, ?_, rfl⟩
    · simp only [exec, hfree]
    · rw [update_eq_self]
      exact hI
  | some i =>
    have hi := free_of_firstFree hfree
    refine ⟨some i, { s with free := update s.free i false },
      { Λ p with owns := (Λ p).owns ++ [i] }, ?_, ?_, rfl, (hI.owners.free i).1 hi p⟩
    · simp only [exec, hfree]
    · have hstep := hI.redesc hne hreq s.desc (update s.free i false) ((Λ p).owns ++ [i])
        (fun _ _ => rfl) (hI.owners.alloc hi)
      change Inv _ (update Λ p { Λ p with held := some (viewOf s), owns := _ }) at hstep
      rw [← hview, ← hheld] at hstep
      exact hstep

theorem ok_setDesc {f : VRingDesc B → VRingDesc B} (hreq : ℓ.req = none)
    (hi : i ∈ ℓ.owns) :
    Ok p (act (.setDesc i f)) ℓ fun _ ℓ' =>
      ℓ' = { ℓ with held := some { v with desc := update v.desc i (f (v.desc i)) } } := by
  apply ok_done False.elim
  rintro s Λ rfl hI
  have hview := hI.locks.view p v hheld
  have hne := held_ne hheld
  refine ⟨(), _, _, rfl, ?_, rfl⟩
  have hstep := hI.redesc hne hreq (update s.desc i (f (s.desc i))) s.free (Λ p).owns
    (fun j hj => update_of_ne (fun heq => hj (by rw [heq]; exact hi)) _ _)
    (by rw [update_eq_self]; exact { hI.owners with })
  rw [hview]
  exact hstep

theorem ok_freeDesc (hreq : ℓ.req = none) (hi : i ∈ ℓ.owns) :
    Ok p (act (.freeDesc i.val)) ℓ fun _ ℓ' => ℓ' = { ℓ with
      held := some { v with desc := update v.desc i { v.desc i with addr := .null } }
      owns := ℓ.owns.erase i } := by
  apply ok_done (fun _ => held_ne hheld)
  rintro s Λ rfl hI
  have hview := hI.locks.view p v hheld
  have hne := held_ne hheld
  have hused : ¬ s.free i = true := fun hfree => (hI.owners.free i).1 hfree p hi
  refine ⟨(), { s with
    desc := update s.desc i { s.desc i with addr := .null }
    free := update s.free i true }, _, ?_, ?_, rfl⟩
  · exact (dif_pos i.isLt).trans (if_neg hused)
  · have hstep := hI.redesc hne hreq (update s.desc i { s.desc i with addr := .null })
      (update s.free i true) ((Λ p).owns.erase i)
      (fun j hj => update_of_ne (fun heq => hj (by rw [heq]; exact hi)) _ _)
      (hI.owners.free_desc hi)
    rw [hview]
    exact hstep

theorem ok_getDesc :
    Ok p (act (.getDesc i.val)) ℓ fun d ℓ' => d = v.desc i ∧ ℓ' = ℓ := by
  apply ok_done False.elim
  rintro s Λ rfl hI
  have hview := hI.locks.view p v hheld
  refine ⟨s.desc i, s, Λ p, dif_pos i.isLt, ?_, ?_, rfl⟩
  · rw [update_eq_self]
    exact hI
  · rw [hview]
    rfl

theorem ok_setDisk (hreq : ℓ.req = none) (hb : r.b ∈ ℓ.bufs)
    (howns : ℓ.owns = [r.i₀, r.i₁, r.i₂]) (hk : Linked v.desc r) (hst : r.stage = .armed) :
    Ok p (act (.setDisk r.b)) ℓ fun _ ℓ' => ℓ' = { ℓ with req := some r } := by
  apply ok_done False.elim
  rintro s Λ rfl hI
  have hlinked : Linked s.desc r := by
    rw [hI.locks.view p v hheld] at hk
    exact hk
  refine ⟨(), _, _, rfl, ?_, rfl⟩
  exact hI.step { req := some (some r) } hI.post (hI.locks.keep rfl rfl rfl) { hI.owners with }
    (hI.requests.arm hI.locks hreq hb howns hlinked hst) { hI.rings with }
    (hI.queue.arm hI.requests hI.locks hreq hb hst) (hI.phases.arm hI.requests hI.locks hreq hb hst)
    (fun hnone => absurd hnone (held_ne hheld))

theorem ok_setInfo (hreq : ℓ.req = some r) (hst : r.stage = .armed) :
    Ok p (act (.setInfo r.i₀ r.b)) ℓ fun _ ℓ' =>
      ℓ' = { ℓ with req := some { r with stage := .ready } } := by
  apply ok_done False.elim
  rintro s Λ rfl hI
  have hon := hI.requests.set p r hreq (.inl hst)
  refine ⟨(), _, _, rfl, ?_, rfl⟩
  refine hI.step { req := some (some { r with stage := .ready }) } hI.post
    (hI.locks.keep rfl rfl rfl) { hI.owners with } ?_ { hI.rings with }
    (hI.queue.restage ?_ ?_ rfl rfl) ?_ (fun hnone => absurd hnone (held_ne hheld))
  · refine hI.requests.restage hI.owners hreq nofun (fun _ => hon) nofun rfl rfl ?_ ?_ ?_
    · dsimp only
      rw [update_self]
    · intro h hne
      dsimp only
      rw [update_of_ne hne]
    · intro h
      dsimp only
      grind
  · intro r' hr' hlive
    rw [hreq] at hr'
    rw [← Option.some.inj hr', hst] at hlive
    exact absurd hlive nofun
  · intro r' hr'
    rw [← Option.some.inj hr']
    exact nofun
  · exact hI.phases.restage hreq (.inl ⟨hst, rfl⟩) rfl rfl rfl rfl

theorem ok_putAvail :
    Ok p (act (.putAvail i)) ℓ fun _ ℓ' => ℓ' = { ℓ with
      held := some
        { v with ring := update v.ring (slot v.idx) (UInt16.ofNat i.val) } } := by
  apply ok_done False.elim
  rintro s Λ rfl hI
  have hview := hI.locks.view p v hheld
  refine ⟨(), _, _, rfl, ?_, rfl⟩
  rw [hview]
  let ring := update s.ring (slot s.idx) (UInt16.ofNat i.val)
  exact hI.step { held := some (some { viewOf s with ring := ring }) } hI.post
    (hI.locks.touch (held_ne hheld) rfl rfl) { hI.owners with } { hI.requests with }
    (hI.rings.put_avail hI.length_le) { hI.queue with } { hI.phases with } nofun

theorem ok_bumpAvail (hreq : ℓ.req = some r) (hst : r.stage = .ready)
    (hput : v.ring (slot v.idx) = UInt16.ofNat r.i₀.val) :
    Ok p (act (.bumpAvail r.b r.i₀)) ℓ fun _ ℓ' => ℓ' = { ℓ with
      held := some { v with idx := v.idx + 1 }, req := some { r with stage := .live } } := by
  apply ok_done False.elim
  rintro s Λ rfl hI
  have hview := hI.locks.view p v hheld
  have ho := hI.owners
  have hr := hI.requests
  have hnew := record_snoc s.trace (.submit r.b r.i₀)
  have hpend : pending ((record s.trace).after (.submit r.b r.i₀)) =
      pending (record s.trace) ++ [r.i₀] := by
    change ((record s.trace).submits ++ [r.i₀]).drop (record s.trace).takes.length = _
    rw [List.drop_append_of_le_length hI.rings.avail_le]
    rfl
  have hidle : phase r.b s.trace = .idle := by
    apply hI.phases.idle
    intro q r' hq hb
    have hqp := hr.eq_of_buf hI.locks hq hreq hb
    rw [hqp, hreq] at hq
    rw [← Option.some.inj hq]
    exact .inr hst
  have hout : r.i₀ ∉ queue (record s.trace) s := by
    intro hin
    obtain ⟨q, r', hq, hhead, hlive, -⟩ := (hI.queue.mem r.i₀).1 hin
    obtain ⟨-, rfl⟩ := hr.eq_of_head ho hq hreq hhead
    rw [hst] at hlive
    exact absurd hlive nofun
  refine ⟨(), _, _, rfl, ?_, rfl⟩
  rw [hview] at hput ⊢
  refine hI.step
    { held := some (some { viewOf s with idx := s.idx + 1 })
      req := some (some { r with stage := .live }) }
    hI.post (hI.locks.touch (held_ne hheld) rfl rfl) { ho with } ?_ ?_ ?_ ?_ nofun
  · exact hr.restage ho hreq nofun nofun nofun rfl rfl
      ((hr.info r.i₀ r.b).2 ⟨p, r, hreq, rfl, rfl, by rw [hst]; exact nofun⟩) (fun _ _ => rfl)
      fun _ => rfl
  · rw [hnew]
    exact hI.rings.bump_avail hI.length_le hput
  · rw [hnew]
    refine hI.queue.submit hr ho hreq hst ?_ rfl
    unfold queue inDevice
    rw [hpend]
    simp only [List.append_assoc, List.cons_append, List.nil_append]
    exact List.perm_middle
  · rw [hnew]
    refine hI.phases.event hr hI.locks ho hreq ?_ ?_ ?_ ?_ ?_ ?_ ?_ ?_ ?_
    · intro r' hr'
      rw [← Option.some.inj hr']
    · intro b hb
      rw [phase_snoc]
      exact if_neg hb.symm
    · intro h hne
      unfold inDevice
      rw [hpend]
      simp [hne]
    · exact fun _ _ => Iff.rfl
    · exact fun _ _ => rfl
    · intro hall
      have hnot := hall _ rfl
      simp at hnot
    · intro _ _ _ _
      rw [phase_snoc, hidle]
      exact (if_pos rfl).trans (if_pos rfl)
    · intro r' hr' _ hin
      rw [← Option.some.inj hr'] at hin
      exact absurd (List.mem_append_right _ hin) hout
    · intro _ _ _ hoff
      have hon := hr.set p r hreq (.inr hst)
      exact absurd (hon.symm.trans hoff) nofun

theorem ok_getDisk (hreq : ℓ.req = some r) (hst : r.stage = .live) :
    Ok p (act (.getDisk r.b)) ℓ fun x ℓ' =>
      if x then ℓ' = ℓ else ℓ' = { ℓ with req := some { r with stage := .ended } } := by
  apply ok_done False.elim
  rintro s Λ rfl hI
  have ho := hI.owners
  have hr := hI.requests
  cases hon : s.disk r.b with
  | true =>
    refine ⟨true, s, Λ p, congrArg (fun x => Outcome.done x s) hon, ?_, rfl⟩
    rw [update_eq_self]
    exact hI
  | false =>
    refine ⟨false, s, _, congrArg (fun x => Outcome.done x s) hon, ?_, rfl⟩
    refine hI.step { req := some (some { r with stage := .ended }) } hI.post hI.locks ho ?_ hI.rings
      (hI.queue.restage ?_ ?_ rfl rfl) ?_ (fun hnone => absurd hnone (held_ne hheld))
    · exact hr.restage ho hreq nofun nofun (fun _ => hon) rfl rfl
        ((hr.info r.i₀ r.b).2 ⟨p, r, hreq, rfl, rfl, by rw [hst]; exact nofun⟩) (fun _ _ => rfl)
        fun _ => rfl
    · intro r' hr' _
      rw [hreq] at hr'
      rw [← Option.some.inj hr']
      exact hon
    · intro r' hr'
      rw [← Option.some.inj hr']
      exact nofun
    · exact hI.phases.restage hreq (.inr ⟨hst, rfl, hon⟩) rfl rfl rfl rfl

theorem ok_clearInfo (hreq : ℓ.req = some r) (hst : r.stage = .ended) :
    Ok p (act (.clearInfo r.i₀ r.b)) ℓ fun _ ℓ' => ℓ' = { ℓ with req := none } := by
  apply ok_done False.elim
  rintro s Λ rfl hI
  have ho := hI.owners
  have hr := hI.requests
  have hoff := hr.ended p r hreq hst
  have hnew : record (s.trace ++ [.retire r.b r.i₀]) = record s.trace := record_snoc s.trace _
  have hphase := hI.phases.cleared p r hreq (.inr hst) hoff
  refine ⟨(), _, _, rfl, ?_, rfl⟩
  refine hI.step { req := some none } hI.post (hI.locks.keep rfl rfl rfl) { ho with }
    (hr.retire ho hreq) ?_ ?_ ?_ (fun hnone => absurd hnone (held_ne hheld))
  · rw [hnew]
    exact { hI.rings with }
  · rw [hnew]
    refine hI.queue.restage ?_ nofun rfl rfl
    intro r' hr' hlive
    rw [hreq] at hr'
    rw [← Option.some.inj hr', hst] at hlive
    exact absurd hlive nofun
  · rw [hnew]
    refine hI.phases.event hr hI.locks ho hreq nofun ?_ (fun _ _ => Iff.rfl) (fun _ _ => Iff.rfl)
      (fun _ _ => rfl) ?_ nofun nofun nofun
    · intro b hb
      rw [phase_snoc]
      exact if_neg hb.symm
    · intro _
      rw [phase_snoc, hphase]
      exact (if_pos rfl).trans (if_pos rfl)

theorem ok_more (hread : ℓ.reading = .nothing) :
    Ok p (act .more) ℓ fun x ℓ' => if x then ℓ' = { ℓ with reading := .found } else ℓ' = ℓ := by
  apply ok_done False.elim
  rintro s Λ rfl hI
  have hne := held_ne hheld
  by_cases hmore : slot s.usedIdx ≠ slot s.id
  · refine ⟨true, s, _, ?_, hI.reread hne .found (hI.rings.more (hI.alone hne) hread hmore), rfl⟩
    exact congrArg (fun x => Outcome.done x s) (decide_eq_true hmore)
  · refine ⟨false, s, Λ p, ?_, ?_, rfl⟩
    · exact congrArg (fun x => Outcome.done x s) (decide_eq_false hmore)
    · rw [update_eq_self]
      exact hI

theorem ok_elem (hread : ℓ.reading = .found) :
    Ok p (act .elem) ℓ fun x ℓ' => ∃ h : Fin NUM, x = h.val ∧ ℓ' =
    { ℓ with reading := .read h } := by
  apply ok_done False.elim
  rintro s Λ rfl hI
  have hne := held_ne hheld
  obtain ⟨h, ⟨hlt, hval⟩, hg⟩ := hI.rings.elem (hI.alone hne) hread
  refine ⟨h.val, s, _, ?_, hI.reread hne (.read h) hg, h, rfl, rfl⟩
  exact (dif_pos hlt).trans (congrArg (fun x => Outcome.done x s) hval)

theorem ok_clearDisk (hread : ℓ.reading = .read h) :
    Ok p (act (.clearDisk h.val)) ℓ fun _ ℓ' => ℓ' = { ℓ with reading := .cleared h } := by
  apply ok_done False.elim
  rintro s Λ rfl hI
  have hne := held_ne hheld
  have ho := hI.owners
  have hr := hI.requests
  have hin : h ∈ unread (record s.trace) := List.mem_of_mem_head? (hI.rings.read p h hread)
  obtain ⟨q, r, hreq, rfl, hlive, -⟩ := (hI.queue.mem h).1 (List.mem_append_right _ hin)
  have hinfo : (s.info r.i₀).b = some r.b :=
    (hr.info r.i₀ r.b).2 ⟨q, r, hreq, rfl, rfl, by rw [hlive]; exact nofun⟩
  have hcons := hI.rings.unread_clear (b := r.b) hread
  have hnew := record_snoc s.trace (.clear r.b r.i₀)
  have hphase := hI.phases.posted q r hreq hlive hin
  have hother : r.i₀ ∉ inDevice (record s.trace) s ++
      unread ((record s.trace).after (.clear r.b r.i₀)) := by
    have hnodup := hI.queue.nodup
    unfold queue at hnodup
    rw [hcons] at hnodup
    exact (List.nodup_cons.1 (List.perm_middle.nodup_iff.1 hnodup)).1
  have hself : update (fun q => (Λ q).req) q (some r) = fun q => (Λ q).req := by
    rw [← hreq, update_eq_self]
  refine ⟨(), { s with disk := update s.disk r.b false, trace := s.trace ++ [.clear r.b r.i₀] }, _,
    ?_, ?_, rfl⟩
  · simp only [exec]
    rw [within_eq rfl, hinfo]
  refine hI.step { reading := some (.cleared r.i₀) } hI.post (hI.locks.keep rfl rfl rfl) { ho with }
    (hr.clear_disk hI.locks hreq hlive) ?_ ?_ ?_ (fun hnone => absurd hnone hne)
  · rw [hnew]
    exact hI.rings.clear (hI.alone hne) hread
  · rw [hnew]
    refine hI.queue.clear hr hI.locks ho hreq ?_ rfl
    unfold queue
    rw [hcons]
    exact List.perm_middle
  · rw [hnew, ← hself]
    refine hI.phases.event hr hI.locks ho hreq ?_ ?_ (fun _ _ => Iff.rfl) ?_ ?_ ?_ ?_ ?_ ?_
    · intro r' hr'
      rw [Option.some.inj hr']
    · intro b hb
      rw [phase_snoc]
      exact if_neg hb.symm
    · intro h hne
      rw [hcons, List.mem_cons]
      exact ⟨.inr, fun hor => hor.resolve_left hne⟩
    · intro b hb
      exact update_of_ne hb _ _
    · intro hall
      have hnot := hall r rfl
      rw [hlive] at hnot
      simp at hnot
    · intro r' hr' _ hdev
      rw [← Option.some.inj hr'] at hdev
      exact absurd (List.mem_append_left _ hdev) hother
    · intro r' hr' _ hun
      rw [← Option.some.inj hr'] at hun
      exact absurd (List.mem_append_right _ hun) hother
    · intro _ _ _ _
      rw [phase_snoc, hphase]
      exact (if_pos rfl).trans (if_pos rfl)

theorem ok_bumpUsed (hread : ℓ.reading = .cleared h) :
    Ok p (act (.bumpUsed h.val)) ℓ fun _ ℓ' => ℓ' = { ℓ with reading := .nothing } := by
  apply ok_done False.elim
  rintro s Λ rfl hI
  have hne := held_ne hheld
  have hnew := record_snoc s.trace (.advance h)
  refine ⟨(), _, _, dif_pos h.isLt, ?_, rfl⟩
  refine hI.step { reading := some .nothing } hI.post (hI.locks.keep rfl rfl rfl) { hI.owners with }
    { hI.requests with } ?_ ?_ ?_ (fun hnone => absurd hnone hne)
  · rw [hnew]
    exact hI.rings.advance (hI.alone hne) hread
  · rw [hnew]
    exact { hI.queue with }
  · rw [hnew]
    exact hI.phases.keep (fun b => phase_advance _ b h) (fun _ => Iff.rfl) (fun _ => Iff.rfl) rfl

end

theorem ok_take : Ok p (act .take) ℓ fun _ ℓ' => ℓ' = ℓ := by
  apply ok_wait False.elim
  rintro s Λ rfl hI
  by_cases hempty : s.seen = s.idx
  · exact .inl (if_pos hempty)
  obtain ⟨h, hval, hpend, hg⟩ := hI.rings.next hempty
  have hnew := record_snoc s.trace (.take h)
  have hperm : ∀ rest : List (Fin NUM),
      (pending ((record s.trace).after (.take h : Event B)) ++ ((s.taken ++ [h]) ++ rest)).Perm
        (pending (record s.trace) ++ (s.taken ++ rest)) := by
    intro rest
    have hpend' : pending ((record s.trace).after (.take h : Event B)) =
        (record s.trace).submits.drop ((record s.trace).takes.length + 1) := by
      change (record s.trace).submits.drop ((record s.trace).takes ++ [h]).length = _
      rw [List.length_append, List.length_singleton]
    rw [hpend, hpend']
    simp only [List.append_assoc, List.cons_append, List.nil_append]
    rw [← List.append_assoc, ← List.append_assoc]
    exact List.perm_middle
  refine .inr ⟨(), { s with
    seen := s.seen + 1, taken := s.taken ++ [h], trace := s.trace ++ [.take h] },
    Λ p, ?_, ?_, rfl⟩
  · refine (if_neg hempty).trans ?_
    unfold within
    have hlt : (s.ring (slot s.seen)).toNat < NUM := by
      rw [hval]
      exact h.isLt
    have hfin : (⟨(s.ring (slot s.seen)).toNat, hlt⟩ : Fin NUM) = h := Fin.ext hval
    rw [dif_pos hlt, hfin]
  · rw [update_eq_self]
    refine ⟨hI.locks.keep rfl rfl rfl, { hI.owners with }, { hI.requests with }, ?_, ?_, ?_,
      hI.calm, hI.post⟩
    · rw [hnew]
      exact hg
    · rw [hnew]
      exact hI.queue.keep ((hperm s.posting.toList).append_right _) rfl
    · rw [hnew]
      exact hI.phases.keep (fun b => phase_take _ b h)
        (fun _ => (hperm s.posting.toList).mem_iff) (fun _ => Iff.rfl) rfl

theorem ok_pick (hpost : ℓ.post = none) (hwritten : ℓ.written = false) :
    Ok (Party.device : Party T) (act (.pick h)) ℓ fun _ ℓ' => ℓ' = { ℓ with post := some h } := by
  apply ok_wait False.elim
  rintro s Λ rfl hI
  have hg := hI.rings
  have hnone : s.posting = none := hI.post.trans hpost
  by_cases hin : h ∈ s.taken
  · have hperm : (pending (record s.trace) ++ (s.taken.erase h ++ [h])).Perm
        (pending (record s.trace) ++ (s.taken ++ s.posting.toList)) := by
      rw [hnone]
      change (_ ++ (_ ++ [h])).Perm (_ ++ (s.taken ++ []))
      rw [List.append_nil]
      exact (List.perm_append_singleton h _).trans (List.perm_cons_erase hin).symm |>.append_left _
    refine .inr ⟨(), _, _, if_pos hin, ?_, rfl⟩
    refine hI.step { post := some (some h) } (update_self _ _ fun q => (Λ q).post).symm
      (hI.locks.keep rfl rfl rfl) { hI.owners with } { hI.requests with }
      ⟨hg.avail, hg.used, hg.usedIdx, hg.order, hg.same, hg.cleared, hg.found, hg.read, ?_⟩
      (hI.queue.keep (hperm.append_right _) rfl)
      (hI.phases.keep (fun _ => rfl) (fun _ => hperm.mem_iff) (fun _ => Iff.rfl) rfl)
      (fun hnone => hI.calm .device hnone)
    exact fun htrue => absurd (hwritten.symm.trans htrue) nofun
  · exact .inl (if_neg hin)

omit [DecidableEq T] in
theorem Inv.posting_req (hI : Inv s Λ) (hpost : (Λ .device).post = some h) :
    ∃ q r, (Λ q).req = some r ∧ r.i₀ = h ∧ r.stage = .live ∧ s.disk r.b = true ∧
      h ∈ inDevice (record s.trace) s := by
  have hsome : s.posting = some h := hI.post.trans hpost
  have hin : h ∈ inDevice (record s.trace) s := by
    unfold inDevice
    rw [hsome]
    simp
  obtain ⟨q, r, hreq, hhead, hlive, hon⟩ := (hI.queue.mem h).1 (List.mem_append_left _ hin)
  exact ⟨q, r, hreq, hhead, hlive, hon, hin⟩

theorem ok_writeStatus (hpost : ℓ.post = some h) :
    Ok (Party.device : Party T) (act (.writeStatus h)) ℓ fun _ ℓ' => ℓ' = ℓ := by
  apply ok_done False.elim
  rintro s Λ rfl hI
  obtain ⟨q, r, hreq, rfl, -⟩ := hI.posting_req hpost
  have hk := hI.requests.linked q r hreq
  refine ⟨(), { s with info := update s.info r.i₀ { s.info r.i₀ with status := 0 } }, Λ .device, ?_,
    ?_, rfl⟩
  · simp only [exec]
    rw [within_eq hk.next₀, within_eq hk.next₁, hk.addr₂]
  · rw [update_eq_self]
    exact hI.restatus r.i₀

theorem ok_putUsed (hpost : ℓ.post = some h) :
    Ok (Party.device : Party T) (act (.putUsed h)) ℓ fun _ ℓ' => ℓ' =
    { ℓ with written := true } := by
  apply ok_done False.elim
  rintro s Λ rfl hI
  refine ⟨(), _, _, rfl, ?_, rfl⟩
  refine hI.step { written := some true } hI.post (hI.locks.keep rfl rfl rfl) { hI.owners with }
    { hI.requests with } ?_ { hI.queue with } { hI.phases with }
    (fun hnone => hI.calm .device hnone)
  dsimp only [put]
  rw [update_self]
  exact hI.rings.put_used hI.length_le (hI.post.trans hpost)

theorem ok_bumpId (hpost : ℓ.post = some h) (hwritten : ℓ.written = true) :
    Ok (Party.device : Party T) (act (.bumpId h)) ℓ fun _ ℓ' =>
      ℓ' = { ℓ with post := none, written := false } := by
  apply ok_done False.elim
  rintro s Λ rfl hI
  have ho := hI.owners
  have hr := hI.requests
  have hg := hI.rings
  have hsome : s.posting = some h := hI.post.trans hpost
  obtain ⟨q, r, hreq, rfl, hlive, hon, hin⟩ := hI.posting_req hpost
  have hk := hr.linked q r hreq
  have hnew := record_snoc s.trace (.post r.b r.i₀)
  have hphase := hI.phases.submitted q r hreq hlive hin
  have hun := hg.unread_post (b := r.b) (h := r.i₀)
  have hself : update (fun q => (Λ q).req) q (some r) = fun q => (Λ q).req := by
    rw [← hreq, update_eq_self]
  have hdev : inDevice (record s.trace) s = pending (record s.trace) ++ s.taken ++ [r.i₀] := by
    unfold inDevice
    rw [hsome, ← List.append_assoc]
    rfl
  have hout : r.i₀ ∉ pending (record s.trace) ++ s.taken := by
    intro hmem
    have hnodup := (List.nodup_append.1 hI.queue.nodup).1
    rw [hdev] at hnodup
    exact (List.nodup_append.1 hnodup).2.2 r.i₀ hmem r.i₀ (List.mem_singleton_self _) rfl
  have hdev' : inDevice ((record s.trace).after (.post r.b r.i₀))
      { s with id := s.id + 1, posting := none, trace := s.trace ++ [.post r.b r.i₀] } =
        pending (record s.trace) ++ s.taken := by
    change pending (record s.trace) ++ (s.taken ++ []) = _
    rw [List.append_nil]
  refine ⟨(), { s with id := s.id + 1, posting := none, trace := s.trace ++ [.post r.b r.i₀] }, _,
    ?_, ?_, rfl⟩
  · simp only [exec]
    rw [within_eq hk.next₀, hk.addr₁]
  refine hI.step { post := some none, written := some false }
    (update_self _ _ fun q => (Λ q).post).symm (hI.locks.keep rfl rfl rfl) { ho with } { hr with }
    ?_ ?_ ?_ (fun hnone => hI.calm .device hnone)
  · dsimp only [put]
    rw [hnew, update_self]
    rw [hwritten] at hg
    exact hg.bump_id hI.length_le hsome
  · rw [hnew]
    refine hI.queue.keep ?_ rfl
    unfold queue
    rw [hdev', hdev, hun]
    rw [List.append_assoc _ [r.i₀]]
    exact (List.perm_append_comm).append_left _
  · rw [hnew, ← hself]
    refine hI.phases.event hr hI.locks ho hreq ?_ ?_ ?_ ?_ (fun _ _ => rfl) ?_ ?_ ?_ ?_
    · intro r' hr'
      rw [Option.some.inj hr']
    · intro b hb
      rw [phase_snoc]
      exact if_neg hb.symm
    · intro h hne
      rw [hdev', hdev, List.mem_append (t := [r.i₀]), List.mem_singleton]
      exact ⟨.inl, fun hor => hor.resolve_right hne⟩
    · intro h hne
      rw [hun, List.mem_append, List.mem_singleton]
      exact ⟨fun hor => hor.resolve_right hne, .inl⟩
    · intro hall
      have hnot := hall r rfl
      rw [hlive] at hnot
      simp at hnot
    · intro r' hr' _ hmem
      rw [← Option.some.inj hr', hdev'] at hmem
      exact absurd hmem hout
    · intro _ _ _ _
      rw [phase_snoc, hphase]
      exact (if_pos rfl).trans (if_pos rfl)
    · exact fun _ _ _ hoff => absurd (hon.symm.trans hoff) nofun

end Xv6.VirtioInvariant
