import Xv6.LogInvariant

set_option autoImplicit false

namespace Xv6.LogBuffers
open LogCode LogActions LogInvariant
open Function (update)

variable {start : UInt32} {may : List UInt32 → Prop} {d₀ : UInt32 → Block} {c : Progress}
  {g g' : Kern} {Λ : Proc → Ghost} {p : Proc}
variable {i : BufId} {x : Hold} {b : UInt32} {u : Unit}

section

variable (hI : Inv start may d₀ c g Λ)
include hI

theorem buf_step {o : Own} {f : Buf → Buf} {lru : List BufId} (hlru : ∀ j, j ∈ lru)
    (hdev : (f (g.buf i)).dev = (g.buf i).dev) (hb : (f (g.buf i)).blockno = (g.buf i).blockno)
    (hv : (g.buf i).valid = true → (f (g.buf i)).valid = true)
    (new : BufOk c (want start c g.disk) (f (g.buf i)) (update (owners Λ i) p o)) :
    Inv start may d₀ c { g.modBuf i f with lru := lru }
      (update Λ p ((Λ p).set i o)) := by
  have eqs : ∀ j, ((g.modBuf i f).buf j).dev = (g.buf j).dev ∧
      ((g.modBuf i f).buf j).blockno = (g.buf j).blockno ∧
      ((g.buf j).valid = true → ((g.modBuf i f).buf j).valid = true) := by
    intro j
    rw [modBuf_buf]
    split_ifs with h
    · subst h
      exact ⟨hdev, hb, hv⟩
    · exact ⟨rfl, rfl, id⟩
  refine ⟨?_, ?_, hlru, ?_, ?_, ?_, hI.disk⟩
  · rw [roles_set]
    exact hI.log
  · rw [roles_set]
    exact hI.tr
  · intro j k hj hk he
    change ((g.modBuf i f).buf j).dev = _ at hj
    change ((g.modBuf i f).buf k).dev = _ at hk
    change ((g.modBuf i f).buf j).blockno = ((g.modBuf i f).buf k).blockno at he
    rw [(eqs j).1] at hj
    rw [(eqs k).1] at hk
    rw [(eqs j).2.1, (eqs k).2.1] at he
    exact hI.uniq j k hj hk he
  · intro j
    change BufOk c (want start c g.disk) ((g.modBuf i f).buf j) _
    by_cases h : j = i
    · subst h
      rw [modBuf_self, Ghost.set, owners_update_self]
      exact new
    · rw [modBuf_of_ne _ _ h, Ghost.set, owners_update_of_ne h]
      exact hI.buf j
  · intro b hb'
    obtain ⟨j, hj, hjb, hjv⟩ := hI.resident b hb'
    exact ⟨j, (eqs j).1.trans hj, (eqs j).2.1.trans hjb, (eqs j).2.2 hjv⟩

theorem hold_inv {y : Hold} {r : Role} {c' : Progress} (hx : (Λ p).own i = ⟨some x, none⟩)
    (hlru : g'.lru = g.lru) (hother : ∀ j, j ≠ i → g'.buf j = g.buf j)
    (hdev : (g'.buf i).dev = (g.buf i).dev) (hb : (g'.buf i).blockno = (g.buf i).blockno)
    (hv : (g.buf i).valid = true → (g'.buf i).valid = true)
    (log : LogOk start may c' g'.log (update (roles Λ) p r))
    (tr : TraceOk start d₀ c' g'.trace (update (roles Λ) p r))
    (buf : BufOk c' (want start c' g'.disk) (g'.buf i) (update (owners Λ i) p ⟨some y, none⟩))
    (pins : ∀ b, b ≠ x.block → (b ∈ c'.bs.drop c'.unpinned ↔ b ∈ c.bs.drop c.unpinned))
    (wants : ∀ b, b ≠ x.block → want start c' g'.disk b = want start c g.disk b)
    (here : x.block ∈ c'.bs.drop c'.unpinned → (g'.buf i).valid = true)
    (disk : DiskOk start d₀ c' g'.disk g'.trace) :
    Inv start may d₀ c' g'
      (update Λ p ⟨update (Λ p).own i ⟨some y, none⟩, r⟩) := by
  obtain ⟨hid, hib, -⟩ := (hI.buf i).hold p x (by rw [owners, hx])
  have eqs : ∀ j, (g'.buf j).dev = (g.buf j).dev ∧ (g'.buf j).blockno = (g.buf j).blockno ∧
      ((g.buf j).valid = true → (g'.buf j).valid = true) := by
    intro j
    by_cases h : j = i
    · subst h
      exact ⟨hdev, hb, hv⟩
    · rw [hother j h]
      exact ⟨rfl, rfl, id⟩
  refine ⟨?_, ?_, fun j => hlru ▸ hI.lru j, ?_, ?_, ?_, disk⟩
  · rw [roles_update_role]
    exact log
  · rw [roles_update_role]
    exact tr
  · intro j k hj hk he
    rw [(eqs j).1] at hj
    rw [(eqs k).1] at hk
    rw [(eqs j).2.1, (eqs k).2.1] at he
    exact hI.uniq j k hj hk he
  · intro j
    by_cases h : j = i
    · subst h
      rw [owners_update_self]
      exact buf
    rw [hother j h, owners_update_of_ne h]
    have hne : (g.buf j).dev = ROOTDEV → (g.buf j).blockno ≠ x.block :=
      fun hd he => h (hI.uniq j i hd hid (he.trans hib.symm))
    refine (hI.buf j).congr ?_ fun hd => wants _ (hne hd)
    unfold pin
    by_cases hd : (g.buf j).dev = ROOTDEV
    · simp only [hd, true_and, pins _ (hne hd)]
    · simp only [hd, false_and]
  · intro b hb'
    by_cases he : b = x.block
    · subst he
      exact ⟨i, hdev.trans hid, hb.trans hib, here hb'⟩
    · obtain ⟨j, hj, hjb, hjv⟩ := hI.resident b ((pins b he).1 hb')
      exact ⟨j, (eqs j).1.trans hj, (eqs j).2.1.trans hjb, (eqs j).2.2 hjv⟩

theorem role_inv {r : Role} {c' : Progress} (hlru : g'.lru = g.lru) (hbuf : g'.buf = g.buf)
    (hdisk : g'.disk = g.disk) (log : LogOk start may c' g'.log (update (roles Λ) p r))
    (tr : TraceOk start d₀ c' g'.trace (update (roles Λ) p r))
    (pins : c'.bs.drop c'.unpinned = c.bs.drop c.unpinned) (hnew : c'.new = c.new)
    (disk : DiskOk start d₀ c' g.disk g'.trace) :
    Inv start may d₀ c' g' (update Λ p ⟨(Λ p).own, r⟩) := by
  refine ⟨?_, ?_, fun j => hlru ▸ hI.lru j, ?_, ?_, ?_, hdisk ▸ disk⟩
  · rw [roles_update_role]
    exact log
  · rw [roles_update_role]
    exact tr
  · rw [hbuf]
    exact hI.uniq
  · intro j
    rw [owners_update_role, hbuf, hdisk]
    refine (hI.buf j).congr ?_ fun _ => ?_
    · simp only [pin, pins]
    · simp only [want, hnew]
  · rw [hbuf, pins]
    exact hI.resident

theorem bget_inv (hl : ∀ j, ((Λ p).own j).loose = none)
    (h : kern.exec p (.bget ROOTDEV b) g = .done i g') :
    Inv start may d₀ c g' (update Λ p ((Λ p).set i ⟨((Λ p).own i).hold, some b⟩)) := by
  rcases bget_cases h with ⟨hlook, rfl⟩ | ⟨hlook, hvic, rfl⟩
  · obtain ⟨hd, rfl⟩ := lookup_some hlook
    exact buf_step hI (f := fun f => { f with refcnt := f.refcnt + 1 }) hI.lru rfl rfl id
      ((hI.buf i).take (hl i) hd)
  have hmiss : ∀ j, (g.buf j).dev = ROOTDEV → (g.buf j).blockno ≠ b :=
    fun j hj hb => lookup_none hlook j (hI.lru j) ⟨hj, hb⟩
  have h0 := victim_some hvic
  have hfree : b ∉ c.bs.drop c.unpinned := by
    intro hm
    obtain ⟨j, hj, hjb, -⟩ := hI.resident b hm
    exact hmiss j hj hjb
  have hother : ∀ j, j ≠ i →
      (g.modBuf i fun f =>
        { f with dev := ROOTDEV, blockno := b, valid := false, refcnt := 1 }).buf j =
        g.buf j := fun j hj => modBuf_of_ne _ _ hj
  refine ⟨?_, ?_, hI.lru, ?_, ?_, ?_, hI.disk⟩
  · rw [roles_set]
    exact hI.log
  · rw [roles_set]
    exact hI.tr
  · intro j k hj hk he
    by_cases h1 : j = i
    · by_cases h2 : k = i
      · exact h1.trans h2.symm
      · rw [h1, modBuf_self, hother k h2] at he
        rw [hother k h2] at hk
        exact absurd he.symm (hmiss k hk)
    by_cases h2 : k = i
    · rw [h2, modBuf_self, hother j h1] at he
      rw [hother j h1] at hj
      exact absurd he (hmiss j hj)
    · rw [hother j h1] at hj he
      rw [hother k h2] at hk he
      exact hI.uniq j k hj hk he
  · intro j
    by_cases h1 : j = i
    · subst h1
      rw [modBuf_self, Ghost.set, owners_update_self]
      exact (hI.buf j).recycle h0 b hfree
    · rw [hother j h1, Ghost.set, owners_update_of_ne h1]
      exact hI.buf j
  · -- the recycled buffer was not pinned, so it is none of the resident ones
    intro b' hb'
    obtain ⟨j, hj, hjb, hjv⟩ := hI.resident b' hb'
    have hji : j ≠ i := by
      rintro rfl
      have hcount := (hI.buf j).count
      rw [h0, pin, if_pos ⟨hj, by rw [hjb]; exact hb'⟩] at hcount
      have hz : (0 : UInt32).toNat = 0 := rfl
      omega
    exact ⟨j, by rw [hother j hji]; exact ⟨hj, hjb, hjv⟩⟩

theorem acquiresleep_inv (hl : ((Λ p).own i).loose = some b)
    (h : kern.exec p (.acquiresleep i) g = .done u g') :
    ((Λ p).own i).hold = none ∧
      Inv start may d₀ c g' (update Λ p ((Λ p).set i ⟨some ⟨b, false, none⟩, none⟩)) := by
  obtain ⟨hlock, rfl⟩ := acquiresleep_done h
  obtain ⟨hnone, hok⟩ := (hI.buf i).acquire (p := p) hlock hl
  exact ⟨hnone, buf_step hI (f := fun f => { f with lock := some p }) hI.lru rfl rfl id hok⟩

theorem disk_want (hb : b ∉ c.bs.drop c.unpinned) : g.disk b = want start c g.disk b := by
  unfold want
  split_ifs with hlog
  · rfl
  · refine hI.disk.home b hlog fun hm => hb ?_
    exact (List.drop_sublist_drop_left c.bs hI.log.unpin).subset hm

theorem fill_inv (hx : (Λ p).own i = ⟨some ⟨b, false, none⟩, none⟩)
    (h : kern.exec p (.fill i) g = .done u g') :
    Inv start may d₀ c g' (update Λ p ((Λ p).set i ⟨some ⟨b, true, none⟩, none⟩)) := by
  have hp : (owners Λ i p).hold = some ⟨b, false, none⟩ := by rw [owners, hx]
  obtain ⟨hd, hb, -⟩ := (hI.buf i).hold p _ hp
  rcases fill_cases h with ⟨hv, rfl⟩ | ⟨hv, rfl⟩
  · have hok := (hI.buf i).hold_step (y := ⟨b, true, none⟩) hx rfl rfl rfl rfl rfl
      (fun _ => hv) (fun _ h => by cases h)
      fun _ hv => (hI.buf i).cached hd hv ((hI.buf i).mine_none hp rfl)
    have := buf_step hI (f := id) (show ∀ j, j ∈ g'.lru from hI.lru) rfl rfl id hok
    rwa [show ({ g'.modBuf i id with lru := g'.lru } : Kern) = g' by simp [Kern.modBuf]] at this
  have hnot : b ∉ c.bs.drop c.unpinned := by
    intro hm
    obtain ⟨j, hj, hjb, hjv⟩ := hI.resident b hm
    rw [hI.uniq j i hj hd (hjb.trans hb.symm), hv] at hjv
    cases hjv
  refine buf_step hI (f := fun f => { f with valid := true, data := g.disk f.blockno }) hI.lru
    rfl rfl (fun _ => rfl) ((hI.buf i).hold_step hx rfl rfl rfl rfl rfl (fun _ => rfl)
      (fun _ h => by cases h) ?_)
  intro _ _
  rw [hb]
  exact disk_want hI hnot

theorem setData_inv {d : Block} (hx : (Λ p).own i = ⟨some x, none⟩) (hf : x.filled = true)
    (h : kern.exec p (.setData i d) g = .done u g') :
    Inv start may d₀ c g'
      (update Λ p ((Λ p).set i ⟨some { x with mine := some d }, none⟩)) := by
  obtain rfl := setData_done h
  obtain ⟨-, -, hv⟩ := (hI.buf i).hold p x (by rw [owners, hx])
  exact buf_step hI (f := fun f => { f with data := d }) hI.lru rfl rfl id
    ((hI.buf i).hold_step hx rfl rfl rfl rfl rfl (fun _ => hv hf)
    (fun _ h => Option.some.inj h) (fun h => by cases h))

theorem unlock_inv (hx : (Λ p).own i = ⟨some x, none⟩) (hm : x.mine = none)
    (h : kern.exec p (.unlock i) g = .done u g') :
    Inv start may d₀ c g' (update Λ p ((Λ p).set i ⟨none, some x.block⟩)) := by
  obtain ⟨-, rfl⟩ := unlock_done h
  exact buf_step hI (f := fun f => { f with lock := none }) hI.lru rfl rfl id
    ((hI.buf i).unlock hx hm)

theorem unref_inv (hx : (Λ p).own i = ⟨none, some b⟩) (h : kern.exec p (.unref i) g = .done u g') :
    Inv start may d₀ c g' (update Λ p ((Λ p).set i Own.none)) := by
  obtain rfl := unref_done h
  exact buf_step hI (f := fun f => { f with refcnt := f.refcnt - 1 })
    (fun j => mem_unrefLru g i j (hI.lru j)) rfl rfl id ((hI.buf i).drop hx)

theorem data_eq (hx : ((Λ p).own i).hold = some x) (hf : x.filled = true) (hm : x.mine = none) :
    (g.buf i).data = want start c g.disk x.block := by
  obtain ⟨hd, hb, hv⟩ := (hI.buf i).hold p x hx
  rw [(hI.buf i).cached hd (hv hf) ((hI.buf i).mine_none hx hm), hb]

theorem lock_eq (hx : ((Λ p).own i).hold = some x) : (g.buf i).lock = some p :=
  ((hI.buf i).lock p).2 (by rw [owners, hx]; rfl)

end

end Xv6.LogBuffers
