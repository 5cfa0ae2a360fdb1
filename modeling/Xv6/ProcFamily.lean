import Xv6.ProcInvariant

set_option autoImplicit false

namespace Xv6.ProcInvariant
open ProcCode
open LogCode (Proc)
open Function (forall_update_iff update update_of_ne update_self)

variable {st : Proc → ProcState} {par : Proc → Option Proc} {job : Proc → Job}
  {chan : Proc → Option Chan} {ctx : Proc → Context} {dead : Proc → Bool} {phase : Proc → Phase}
variable {u p q : Proc} {j : Job} {s : Stage}

theorem TreeJob.busy (h : TreeJob st par u j) (hj : j ≠ .idle) : Alive (st u) := by
  cases j with
  | idle => exact absurd rfl hj
  | making q s => exact h.1
  | leaving o a G k => exact h.1
  | waiting S k c => exact h.1
  | drowsy χ => exact h

theorem TreeJob.congr {st' : Proc → ProcState} {par' : Proc → Option Proc} (h : TreeJob st par u j)
    (halive : j ≠ .idle → Alive (st' u))
    (hmake : ∀ q s, j = .making q s → st' q = st q ∧ par' q = par q)
    (hkids : ∀ q, par q = some u → par' q = some u ∧ (st q = .zombie → st' q = .zombie))
    (hnew : u ≠ initproc → ∀ q, par' q = some u → par q = some u)
    (hown : j ≠ .idle → par' u = par u ∨ par' u = some initproc) : TreeJob st' par' u j := by
  cases j with
  | idle => trivial
  | making q s =>
    obtain ⟨-, hq, hp⟩ := h
    obtain ⟨hq', hp'⟩ := hmake q s rfl
    exact ⟨halive nofun, hq'.trans hq, hp'.trans hp⟩
  | leaving o a G k =>
    obtain ⟨-, hinit, hgiven, horig, hkid⟩ := h
    refine ⟨halive nofun, hinit, fun q hq hq' => hgiven q hq (hnew hinit q hq'), fun v hv => ?_,
      fun q hq => (hkids q (hkid q hq)).1⟩
    obtain ⟨hpar, hv', hne⟩ := horig v hv
    refine ⟨?_, fun h => hv' (hnew hinit v h), hne⟩
    rcases hown nofun with hown | hown
    · rw [hown]
      exact hpar
    · exact .inr hown
  | waiting S k c =>
    refine ⟨halive nofun, fun q hq => ?_⟩
    obtain ⟨hpar, hz⟩ := h.2 q hq
    exact ⟨(hkids q hpar).1, fun hc => (hkids q hpar).2 (hz hc)⟩
  | drowsy χ => exact halive nofun

theorem maker_update (h : ∃ u s, job u = .making q s)
    (hp : ∀ s, job p = .making q s → ∃ s', j = .making q s') :
    ∃ u s, update job p j u = .making q s := by
  obtain ⟨u, s, hu⟩ := h
  by_cases hup : u = p
  · rw [hup] at hu
    obtain ⟨s', hs'⟩ := hp s hu
    exact ⟨p, s', by rw [update_self, hs']⟩
  · exact ⟨u, s, by rw [update_of_ne hup, hu]⟩

section

variable (h : Tree st par job)
include h

theorem Tree.setJob (hj : TreeJob st par p j)
    (hmake : ∀ q s, job p = .making q s → par q = none ∨ ∃ s', j = .making q s') :
    Tree st par (update job p j) := by
  constructor
  · exact h.alive
  · exact h.irrefl
  · exact h.orphan
  · exact h.init
  · exact h.root
  · intro q hq
    by_cases hp : par q = none
    · exact .inl hp
    · refine .inr (maker_update ((h.unused q hq).resolve_left hp) fun s hs => ?_)
      exact (hmake q s hs).resolve_left hp
  · exact (forall_update_iff job (TreeJob st par)).2 ⟨hj, fun u _ => h.job u⟩

theorem Tree.making (hjob : job p = .making q s) :
    st q = .unused ∧ Alive (st p) ∧ par q = if s.isParented then some p else none := by
  have := h.job p
  rw [hjob] at this
  exact ⟨this.2.1, this.1, this.2.2⟩

theorem Tree.remake {s' : Stage} (hjob : job p = .making q s)
    (hs : s'.isParented = s.isParented) : Tree st par (update job p (.making q s')) := by
  obtain ⟨hq, halive, hpar⟩ := h.making hjob
  refine h.setJob ⟨halive, hq, by rw [hpar, hs]⟩ fun x r hx => .inr ?_
  cases hjob.symm.trans hx
  exact ⟨s', rfl⟩

theorem Tree.state {s : ProcState} (hu : s = .unused ↔ st q = .unused)
    (hz : s = .zombie ↔ st q = .zombie) :
    Tree (update st q s) par job := by
  constructor
  · grind [h.alive, Alive]
  · exact h.irrefl
  · grind [h.orphan]
  · grind [h.init, Alive]
  · exact h.root
  · grind [h.unused]
  · intro u
    have hbusy := (h.job u).busy
    have hmaking (x : Proc) (s' : Stage) (hj : job u = .making x s') := (h.making hj).1
    apply (h.job u).congr
    · grind [Alive]
    · grind
    · grind
    · exact fun _ _ hx => hx
    · exact fun _ => .inl rfl

theorem Tree.exited (hinit : p ≠ initproc) (hkids : ∀ x, par x ≠ some p) (halive : Alive (st p))
    (hjob : ∀ q s, job p ≠ .making q s) :
    Tree (update st p .zombie) par (update job p .idle) := by
  constructor
  · grind [h.alive]
  · exact h.irrefl
  · grind [h.orphan, Alive]
  · grind [h.init]
  · exact h.root
  · intro q hq
    have hqp : q ≠ p := by
      intro hqp
      rw [hqp, update_self] at hq
      cases hq
    rw [update_of_ne hqp] at hq
    exact (h.unused q hq).imp_right fun hm => maker_update hm fun s hs => absurd hs (hjob q s)
  · refine (forall_update_iff job (TreeJob _ _)).2 ⟨trivial, fun u hup => ?_⟩
    have hmaking (x : Proc) (s : Stage) (hj : job u = .making x s) := (h.making hj).1
    apply (h.job u).congr
    · intro hj
      rw [update_of_ne hup]
      exact (h.job u).busy hj
    · grind [Alive]
    · grind
    · exact fun _ _ hx => hx
    · exact fun _ => .inl rfl

theorem Tree.adopt {s' : Stage} (hjob : job p = .making q s)
    (hone : ∀ u s, job u = .making q s → u = p) (hs' : s'.isParented = true) :
    Tree st (update par q (some p)) (update job p (.making q s')) := by
  obtain ⟨hq, halive, hpar⟩ := h.making hjob
  have hqp : q ≠ p := by
    intro hqp
    rw [hqp] at hq
    exact halive.1 hq
  have hroot := h.root
  constructor
  · grind [h.alive]
  · grind [h.irrefl]
  · grind [h.orphan]
  · exact h.init
  · grind [h.init, Alive]
  · intro x hx
    by_cases hxq : x = q
    · exact .inr ⟨p, s', by rw [update_self, hxq]⟩
    · rw [update_of_ne hxq]
      refine (h.unused x hx).imp_right fun hm => maker_update hm fun s2 hs2 => ?_
      grind
  · refine (forall_update_iff job (TreeJob _ _)).2 ⟨⟨halive, hq, ?_⟩, fun u hup => ?_⟩
    · rw [update_self, if_pos hs']
    have hbusy := (h.job u).busy
    apply (h.job u).congr
    · exact hbusy
    · grind
    · grind
    · grind
    · grind [Alive]

theorem Tree.disown {o : Option Proc} {a : Bool} {G : Finset Proc}
    (hjob : job p = .leaving o a G (some q)) :
    Tree st (update par q (some initproc))
      (update job p (.leaving o a (insert q G) none)) := by
  have hp := h.job p
  rw [hjob] at hp
  obtain ⟨halive, hinit, hgiven, horig, hkid⟩ := hp
  have hq : par q = some p := hkid q rfl
  have hroot := h.root
  have hmaking (u : Proc) (s : Stage) : job u ≠ .making q s := by
    intro hu
    have := (h.making hu).2.2
    grind
  constructor
  · grind [h.alive, h.init]
  · grind [h.irrefl]
  · grind [h.orphan]
  · exact h.init
  · grind
  · intro x hx
    by_cases hxq : x = q
    · rw [hxq] at hx
      rcases h.unused q hx with hnone | ⟨u, s, hu⟩
      · rw [hq] at hnone
        cases hnone
      · exact absurd hu (hmaking u s)
    · rw [update_of_ne hxq]
      refine (h.unused x hx).imp_right fun hm => maker_update hm fun s2 hs2 => ?_
      rw [hjob] at hs2
      cases hs2
  · refine (forall_update_iff job (TreeJob _ _)).2
      ⟨⟨halive, hinit, ?_, ?_, nofun⟩, fun u hup => ?_⟩
    · grind
    · grind
    have hbusy := (h.job u).busy
    apply (h.job u).congr
    · exact hbusy
    · grind
    · grind
    · grind
    · grind

theorem Tree.start (hjob : job p = .making q s) (hone : ∀ u s, job u = .making q s → u = p)
    (hs : s.isParented = true) :
    Tree (update st q .runnable) par (update job p .idle) := by
  obtain ⟨hq, halive, hpar⟩ := h.making hjob
  rw [if_pos hs] at hpar
  constructor
  · grind [h.alive, Alive]
  · exact h.irrefl
  · grind [h.orphan]
  · grind [h.init, Alive]
  · exact h.root
  · intro x hx
    have hxq : x ≠ q := by
      intro hxq
      rw [hxq, update_self] at hx
      cases hx
    rw [update_of_ne hxq] at hx
    refine (h.unused x hx).imp_right fun hm => maker_update hm fun s2 hs2 => ?_
    grind
  · refine (forall_update_iff job (TreeJob _ _)).2 ⟨trivial, fun u hup => ?_⟩
    have hbusy := (h.job u).busy
    apply (h.job u).congr
    · grind [Alive]
    · grind
    · grind
    · exact fun _ _ hx => hx
    · exact fun _ => .inl rfl

theorem Tree.freed (hq : ¬ Alive (st q)) (hone : ∀ u s, job u = .making q s → u = p)
    (hpar : ∀ u, par q = some u → u = p) (hmake : ∀ x s, job p = .making x s → x = q) :
    Tree (update st q .unused) (update par q none)
      (update job p .idle) := by
  have hne : q ≠ initproc := by
    intro hq'
    rw [hq'] at hq
    exact hq h.init
  constructor
  · grind [h.alive]
  · grind [h.irrefl]
  · grind [h.orphan]
  · grind [h.init]
  · grind [h.root]
  · intro x hx
    by_cases hxq : x = q
    · rw [hxq, update_self]
      exact .inl rfl
    · rw [update_of_ne hxq] at hx ⊢
      refine (h.unused x hx).imp_right fun hm => maker_update hm fun s2 hs2 => ?_
      exact absurd (hmake x s2 hs2) hxq
  · refine (forall_update_iff job (TreeJob _ _)).2 ⟨trivial, fun u hup => ?_⟩
    have hbusy := (h.job u).busy
    by_cases huq : u = q
    · -- The slot itself is not busy.
      have hidle : job u = .idle := by
        by_contra hj
        rw [huq] at hj hbusy
        exact hq (hbusy hj)
      rw [hidle]
      trivial
    · apply (h.job u).congr
      · grind
      · grind
      · grind
      · grind
      · grind

end

section

variable (h : Deaths st ctx job dead phase)
include h

theorem Deaths.setJob (hj : ∀ q s, j = .making q s → s.isReady = true → ctx q = .forkret) :
    Deaths st ctx (update job p j) dead phase := by
  refine ⟨h.unused, h.zombie, h.fresh, ?_⟩
  grind [h.ready]

theorem Deaths.state {s : ProcState} (hu : s = .unused ↔ st q = .unused)
    (hz : s = .zombie ↔ st q = .zombie) :
    Deaths (update st q s) ctx job dead phase := by
  constructor
  · grind [h.unused]
  · grind [h.zombie]
  · grind [h.fresh, Alive]
  · exact h.ready

theorem Deaths.setPhase {f : Phase} (hp : phase p ≠ .parting .zombie) :
    Deaths st ctx job dead (update phase p f) := by
  refine ⟨h.unused, ?_, h.fresh, h.ready⟩
  grind [h.zombie]

theorem Deaths.exited :
    Deaths (update st p .zombie) ctx (update job p .idle) dead
      (update phase p (.parting .zombie)) := by
  constructor
  · grind [h.unused]
  · grind [h.zombie]
  · grind [h.fresh, Alive]
  · grind [h.ready]

theorem Deaths.leave (hp : dead p = false) (hst : st p ≠ .zombie)
    (hjob : ∀ u s, job u ≠ .making p s) :
    Deaths st (update ctx p .saved) job dead (update phase p .off) := by
  constructor
  · exact h.unused
  · grind [h.zombie]
  · grind [h.fresh]
  · grind [h.ready]

theorem Deaths.die (hst : st p = .zombie) (hjob : ∀ u s, job u ≠ .making p s) :
    Deaths st (update ctx p .saved) job (update dead p true)
      (update phase p .off) := by
  constructor
  · grind [h.unused]
  · grind [h.zombie]
  · grind [h.fresh, Alive]
  · grind [h.ready]

theorem Deaths.enter (hst : Alive (st p)) : Deaths st ctx job (update dead p false) phase := by
  constructor
  · grind [h.unused, Alive]
  · grind [h.zombie, Alive]
  · grind [h.fresh]
  · exact h.ready

theorem Deaths.prepare :
    Deaths st (update ctx q .forkret) (update job p (.making q s)) dead
      phase := by
  constructor
  · exact h.unused
  · exact h.zombie
  · grind [h.fresh]
  · grind [h.ready]

theorem Deaths.start (hjob : job p = .making q s) (hs : s.isReady = true) :
    Deaths (update st q .runnable) ctx (update job p .idle) dead phase := by
  have hctx := h.ready p q s hjob hs
  constructor
  · grind [h.unused]
  · grind [h.zombie]
  · grind [h.fresh]
  · grind [h.ready]

theorem Deaths.freed (hdead : dead q = true) :
    Deaths (update st q .unused) ctx (update job p .idle) dead phase := by
  constructor
  · grind [h.unused]
  · grind [h.zombie]
  · grind [h.fresh, Alive]
  · grind [h.ready]

end

theorem Waits.setJob (h : Waits st par chan job) (hj : WaitsJob st par chan p j) :
    Waits st par chan (update job p j) := by
  exact ⟨h.asleep, (forall_update_iff job (WaitsJob st par chan)).2 ⟨hj, fun u _ => h.job u⟩⟩

theorem WaitsJob.congr {st' : Proc → ProcState} {par' : Proc → Option Proc}
    {chan' : Proc → Option Chan} (h : WaitsJob st par chan u j)
    (hawake : ∀ v G k, j = .leaving (some v) true G k → st' v = .sleeping →
      chan' v = some (.proc v) → st v = .sleeping ∧ chan v = some (.proc v))
    (hseen : u ≠ initproc → ∀ q S k c, j = .waiting S k c → par' q = some u → st' q = .zombie →
      par q = some u ∧ st q = .zombie) : WaitsJob st' par' chan' u j := by
  cases j with
  | idle => trivial
  | making q s => trivial
  | leaving o a G k =>
    cases o with
    | none => trivial
    | some v =>
      cases a with
      | false => trivial
      | true =>
        intro hs hc
        obtain ⟨hs', hc'⟩ := hawake v G k rfl hs hc
        exact h hs' hc'
  | waiting S k c =>
    intro hu q hq hp hz
    obtain ⟨hp', hz'⟩ := hseen hu q S k c rfl hp hz
    exact h hu q hq hp' hz'
  | drowsy χ => trivial

section

variable (h : Waits st par chan job)
include h

theorem Waits.state {s : ProcState} (hz : s = .zombie → st q = .zombie)
    (hs : s = .sleeping → st q = .sleeping) :
    Waits (update st q s) par chan job := by
  constructor
  · grind [h.asleep]
  · intro u
    apply (h.job u).congr
    · grind
    · grind

theorem Waits.sleepOn {ch : Chan}
    (hkids : ch = .proc p → p ≠ initproc → ∀ x, par x = some p → st x ≠ .zombie)
    (hother : ∀ u G k, job u ≠ .leaving (some p) true G k) :
    Waits (update st p .sleeping) par (update chan p (some ch)) job := by
  constructor
  · grind [h.asleep]
  · intro u
    apply (h.job u).congr
    · grind
    · grind

theorem Waits.clearChan : Waits st par (update chan p none) job := by
  constructor
  · grind [h.asleep]
  · intro u
    apply (h.job u).congr
    · grind
    · grind

theorem Waits.exited (hpar : ∀ u, par p = some u → u ≠ initproc →
      (st u = .sleeping → chan u ≠ some (.proc u)) ∧ ∀ S k c, job u ≠ .waiting S k c) :
    Waits (update st p .zombie) par chan (update job p .idle) := by
  constructor
  · grind [h.asleep]
  · refine (forall_update_iff job (WaitsJob _ _ _)).2 ⟨trivial, fun u hup => ?_⟩
    apply (h.job u).congr
    · grind
    · grind

theorem Waits.setParent {o : Option Proc}
    (hq : st q ≠ .zombie ∨ o = some initproc) : Waits st (update par q o) chan job := by
  constructor
  · grind [h.asleep]
  · intro u
    apply (h.job u).congr
    · grind
    · grind

theorem Waits.freed : Waits (update st q .unused) (update par q none) (update chan q none) job := by
  constructor
  · grind [h.asleep]
  · intro u
    apply (h.job u).congr
    · grind
    · grind

end

end Xv6.ProcInvariant
