import Xv6.Dirents
import Xv6.Sequential

set_option autoImplicit false

namespace Xv6.InodeRuns
open Resumption Xv6.Sequential KernelTables InodeCode Dirents
open LogCode (Proc BSIZE)
open Function (update update_idem update_of_ne update_self)

variable {e : Inode} {x' : Slot → ℕ} {l' : Finset Slot} {β : Type}

abbrev alone (N : ℕ) (p : Proc) {α : Type} (c : Prog Act α) : Code Fs α :=
  Sequential.alone (machine N) p c

/-- The code returns and satisfies `Q`, or it needs an entry of the inode cache and there is none
    left, which is not so if `fits`. -/
abbrev Gets (fits : Prop) {α : Type} (c : Code Fs α) (Q : α → Fs → Prop) (g : Fs) : Prop :=
  EndsBy fits "iget: no inodes" c Q g

structure Alive (N : ℕ) (b : Slot → ℤ) (g : Fs) (n : ℕ) : Prop where
  num : n < N
  type : (g.ino n).attr.type ≠ 0
  stays : (g.ino n).attr.nlink ≠ 0 ∨ ∃ s, 0 < b s ∧ (g.tables.icache s).inum = n

structure DirData (data : List UInt8) : Prop where
  aligned : data.length % DIRENT = 0
  size : data.length ≤ MAXFILE * BSIZE

structure Near (N : ℕ) (p : Proc) (b : Slot → ℤ) (x : Slot → ℕ) (l : Finset Slot) (g : Fs) :
    Prop where
  base : ∀ s, 0 ≤ b s
  ref : ∀ s, (g.tables.icache s).ref = b s + x s
  lock : ∀ s, (g.tables.icache s).lock = if s ∈ l then some p else none
  read : ∀ s ∈ l, (g.tables.icache s).valid = true ∧ 0 < (g.tables.icache s).ref
  uniq : ∀ s s', 0 < (g.tables.icache s).ref → 0 < (g.tables.icache s').ref →
    (g.tables.icache s).inum = (g.tables.icache s').inum → s = s'
  synced : ∀ s, 0 < (g.tables.icache s).ref → (g.tables.icache s).valid = true →
    (g.tables.icache s).attr = (g.ino (g.tables.icache s).inum).attr
  alive : ∀ s, 0 < (g.tables.icache s).ref → Alive N b g (g.tables.icache s).inum
  dirs : ∀ n < N, (g.ino n).attr.type = T_DIR → DirData (g.ino n).data ∧
    ∀ e ∈ dirents (g.ino n).data, e.inum ≠ 0 → Alive N b g e.inum
  root : Alive N b g ROOTINO

structure Frame (g g' : Fs) : Prop where
  ino : g'.ino = g.ino
  cwd : g'.tables.cwd = g.tables.cwd
  kept : ∀ s, 0 < (g.tables.icache s).ref → (g'.tables.icache s).inum = (g.tables.icache s).inum

def put (g : Fs) (s : Slot) (e : Inode) : Fs :=
  { g with tables := { g.tables with icache := update g.tables.icache s e } }

@[simp] theorem put_self (g : Fs) (s : Slot) (e : Inode) : (put g s e).tables.icache s = e :=
  update_self _ _ _

theorem put_of_ne (g : Fs) {s r : Slot} (e : Inode) (h : r ≠ s) :
    (put g s e).tables.icache r = g.tables.icache r := update_of_ne h _ _

variable {N : ℕ} {p : Proc} {b : Slot → ℤ} {x : Slot → ℕ} {l : Finset Slot} {g : Fs} {s : Slot}
  {n : ℕ}

theorem frame_put (h : 0 < (g.tables.icache s).ref → e.inum = (g.tables.icache s).inum) :
    Frame g (put g s e) := by
  refine ⟨rfl, rfl, fun r hr => ?_⟩
  by_cases hrs : r = s
  · rw [hrs] at hr ⊢
    rw [put_self, h hr]
  · rw [put_of_ne g e hrs]

theorem Alive.put (h : Alive N b g n) (hbase : 0 < b s → e.inum = (g.tables.icache s).inum) :
    Alive N b (put g s e) n := by
  refine ⟨h.num, h.type, h.stays.imp_right ?_⟩
  rintro ⟨r, hr, hinum⟩
  refine ⟨r, hr, ?_⟩
  by_cases hrs : r = s
  · rw [hrs] at hr hinum ⊢
    rw [put_self, hbase hr, hinum]
  · rw [put_of_ne g e hrs, hinum]

structure Fits (N : ℕ) (p : Proc) (b : Slot → ℤ) (x : Slot → ℕ) (l : Finset Slot) (g : Fs)
    (s : Slot) (e : Inode) : Prop where
  ref : e.ref = b s + x s
  lock : e.lock = if s ∈ l then some p else none
  read : s ∈ l → e.valid = true ∧ 0 < e.ref
  uniq : 0 < e.ref → ∀ r ≠ s, 0 < (g.tables.icache r).ref → (g.tables.icache r).inum ≠ e.inum
  synced : 0 < e.ref → e.valid = true → e.attr = (g.ino e.inum).attr
  alive : 0 < e.ref → Alive N b (put g s e) e.inum

theorem Near.change {b' : Slot → ℤ} (h : Near N p b x l g) (hb : ∀ r, 0 ≤ b' r)
    (hother : ∀ r ≠ s, b' r = b r ∧ x' r = x r) (hl : ∀ r ≠ s, (r ∈ l' ↔ r ∈ l))
    (halive : ∀ m, Alive N b g m → Alive N b' (put g s e) m) (he : Fits N p b' x' l' g s e) :
    Near N p b' x' l' (put g s e) where
  base := hb
  ref := by
    intro r
    by_cases hrs : r = s
    · rw [hrs, put_self, he.ref]
    · rw [put_of_ne g e hrs, h.ref r, (hother r hrs).1, (hother r hrs).2]
  lock := by
    intro r
    by_cases hrs : r = s
    · rw [hrs, put_self, he.lock]
    · rw [put_of_ne g e hrs, h.lock r]
      simp only [hl r hrs]
  read := by
    intro r hr
    by_cases hrs : r = s
    · rw [hrs] at hr ⊢
      rw [put_self]
      exact he.read hr
    · rw [put_of_ne g e hrs]
      exact h.read r ((hl r hrs).1 hr)
  uniq := by
    intro r r' hr hr' heq
    by_cases hrs : r = s
    · by_cases hrs' : r' = s
      · rw [hrs, hrs']
      · rw [hrs, put_self] at hr heq
        rw [put_of_ne g e hrs'] at hr' heq
        exact absurd heq.symm (he.uniq hr r' hrs' hr')
    · rw [put_of_ne g e hrs] at hr heq
      by_cases hrs' : r' = s
      · rw [hrs', put_self] at hr' heq
        exact absurd heq (he.uniq hr' r hrs hr)
      · rw [put_of_ne g e hrs'] at hr' heq
        exact h.uniq r r' hr hr' heq
  synced := by
    intro r
    by_cases hrs : r = s
    · rw [hrs, put_self]
      exact he.synced
    · rw [put_of_ne g e hrs]
      exact h.synced r
  alive := by
    intro r
    by_cases hrs : r = s
    · rw [hrs, put_self]
      exact he.alive
    · rw [put_of_ne g e hrs]
      exact fun hr => halive _ (h.alive r hr)
  dirs := fun m hm hdir =>
    ⟨(h.dirs m hm hdir).1, fun e' he' hne => halive _ ((h.dirs m hm hdir).2 e' he' hne)⟩
  root := halive _ h.root

theorem Near.put (h : Near N p b x l g) (hx : ∀ r ≠ s, x' r = x r) (hl : ∀ r ≠ s, (r ∈ l' ↔ r ∈ l))
    (hbase : 0 < b s → e.inum = (g.tables.icache s).inum) (he : Fits N p b x' l' g s e) :
    Near N p b x' l' (put g s e) :=
  h.change h.base (fun r hrs => ⟨rfl, hx r hrs⟩) hl (fun _ hm => hm.put hbase) he

theorem Near.fits {ref : ℤ} {lock : Option Proc} (h : Near N p b x l g)
    (hpos : 0 < (g.tables.icache s).ref) (href : ref = b s + x' s)
    (hlock : lock = if s ∈ l' then some p else none)
    (hread : s ∈ l' → (g.tables.icache s).valid = true ∧ 0 < ref) :
    Fits N p b x' l' g s { g.tables.icache s with ref := ref, lock := lock } where
  ref := href
  lock := hlock
  read := hread
  uniq := fun _ r hrs hr heq => hrs (h.uniq r s hr hpos heq)
  synced := fun _ hvalid => h.synced s hpos hvalid
  alive := fun _ => (h.alive s hpos).put fun _ => rfl

theorem table_done {a : TableAct β} {c : β} {k : Tables} (h : execTable p a g.tables = .done c k) :
    alone N p (table a) g = .done c { g with tables := k } := by
  refine (congrFun (alone_perform (machine N) p (Act.table a)) g).trans ?_
  change exec N p (.table a) g = _
  simp only [exec, h]

theorem table_panic {a : TableAct β} {msg : String} (h : execTable p a g.tables = .panic msg) :
    alone N p (table a) g = .panic msg := by
  refine (congrFun (alone_perform (machine N) p (Act.table a)) g).trans ?_
  change exec N p (.table a) g = _
  simp only [exec, h]

theorem inode_alone (a : InodeAct β) : alone N p (inode a) g = execInode N p a g :=
  congrFun (alone_perform (machine N) p (Act.inode a)) g

theorem alone_bind_done {α : Type} {c : Prog Act α} {f : α → Prog Act β} {a : α} {g' : Fs}
    (h : alone N p c g = .done a g') : alone N p (c >>= f) g = alone N p (f a) g' := by
  rw [alone, alone_bind]
  exact bind_of_done h

theorem Near.unlocked (h : Near N p b x l g) (hs : s ∉ l) : (g.tables.icache s).lock = none := by
  rw [h.lock, if_neg hs]

theorem Near.locked (h : Near N p b x l g) (hs : s ∈ l) : (g.tables.icache s).lock = some p := by
  rw [h.lock, if_pos hs]

theorem Near.usable (h : Near N p b x l g) (hs : s ∈ l) : Usable N p s g.tables :=
  ⟨h.locked hs, (h.read s hs).1, (h.alive s (h.read s hs).2).num⟩

def inodeOf (g : Fs) (s : Slot) : Dinode := g.ino (g.tables.icache s).inum

theorem Near.attr_eq (h : Near N p b x l g) (hs : s ∈ l) :
    (g.tables.icache s).attr = (inodeOf g s).attr :=
  h.synced s (h.read s hs).2 (h.read s hs).1

theorem Near.ref_pos (h : Near N p b x l g) (hs : 0 < b s ∨ 0 < x s) :
    0 < (g.tables.icache s).ref := by
  have hb := h.base s
  rw [h.ref]
  omega

structure Kept (b : Slot → ℤ) (g g' : Fs) : Prop where
  ino : g'.ino = g.ino
  cwd : g'.tables.cwd = g.tables.cwd
  inum : ∀ s, 0 < b s → (g'.tables.icache s).inum = (g.tables.icache s).inum

theorem Kept.refl (b : Slot → ℤ) (g : Fs) : Kept b g g := ⟨rfl, rfl, fun _ _ => rfl⟩

theorem Kept.trans {g1 g2 : Fs} (h : Kept b g g1) (h' : Kept b g1 g2) : Kept b g g2 :=
  ⟨h'.ino.trans h.ino, h'.cwd.trans h.cwd,
    fun s hs => (h'.inum s hs).trans (h.inum s hs)⟩

theorem Near.kept {g' : Fs} (h : Near N p b x l g) (hframe : Frame g g') : Kept b g g' :=
  ⟨hframe.ino, hframe.cwd, fun s hs => hframe.kept s (h.ref_pos (.inl hs))⟩

section Slots

variable (h : Near N p b x l g)

include h

theorem iget_new (hnew : ∀ r, 0 < (g.tables.icache r).ref → (g.tables.icache r).inum ≠ n) :
    (∃ s, (g.tables.icache s).ref = 0 ∧ alone N p (table (.iget n)) g =
      .done s (put g s { g.tables.icache s with inum := n, ref := 1, valid := false })) ∨
    (¬ ∃ s, (g.tables.icache s).ref = 0) ∧
      alone N p (table (.iget n)) g = .panic "iget: no inodes" := by
  have hcached : cached g.tables n = none := by
    refine List.find?_eq_none.2 fun r _ hfound => ?_
    rw [decide_eq_true_eq] at hfound
    exact hnew r hfound.1 hfound.2
  cases hempty : emptySlot g.tables with
  | some s =>
    have hzero := List.find?_some hempty
    rw [decide_eq_true_eq] at hzero
    have hunlocked : s ∉ l := by
      intro hs
      have := (h.read s hs).2
      omega
    refine .inl ⟨s, hzero, table_done ?_⟩
    simp only [execTable, hcached, hempty]
    rw [if_pos (h.unlocked hunlocked)]
    rfl
  | none =>
    refine .inr ⟨?_, table_panic (by simp only [execTable, hcached, hempty])⟩
    rintro ⟨s, hzero⟩
    have := List.find?_eq_none.1 hempty s (List.mem_finRange s)
    exact this (decide_eq_true hzero)

theorem ends_iget (hn : Alive N b g n) :
    Gets (∃ s, (g.tables.icache s).ref = 0) (alone N p (table (.iget n)))
      (fun s g' => Near N p b (update x s (x s + 1)) l g' ∧
        (g'.tables.icache s).inum = n ∧ Frame g g') g := by
  have hother : ∀ (s r : Slot), r ≠ s → update x s (x s + 1) r = x r :=
    fun s r hrs => update_of_ne hrs _ _
  cases hcached : cached g.tables n with
  | some s =>
    have hfound := List.find?_some hcached
    rw [decide_eq_true_eq] at hfound
    obtain ⟨hpos, hnum⟩ := hfound
    refine .inl ⟨s, put g s { g.tables.icache s with ref := (g.tables.icache s).ref + 1 },
      table_done (by simp only [execTable, hcached]; rfl),
      h.put (hother s) (fun _ _ => Iff.rfl) (fun _ => rfl) (h.fits hpos ?_ (h.lock s) ?_),
      ?_, frame_put fun _ => rfl⟩
    · rw [h.ref, update_self, Nat.cast_succ, add_assoc]
    · exact fun hs => ⟨(h.read s hs).1, by omega⟩
    · rw [put_self]
      exact hnum
  | none =>
    have hnew : ∀ r, 0 < (g.tables.icache r).ref → (g.tables.icache r).inum ≠ n := by
      intro r hr heq
      have := List.find?_eq_none.1 hcached r (List.mem_finRange r)
      exact this (decide_eq_true ⟨hr, heq⟩)
    rcases iget_new h hnew with ⟨s, hzero, hrun⟩ | hfull
    · have hsum := h.ref s
      have hbase := h.base s
      refine .inl ⟨s, _, hrun, h.put (hother s) (fun _ _ => Iff.rfl) (fun hb => by omega) ?_,
        by rw [put_self], frame_put fun hr => by omega⟩
      refine ⟨?_, h.lock s, fun hs => ?_, fun _ r _ hr => hnew r hr, nofun,
        fun _ => hn.put fun hb => by omega⟩
      · dsimp only
        rw [update_self]
        omega
      · have := (h.read s hs).2
        omega
    · exact .inr hfull

theorem ends_idup (hs : 0 < b s) :
    Returns (alone N p (table (.idup s)))
      (fun _ g' => Near N p b (update x s (x s + 1)) l g' ∧ Frame g g' ∧
        (g'.tables.icache s).inum = (g.tables.icache s).inum) g := by
  have hpos := h.ref_pos (.inl hs)
  refine ⟨(), put g s { g.tables.icache s with ref := (g.tables.icache s).ref + 1 },
    table_done rfl, h.put (fun r hrs => update_of_ne hrs _ _) (fun _ _ => Iff.rfl)
      (fun _ => rfl) (h.fits hpos ?_ (h.lock s) ?_), frame_put fun _ => rfl, by rw [put_self]⟩
  · rw [h.ref, update_self, Nat.cast_succ, add_assoc]
  · exact fun hs => ⟨(h.read s hs).1, by omega⟩

theorem ends_ilock (hpos : 0 < (g.tables.icache s).ref) (hs : s ∉ l) :
    Returns (alone N p (ilock s))
      (fun _ g' => Near N p b x (insert s l) g' ∧ Frame g g' ∧
        (g'.tables.icache s).inum = (g.tables.icache s).inum) g := by
  have hlock := h.unlocked hs
  have halive := h.alive s hpos
  have hcheck : execTable p (.checkRef s) g.tables = .done () g.tables := by
    simp only [execTable]
    rw [if_neg (by omega)]
  have hacquire : execTable p (.acquiresleep s) g.tables =
      .done () (g.tables.modInode s fun ip => { ip with lock := some p }) := by
    simp only [execTable, hlock]
  have hload : alone N p (inode (.load s))
      (InodeRuns.put g s { g.tables.icache s with lock := some p }) =
      .done () (InodeRuns.put g s { g.tables.icache s with
        lock := some p, valid := true, attr := (g.ino (g.tables.icache s).inum).attr }) := by
    rw [inode_alone]
    simp only [execInode, put_self, ne_eq, not_true_eq_false, ↓reduceIte]
    by_cases hvalid : (g.tables.icache s).valid = true
    · rw [if_pos hvalid, ← h.synced s hpos hvalid, ← hvalid]
    · rw [if_neg hvalid, if_pos halive.num]
      change (if (g.ino (g.tables.icache s).inum).attr.type = 0 then _ else _) = _
      rw [if_neg halive.type]
      unfold InodeRuns.put Tables.modInode
      simp only [update_self, update_idem]
  refine ⟨(), InodeRuns.put g s { g.tables.icache s with
      lock := some p, valid := true, attr := (g.ino (g.tables.icache s).inum).attr }, ?_,
    h.put (fun _ _ => rfl) (fun r hrs => by rw [Finset.mem_insert, or_iff_right hrs])
      (fun _ => rfl) ?_, frame_put fun _ => rfl, by rw [put_self]⟩
  · unfold ilock
    rw [alone_bind_done (table_done hcheck), alone_bind_done (table_done hacquire)]
    exact hload
  · refine ⟨h.ref s, (if_pos (Finset.mem_insert_self s l)).symm, fun _ => ⟨rfl, hpos⟩,
      ?_, fun _ _ => rfl, fun _ => halive.put fun _ => rfl⟩
    exact fun _ r hrs hr heq => hrs (h.uniq r s hr hpos heq)

theorem getInode_alone (hs : s ∈ l) :
    alone N p (table (.getInode s)) g = .done (g.tables.icache s) g := by
  refine table_done ?_
  simp only [execTable, withLock]
  rw [if_pos (h.locked hs)]

theorem iunlock_alone (hs : s ∈ l) : alone N p (table (.iunlock s)) g =
    .done () (InodeRuns.put g s { g.tables.icache s with lock := none }) := by
  obtain ⟨-, hpos⟩ := h.read s hs
  refine table_done ?_
  simp only [execTable]
  rw [if_pos ⟨h.locked hs, by omega⟩]
  rfl

theorem Near.unlock (hs : s ∈ l) :
    Near N p b x (l.erase s) (InodeRuns.put g s { g.tables.icache s with lock := none }) := by
  refine h.put (fun _ _ => rfl) (fun r hrs => by rw [Finset.mem_erase, and_iff_right hrs])
    (fun _ => rfl) (h.fits (h.read s hs).2 (h.ref s) ?_ ?_)
  · exact (if_neg (Finset.notMem_erase s l)).symm
  · exact fun hmem => absurd hmem (Finset.notMem_erase s l)

theorem ends_iunlock (hs : s ∈ l) :
    Returns (alone N p (table (.iunlock s)))
      (fun _ g' => Near N p b x (l.erase s) g' ∧ Frame g g' ∧
        (g'.tables.icache s).inum = (g.tables.icache s).inum) g :=
  ⟨(), _, iunlock_alone h hs, h.unlock hs, frame_put fun _ => rfl, by rw [put_self]⟩

theorem Near.not_freed (hx : 0 < x s) : ¬ ((g.tables.icache s).ref = 1 ∧
    (g.tables.icache s).valid = true ∧ (g.tables.icache s).attr.nlink = 0) := by
  rintro ⟨hone, hvalid, hlink⟩
  have hpos : 0 < (g.tables.icache s).ref := by omega
  rw [h.synced s hpos hvalid] at hlink
  rcases (h.alive s hpos).stays with hne | ⟨r, hr, heq⟩
  · exact hne hlink
  · have hrs := h.uniq r s (h.ref_pos (.inl hr)) hpos heq
    have hsum := h.ref s
    rw [hrs] at hr
    omega

theorem ends_iput (hx : 0 < x s) (hs : s ∉ l) :
    Returns (alone N p (iput s))
      (fun _ g' => Near N p b (update x s (x s - 1)) l g' ∧ Frame g g' ∧
        ∀ r, (g'.tables.icache r).inum = (g.tables.icache r).inum) g := by
  have hsum := h.ref s
  have hbase := h.base s
  have hcs : execTable p (.iputCs s) g.tables =
      .done false (g.tables.modInode s fun ip => { ip with ref := ip.ref - 1 }) := by
    simp only [execTable]
    rw [if_neg (h.not_freed hx)]
  refine ⟨(), InodeRuns.put g s { g.tables.icache s with ref := (g.tables.icache s).ref - 1 }, ?_,
    h.put (fun r hrs => update_of_ne hrs _ _) (fun _ _ => Iff.rfl) (fun _ => rfl)
      (h.fits (by omega) ?_ (h.lock s) fun hmem => absurd hmem hs), frame_put fun _ => rfl,
    fun r => ?_⟩
  · unfold iput
    rw [alone_bind_done (table_done hcs)]
    rfl
  · rw [hsum, update_self]
    omega
  · by_cases hrs : r = s
    · rw [hrs, put_self]
    · rw [put_of_ne g _ hrs]

theorem ends_iunlockput (hx : 0 < x s) (hs : s ∈ l) :
    Returns (alone N p (iunlockput s))
      (fun _ g' => Near N p b (update x s (x s - 1)) (l.erase s) g' ∧ Frame g g') g := by
  obtain ⟨⟨⟩, g1, hrun, hnear, hframe, -⟩ := ends_iunlock h hs
  obtain ⟨⟨⟩, g2, hrun', hnear', hframe', hinum⟩ :=
    ends_iput hnear hx (Finset.notMem_erase s l)
  refine ⟨(), g2, ?_, hnear', hframe'.ino.trans hframe.ino, hframe'.cwd.trans hframe.cwd,
    fun r hr => ?_⟩
  · unfold iunlockput
    rw [alone_bind_done hrun]
    exact hrun'
  · rw [hinum, hframe.kept r hr]

end Slots

end Xv6.InodeRuns
