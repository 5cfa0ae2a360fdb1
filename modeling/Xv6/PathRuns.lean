import Xv6.InodeRuns

set_option autoImplicit false

namespace Xv6.PathRuns
open Resumption Xv6.Sequential KernelTables InodeCode Dirents InodeRuns
open LogCode (Proc BSIZE)
open Function (update update_of_ne update_self)

variable {path name data : List UInt8} {k : ℕ}

/-- The parts between slashes that are not empty, cut to `DIRSIZ` bytes. -/
def elements (path : List UInt8) : List (List UInt8) :=
  ((path.splitOn slash).filter (· ≠ [])).map (List.take DIRSIZ)

theorem elements_slash (path : List UInt8) : elements (slash :: path) = elements path := by
  unfold elements List.splitOn
  rw [List.splitOnP_cons_eq_if_modifyHead, if_pos (beq_self_eq_true slash)]
  rfl

theorem elements_dropWhile (path : List UInt8) :
    elements (path.dropWhile (· = slash)) = elements path := by
  induction path with
  | nil => rfl
  | cons c path ih =>
    by_cases hc : c = slash
    · rw [List.dropWhile_cons_of_pos (by simpa using hc), ih, hc, elements_slash]
    · rw [List.dropWhile_cons_of_neg (by simpa using hc)]

theorem elements_word {w : List UInt8} (hw : slash ∉ w) (hne : w ≠ []) (path : List UInt8) :
    elements (w ++ slash :: path) = w.take DIRSIZ :: elements path := by
  have hno : ∀ c ∈ w, (c == slash) = false := by
    intro c hc
    rw [beq_eq_false_iff_ne]
    rintro rfl
    exact hw hc
  unfold elements List.splitOn
  rw [List.splitOnP_append_cons_of_forall_mem hno slash (beq_self_eq_true slash),
    List.filter_cons_of_pos (by simpa using hne), List.map_cons]

theorem elements_last {w : List UInt8} (hw : slash ∉ w) (hne : w ≠ []) :
    elements w = [w.take DIRSIZ] := by
  have hno : ∀ c ∈ w, (c == slash) = false := by
    intro c hc
    rw [beq_eq_false_iff_ne]
    rintro rfl
    exact hw hc
  unfold elements List.splitOn
  rw [List.splitOnP_eq_singleton hno, List.filter_cons_of_pos (by simpa using hne)]
  rfl

theorem dropWhile_slash_head {c : UInt8} {cs : List UInt8}
    (h : path.dropWhile (· = slash) = c :: cs) : c ≠ slash := by
  have hhead := List.head?_dropWhile_not (fun c => decide (c = slash)) path
  rw [h] at hhead
  simpa using hhead

theorem elements_ne_nil {c : UInt8} (hc : c ≠ slash) (cs : List UInt8) :
    elements (c :: cs) ≠ [] := by
  intro hnil
  unfold elements List.splitOn at hnil
  rw [List.splitOnP_cons_eq_if_modifyHead, if_neg (by simpa using hc), List.map_eq_nil_iff] at hnil
  cases hsplit : List.splitOnP (· == slash) cs with
  | nil => exact List.splitOnP_ne_nil _ _ hsplit
  | cons w ws =>
    rw [hsplit, List.modifyHead_cons, List.filter_cons_of_pos (by simp)] at hnil
    cases hnil

theorem skipelem_none (h : skipelem path = none) : elements path = [] := by
  unfold skipelem at h
  split at h
  · next hnil =>
    rw [← elements_dropWhile, hnil]
    rfl
  · cases h

theorem skipelem_some {rest : List UInt8} (h : skipelem path = some (name, rest)) :
    elements path = name :: elements rest ∧ (rest = [] ↔ elements rest = []) ∧
      rest.length < path.length := by
  unfold skipelem at h
  split at h
  · cases h
  next c cs hcons =>
  cases h
  have hc := dropWhile_slash_head hcons
  have hw : slash ∉ (c :: cs).takeWhile (· ≠ slash) := by
    intro hmem
    have hall := List.all_eq_true.1 (List.all_takeWhile) slash hmem
    simp at hall
  have hne : (c :: cs).takeWhile (· ≠ slash) ≠ [] := by
    rw [List.takeWhile_cons_of_pos (by simpa using hc)]
    exact List.cons_ne_nil _ _
  have hsplit := List.takeWhile_append_dropWhile (p := (· ≠ slash)) (l := c :: cs)
  refine ⟨?_, ?_, ?_⟩
  · rw [← elements_dropWhile, hcons]
    cases hrest : (c :: cs).dropWhile (· ≠ slash) with
    | nil =>
      rw [hrest, List.append_nil] at hsplit
      rw [hsplit] at hw hne ⊢
      exact elements_last hw hne
    | cons d ds =>
      have hd : d = slash := by
        have hhead := List.head?_dropWhile_not (fun c => decide (c ≠ slash)) (c :: cs)
        rw [hrest] at hhead
        simpa using hhead
      rw [hrest, hd] at hsplit
      have hword := elements_word hw hne ds
      rw [hsplit] at hword
      rw [hword, elements_dropWhile, hd, elements_slash]
  · cases hrest : ((c :: cs).dropWhile (· ≠ slash)).dropWhile (· = slash) with
    | nil => exact ⟨fun _ => rfl, fun _ => rfl⟩
    | cons d ds =>
      exact iff_of_false (List.cons_ne_nil _ _) (elements_ne_nil (dropWhile_slash_head hrest) ds)
  · have hlen := congrArg List.length hsplit
    rw [List.length_append] at hlen
    have hpos := List.length_pos_iff.2 hne
    have hdrop := (List.dropWhile_suffix (l := (c :: cs).dropWhile (· ≠ slash))
      fun c => decide (c = slash)).length_le
    have hpath := (List.dropWhile_suffix (l := path) fun c => decide (c = slash)).length_le
    rw [hcons] at hpath
    omega

def slotOf (data : List UInt8) (name : List UInt8) : Option ℕ :=
  (dirents data).findIdx? fun e => e.inum ≠ 0 ∧ e.name = name

def lookup (ino : ℕ → Dinode) (n : ℕ) (name : List UInt8) : Option ℕ :=
  (slotOf (ino n).data name).map fun k => (dirent (ino n).data k).inum

def Matches (data name : List UInt8) (k : ℕ) : Prop :=
  (dirent data k).inum ≠ 0 ∧ (dirent data k).name = name

theorem dirents_get (data : List UInt8) (hk : k < (dirents data).length) :
    (dirents data)[k] = dirent data k := by
  rw [dirents_length] at hk
  simp [dirents]

theorem slotOf_some :
    slotOf data name = some k ↔ k < (dirents data).length ∧ Matches data name k ∧
      ∀ j < k, ¬ Matches data name j := by
  unfold slotOf
  rw [List.findIdx?_eq_some_iff_getElem]
  constructor
  · rintro ⟨hk, hmatch, hbefore⟩
    rw [dirents_get, decide_eq_true_eq] at hmatch
    refine ⟨hk, hmatch, fun j hj hm => hbefore j hj ?_⟩
    rw [dirents_get, decide_eq_true_eq]
    exact hm
  · rintro ⟨hk, hmatch, hbefore⟩
    refine ⟨hk, ?_, fun j hj => ?_⟩
    · rw [dirents_get, decide_eq_true_eq]
      exact hmatch
    · rw [dirents_get, decide_eq_true_eq]
      exact hbefore j hj

theorem slotOf_none :
    slotOf data name = none ↔ ∀ k < (dirents data).length, ¬ Matches data name k := by
  unfold slotOf
  rw [List.findIdx?_eq_none_iff]
  constructor
  · intro h k hk hmatch
    have := h _ (List.getElem_mem hk)
    rw [dirents_get, decide_eq_false_iff_not] at this
    exact this hmatch
  · intro h e he
    obtain ⟨k, hk, rfl⟩ := List.getElem_of_mem he
    rw [dirents_get, decide_eq_false_iff_not]
    exact h k hk

variable {N : ℕ} {p : Proc} {b : Slot → ℤ} {x : Slot → ℕ} {l : Finset Slot} {g : Fs} {s : Slot}

theorem size_alone (h : Near N p b x l g) (hs : s ∈ l) :
    alone N p (inode (.size s)) g = .done (inodeOf g s).data.length g := by
  rw [inode_alone]
  simp only [execInode]
  rw [if_pos (h.usable hs)]
  rfl

theorem readDirent_alone (h : Near N p b x l g) (hs : s ∈ l)
    (hsize : (inodeOf g s).data.length ≤ MAXFILE * BSIZE)
    (hk : k < (dirents (inodeOf g s).data).length) (msg : String) :
    alone N p (readDirent s (DIRENT * k) msg) g = .done (dirent (inodeOf g s).data k) g := by
  have hread : alone N p (inode (.readi s (UInt32.ofNat (DIRENT * k)) (UInt32.ofNat DIRENT)
      DIRENT)) g = .done (readData (inodeOf g s).data (UInt32.ofNat (DIRENT * k))
        (UInt32.ofNat DIRENT) DIRENT) g := by
    rw [inode_alone]
    simp only [execInode]
    rw [if_pos (h.usable hs)]
    rfl
  unfold readDirent
  rw [alone_bind_done hread, if_neg (not_not.2 (readData_dirent_length hsize hk)),
    readData_dirent hsize hk]
  rfl

theorem mul_lt_length (hdata : DirData data) (k : ℕ) :
    DIRENT * k < data.length ↔ k < (dirents data).length := by
  have halign := hdata.aligned
  have hD : DIRENT = 16 := rfl
  rw [dirents_length]
  rw [hD] at halign ⊢
  omega

section Lookup

variable (h : Near N p b x l g) (hs : s ∈ l) (hdata : DirData (inodeOf g s).data)

include h hs hdata

theorem dirlookupFrom_next (fuel : ℕ) (hk : k < (dirents (inodeOf g s).data).length)
    (hno : ¬ Matches (inodeOf g s).data name k) :
    alone N p (dirlookupFrom s name (fuel + 1) (DIRENT * k)) g =
      alone N p (dirlookupFrom s name fuel (DIRENT * (k + 1))) g := by
  unfold Matches at hno
  rw [dirlookupFrom, alone_bind_done (size_alone h hs), if_pos ((mul_lt_length hdata k).2 hk),
    alone_bind_done (readDirent_alone h hs hdata.size hk _), if_neg hno]
  rfl

def answer (data : List UInt8) : Option ℕ → Prog Act (Option (Slot × ℕ))
  | none => return none
  | some k => do
    let ip ← table (.iget (dirent data k).inum)
    return some (ip, DIRENT * k)

theorem dirlookupFrom_alone (name : List UInt8) (fuel k : ℕ)
    (hfuel : (dirents (inodeOf g s).data).length < k + fuel)
    (hbefore : ∀ j < k, ¬ Matches (inodeOf g s).data name j) :
    alone N p (dirlookupFrom s name fuel (DIRENT * k)) g =
      alone N p (answer (inodeOf g s).data (slotOf (inodeOf g s).data name)) g := by
  induction fuel generalizing k with
  | zero =>
    have hnone : slotOf (inodeOf g s).data name = none :=
      slotOf_none.2 fun j hj => hbefore j (by omega)
    rw [hnone]
    rfl
  | succ fuel ih =>
    by_cases hk : k < (dirents (inodeOf g s).data).length
    · by_cases hmatch : Matches (inodeOf g s).data name k
      · rw [slotOf_some.2 ⟨hk, hmatch, hbefore⟩, dirlookupFrom,
          alone_bind_done (size_alone h hs), if_pos ((mul_lt_length hdata k).2 hk),
          alone_bind_done (readDirent_alone h hs hdata.size hk _)]
        unfold Matches at hmatch
        rw [if_pos hmatch]
        rfl
      · rw [dirlookupFrom_next h hs hdata fuel hk hmatch]
        refine ih (k + 1) (by omega) fun j hj => ?_
        rcases Nat.lt_succ_iff_lt_or_eq.1 hj with hlt | rfl
        · exact hbefore j hlt
        · exact hmatch
    · have hnone : slotOf (inodeOf g s).data name = none :=
        slotOf_none.2 fun j hj => hbefore j (by omega)
      rw [hnone, dirlookupFrom, alone_bind_done (size_alone h hs),
        if_neg (fun hlt => hk ((mul_lt_length hdata k).1 hlt))]
      rfl

theorem dirlookup_alone (hdir : (inodeOf g s).attr.type = T_DIR) (name : List UInt8) :
    alone N p (dirlookup s name) g =
      alone N p (answer (inodeOf g s).data (slotOf (inodeOf g s).data name)) g := by
  have htype : ¬ (g.tables.icache s).attr.type ≠ T_DIR := by
    rw [not_not, h.attr_eq hs]
    exact hdir
  rw [dirlookup, alone_bind_done (getInode_alone h hs), if_neg htype,
    alone_bind_done (size_alone h hs)]
  refine dirlookupFrom_alone h hs hdata name _ 0 ?_ nofun
  rw [dirents_length]
  omega

end Lookup

theorem ends_dirlookup (h : Near N p b x l g) (hs : s ∈ l)
    (hdir : (inodeOf g s).attr.type = T_DIR) (name : List UInt8) :
    Gets (∃ r, (g.tables.icache r).ref = 0) (alone N p (dirlookup s name))
      (fun r g' => match slotOf (inodeOf g s).data name with
        | none => r = none ∧ g' = g
        | some k => ∃ ip, r = some (ip, DIRENT * k) ∧
          Near N p b (update x ip (x ip + 1)) l g' ∧
          (g'.tables.icache ip).inum = (dirent (inodeOf g s).data k).inum ∧ Frame g g') g := by
  obtain ⟨hdata, hentries⟩ := h.dirs _ (h.alive s (h.read s hs).2).num hdir
  apply EndsBy.of_run (dirlookup_alone h hs hdata hdir name)
  cases hslot : slotOf (inodeOf g s).data name with
  | none => exact endsBy_pure ⟨rfl, rfl⟩
  | some k =>
    obtain ⟨hk, hmatch, -⟩ := slotOf_some.1 hslot
    have hmem : dirent (inodeOf g s).data k ∈ dirents (inodeOf g s).data := by
      rw [← dirents_get _ hk]
      exact List.getElem_mem hk
    refine (ends_iget h (hentries _ hmem hmatch.1)).alone_bind ?_
    rintro ip g' ⟨hnear, hnum, hframe⟩
    exact endsBy_pure ⟨ip, rfl, hnear, hnum, hframe⟩

def follow (ino : ℕ → Dinode) : ℕ → List (List UInt8) → Option ℕ
  | n, [] => some n
  | n, name :: rest =>
    if (ino n).attr.type = T_DIR then (lookup ino n name).bind fun m => follow ino m rest else none

def resolve (ino : ℕ → Dinode) (nameiparent : Bool) : ℕ → List (List UInt8) →
    Option (ℕ × List UInt8)
  | n, [] => if nameiparent then none else some (n, [])
  | n, name :: rest =>
    if (ino n).attr.type = T_DIR then
      if nameiparent ∧ rest = [] then some (n, name)
      else (lookup ino n name).bind fun m => resolve ino nameiparent m rest
    else none

theorem resolve_false (ino : ℕ → Dinode) (n : ℕ) (path : List (List UInt8)) :
    (resolve ino false n path).map Prod.fst = follow ino n path := by
  induction path generalizing n with
  | nil => rfl
  | cons name rest ih =>
    simp only [resolve, follow, Bool.false_eq_true, false_and, ↓reduceIte]
    by_cases hdir : (ino n).attr.type = T_DIR
    · rw [if_pos hdir, if_pos hdir]
      cases lookup ino n name with
      | none => rfl
      | some m => exact ih m
    · rw [if_neg hdir, if_neg hdir]
      rfl

theorem resolve_true (ino : ℕ → Dinode) (n d : ℕ) (path : List (List UInt8)) (name : List UInt8) :
    resolve ino true n path = some (d, name) ↔
      ∃ front, path = front ++ [name] ∧ follow ino n front = some d ∧
        (ino d).attr.type = T_DIR := by
  induction path generalizing n with
  | nil =>
    refine iff_of_false nofun ?_
    rintro ⟨front, hnil, -⟩
    exact List.cons_ne_nil _ _ (List.append_eq_nil_iff.1 hnil.symm).2
  | cons first rest ih =>
    unfold resolve
    by_cases hdir : (ino n).attr.type = T_DIR
    · rw [if_pos hdir]
      by_cases hlast : rest = []
      · rw [if_pos ⟨rfl, hlast⟩, hlast]
        constructor
        · intro heq
          cases heq
          exact ⟨[], rfl, rfl, hdir⟩
        · rintro ⟨front, hfront, hfollow, -⟩
          cases front with
          | nil =>
            cases hfront
            cases hfollow
            rfl
          | cons c front =>
            have hlen := congrArg List.length hfront
            simp at hlen
      · rw [if_neg (fun hboth => hlast hboth.2)]
        constructor
        · intro heq
          obtain ⟨m, hlook, hrest⟩ := Option.bind_eq_some_iff.1 heq
          obtain ⟨front, rfl, hfollow, htype⟩ := (ih m).1 hrest
          refine ⟨first :: front, rfl, ?_, htype⟩
          rw [follow, if_pos hdir, hlook]
          exact hfollow
        · rintro ⟨front, hfront, hfollow, htype⟩
          cases front with
          | nil =>
            cases hfront
            exact absurd rfl hlast
          | cons c front =>
            cases hfront
            rw [follow, if_pos hdir] at hfollow
            obtain ⟨m, hlook, hrest⟩ := Option.bind_eq_some_iff.1 hfollow
            rw [hlook]
            exact (ih m).2 ⟨front, rfl, hrest, htype⟩
    · rw [if_neg hdir]
      refine iff_of_false nofun ?_
      rintro ⟨front, hfront, hfollow, htype⟩
      cases front with
      | nil =>
        cases hfollow
        exact hdir htype
      | cons c front =>
        cases hfront
        rw [follow, if_neg hdir] at hfollow
        cases hfollow

theorem follow_append (ino : ℕ → Dinode) (n : ℕ) (front back : List (List UInt8)) :
    follow ino n (front ++ back) = (follow ino n front).bind fun m => follow ino m back := by
  induction front generalizing n with
  | nil => rfl
  | cons name front ih =>
    rw [List.cons_append, follow, follow]
    by_cases hdir : (ino n).attr.type = T_DIR
    · rw [if_pos hdir, if_pos hdir, Option.bind_assoc]
      congr 1
      funext m
      exact ih m
    · rw [if_neg hdir, if_neg hdir]
      rfl

def single (r : Option Slot) : Slot → ℕ := fun s => if r = some s then 1 else 0

theorem update_single_none (s : Slot) :
    update (single none) s (single none s + 1) = single (some s) := by
  funext r
  by_cases hrs : r = s
  · rw [hrs, update_self]
    simp [single]
  · rw [update_of_ne hrs]
    simp [single, Ne.symm hrs]

theorem update_single_self (s : Slot) :
    update (single (some s)) s (single (some s) s - 1) = single none := by
  funext r
  by_cases hrs : r = s
  · rw [hrs, update_self]
    simp [single]
  · rw [update_of_ne hrs]
    simp [single, Ne.symm hrs]

theorem update_single_move (s r : Slot) :
    update (update (single (some s)) r (single (some s) r + 1)) s
      (update (single (some s)) r (single (some s) r + 1) s - 1) = single (some r) := by
  funext q
  by_cases hqs : q = s
  · rw [hqs, update_self]
    by_cases hrs : r = s
    · simp [single, hrs]
    · simp [single, hrs, Ne.symm hrs]
  rw [update_of_ne hqs]
  by_cases hqr : q = r
  · rw [hqr, update_self]
    rw [hqr] at hqs
    simp [single, Ne.symm hqs]
  · rw [update_of_ne hqr]
    simp [single, Ne.symm hqs, Ne.symm hqr]

theorem update_single_pos (s r : Slot) :
    0 < update (single (some s)) r (single (some s) r + 1) s := by
  by_cases hsr : s = r
  · rw [hsr, update_self]
    exact Nat.succ_pos _
  · rw [update_of_ne hsr]
    simp [single]

def spare (b : Slot → ℤ) : ℕ := (Finset.univ.filter fun s => b s = 0).card

theorem spare_left (h : Near N p b (single (some s)) l g) (hspare : 2 ≤ spare b) :
    ∃ r, (g.tables.icache r).ref = 0 := by
  obtain ⟨r, hr, hrs⟩ := Finset.exists_mem_ne hspare s
  refine ⟨r, ?_⟩
  rw [h.ref, (Finset.mem_filter.1 hr).2]
  simp [single, Ne.symm hrs]

theorem spare_any (h : Near N p b (single none) l g) (hspare : 2 ≤ spare b) :
    ∃ r, (g.tables.icache r).ref = 0 := by
  obtain ⟨r, hr⟩ := Finset.card_pos.1 (Nat.lt_of_lt_of_le Nat.two_pos hspare)
  refine ⟨r, ?_⟩
  rw [h.ref, (Finset.mem_filter.1 hr).2]
  rfl

structure Gone (N : ℕ) (p : Proc) (b : Slot → ℤ) (target : Option (ℕ × List UInt8)) (g : Fs)
    (r : Option (Slot × List UInt8)) (g' : Fs) : Prop where
  near : Near N p b (single (r.map Prod.fst)) ∅ g'
  kept : Kept b g g'
  result : r.map (fun q => ((g'.tables.icache q.1).inum, q.2)) = target

theorem single_pos (s : Slot) : 0 < single (some s) s := by simp [single]

theorem ends_namexEnd (nameiparent : Bool) (h : Near N p b (single (some s)) ∅ g) :
    Returns (alone N p (namexFrom.namexEnd nameiparent s))
      (fun r g' => Gone N p b (if nameiparent then none else some ((g.tables.icache s).inum, []))
        g r g') g := by
  unfold namexFrom.namexEnd
  cases nameiparent with
  | false => exact ⟨some (s, []), g, rfl, h, Kept.refl b g, rfl⟩
  | true =>
    obtain ⟨⟨⟩, g₁, hrun, hnear, hframe, -⟩ := ends_iput h (single_pos s) (Finset.notMem_empty s)
    rw [update_single_self] at hnear
    refine ⟨none, g₁, ?_, hnear, h.kept hframe, rfl⟩
    rw [if_pos rfl, alone_bind_done hrun]
    rfl

theorem ends_namexFrom (nameiparent : Bool) (fuel : ℕ) (path : List UInt8)
    (hfuel : path.length ≤ fuel) (h : Near N p b (single (some s)) ∅ g) :
    Gets (2 ≤ spare b) (alone N p (namexFrom nameiparent fuel s path))
      (fun r g' => Gone N p b
        (resolve g.ino nameiparent (g.tables.icache s).inum (elements path)) g r g') g := by
  induction fuel generalizing s path g with
  | zero =>
    have hnil : path = [] := List.length_eq_zero_iff.1 (Nat.le_zero.1 hfuel)
    rw [hnil]
    exact .inl (ends_namexEnd nameiparent h)
  | succ fuel ih =>
    unfold namexFrom
    cases hskip : skipelem path with
    | none =>
      rw [skipelem_none hskip]
      exact .inl (ends_namexEnd nameiparent h)
    | some q =>
      obtain ⟨name, rest⟩ := q
      obtain ⟨helements, hrest, hlen⟩ := skipelem_some hskip
      have hpos := h.ref_pos (.inr (single_pos s))
      obtain ⟨⟨⟩, g₁, hlock, hnear, hframe, hinum⟩ := ends_ilock h hpos (Finset.notMem_empty s)
      have hmem : s ∈ insert s (∅ : Finset Slot) := Finset.mem_insert_self s _
      have hempty : (insert s (∅ : Finset Slot)).erase s = ∅ :=
        Finset.erase_insert (Finset.notMem_empty s)
      have hkept := h.kept hframe
      have hattr : (g₁.tables.icache s).attr = (g.ino (g.tables.icache s).inum).attr := by
        rw [hnear.attr_eq hmem]
        unfold inodeOf
        rw [hframe.ino, hinum]
      dsimp only
      rw [helements, resolve]
      apply EndsBy.of_run (alone_bind_done hlock)
      apply EndsBy.of_run (alone_bind_done (getInode_alone hnear hmem))
      rw [hattr]
      by_cases hdir : (g.ino (g.tables.icache s).inum).attr.type = T_DIR
      · rw [if_neg (not_not.2 hdir), if_pos hdir]
        by_cases hlast : nameiparent = true ∧ rest = []
        · have hlast' : nameiparent = true ∧ elements rest = [] := ⟨hlast.1, hrest.1 hlast.2⟩
          rw [if_pos hlast, if_pos hlast']
          obtain ⟨⟨⟩, g2, hunlock, hnear', hframe', hinum'⟩ := ends_iunlock hnear hmem
          rw [hempty] at hnear'
          refine .inl ⟨some (s, name), g2, ?_, hnear', hkept.trans (hnear.kept hframe'), ?_⟩
          · rw [alone_bind_done hunlock]
            rfl
          · change some ((g2.tables.icache s).inum, name) = _
            rw [hinum', hinum]
        · have hlast' : ¬ (nameiparent = true ∧ elements rest = []) :=
            fun hboth => hlast ⟨hboth.1, hrest.2 hboth.2⟩
          rw [if_neg hlast, if_neg hlast']
          have hsame : inodeOf g₁ s = g.ino (g.tables.icache s).inum := by
            unfold inodeOf
            rw [hframe.ino, hinum]
          have hlook := ends_dirlookup hnear hmem (by rw [hsame]; exact hdir) name
          rw [hsame] at hlook
          refine (hlook.mono (fun hspare => spare_left hnear hspare) fun _ _ hq => hq).alone_bind ?_
          intro r g2 hfound
          unfold lookup
          cases hslot : slotOf (g.ino (g.tables.icache s).inum).data name with
          | none =>
            rw [hslot] at hfound
            obtain ⟨rfl, rfl⟩ := hfound
            obtain ⟨⟨⟩, g3, hput, hnear', hframe'⟩ := ends_iunlockput hnear (single_pos s) hmem
            rw [hempty, update_single_self] at hnear'
            refine .inl ⟨none, g3, ?_, hnear', hkept.trans (hnear.kept hframe'), rfl⟩
            change alone N p (iunlockput s >>= fun _ => pure none) _ = _
            rw [alone_bind_done hput]
            rfl
          | some k =>
            rw [hslot] at hfound
            obtain ⟨ip, rfl, hnear2, hnum, hframe2⟩ := hfound
            obtain ⟨⟨⟩, g3, hput, hnear3, hframe3⟩ :=
              ends_iunlockput hnear2 (update_single_pos s ip) hmem
            rw [hempty, update_single_move] at hnear3
            have hpos2 : 0 < (g2.tables.icache ip).ref := by
              apply hnear2.ref_pos
              right
              rw [update_self]
              exact Nat.succ_pos _
            have hnum3 : (g3.tables.icache ip).inum =
                (dirent (g.ino (g.tables.icache s).inum).data k).inum := by
              rw [hframe3.kept ip hpos2, hnum]
            have hkept3 : Kept b g g3 :=
              (hkept.trans (hnear.kept hframe2)).trans (hnear2.kept hframe3)
            have hnext := ih rest (by omega) hnear3
            rw [hnum3, hkept3.ino] at hnext
            refine EndsBy.of_run (alone_bind_done hput) (hnext.mono id ?_)
            intro r g' hgone
            exact ⟨hgone.near, hkept3.trans hgone.kept, hgone.result⟩
      · rw [if_pos hdir, if_neg hdir]
        obtain ⟨⟨⟩, g2, hput, hnear', hframe'⟩ := ends_iunlockput hnear (single_pos s) hmem
        rw [hempty, update_single_self] at hnear'
        refine .inl ⟨none, g2, ?_, hnear', hkept.trans (hnear.kept hframe'), rfl⟩
        rw [alone_bind_done hput]
        rfl

def start (g : Fs) (cwd : Slot) (path : List UInt8) : ℕ :=
  if path.head? = some slash then ROOTINO else (g.tables.icache cwd).inum

theorem ends_namex {cwd : Slot} (h : Near N p b (single none) ∅ g)
    (hcwd : g.tables.cwd p = some cwd) (hused : 0 < b cwd) (path : List UInt8)
    (nameiparent : Bool) :
    Gets (2 ≤ spare b) (alone N p (namex path nameiparent))
      (fun r g' => Gone N p b (resolve g.ino nameiparent (start g cwd path) (elements path)) g r g')
      g := by
  have hgo : ∀ ip g₁, Near N p b (single (some ip)) ∅ g₁ → Frame g g₁ →
      (g₁.tables.icache ip).inum = start g cwd path →
      Gets (2 ≤ spare b) (alone N p (namexFrom nameiparent path.length ip path))
        (fun r g' => Gone N p b
          (resolve g.ino nameiparent (start g cwd path) (elements path)) g r g') g₁ := by
    intro ip g₁ hnear hframe hnum
    have hrun := ends_namexFrom nameiparent path.length path le_rfl hnear
    rw [hnum, hframe.ino] at hrun
    refine hrun.mono id fun r g' hgone => ?_
    exact ⟨hgone.near, (h.kept hframe).trans hgone.kept, hgone.result⟩
  unfold namex
  by_cases hroot : path.head? = some slash
  · rw [if_pos hroot]
    refine ((ends_iget h h.root).mono (fun hspare => spare_any h hspare)
      fun _ _ hq => hq).alone_bind ?_
    rintro ip g₁ ⟨hnear, hnum, hframe⟩
    rw [update_single_none] at hnear
    refine hgo ip g₁ hnear hframe ?_
    rw [hnum, start, if_pos hroot]
  obtain ⟨⟨⟩, g₁, hdup, hnear, hframe, hnum⟩ := ends_idup h hused
  rw [update_single_none] at hnear
  have hget : alone N p (table .getCwd) g = .done cwd g := by
    refine table_done ?_
    simp only [execTable, hcwd]
  rw [if_neg hroot]
  refine EndsBy.of_run (alone_bind_done hget) (EndsBy.of_run (alone_bind_done hdup)
    (hgo cwd g₁ hnear hframe ?_))
  rw [hnum, start, if_neg hroot]

theorem ends_namei {cwd : Slot} (h : Near N p b (single none) ∅ g)
    (hcwd : g.tables.cwd p = some cwd) (hused : 0 < b cwd) (path : List UInt8) :
    Gets (2 ≤ spare b) (alone N p (namei path))
      (fun r g' => Near N p b (single r) ∅ g' ∧ Kept b g g' ∧
        r.map (fun s => (g'.tables.icache s).inum) =
          follow g.ino (start g cwd path) (elements path)) g := by
  refine (ends_namex h hcwd hused path false).alone_bind fun r g' hgone => ?_
  refine endsBy_pure ⟨hgone.near, hgone.kept, ?_⟩
  rw [← resolve_false, ← hgone.result, Option.map_map, Option.map_map]
  rfl

def refsOf (g : Fs) : Slot → ℤ := fun s => (g.tables.icache s).ref

structure Quiet (N : ℕ) (p : Proc) (cwd : Slot) (g : Fs) : Prop where
  near : Near N p (refsOf g) (single none) ∅ g
  dir : g.tables.cwd p = some cwd
  used : 0 < (g.tables.icache cwd).ref

structure Neutral (g : Fs) (r : Option Slot) (g' : Fs) : Prop where
  ino : g'.ino = g.ino
  cwd : g'.tables.cwd = g.tables.cwd
  ref : ∀ s, (g'.tables.icache s).ref = (g.tables.icache s).ref + if r = some s then 1 else 0
  kept : ∀ s, 0 < (g.tables.icache s).ref →
    (g'.tables.icache s).inum = (g.tables.icache s).inum
  lock : ∀ s, (g'.tables.icache s).lock = none

theorem Near.neutral {r : Option Slot} {g' : Fs} (h : Near N p (refsOf g) (single r) ∅ g')
    (hkept : Kept (refsOf g) g g') : Neutral g r g' where
  ino := hkept.ino
  cwd := hkept.cwd
  ref := by
    intro s
    rw [h.ref s, refsOf, single]
    push_cast
    rfl
  kept := hkept.inum
  lock := fun s => h.unlocked (Finset.notMem_empty s)

/-- `namei` follows the elements of a path, `nameiparent` those before the last. Both leave one
    reference, to the inode they return. -/
theorem paths_resolve {cwd : Slot} (h : Quiet N p cwd g) (path : List UInt8) :
    Gets (2 ≤ spare (refsOf g)) (alone N p (namei path))
      (fun r g' => Neutral g r g' ∧ r.map (fun s => (g'.tables.icache s).inum) =
        follow g.ino (start g cwd path) (elements path)) g ∧
    Gets (2 ≤ spare (refsOf g)) (alone N p (nameiparent path))
      (fun r g' => Neutral g (r.map Prod.fst) g' ∧ ∀ d name,
        r.map (fun q => ((g'.tables.icache q.1).inum, q.2)) = some (d, name) ↔
          ∃ front, elements path = front ++ [name] ∧
            follow g.ino (start g cwd path) front = some d ∧ (g.ino d).attr.type = T_DIR) g ∧
    ∀ front name d, elements path = front ++ [name] →
      follow g.ino (start g cwd path) front = some d → (g.ino d).attr.type = T_DIR →
      follow g.ino (start g cwd path) (elements path) = lookup g.ino d name ∧
      ∀ b x l g₁ s, Near N p b x l g₁ → g₁.ino = g.ino → s ∈ l →
        (g₁.tables.icache s).inum = d →
        Gets (∃ r, (g₁.tables.icache r).ref = 0) (alone N p (dirlookup s name))
          (fun r g' => r.map (fun q => (g'.tables.icache q.1).inum) = lookup g.ino d name) g₁ := by
  refine ⟨?_, ?_, fun front name d hpath hfront hdir => ⟨?_, ?_⟩⟩
  · refine (ends_namei h.near h.dir h.used path).mono id fun r g' hfound => ?_
    obtain ⟨hnear, hkept, hinum⟩ := hfound
    exact ⟨Near.neutral hnear hkept, hinum⟩
  · refine (ends_namex h.near h.dir h.used path true).mono id fun r g' hgone => ?_
    refine ⟨Near.neutral hgone.near hgone.kept, fun d name => ?_⟩
    rw [hgone.result, resolve_true]
  · rw [hpath, follow_append, hfront]
    change follow g.ino d [name] = _
    rw [follow, if_pos hdir]
    cases lookup g.ino d name <;> rfl
  · intro b x l g₁ s hnear hino hs hnum
    have hsame : inodeOf g₁ s = g.ino d := by
      unfold inodeOf
      rw [hino, hnum]
    have hlook := ends_dirlookup hnear hs (by rw [hsame]; exact hdir) name
    refine hlook.mono id fun r g' hfound => ?_
    rw [hsame] at hfound
    unfold lookup
    cases hslot : slotOf (g.ino d).data name with
    | none =>
      rw [hslot] at hfound
      rw [hfound.1]
      rfl
    | some k =>
      rw [hslot] at hfound
      obtain ⟨ip, rfl, -, hinum, -⟩ := hfound
      exact congrArg some hinum

def smallDisk : ℕ → Dinode
  | 1 => ⟨⟨T_DIR, 0, 0, 1⟩, encode ⟨1, dot⟩ ++ encode ⟨1, dotdot⟩ ++ encode ⟨2, [97]⟩⟩
  | 2 => ⟨⟨T_FILE, 0, 0, 1⟩, []⟩
  | _ => ⟨⟨0, 0, 0, 0⟩, []⟩

/-- After boot one process runs, in the root directory, and every inode is on disk only. -/
def bootTables : Tables where
  icache := fun s => if s = 0 then ⟨ROOTINO, 1, none, false, ⟨0, 0, 0, 0⟩⟩
    else ⟨0, 0, none, false, ⟨0, 0, 0, 0⟩⟩
  cwd := fun p => if p = 0 then some 0 else none

def smallFs : Fs := ⟨bootTables, smallDisk⟩

section Boot

variable {ino : ℕ → Dinode}

theorem icache_boot (s : Slot) (h : 0 < (bootTables.icache s).ref) : s = 0 := by
  by_contra hne
  change 0 < (if s = 0 then _ else _ : Inode).ref at h
  rw [if_neg hne] at h
  exact absurd h (by decide)

theorem near_boot (hlinks : ∀ n < N, (ino n).attr.type ≠ 0 → (ino n).attr.nlink ≠ 0)
    (hdirs : ∀ n < N, (ino n).attr.type = T_DIR → DirData (ino n).data ∧
      ∀ e ∈ dirents (ino n).data, e.inum ≠ 0 → e.inum < N ∧ (ino e.inum).attr.type ≠ 0)
    (hroot : ROOTINO < N ∧ (ino ROOTINO).attr.type ≠ 0) (p : Proc) :
    Near N p (refsOf ⟨bootTables, ino⟩) (single none) ∅ ⟨bootTables, ino⟩ := by
  have halive : ∀ n < N, (ino n).attr.type ≠ 0 →
      Alive N (refsOf ⟨bootTables, ino⟩) ⟨bootTables, ino⟩ n :=
    fun n hn htype => ⟨hn, htype, .inl (hlinks n hn htype)⟩
  have hnone : ∀ s, bootTables.icache s = bootTables.icache 0 ∨ bootTables.icache s =
      ⟨0, 0, none, false, ⟨0, 0, 0, 0⟩⟩ := by
    intro s
    by_cases hs : s = 0
    · exact .inl (by rw [hs])
    · exact .inr (if_neg hs)
  refine ⟨fun s => ?_, fun s => (add_zero _).symm, fun s => ?_, nofun,
    fun s s' hs hs' _ => (icache_boot s hs).trans (icache_boot s' hs').symm,
    fun s hs hvalid => ?_, fun s hs => ?_, fun n hn hdir => ⟨(hdirs n hn hdir).1, ?_⟩,
    halive _ hroot.1 hroot.2⟩
  · change 0 ≤ (bootTables.icache s).ref
    rcases hnone s with h | h
    · rw [h]
      decide
    · rw [h]
  · change (bootTables.icache s).lock = _
    rcases hnone s with h | h
    · rw [h]
      rfl
    · rw [h]
      rfl
  · rw [icache_boot s hs] at hvalid
    exact absurd (show (bootTables.icache 0).valid = true from hvalid) (by decide)
  · rw [icache_boot s hs]
    exact halive _ hroot.1 hroot.2
  · intro e he hne
    obtain ⟨hnum, htype⟩ := (hdirs n hn hdir).2 e he hne
    exact halive _ hnum htype

end Boot

theorem quiet_smallFs : Quiet 3 0 0 smallFs where
  near := by
    refine near_boot (by decide) (fun n hn htype => ?_) (by decide) 0
    obtain rfl : n = 1 := by
      have hall : ∀ n < 3, (smallDisk n).attr.type = T_DIR → n = 1 := by decide
      exact hall n hn htype
    exact ⟨⟨by decide, by decide⟩, by decide⟩
  dir := rfl
  used := by decide

theorem spare_smallFs : 2 ≤ spare (refsOf smallFs) := by decide

theorem paths_resolve_smallFs :
    ∃ s g', alone 3 0 (namei [slash, 97]) smallFs = .done (some s) g' ∧
      (g'.tables.icache s).inum = 2 ∧ Neutral smallFs (some s) g' := by
  obtain ⟨r, g', hrun, hneutral, hinum⟩ :=
    (paths_resolve quiet_smallFs [slash, 97]).1.sure spare_smallFs
  have hfollow : follow smallFs.ino (start smallFs 0 [slash, 97]) (elements [slash, 97]) =
      some 2 := by decide
  rw [hfollow] at hinum
  obtain ⟨s, rfl, hs⟩ := Option.map_eq_some_iff.1 hinum
  exact ⟨s, g', hrun, hs, hneutral⟩

end Xv6.PathRuns
