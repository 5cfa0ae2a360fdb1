import Mathlib.Algebra.Order.BigOperators.Group.Finset
import Xv6.BlockWrites
import Xv6.Interleaving
import Xv6.Merging
import Xv6.Scripts

set_option autoImplicit false

/-! Any number of processes call `filewrite` on one open file, whose offset they share. The steps of
a round of the loop are actions. The log does not touch the contents; its operations are only
counted. The inode's lock is held from the read of the offset to its advance. -/
namespace Xv6.SharedWrites
open Resumption Interleaving Xv6.Sequential DiskFormat BlockCode BlockFiles BlockWrites Merging
open LogCode (BSIZE)
open InodeCode (MAXFILE)
open Function (update update_eq_self update_of_ne update_self)

variable {k : ℕ}

inductive Act : Type → Type where
  | beginOp : Act Unit
  | ilock : Act Unit
  | getOff : Act UInt32
  | writei (src : Source) (off n : UInt32) : Act ℤ
  /-- `f->off += r` -/
  | advance (r : ℤ) : Act Unit
  | iunlock : Act Unit
  | endOp : Act Unit
  | panic (msg : String) : Act ℤ
  | undefined : Act ℤ

structure State (T : Type) where
  file : File
  holder : Option T
  outstanding : ℕ

def filewriteFrom (src : Source) (n : ℤ) : ℕ → ℤ → Prog Act ℤ
  | 0, _ => Prog.perform .undefined
  | rounds + 1, i =>
    if i < n then do
      let n1 := min (n - i) maxWrite
      Prog.perform .beginOp
      Prog.perform .ilock
      let off ← Prog.perform .getOff
      let r ← Prog.perform
        (.writei (fun j => src (i.toNat + j)) off (UInt32.ofNat n1.toNat))
      if r > 0 then Prog.perform (.advance r)
      Prog.perform .iunlock
      Prog.perform .endOp
      if r < 0 then return if i = n then n else -1
      else if r ≠ n1 then Prog.perform (.panic "short filewrite")
      else filewriteFrom src n rounds (i + r)
    else return if i = n then n else -1

def filewrite (src : Source) (n : ℤ) : Prog Act ℤ :=
  filewriteFrom src n (n.toNat / maxWrite + 2) 0

inductive Loc where
  | idle
  | returned (r : ℤ)
  deriving DecidableEq

variable {T : Type} [DecidableEq T]
variable {t : T}

/-- `writei` on the file's inode. -/
def writeFile (sb : Superblock) (ip : ℕ) (src : Source) (off n : UInt32) (g : State T) :
    Outcome ℤ (State T) :=
  match BlockCode.writei sb ip src off n g.file.fs with
  | .blocked => .blocked
  | .panic msg => .panic msg
  | .undefined => .undefined
  | .done r fs => .done r { g with file := { g.file with fs := fs } }

def exec (sb : Superblock) (ip : ℕ) (t : T) : ∀ {β : Type}, Act β → State T → Outcome β (State T)
  | _, .beginOp, g => .done () { g with outstanding := g.outstanding + 1 }
  | _, .ilock, g => if g.holder = none then .done () { g with holder := some t } else .blocked
  | _, .getOff, g => .done g.file.off g
  | _, .writei src off n, g => writeFile sb ip src off n g
  | _, .advance r, g =>
    .done () { g with file := { g.file with off := g.file.off + UInt32.ofNat r.toNat } }
  | _, .iunlock, g =>
    if g.holder = some t then .done () { g with holder := none } else .panic "iunlock"
  | _, .endOp, g => .done () { g with outstanding := g.outstanding - 1 }
  | _, .panic msg, _ => .panic msg
  | _, .undefined, _ => .undefined

/-- Without other processes it is the `filewrite` that runs alone. -/
theorem filewriteFrom_alone {sb : Superblock} {ip : ℕ} (src : Source) (n : ℤ) (rounds : ℕ) (i : ℤ)
    (g : State T) (hfree : g.holder = none) :
    alone ⟨exec sb ip⟩ t (filewriteFrom src n rounds i) g =
      (BlockCode.filewriteFrom sb ip src n rounds i).within State.file
        (fun f g => { g with file := f }) g := by
  induction rounds generalizing i g with
  | zero => rfl
  | succ rounds ih =>
    unfold filewriteFrom BlockCode.filewriteFrom
    by_cases hi : i < n
    · rw [if_pos hi, if_pos hi, if_neg hi.ne]
      simp only [alone, Bind.bind, Prog.bind, Prog.perform, run, exec, hfree, ↓reduceIte, writeFile,
        Code.within, Code.bind, Code.get, onFs]
      cases writei sb ip (fun j => src (i.toNat + j)) g.file.off
          (UInt32.ofNat (min (n - i) maxWrite).toNat) g.file.fs with
      | done r fs =>
        dsimp only
        split_ifs
        all_goals simp only [run, exec, ↓reduceIte]
        all_goals first
          | rfl
          | exact ih _ _ rfl
      | _ => rfl
    · rw [if_neg hi, if_neg hi]
      rfl

/-- Process `t` writes `n t` bytes of its buffer. -/
def setting (sb : Superblock) (ip : ℕ) (src : T → Source) (n : T → ℤ) :
    Setting T Act Loc (State T) where
  exec := exec sb ip
  starts := fun t l p => l = .idle ∧ p = filewrite (src t) (n t) >>= fun r => .ret (.returned r)
  interrupts := fun _ _ _ => False

def buffer (src : Source) (m : ℕ) : List UInt8 := (List.range m).map fun j => (src j).getD 0

theorem buffer_add (src : Source) (m k : ℕ) :
    buffer src (m + k) = buffer src m ++ buffer (fun j => src (m + j)) k := by
  unfold buffer
  rw [List.range_add, List.map_append, List.map_map]
  rfl

theorem length_buffer (src : Source) (m : ℕ) : (buffer src m).length = m := by
  unfold buffer
  rw [List.length_map, List.length_range]

theorem getElem?_buffer (src : Source) {m j : ℕ} (hj : j < m) :
    (buffer src m)[j]? = some ((src j).getD 0) := by
  unfold buffer
  rw [List.getElem?_map, List.getElem?_range hj]
  rfl

def ahead : Option (T × ℕ) → ℕ
  | none => 0
  | some (_, k) => k

variable (sb : Superblock) (first ip : ℕ) (file₀ : File) (src : T → Source) (n : T → ℤ)

/-- The bytes behind the old offset are the merge of the pieces in `h`. Process `t` has written
    the first `count t` bytes of its buffer, and perhaps a further piece that `pending` tells. -/
structure Content (file : File) (count : T → ℕ) (pending : Option (T × ℕ))
    (h : List (T × List UInt8)) : Prop where
  sound : Sound sb first file.fs
  parts : ∀ t, part t h = buffer (src t) (count t)
  off : file.off.toNat = file₀.off.toNat + (merged h).length
  bytes : ∀ k < (merged h).length,
    (merged h)[k]? = some ((contents file.fs ip).byte (file₀.off.toNat + k))
  piece : ∀ t k, pending = some (t, k) → count t + k ≤ (n t).toNat ∧ ∀ j < k,
    (contents file.fs ip).byte (file.off.toNat + j) = (src t (count t + j)).getD 0
  le : ∀ t, count t ≤ (n t).toNat
  old : ∀ k, k < file₀.off.toNat ∨ file.off.toNat + ahead pending ≤ k →
    (contents file.fs ip).byte k = (contents file₀.fs ip).byte k
  size : file.off.toNat + ahead pending = file₀.off.toNat ∧
      (contents file.fs ip).size = (contents file₀.fs ip).size ∨
    file₀.off.toNat ≤ (contents file₀.fs ip).size ∧
      (contents file.fs ip).size =
        max (contents file₀.fs ip).size (file.off.toNat + ahead pending)

variable {sb first ip file₀ src n} {file : File} {count : T → ℕ} {h : List (T × List UInt8)}

theorem content_init (hs : Sound sb first file₀.fs) :
    Content sb first ip file₀ src n file₀ (fun _ => 0) none [] where
  sound := hs
  parts := fun _ => rfl
  off := rfl
  bytes := fun k hk => absurd hk (Nat.not_lt_zero k)
  piece := nofun
  le := fun _ => Nat.zero_le _
  old := fun _ _ => rfl
  size := .inl ⟨rfl, rfl⟩

theorem Content.within (hc : Content sb first ip file₀ src n file count none h) :
    file.off.toNat ≤ (contents file.fs ip).size ↔
      file₀.off.toNat ≤ (contents file₀.fs ip).size := by
  have hoff := hc.off
  have hsize := hc.size
  simp only [ahead, Nat.add_zero] at hsize
  omega

theorem Content.room [Fintype T] {pending : Option (T × ℕ)}
    (hc : Content sb first ip file₀ src n file count pending h) (hk : count t + k ≤ (n t).toNat) :
    file.off.toNat + k ≤ file₀.off.toNat + ∑ u, (n u).toNat := by
  have hsum : (merged h).length = ∑ u, count u := by
    rw [length_merged]
    exact Finset.sum_congr rfl fun u _ => by rw [hc.parts u, length_buffer]
  have hle : ∑ u, count u + k ≤ ∑ u, (n u).toNat := by
    rw [← Finset.add_sum_erase _ _ (Finset.mem_univ t), ← Finset.add_sum_erase _ _
      (Finset.mem_univ t)]
    have hrest := Finset.sum_le_sum fun u (_ : u ∈ Finset.univ.erase t) => hc.le u
    omega
  rw [hc.off, hsum]
  omega

theorem Content.write {fs : Fs}
    (hc : Content sb first ip file₀ src n file count none h) (hk : count t + k ≤ (n t).toNat)
    (hwithin : file₀.off.toNat ≤ (contents file₀.fs ip).size) (hsound : Sound sb first fs)
    (hsize : (contents fs ip).size = max (contents file.fs ip).size (file.off.toNat + k))
    (hbyte : ∀ j, (contents fs ip).byte j =
      if file.off.toNat ≤ j ∧ j < file.off.toNat + k then
        (src t (count t + (j - file.off.toNat))).getD 0
      else (contents file.fs ip).byte j) :
    Content sb first ip file₀ src n { file with fs := fs } count (some (t, k)) h := by
  have hoff := hc.off
  refine ⟨hsound, hc.parts, hc.off, fun j hj => ?_, ?_, hc.le, fun j hj => ?_, .inr ⟨hwithin, ?_⟩⟩
  · rw [hc.bytes j hj, hbyte, if_neg (by omega)]
  · rintro u k' he
    cases he
    refine ⟨hk, fun j hj => ?_⟩
    dsimp only
    rw [hbyte, if_pos (by omega), Nat.add_sub_cancel_left]
  · simp only [ahead] at hj
    rw [hbyte, if_neg (by omega)]
    exact hc.old j (by simp only [ahead]; omega)
  · have hsize' := hc.size
    simp only [ahead, Nat.add_zero] at hsize' ⊢
    omega

theorem Content.advance {off : UInt32}
    (hc : Content sb first ip file₀ src n file count (some (t, k)) h)
    (hoff : off.toNat = file.off.toNat + k) :
    Content sb first ip file₀ src n { file with off := off }
      (update count t (count t + k)) none
      (h ++ [(t, buffer (fun j => src t (count t + j)) k)]) := by
  obtain ⟨hk, hpiece⟩ := hc.piece t k rfl
  have hbefore := hc.off
  refine ⟨hc.sound, fun u => ?_, ?_, fun j hj => ?_, nofun, fun u => ?_, fun j hj => ?_, ?_⟩
  · by_cases hu : u = t
    · subst hu
      rw [part_append_self, hc.parts, update_self, buffer_add]
    · rw [part_append_of_ne h hu, hc.parts, update_of_ne hu]
  · rw [merged_append, List.length_append, length_buffer]
    dsimp only
    omega
  · rw [merged_append] at hj ⊢
    rw [List.length_append, length_buffer] at hj
    by_cases hlow : j < (merged h).length
    · rw [List.getElem?_append_left hlow, hc.bytes j hlow]
    · rw [List.getElem?_append_right (by omega), getElem?_buffer _ (by omega)]
      have hhere := hpiece (j - (merged h).length) (by omega)
      rw [← hhere]
      congr 2
      omega
  · by_cases hu : u = t
    · grind
    · rw [update_of_ne hu]
      exact hc.le u
  · apply hc.old j
    simp only [ahead, Nat.add_zero] at hj ⊢
    omega
  · have hsize := hc.size
    simp only [ahead, Nat.add_zero] at hsize ⊢
    rw [hoff]
    exact hsize

inductive Phase where
  | out
  | holding
  | read (off : UInt32)
  | wrote (k : ℕ)

structure Own where
  count : ℕ
  phase : Phase

variable {ℓ : Own}

variable (sb first ip file₀ src n) in
structure Inv (g : State T) (Λ : T → Own) : Prop where
  holder : ∀ t, g.holder = some t ↔ (Λ t).phase ≠ .out
  read : ∀ t o, (Λ t).phase = .read o → g.file.off = o
  content : ∃ pending h, Content sb first ip file₀ src n g.file (fun t => (Λ t).count) pending h ∧
    ∀ t k, (Λ t).phase = .wrote k ↔ pending = some (t, k)

variable (ip file₀ n) in
def Returned (t : T) (r : ℤ) (count : ℕ) : Prop :=
  r = n t ∧ count = (n t).toNat ∨
    r = -1 ∧ count = 0 ∧ (n t < 0 ∨ (contents file₀.fs ip).size < file₀.off.toNat)

variable (sb first ip file₀ src n) in
def outline : Outline T Act Loc (State T) Own where
  I := Inv sb first ip file₀ src n
  safe := fun t _ a g _ =>
    match a with
    | .iunlock => g.holder = some t
    | .panic _ => False
    | .undefined => False
    | _ => True
  rest := fun t l ℓ => ℓ.phase = .out ∧
    match l with
    | .idle => ℓ.count = 0
    | .returned r => Returned ip file₀ n t r ℓ.count

section Rules

variable {g g' : State T} {Λ : T → Own} {t : T} {c : ℕ} {p : Phase}

theorem Inv.exclusive (hI : Inv sb first ip file₀ src n g Λ) (ht : (Λ t).phase ≠ .out) {u : T}
    (hu : u ≠ t) : (Λ u).phase = .out := by
  by_contra hne
  have hholder := (hI.holder u).2 hne
  rw [(hI.holder t).2 ht] at hholder
  exact hu (Option.some.inj hholder).symm

theorem count_update (hc : ℓ.count = (Λ t).count) :
    (fun u => (update Λ t ℓ u).count) = fun u => (Λ u).count :=
  funext fun u => proj_update Own.count hc u

theorem Inv.settled (hI : Inv sb first ip file₀ src n g Λ)
    (hnone : ∀ u k, (Λ u).phase ≠ .wrote k) :
    ∃ h, Content sb first ip file₀ src n g.file (fun u => (Λ u).count) none h := by
  obtain ⟨pending, h, hc, hp⟩ := hI.content
  rcases pending with _ | ⟨u, k⟩
  · exact ⟨h, hc⟩
  · exact absurd ((hp u k).2 rfl) (hnone u k)

theorem Inv.settled_at (hI : Inv sb first ip file₀ src n g Λ) (ht : (Λ t).phase ≠ .out)
    (hnone : ∀ k, (Λ t).phase ≠ .wrote k) :
    ∃ h, Content sb first ip file₀ src n g.file (fun u => (Λ u).count) none h := by
  apply hI.settled
  intro u k
  by_cases hu : u = t
  · subst hu
    exact hnone k
  · rw [hI.exclusive ht hu]
    exact nofun

theorem Inv.move (hexclusive : ∀ u, u ≠ t → (Λ u).phase = .out)
    (hholder : ∀ u, g'.holder = some u ↔ u = t ∧ ℓ.phase ≠ .out)
    (hread : ∀ o, ℓ.phase = .read o → g'.file.off = o) (pending : Option (T × ℕ))
    (h : List (T × List UInt8))
    (hcontent : Content sb first ip file₀ src n g'.file (fun u => (update Λ t ℓ u).count) pending h)
    (hpending : ∀ u k, pending = some (u, k) ↔ u = t ∧ ℓ.phase = .wrote k) :
    Inv sb first ip file₀ src n g' (update Λ t ℓ) := by
  have hother : ∀ u, u ≠ t → (update Λ t ℓ u).phase = .out := by
    intro u hu
    rw [update_of_ne hu, hexclusive u hu]
  refine ⟨fun u => ?_, fun u o ho => ?_, pending, h, hcontent, fun u k => ?_⟩
  all_goals by_cases hu : u = t
  · grind
  · rw [hholder, hother u hu]
    exact ⟨fun h => absurd h.1 hu, fun h => absurd rfl h⟩
  · grind
  · rw [hother u hu] at ho
    cases ho
  · grind
  · rw [hpending, hother u hu]
    exact ⟨nofun, fun h => absurd h.1 hu⟩

variable (sb first ip file₀ src n) in
abbrev Ok {α : Type} (t : T) (q : Prog Act α) (ℓ : Own) (Q : α → Own → Prop) : Prop :=
  Valid (setting sb ip src n) always (outline sb first ip file₀ src n) t q ℓ Q

theorem ok_log {a : Act Unit} (hsafe : ∀ g Λ, (outline sb first ip file₀ src n).safe t a g Λ)
    (hexec : ∀ g b g', exec sb ip t a g = .done b g' → g'.file = g.file ∧ g'.holder = g.holder) :
    Ok sb first ip file₀ src n t (Prog.perform a) ℓ fun _ ℓ' => ℓ' = ℓ := by
  apply Valid.perform
  rintro g Λ rfl hI
  refine ⟨hsafe g Λ, fun _ b g' hdone => ⟨Λ t, ?_, rfl⟩⟩
  obtain ⟨hfile, hholder⟩ := hexec g b g' hdone
  rw [update_eq_self]
  change Inv sb first ip file₀ src n g' Λ
  refine ⟨?_, ?_, ?_⟩
  · rw [hholder]
    exact hI.holder
  · rw [hfile]
    exact hI.read
  · rw [hfile]
    exact hI.content

theorem ok_beginOp : Ok sb first ip file₀ src n t (Prog.perform .beginOp) ℓ fun _ ℓ' => ℓ' = ℓ := by
  refine ok_log (fun _ _ => trivial) fun g b g' hdone => ?_
  cases hdone
  exact ⟨rfl, rfl⟩

theorem ok_endOp : Ok sb first ip file₀ src n t (Prog.perform .endOp) ℓ fun _ ℓ' => ℓ' = ℓ := by
  refine ok_log (fun _ _ => trivial) fun g b g' hdone => ?_
  cases hdone
  exact ⟨rfl, rfl⟩

theorem ok_ilock :
    Ok sb first ip file₀ src n t (Prog.perform .ilock) ⟨c, .out⟩ fun _ ℓ' => ℓ' =
    ⟨c, .holding⟩ := by
  apply Valid.perform
  rintro g Λ hl hI
  refine ⟨trivial, fun _ b g' hdone => ⟨⟨c, .holding⟩, ?_, rfl⟩⟩
  change (if g.holder = none then Outcome.done () { g with holder := some t } else .blocked) = _
    at hdone
  by_cases hfree : g.holder = none
  · rw [if_pos hfree] at hdone
    cases hdone
    have hout : ∀ u, (Λ u).phase = .out := by
      intro u
      by_contra hne
      have hholder := (hI.holder u).2 hne
      rw [hfree] at hholder
      cases hholder
    obtain ⟨h, hc⟩ := hI.settled fun u k => by rw [hout u]; exact nofun
    refine Inv.move (fun u _ => hout u) (fun u => ?_) nofun none h ?_ ?_
    · exact ⟨fun he => ⟨(Option.some.inj he).symm, nofun⟩, fun he => congrArg some he.1.symm⟩
    · rw [count_update (by rw [hl])]
      exact hc
    · exact fun u k => ⟨nofun, fun he => absurd he.2 nofun⟩
  · rw [if_neg hfree] at hdone
    cases hdone

theorem ok_getOff :
    Ok sb first ip file₀ src n t (Prog.perform .getOff) ⟨c, .holding⟩
      fun o ℓ' => ℓ' = ⟨c, .read o⟩ := by
  apply Valid.perform
  rintro g Λ hl hI
  refine ⟨trivial, fun _ o g' hdone => ⟨⟨c, .read o⟩, ?_, rfl⟩⟩
  cases hdone
  have ht : (Λ t).phase ≠ .out := by rw [hl]; exact nofun
  obtain ⟨h, hc⟩ := hI.settled_at ht fun k => by rw [hl]; exact nofun
  refine Inv.move (fun u hu => hI.exclusive ht hu) (fun u => ?_) (fun o ho => ?_) none h ?_ ?_
  · rw [(hI.holder t).2 ht]
    exact ⟨fun he => ⟨(Option.some.inj he).symm, nofun⟩, fun he => congrArg some he.1.symm⟩
  · cases ho
    rfl
  · rw [count_update (by rw [hl])]
    exact hc
  · exact fun u k => ⟨nofun, fun he => absurd he.2 nofun⟩

theorem ok_advance [Fintype T] (hfits : file₀.off.toNat + ∑ u, (n u).toNat < 2 ^ 32) :
    Ok sb first ip file₀ src n t (Prog.perform (.advance k)) ⟨c, .wrote k⟩
      fun _ ℓ' => ℓ' = ⟨c + k, .holding⟩ := by
  apply Valid.perform
  rintro g Λ hl hI
  refine ⟨trivial, fun _ b g' hdone => ⟨⟨c + k, .holding⟩, ?_, rfl⟩⟩
  cases hdone
  have ht : (Λ t).phase ≠ .out := by rw [hl]; exact nofun
  obtain ⟨pending, h, hc, hp⟩ := hI.content
  obtain rfl : pending = some (t, k) := (hp t k).1 (by rw [hl])
  have hroom := hc.room (hc.piece t k rfl).1
  have hoff : (g.file.off + UInt32.ofNat (k : ℤ).toNat).toNat = g.file.off.toNat + k := by
    rw [Int.toNat_natCast, UInt32.toNat_add, UInt32.toNat_ofNat_of_lt'
      (by unfold UInt32.size; omega)]
    exact Nat.mod_eq_of_lt (by omega)
  refine Inv.move (fun u hu => hI.exclusive ht hu) (fun u => ?_) nofun none
    (h ++ [(t, buffer (fun j => src t ((Λ t).count + j)) k)]) ?_
    (fun u k => ⟨nofun, fun he => absurd he.2 nofun⟩)
  · rw [(hI.holder t).2 ht]
    exact ⟨fun he => ⟨(Option.some.inj he).symm, nofun⟩, fun he => congrArg some he.1.symm⟩
  · have hcount : (fun u => (update Λ t ⟨c + k, .holding⟩ u).count) =
        update (fun u => (Λ u).count) t ((Λ t).count + k) := by
      funext u
      by_cases hu : u = t
      · subst hu
        rw [update_self, update_self, hl]
      · rw [update_of_ne hu, update_of_ne hu]
    rw [hcount]
    exact hc.advance hoff

theorem ok_writei [Fintype T] {o : UInt32} (layout : Layout sb first) (hip : ip < sb.ninodes)
    (hfits : file₀.off.toNat + ∑ u, (n u).toNat ≤ MAXFILE * BSIZE)
    (hsrc : ∀ j < (n t).toNat, (src t j).isSome) (hk : c + k ≤ (n t).toNat) :
    Ok sb first ip file₀ src n t
      (Prog.perform (.writei (fun j => src t (c + j)) o (UInt32.ofNat k))) ⟨c, .read o⟩
      fun r ℓ' => file₀.off.toNat ≤ (contents file₀.fs ip).size ∧ r = k ∧ ℓ' = ⟨c, .wrote k⟩ ∨
        (contents file₀.fs ip).size < file₀.off.toNat ∧ r = -1 ∧ ℓ' = ⟨c, .holding⟩ := by
  apply Valid.perform
  rintro g Λ hl hI
  refine ⟨trivial, fun _ r g' hdone => ?_⟩
  have ht : (Λ t).phase ≠ .out := by rw [hl]; exact nofun
  obtain rfl : g.file.off = o := hI.read t o (by rw [hl])
  obtain ⟨h, hc⟩ := hI.settled_at ht fun k => by rw [hl]; exact nofun
  obtain ⟨fs, hrun, rfl⟩ : ∃ fs, BlockCode.writei sb ip (fun j => src t (c + j)) g.file.off
      (UInt32.ofNat k) g.file.fs = .done r fs ∧ g' = { g with
      file := { g.file with fs := fs } } := by
    change writeFile sb ip _ _ _ g = _ at hdone
    unfold writeFile at hdone
    split at hdone
    · cases hdone
    · cases hdone
    · cases hdone
    · next r' fs hrun =>
      cases hdone
      exact ⟨fs, hrun, rfl⟩
  have hcount : (Λ t).count = c := by rw [hl]
  have hroom := hc.room (t := t) (k := k) (by rw [hcount]; exact hk)
  have hbound : MAXFILE * BSIZE < 2 ^ 32 := by decide
  have hword : (UInt32.ofNat k).toNat = k :=
    UInt32.toNat_ofNat_of_lt' (by unfold UInt32.size; omega)
  have hwithin : Refused g.file.fs ip g.file.off (UInt32.ofNat k) ↔
      (contents file₀.fs ip).size < file₀.off.toNat := by
    have hiff := hc.within
    unfold Refused
    rw [UInt32.lt_iff_toNat_lt, hword]
    change (contents g.file.fs ip).size < _ ∨ _ ↔ _
    omega
  have hholder : ∀ u, g.holder = some u ↔ u = t := by
    intro u
    rw [(hI.holder t).2 ht]
    exact ⟨fun he => (Option.some.inj he).symm, fun he => congrArg some he.symm⟩
  rcases (ends_writei _ layout hip _ _ hc.sound).done hrun with
    ⟨hrefused, rfl, rfl⟩ | ⟨hfine, rfl, off', P, k', hw⟩
  · refine ⟨⟨c, .holding⟩, ?_, .inr ⟨hwithin.1 hrefused, rfl, rfl⟩⟩
    refine Inv.move (fun u hu => hI.exclusive ht hu) (fun u => ?_) nofun none h ?_
      (fun u k => ⟨nofun, fun he => absurd he.2 nofun⟩)
    · exact (hholder u).trans ⟨fun he => ⟨he, nofun⟩, fun he => he.1⟩
    · rw [count_update hcount.symm]
      exact hc
  have hgood : file₀.off.toNat ≤ (contents file₀.fs ip).size := by
    rw [hwithin] at hfine
    omega
  refine ⟨⟨c, .wrote k⟩, ?_, .inl ⟨hgood, by rw [hword], rfl⟩⟩
  rw [hword] at hw
  obtain ⟨-, hchanged⟩ := hw.complete fun j hj => hsrc (c + j) (by omega)
  refine Inv.move (fun u hu => hI.exclusive ht hu) (fun u => ?_) nofun (some (t, k)) h ?_ ?_
  · exact (hholder u).trans ⟨fun he => ⟨he, nofun⟩, fun he => he.1⟩
  · rw [count_update hcount.symm]
    refine hc.write (by rw [hcount]; exact hk) hgood hchanged.sound ?_ fun j => ?_
    · rw [hchanged.becomes]
    · rw [hchanged.becomes, hcount]
      change (if _ then (src t (c + (0 + _))).getD 0 else _) = _
      rw [Nat.zero_add]
  · intro u k
    constructor
    · intro he
      cases he
      exact ⟨rfl, rfl⟩
    · rintro ⟨rfl, he⟩
      cases he
      rfl

theorem ok_iunlock :
    Ok sb first ip file₀ src n t (Prog.perform .iunlock) ⟨c, .holding⟩
      fun _ ℓ' => ℓ' = ⟨c, .out⟩ := by
  apply Valid.perform
  rintro g Λ hl hI
  have ht : (Λ t).phase ≠ .out := by rw [hl]; exact nofun
  have hholder := (hI.holder t).2 ht
  refine ⟨hholder, fun _ b g' hdone => ⟨⟨c, .out⟩, ?_, rfl⟩⟩
  change (if g.holder = some t then Outcome.done () { g with holder := none } else .panic _) = _
    at hdone
  rw [if_pos hholder] at hdone
  cases hdone
  obtain ⟨h, hc⟩ := hI.settled_at ht fun k => by rw [hl]; exact nofun
  refine Inv.move (fun u hu => hI.exclusive ht hu) (fun u => ?_) nofun none h ?_ ?_
  · exact ⟨nofun, fun he => absurd rfl he.2⟩
  · rw [count_update (by rw [hl])]
    exact hc
  · exact fun u k => ⟨nofun, fun he => absurd he.2 nofun⟩

theorem ok_release {α : Type} {q : Prog Act α} {Q : α → Own → Prop}
    (hq : Ok sb first ip file₀ src n t q ⟨c, .out⟩ Q) :
    Ok sb first ip file₀ src n t
      (Prog.perform .iunlock >>= fun _ => Prog.perform .endOp >>= fun _ => q) ⟨c, .holding⟩ Q := by
  refine ok_iunlock.next fun _ => ?_
  refine ok_endOp.next fun _ => ?_
  exact hq

theorem ok_filewriteFrom [Fintype T] (layout : Layout sb first) (hip : ip < sb.ninodes)
    (hfits : file₀.off.toNat + ∑ u, (n u).toNat ≤ MAXFILE * BSIZE)
    (hsrc : ∀ j < (n t).toNat, (src t j).isSome) (rounds : ℕ) (i : ℤ) (hlow : 0 ≤ i)
    (hhigh : i = 0 ∨ i ≤ n t) (hrounds : (n t).toNat + maxWrite ≤ i.toNat + rounds * maxWrite)
    (hbad : (contents file₀.fs ip).size < file₀.off.toNat → i = 0) :
    Ok sb first ip file₀ src n t (filewriteFrom (src t) (n t) rounds i) ⟨i.toNat, .out⟩
      fun r ℓ' => ℓ'.phase = .out ∧ Returned ip file₀ n t r ℓ'.count := by
  have hpos : 0 < maxWrite := by decide
  induction rounds generalizing i with
  | zero => omega
  | succ rounds ih =>
    unfold filewriteFrom
    by_cases hmore : i < n t
    · obtain ⟨k, hk⟩ : ∃ k : ℕ, (k : ℤ) = min (n t - i) maxWrite := by
        refine ⟨(min (n t - i) maxWrite).toNat, Int.toNat_of_nonneg ?_⟩
        omega
      rw [if_pos hmore, ← hk]
      dsimp only
      rw [Int.toNat_natCast]
      refine ok_beginOp.next fun _ => ?_
      refine ok_ilock.next fun _ => ?_
      refine ok_getOff.next fun o => ?_
      refine (ok_writei layout hip hfits hsrc (by omega)).seq ?_
      rintro r _ (⟨hgood, rfl, rfl⟩ | ⟨hbeyond, rfl, rfl⟩)
      · rw [if_pos (by omega)]
        refine (ok_advance (hfits.trans_lt (by decide))).next fun _ => ?_
        apply ok_release
        rw [if_neg (by omega), if_neg (not_not.2 rfl)]
        rw [Nat.succ_mul] at hrounds
        have hleft : maxWrite ≤ rounds * maxWrite := by
          apply Nat.le_mul_of_pos_left
          by_contra hzero
          obtain rfl : rounds = 0 := by omega
          omega
        have hnext := ih (i + k) (by omega) (.inr (by omega)) (by omega)
          (fun h => absurd h (by omega))
        rw [Int.toNat_add hlow (by omega), Int.toNat_natCast] at hnext
        exact hnext
      · rw [if_neg (by decide)]
        apply ok_release
        rw [if_pos (by decide), if_neg (by omega)]
        exact ⟨rfl, .inr ⟨rfl, by rw [hbad hbeyond]; rfl, .inr hbeyond⟩⟩
    · rw [if_neg hmore]
      refine ⟨rfl, ?_⟩
      by_cases hend : i = n t
      · rw [if_pos hend]
        exact .inl ⟨rfl, by rw [hend]⟩
      · rw [if_neg hend]
        obtain rfl : i = 0 := by omega
        exact .inr ⟨rfl, rfl, .inl (by omega)⟩

end Rules

theorem writers_merge [Fintype T] (layout : Layout sb first) (hs : Sound sb first file₀.fs)
    (hip : ip < sb.ninodes) (hfits : file₀.off.toNat + ∑ t, (n t).toNat ≤ MAXFILE * BSIZE)
    (hsrc : ∀ t, ∀ j < (n t).toNat, (src t j).isSome) {s : Sys T Act Loc (State T)}
    (hreach : Reach (setting sb ip src n) always ⟨⟨file₀, none, 0⟩, fun _ => .ret .idle⟩ s)
    (result : T → ℤ) (hdone : ∀ t, s.thr t = .ret (.returned (result t))) :
    (∀ t, result t = n t ∨ result t = -1 ∧
      (n t < 0 ∨ (contents file₀.fs ip).size < file₀.off.toNat)) ∧
    ∃ h, (∀ t, part t h = if result t = -1 then [] else buffer (src t) (n t).toNat) ∧
      s.g.file.off.toNat = file₀.off.toNat + (merged h).length ∧
      (∀ k < (merged h).length,
        (merged h)[k]? = some ((contents s.g.file.fs ip).byte (file₀.off.toNat + k))) ∧
      (contents s.g.file.fs ip).size = (if merged h = [] then (contents file₀.fs ip).size
        else max (contents file₀.fs ip).size s.g.file.off.toNat) ∧
      ∀ k, k < file₀.off.toNat ∨ s.g.file.off.toNat ≤ k →
        (contents s.g.file.fs ip).byte k = (contents file₀.fs ip).byte k := by
  have hinit : Holds (setting sb ip src n) always (outline sb first ip file₀ src n)
      ⟨⟨file₀, none, 0⟩, fun _ => .ret .idle⟩ fun _ => ⟨0, .out⟩ := by
    refine ⟨⟨fun t => ⟨nofun, fun h => absurd rfl h⟩, nofun, none, [], content_init hs, ?_⟩,
      fun t => ⟨rfl, rfl⟩⟩
    exact fun t k => ⟨nofun, nofun⟩
  have hstarts : ∀ t l p ℓ, (setting sb ip src n).starts t l p →
      (outline sb first ip file₀ src n).rest t l ℓ →
      Valid (setting sb ip src n) always (outline sb first ip file₀ src n) t p ℓ
        ((outline sb first ip file₀ src n).rest t) := by
    rintro t l p ℓ ⟨rfl, rfl⟩ ⟨hphase, hcount⟩
    obtain rfl : ℓ = ⟨0, .out⟩ := by
      cases ℓ
      cases hphase
      cases hcount
      rfl
    refine (ok_filewriteFrom layout hip hfits (hsrc t) _ 0 le_rfl (.inl rfl) ?_ fun _ => rfl).seq ?_
    · have := Nat.div_add_mod' (n t).toNat maxWrite
      have := Nat.mod_lt (n t).toNat (by decide : 0 < maxWrite)
      rw [Nat.add_mul]
      omega
    · exact fun r ℓ' hr => hr
  obtain ⟨Λ, hI, hvalid⟩ := hinit.reach hstarts (fun _ _ _ _ h => False.elim h) hreach
  have hrest : ∀ t, (Λ t).phase = .out ∧ Returned ip file₀ n t (result t) (Λ t).count := by
    intro t
    have ht := hvalid t
    rw [hdone t] at ht
    exact ht
  obtain ⟨h, hc⟩ := hI.settled fun t k => by rw [(hrest t).1]; exact nofun
  refine ⟨fun t => ?_, h, fun t => ?_, hc.off, hc.bytes, ?_, fun k hk => hc.old k hk⟩
  · exact (hrest t).2.imp (fun h => h.1) fun h => ⟨h.1, h.2.2⟩
  · rw [hc.parts]
    rcases (hrest t).2 with ⟨hr, hcount⟩ | ⟨hr, hcount, -⟩
    · rw [hcount]
      split_ifs with hminus
      · rw [← hr, hminus]
        rfl
      · rfl
    · rw [hcount, if_pos hr]
      rfl
  · have hoff := hc.off
    have hsize := hc.size
    simp only [ahead, Nat.add_zero] at hsize
    split_ifs with hnil
    · rw [hnil, List.length_nil] at hoff
      omega
    · have := List.length_pos_of_ne_nil hnil
      omega

def lengths : Bool → ℤ := fun t => if t then 4000 else 2

def bytes : Bool → Source := fun t _ => some (if t then 7 else 8)

def twoWriters : Setting Bool Act Loc (State Bool) := setting smallSb 2 bytes lengths

def twoStart : Sys Bool Act Loc (State Bool) := ⟨⟨⟨emptyFs, 0⟩, none, 0⟩, fun _ => .ret .idle⟩

/-- The short buffer is written between the two pieces of the long one. -/
theorem reach_both : ∃ s, Reach twoWriters always twoStart s ∧
    (∀ t, s.thr t = .ret (.returned (lengths t))) ∧ s.g.file.off = 4002 ∧
    [3071, 3072, 3073, 3074].map (contents s.g.file.fs 2).byte = [7, 8, 8, 7] := by
  obtain ⟨s, hreach, htest⟩ := exists_of_freely (S := twoWriters)
    [.start true .idle _ ⟨rfl, rfl⟩, .acts true 3, .start false .idle _ ⟨rfl, rfl⟩,
      .acts false 1, .acts true 4, .acts false 6, .acts true 7] twoStart
    (fun s => decide ((∀ t, answer (s.thr t) = some (.returned (lengths t))) ∧
      s.g.file.off = 4002 ∧
      [3071, 3072, 3073, 3074].map (contents s.g.file.fs 2).byte = [7, 8, 8, 7]))
    (by decide +kernel)
  obtain ⟨hdone, hrest⟩ := of_decide_eq_true htest
  exact ⟨s, hreach, fun t => eq_ret_of_answer (hdone t), hrest⟩

theorem writers_merge_both :
    ∃ (s : Sys Bool Act Loc (State Bool)) (h : List (Bool × List UInt8)),
      (∀ t, s.thr t = .ret (.returned (lengths t))) ∧
      (∀ t, part t h = buffer (bytes t) (lengths t).toNat) ∧ (merged h).length = 4002 ∧
      (contents s.g.file.fs 2).size = 4002 ∧
      [3071, 3072, 3073, 3074].map (contents s.g.file.fs 2).byte = [7, 8, 8, 7] := by
  obtain ⟨s, hreach, hdone, hoff, hbytes⟩ := reach_both
  obtain ⟨-, h, hparts, hlen, -, hsize, -⟩ := writers_merge layout_smallSb sound_emptyFs
    (by decide) (by decide) (fun _ _ _ => rfl) hreach lengths hdone
  rw [hoff] at hlen hsize
  have hlen' : (merged h).length = 4002 := (hlen.trans (Nat.zero_add _)).symm
  have hne : merged h ≠ [] := fun hnil => by simp [hnil] at hlen'
  refine ⟨s, h, hdone, fun t => (hparts t).trans (if_neg ?_), hlen', ?_, hbytes⟩
  · cases t <;> decide
  · rw [hsize, if_neg hne]
    rfl

end Xv6.SharedWrites
