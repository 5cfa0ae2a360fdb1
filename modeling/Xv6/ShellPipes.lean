import Xv6.ShellCode

set_option autoImplicit false

namespace Xv6.ShellPipes
open Spawning ShellCode
open Function (update update_idem update_of_ne update_self)

variable {made : Path → Option ℕ} {π ρ : Path} {cmd : Cmd} {g g' : Shared} {β : Type} {a : Call β}
  {k : β → Code Empty} {fd n : ℕ}

abbrev Io := Std → File

variable {io : Io}

def std (io : Io) : Fds
  | 0 => some (io .stdin)
  | 1 => some (io .stdout)
  | 2 => some (io .stderr)
  | _ => none

/-- The files of a process at a node. `made` gives the object that a node has created. -/
inductive Wired (root : Cmd) (io₀ : Io) (made : Path → Option ℕ) : Path → Cmd → Io → Prop
  | root : Wired root io₀ made [] root io₀
  | redir {π : Path} {cmd : Cmd} {file : Word} {mode k : ℕ} {fd : Std} {io : Io}
      (above : Wired root io₀ made π (.redir cmd file mode fd) io) (object : made π = some k) :
      Wired root io₀ made (.left :: π) cmd (update io fd (.file k))
  | pipeLeft {π : Path} {left right : Cmd} {k : ℕ} {io : Io}
      (above : Wired root io₀ made π (.pipe left right) io) (object : made π = some k) :
      Wired root io₀ made (.left :: π) left (update io .stdout (.pipeWrite k))
  | pipeRight {π : Path} {left right : Cmd} {k : ℕ} {io : Io}
      (above : Wired root io₀ made π (.pipe left right) io) (object : made π = some k) :
      Wired root io₀ made (.right :: π) right (update io .stdin (.pipeRead k))
  | listLeft {π : Path} {left right : Cmd} {io : Io}
      (above : Wired root io₀ made π (.list left right) io) :
      Wired root io₀ made (.left :: π) left io
  | listRight {π : Path} {left right : Cmd} {io : Io}
      (above : Wired root io₀ made π (.list left right) io) :
      Wired root io₀ made (.right :: π) right io
  | back {π : Path} {cmd : Cmd} {io : Io} (above : Wired root io₀ made π (.back cmd) io) :
      Wired root io₀ made (.left :: π) cmd io

variable {root : Cmd} {io₀ : Io}

theorem Wired.mono {made' : Path → Option ℕ} (h : Wired root io₀ made π cmd io)
    (hmade : ∀ π k, made π = some k → made' π = some k) :
    Wired root io₀ made' π cmd io := by
  induction h with
  | root => exact .root
  | redir _ object ih => exact .redir ih (hmade _ _ object)
  | pipeLeft _ object ih => exact .pipeLeft ih (hmade _ _ object)
  | pipeRight _ object ih => exact .pipeRight ih (hmade _ _ object)
  | listLeft _ ih => exact .listLeft ih
  | listRight _ ih => exact .listRight ih
  | back _ ih => exact .back ih

def sub (root : Cmd) : Path → Option Cmd
  | [] => some root
  | d :: π =>
    match sub root π, d with
    | some (.redir cmd _ _ _), .left => some cmd
    | some (.pipe left _), .left => some left
    | some (.pipe _ right), .right => some right
    | some (.list left _), .left => some left
    | some (.list _ right), .right => some right
    | some (.back cmd), .left => some cmd
    | _, _ => none

theorem Wired.sub_eq (h : Wired root io₀ made π cmd io) : sub root π = some cmd := by
  induction h with
  | root => rfl
  | redir _ _ ih => simp only [sub, ih]
  | pipeLeft _ _ ih => simp only [sub, ih]
  | pipeRight _ _ ih => simp only [sub, ih]
  | listLeft _ ih => simp only [sub, ih]
  | listRight _ ih => simp only [sub, ih]
  | back _ ih => simp only [sub, ih]

theorem fdalloc_closed (io : Io) (s : Std) (f : File) :
    fdalloc (update (std io) s.fd none) f =
      some (s.fd, std (update io s f)) := by
  have htable : update (update (std io) s.fd none) s.fd (some f) =
      std (update io s f) := by
    rw [update_idem]
    funext fd
    cases s <;> rcases fd with _ | _ | _ | fd <;> rfl
  rw [← htable]
  cases s <;> rfl

def piped (io : Io) (k : ℕ) : Fds
  | 3 => some (.pipeRead k)
  | 4 => some (.pipeWrite k)
  | fd => std io fd

theorem fdalloc_read (io : Io) (f : File) :
    fdalloc (std io) f = some (3, update (std io) 3 (some f)) := rfl

theorem fdalloc_write (io : Io) (k : ℕ) :
    fdalloc (update (std io) 3 (some (.pipeRead k))) (.pipeWrite k) =
      some (4, piped io k) := by
  have htable : update (update (std io) 3 (some (.pipeRead k))) 4
      (some (.pipeWrite k)) = piped io k := by
    funext fd
    rcases fd with _ | _ | _ | _ | _ | fd <;> rfl
  rw [← htable]
  rfl

theorem fdalloc_dup (io : Io) (k : ℕ) (s : Std) (f : File) :
    fdalloc (update (piped io k) s.fd none) f =
      some (s.fd, piped (update io s f) k) := by
  have htable : update (update (piped io k) s.fd none) s.fd (some f) =
      piped (update io s f) k := by
    rw [update_idem]
    funext fd
    cases s <;> rcases fd with _ | _ | _ | _ | _ | fd <;> rfl
  rw [← htable]
  cases s <;> rfl

theorem piped_closed (io : Io) (k : ℕ) : update (update (piped io k) 3 none) 4 none = std io := by
  funext fd
  rcases fd with _ | _ | _ | _ | _ | fd <;> rfl

variable (root io₀) in
def Clean (l : Loc) (g : Shared) : Prop :=
  ∃ cmd io, l.fds = std io ∧ Wired root io₀ g.made l.node cmd io

def Rely (T : Set Path) (g g' : Shared) : Prop :=
  (∀ π ∈ T, g'.made π = g.made π) ∧ ∀ π k, g.made π = some k → g'.made π = some k

variable (root io₀) in
def promise : ∀ {β : Type}, Call β → Loc → Shared → Prop
  | _, .wait, l, g => Clean root io₀ l g
  | _, .exec argv, l, g => Clean root io₀ l g ∧ sub root l.node = some (.exec argv)
  | _, _, l, g => l.image ≠ none → Clean root io₀ l g

variable (root io₀) in
def discipline : Discipline Call Shared Loc Path where
  rely := Rely
  promise := fun a => promise root io₀ a
  refl := fun _ _ => ⟨fun _ _ => rfl, fun _ _ h => h⟩
  trans := fun h h' => ⟨fun π hπ => (h'.1 π hπ).trans (h.1 π hπ),
    fun π k hk => h'.2 π k (h.2 π k hk)⟩

variable (root io₀) in
abbrev Fine (T : Set Path) (code : Code Empty) (l : Loc) (g : Shared) : Prop :=
  Ok kernel (discipline root io₀) T code l g

theorem rely_of_made (h : g'.made = g.made) (T : Set Path) : Rely T g g' := by
  refine ⟨fun π _ => ?_, fun π k hk => ?_⟩
  · rw [h]
  · rw [h, hk]

theorem Clean.mono {l : Loc} {T : Set Path} (h : Clean root io₀ l g) (hrely : Rely T g g') :
    Clean root io₀ l g' := by
  obtain ⟨cmd, io, hfds, hw⟩ := h
  exact ⟨cmd, io, hfds, hw.mono hrely.2⟩

section Calls

variable {T : Set Path} {l : Loc} {g : Shared}

theorem fine_quiet
    (hpromise : ∀ g', Rely T g g' → promise root io₀ a l g')
    (h : ∀ p q o g' r, kernel.exec p q o a g' l = some r → r.shared.made = g'.made ∧
      r.child = none ∧ ∀ b l', r.next = some (b, l') → Fine root io₀ T (k b) l' g) :
    Fine root io₀ T (.act a k) l g := by
  refine ok_alone fun g' hrely => ⟨hpromise g' hrely, fun p q o r hr => ?_⟩
  obtain ⟨hmade, hchild, hnext⟩ := h p q o g' r hr
  refine ⟨fun U => rely_of_made hmade U, hchild, fun b l' hb => ?_⟩
  exact (hnext b l' hb).stable ((discipline root io₀).trans hrely (rely_of_made hmade T))

theorem fine_returns {b : β} {l' : Loc} (hpromise : ∀ g', Rely T g g' → promise root io₀ a l g')
    (hexec : ∀ p q o g', kernel.exec p q o a g' l = returns g' b l')
    (h : Fine root io₀ T (k b) l' g) : Fine root io₀ T (.act a k) l g := by
  refine fine_quiet hpromise fun p q o g' r hr => ?_
  cases (hexec p q o g').symm.trans hr
  refine ⟨rfl, rfl, fun b' l'' hnext => ?_⟩
  cases hnext
  exact h

theorem fine_node {k : Unit → Code Empty} (himage : l.image = none)
    (h : Fine root io₀ T (k ()) { l with node := π } g) : Fine root io₀ T (.act (.node π) k) l g :=
  fine_returns (fun _ _ hne => absurd himage hne) (fun _ _ _ _ => rfl) h

theorem fine_close {k : Unit → Code Empty} (himage : l.image = none)
    (h : Fine root io₀ T (k ()) { l with fds := update l.fds fd none } g) :
    Fine root io₀ T (.act (.close fd) k) l g :=
  fine_returns (fun _ _ hne => absurd himage hne) (fun _ _ _ _ => rfl) h

theorem fine_dup {fd' : ℕ} {f : File} {fds : Fds} {k : Option ℕ → Code Empty}
    (himage : l.image = none) (hf : l.fds fd = some f) (halloc : fdalloc l.fds f = some (fd', fds))
    (h : Fine root io₀ T (k (some fd')) { l with fds := fds } g) :
    Fine root io₀ T (.act (.dup fd) k) l g := by
  refine fine_returns (fun _ _ hne => absurd himage hne) (fun p q o g' => ?_) h
  simp only [kernel, exec, hf, halloc]

theorem fine_wait {k : Unit → Code Empty} (hclean : Clean root io₀ l g)
    (h : Fine root io₀ T (k ()) l g) : Fine root io₀ T (.act .wait k) l g := by
  refine fine_quiet (fun _ hrely => hclean.mono hrely) fun p q o g' r hr => ?_
  simp only [kernel, exec] at hr
  split_ifs at hr
  all_goals
    cases hr
    refine ⟨rfl, rfl, fun b l' hnext => ?_⟩
    cases hnext
    exact h

theorem fine_exec {argv : List Word} {k : Bool → Code Empty} (hclean : Clean root io₀ l g)
    (hleaf : sub root l.node = some (.exec argv))
    (hreplaced : Fine root io₀ T (k true) { l with image := some argv } g)
    (hfailed : Fine root io₀ T (k false) l g) : Fine root io₀ T (.act (.exec argv) k) l g := by
  refine fine_quiet (fun _ hrely => ⟨hclean.mono hrely, hleaf⟩) fun p q o g' r hr => ?_
  simp only [kernel, exec] at hr
  split_ifs at hr
  all_goals
    cases hr
    refine ⟨rfl, rfl, fun b l' hnext => ?_⟩
    cases hnext
  · exact hreplaced
  · exact hfailed

theorem fine_exit {status : ℕ} {k : Empty → Code Empty}
    (h : l.image ≠ none → Clean root io₀ l g) :
    Fine root io₀ T (.act (.exit status) k) l g := by
  refine fine_quiet (fun _ hrely himage => (h himage).mono hrely) fun p q o g' r hr => ?_
  cases hr
  refine ⟨rfl, rfl, fun b l' hnext => ?_⟩
  cases hnext

theorem fine_quit {status : ℕ} {k : Empty → Code Empty} (himage : l.image = none) :
    Fine root io₀ T (.act (.exit status) k) l g := fine_exit fun hne => absurd himage hne

theorem fine_make (b failed : β) (fds : ℕ → Fds)
    {T' : Set Path} (hpromise : ∀ g', promise root io₀ a l g')
    (hexec : ∀ p q o g', kernel.exec p q o a g' l =
      if o.succeeds then returns (g'.make l.node) b { l with fds := fds g'.next }
      else returns g' failed l)
    (hnode : l.node ∈ T) (hnone : g.made l.node = none) (hsub : T' ⊆ T)
    (hfailed : Fine root io₀ T (k failed) l g)
    (h : ∀ g', Rely T g g' →
      Fine root io₀ T' (k b) { l with fds := fds g'.next } (g'.make l.node)) :
    Fine root io₀ T (.act a k) l g := by
  intro g' hrely
  refine ⟨hpromise g', fun p q o r hr => ?_⟩
  replace hr := (hexec p q o g').symm.trans hr
  have hnone' : g'.made l.node = none := (hrely.1 _ hnode).trans hnone
  split_ifs at hr
  all_goals cases hr
  · refine ⟨fun U hU => ⟨fun π hπ => ?_, fun π k hk => ?_⟩, T', ∅, Set.disjoint_empty T', hsub,
      Set.empty_subset T, fun b' l' hnext => ?_, fun b' l' hchild => ?_⟩
    · refine update_of_ne ?_ _ _
      rintro rfl
      exact Set.disjoint_left.1 hU hπ hnode
    · refine (update_of_ne ?_ _ _).trans hk
      rintro rfl
      exact Option.some_ne_none _ (hk.symm.trans hnone')
    · cases hnext
      exact h g' hrely
    · cases hchild
  · refine ⟨fun U _ => rely_of_made rfl U, T, ∅, Set.disjoint_empty T, subset_rfl,
      Set.empty_subset T, fun b' l' hnext => ?_, fun b' l' hchild => ?_⟩
    · cases hnext
      exact hfailed.stable hrely
    · cases hchild

theorem fine_fork1 {T1 T2 : Set Path} {k : Bool → Code Empty} (himage : l.image = none)
    (hdisj : Disjoint T1 T2) (hsub1 : T1 ⊆ T) (hsub2 : T2 ⊆ T)
    (hparent : Fine root io₀ T1 (k false) l g) (hchild : Fine root io₀ T2 (k true) l g) :
    Fine root io₀ T (fork1 >>= k) l g := by
  intro g' hrely
  have hrely1 : Rely T1 g g' := ⟨fun π hπ => hrely.1 π (hsub1 hπ), hrely.2⟩
  have hrely2 : Rely T2 g g' := ⟨fun π hπ => hrely.1 π (hsub2 hπ), hrely.2⟩
  refine ⟨fun hne => absurd himage hne, fun p q o r hr => ?_⟩
  simp only [kernel, exec] at hr
  split_ifs at hr
  all_goals cases hr
  · refine ⟨fun U _ => rely_of_made rfl U, T1, T2, hdisj, hsub1, hsub2, fun b l' hnext => ?_,
      fun b l' hnext => ?_⟩
    · cases hnext
      exact hparent.stable ((discipline root io₀).trans hrely1 (rely_of_made rfl T1))
    · cases hnext
      exact hchild.stable ((discipline root io₀).trans hrely2 (rely_of_made rfl T2))
  · refine ⟨fun U _ => rely_of_made rfl U, T, ∅, Set.disjoint_empty T, subset_rfl,
      Set.empty_subset T, fun b l' hnext => ?_, fun b l' hnext => ?_⟩
    · cases hnext
      exact fine_quit himage
    · cases hnext

end Calls

def subtree (π : Path) : Set Path := { σ | π <:+ σ }

theorem mem_subtree (π : Path) : π ∈ subtree π := List.suffix_rfl

theorem subtree_cons (d : Side) (π : Path) : subtree (d :: π) ⊆ subtree π :=
  fun _ h => (List.suffix_cons d π).trans h

theorem subtree_disjoint (π : Path) : Disjoint (subtree (.right :: π)) (subtree (.left :: π)) := by
  refine Set.disjoint_left.2 fun σ hr hl => ?_
  have h := List.suffix_of_suffix_length_le hr hl (Nat.le_refl _)
  have heq := h.eq_of_length rfl
  cases heq

def Untouched (g : Shared) (π : Path) : Prop := ∀ σ ∈ subtree π, g.made σ = none

theorem Untouched.child (h : Untouched g π) (d : Side) :
    Untouched g (d :: π) := fun σ hσ => h σ (subtree_cons d π hσ)

theorem Untouched.make (h : Untouched g π) (d : Side) : Untouched (g.make π) (d :: π) := by
  intro σ hσ
  refine (update_of_ne ?_ _ _).trans (h σ (subtree_cons d π hσ))
  rintro rfl
  have := hσ.length_le
  rw [List.length_cons] at this
  omega

theorem Untouched.stable (h : Untouched g π) (hrely : Rely (subtree π) g g') : Untouched g' π :=
  fun σ hσ => (hrely.1 σ hσ).trans (h σ hσ)

theorem made_make (g : Shared) (π : Path) : (g.make π).made π = some g.next :=
  update_self ..

theorem Wired.make (h : Wired root io₀ g.made π cmd io) (hnew : Untouched g π)
    (hrely : Rely (subtree π) g g') : Wired root io₀ (g'.make π).made π cmd io := by
  refine h.mono fun σ k hk => ?_
  refine (update_of_ne ?_ _ _).trans (hrely.2 σ k hk)
  rintro rfl
  exact Option.some_ne_none _ (hk.symm.trans (hnew σ List.suffix_rfl))

theorem fine_runcmd (cmd : Cmd) (π : Path) (io : Io) (l : Loc) (g : Shared)
    (hwired : Wired root io₀ g.made π cmd io) (hfds : l.fds = std io) (himage : l.image = none)
    (hnew : Untouched g π) : Fine root io₀ (subtree π) (runcmd cmd π) l g := by
  induction cmd generalizing π io l g with
  | exec argv =>
    unfold runcmd
    refine fine_node himage ?_
    by_cases hargv : argv = []
    · rw [if_pos hargv]
      exact fine_quit himage
    · rw [if_neg hargv]
      have hclean : ∀ image, Clean root io₀ ⟨l.fds, π, image⟩ g :=
        fun _ => ⟨.exec argv, io, hfds, hwired⟩
      exact fine_exec (hclean _) hwired.sub_eq (fine_exit fun _ => hclean _)
        (fine_exit fun _ => hclean _)
  | redir cmd file mode fd ih =>
    unfold runcmd
    refine fine_node himage (fine_close himage ?_)
    rw [hfds]
    refine fine_make (some fd.fd) none (fun k => std (update io fd (.file k)))
      (fun _ hne => absurd himage hne) (fun p q o g' => ?_) (mem_subtree π) (hnew π (mem_subtree π))
      (subtree_cons .left π) (fine_quit himage) fun g' hrely => ?_
    · simp only [kernel, exec, fdalloc_closed]
      cases o.succeeds <;> rfl
    · exact ih _ _ _ _ (.redir (hwired.make hnew hrely) (made_make g' π)) rfl himage
        ((hnew.stable hrely).make _)
  | pipe left right ihl ihr =>
    unfold runcmd
    refine fine_node himage ?_
    rw [hfds]
    refine fine_make (some (3, 4)) none (fun k => piped io k)
      (fun _ hne => absurd himage hne) (fun p q o g' => ?_) (mem_subtree π) (hnew π (mem_subtree π))
      (Set.union_subset (subtree_cons .right π) (subtree_cons .left π)) (fine_quit himage)
      fun g' hrely => ?_
    · simp only [kernel, exec, fdalloc_read]
      cases o.succeeds with
      | false => rfl
      | true =>
        simp only [fdalloc_write]
        rfl
    · have hwired' := hwired.make hnew hrely
      have hnew' := hnew.stable hrely
      refine fine_fork1 himage (subtree_disjoint π) Set.subset_union_left Set.subset_union_right
        ?_ ?_
      · refine fine_fork1 himage (Set.empty_disjoint _) (Set.empty_subset _) subset_rfl ?_ ?_
        · refine fine_close himage (fine_close himage ?_)
          rw [piped_closed]
          have hclean : Clean root io₀ ⟨std io, π, l.image⟩ (g'.make π) := ⟨_, io, rfl, hwired'⟩
          exact fine_wait hclean (fine_wait hclean (fine_exit fun _ => hclean))
        · refine fine_close himage (fine_dup himage rfl (fdalloc_dup io _ .stdin _)
            (fine_close himage (fine_close himage ?_)))
          rw [piped_closed]
          exact ihr _ _ _ _ (.pipeRight hwired' (made_make g' π)) rfl himage (hnew'.make _)
      · refine fine_close himage (fine_dup himage rfl (fdalloc_dup io _ .stdout _)
          (fine_close himage (fine_close himage ?_)))
        rw [piped_closed]
        exact ihl _ _ _ _ (.pipeLeft hwired' (made_make g' π)) rfl himage (hnew'.make _)
  | list left right ihl ihr =>
    unfold runcmd
    refine fine_node himage ?_
    refine fine_fork1 himage (subtree_disjoint π) (subtree_cons _ π) (subtree_cons _ π) ?_ ?_
    · exact fine_wait ⟨_, io, hfds, hwired⟩
        (ihr _ io _ g (.listRight hwired) hfds himage (hnew.child _))
    · exact ihl _ io _ g (.listLeft hwired) hfds himage (hnew.child _)
  | back cmd ih =>
    unfold runcmd
    refine fine_node himage ?_
    refine fine_fork1 himage (Set.empty_disjoint _) (Set.empty_subset _)
      (subtree_cons .left π) ?_ ?_
    · exact fine_quit himage
    · exact ih _ io _ g (.back hwired) hfds himage (hnew.child _)

/-- The node gives its part on side `d` another file for `s`. -/
def Overrides (root : Cmd) (s : Std) (π : Path) (d : Side) : Prop :=
  match sub root π, d with
  | some (.redir _ _ _ fd), _ => fd = s
  | some (.pipe _ _), .left => s = .stdout
  | some (.pipe _ _), .right => s = .stdin
  | _, _ => False

def Inherits (root : Cmd) (s : Std) (σ π : Path) : Prop :=
  ∀ ρ d, σ <:+ ρ → d :: ρ <:+ π → ¬ Overrides root s ρ d

variable (root io₀) in
/-- The files of `π` are those of every node above it where no node between overrides them. -/
def FromAbove (made : Path → Option ℕ) (π : Path) (io : Io) : Prop :=
  ∀ σ, σ <:+ π → ∃ cmd' io', Wired root io₀ made σ cmd' io' ∧
    ∀ s, Inherits root s σ π → io s = io' s

theorem FromAbove.part {d : Side} {io' : Io} (h : FromAbove root io₀ made π io)
    (hw : Wired root io₀ made (d :: π) cmd io') (hio : ∀ s, ¬ Overrides root s π d → io' s = io s) :
    FromAbove root io₀ made (d :: π) io' := by
  intro σ hσ
  rcases List.suffix_cons_iff.1 hσ with rfl | hσ'
  · exact ⟨cmd, io', hw, fun _ _ => rfl⟩
  · obtain ⟨cmd'', io'', hw'', heq⟩ := h σ hσ'
    refine ⟨cmd'', io'', hw'', fun s hs => ?_⟩
    rw [hio s (hs π d hσ' List.suffix_rfl)]
    exact heq s fun ρ e hρ he => hs ρ e hρ (he.trans (List.suffix_cons d π))

theorem Wired.fromAbove (h : Wired root io₀ made π cmd io) : FromAbove root io₀ made π io := by
  induction h with
  | root =>
    intro σ hσ
    rw [List.suffix_nil.1 hσ]
    exact ⟨root, io₀, .root, fun _ _ => rfl⟩
  | redir above object ih =>
    refine ih.part (.redir above object) fun s hs => update_of_ne ?_ _ _
    rintro rfl
    simp [Overrides, above.sub_eq] at hs
  | pipeLeft above object ih =>
    refine ih.part (.pipeLeft above object) fun s hs => update_of_ne ?_ _ _
    rintro rfl
    simp [Overrides, above.sub_eq] at hs
  | pipeRight above object ih =>
    refine ih.part (.pipeRight above object) fun s hs => update_of_ne ?_ _ _
    rintro rfl
    simp [Overrides, above.sub_eq] at hs
  | listLeft above ih => exact ih.part (.listLeft above) fun _ _ => rfl
  | listRight above ih => exact ih.part (.listRight above) fun _ _ => rfl
  | back above ih => exact ih.part (.back above) fun _ _ => rfl

theorem Wired.stdout {left right : Cmd} {k : ℕ} (h : Wired root io₀ made π cmd io)
    (hpipe : sub root ρ = some (.pipe left right)) (hk : made ρ = some k) (hρ : .left :: ρ <:+ π)
    (hs : Inherits root .stdout (.left :: ρ) π) : io .stdout = .pipeWrite k := by
  obtain ⟨cmd', io', hw, heq⟩ := h.fromAbove _ hρ
  rw [heq .stdout hs]
  cases hw with
  | redir above _ => cases hpipe.symm.trans above.sub_eq
  | pipeLeft above object =>
    cases hk.symm.trans object
    exact update_self ..
  | listLeft above => cases hpipe.symm.trans above.sub_eq
  | back above => cases hpipe.symm.trans above.sub_eq

theorem Wired.stdin {left right : Cmd} {k : ℕ} (h : Wired root io₀ made π cmd io)
    (hpipe : sub root ρ = some (.pipe left right)) (hk : made ρ = some k) (hρ : .right :: ρ <:+ π)
    (hs : Inherits root .stdin (.right :: ρ) π) : io .stdin = .pipeRead k := by
  obtain ⟨cmd', io', hw, heq⟩ := h.fromAbove _ hρ
  rw [heq .stdin hs]
  cases hw with
  | pipeRight above object =>
    cases hk.symm.trans object
    exact update_self ..
  | listRight above => cases hpipe.symm.trans above.sub_eq

structure Numbered (n : ℕ) (g : Shared) : Prop where
  low : n ≤ g.next
  range : ∀ π k, g.made π = some k → n ≤ k ∧ k < g.next
  once : ∀ π π' k, g.made π = some k → g.made π' = some k → π = π'

theorem Numbered.make (h : Numbered n g) (π : Path) : Numbered n (g.make π) := by
  have hmade : ∀ σ k, (g.make π).made σ = some k → σ = π ∧ k = g.next ∨ g.made σ = some k := by
    intro σ k hk
    by_cases hσ : σ = π
    · subst hσ
      rw [made_make] at hk
      cases hk
      exact .inl ⟨rfl, rfl⟩
    · exact .inr ((update_of_ne hσ _ _).symm.trans hk)
  refine ⟨h.low.trans (Nat.le_succ _), fun σ k hk => ?_, fun σ σ' k hk hk' => ?_⟩
  · change n ≤ k ∧ k < g.next + 1
    rcases hmade σ k hk with ⟨_, rfl⟩ | hold
    · exact ⟨h.low, Nat.lt_succ_self _⟩
    · have := h.range σ k hold
      omega
  · rcases hmade σ k hk with ⟨rfl, rfl⟩ | hold
    · rcases hmade σ' _ hk' with ⟨rfl, _⟩ | hold'
      · rfl
      · exact absurd (h.range σ' _ hold').2 (Nat.lt_irrefl _)
    · rcases hmade σ' k hk' with ⟨rfl, rfl⟩ | hold'
      · exact absurd (h.range σ _ hold).2 (Nat.lt_irrefl _)
      · exact h.once σ σ' k hold hold'

theorem Numbered.of_made (h : Numbered n g) (hmade : g'.made = g.made) (hnext : g'.next = g.next) :
    Numbered n g' := by
  refine ⟨hnext ▸ h.low, fun π k hk => ?_, fun π π' k hk hk' => ?_⟩
  · rw [hmade] at hk
    rw [hnext]
    exact h.range π k hk
  · rw [hmade] at hk hk'
    exact h.once π π' k hk hk'

theorem numbered_exec (p q : ℕ) (o : Chance) (a : Call β) (g : Shared) (l : Loc)
    (r : Result β Shared Loc) (h : Numbered n g) (hr : kernel.exec p q o a g l = some r) :
    Numbered n r.shared := by
  cases a with
  | node π | close fd =>
    cases hr
    exact h
  | dup fd =>
    simp only [kernel, exec] at hr
    split at hr
    · cases hr
      exact h
    · split at hr <;> cases hr <;> exact h
  | openFile file mode =>
    simp only [kernel, exec] at hr
    split at hr <;> cases hr
    · exact h.make l.node
    · exact h
  | pipe =>
    simp only [kernel, exec] at hr
    split at hr
    · split at hr <;> cases hr
      · exact h.make l.node
      · exact h
    · cases hr
      exact h
  | fork | wait | exec argv =>
    simp only [kernel, exec] at hr
    split_ifs at hr <;> cases hr <;> exact h.of_made rfl rfl
  | exit status =>
    cases hr
    exact h.of_made rfl rfl

theorem Wired.holds {k : ℕ} {s : Std} (h : Wired root io₀ g.made π cmd io)
    (hio : ∀ s, (io₀ s).object < n) (hg : Numbered n g) (hk : g.made ρ = some k) :
    (io s = .pipeWrite k → .left :: ρ <:+ π) ∧ (io s = .pipeRead k → .right :: ρ <:+ π) := by
  have hlow := (hg.range ρ k hk).1
  have down : ∀ {σ π : Path} {d : Side}, σ <:+ π → σ <:+ d :: π :=
    fun h => h.trans (List.suffix_cons _ _)
  induction h with
  | root =>
    have hs := hio s
    constructor
    all_goals
      intro heq
      rw [heq] at hs
      exact absurd hlow (Nat.not_le.2 hs)
  | redir above object ih =>
    rename_i fd io'
    grind
  | pipeLeft above object ih =>
    grind [hg.once]
  | pipeRight above object ih =>
    grind [hg.once]
  | listLeft above ih => exact ⟨fun h => down (ih.1 h), fun h => down (ih.2 h)⟩
  | listRight above ih => exact ⟨fun h => down (ih.1 h), fun h => down (ih.2 h)⟩
  | back above ih => exact ⟨fun h => down (ih.1 h), fun h => down (ih.2 h)⟩

/-- One process runs the command with the three standard files, and nothing is made yet. -/
def start (root : Cmd) (io : Io) (pid : ℕ) (g : Shared) : Sys Call Empty Shared Loc where
  shared := { g with made := fun _ => none }
  procs := fun p => if p = pid then some ⟨⟨std io, [], none⟩, runcmd root []⟩ else none

def Executes (x : Proc Call Empty Loc) : Prop := ∃ argv k, x.code = .act (.exec argv) k

def Waits (x : Proc Call Empty Loc) : Prop := ∃ k, x.code = .act .wait k

def Settled (x : Proc Call Empty Loc) : Prop := Executes x ∨ Waits x ∨ x.loc.image ≠ none

section

variable {pid : ℕ} {S : Sys Call Empty Shared Loc} (h : Reach kernel (start root io₀ pid g) S)
include h

theorem divided_reach :
    ∃ T, Divided kernel (discipline root io₀) S T := by
  refine Divided.reach (T := fun _ => subtree []) ⟨fun p p' hne hp hp' => ?_, fun p x hx => ?_⟩ h
  · have hpid : ∀ p, (start root io₀ pid g).procs p ≠ none → p = pid := by
      intro p hp
      by_contra hne
      exact hp (if_neg hne)
    exact absurd ((hpid p hp).trans (hpid p' hp').symm) hne
  · unfold start at hx
    dsimp only at hx
    split_ifs at hx
    cases hx
    exact fine_runcmd root [] io₀ _ _ .root rfl rfl fun _ _ => rfl

theorem executes_leaf {p : ℕ} {l : Loc} {argv : List Word}
    {k : Bool → Code Empty} (hx : S.procs p = some ⟨l, .act (.exec argv) k⟩) :
    sub root l.node = some (.exec argv) := by
  obtain ⟨T, hT⟩ := divided_reach h
  exact (hT.ok p _ hx).promise.2

theorem settled_clean {p : ℕ} {x : Proc Call Empty Loc}
    (hx : S.procs p = some x) (hs : Settled x) : Clean root io₀ x.loc S.shared := by
  obtain ⟨T, hT⟩ := divided_reach h
  obtain ⟨l, code⟩ := x
  have hok := hT.ok p _ hx
  rcases hs with ⟨argv, k, rfl⟩ | ⟨k, rfl⟩ | himage
  · exact hok.promise.1
  · exact hok.promise
  · cases code with
    | ret e => exact e.elim
    | act a k =>
      have hpromise := hok.promise
      cases a with
      | wait => exact hpromise
      | exec argv => exact hpromise.1
      | node π => exact hpromise himage
      | close fd => exact hpromise himage
      | dup fd => exact hpromise himage
      | openFile file mode => exact hpromise himage
      | pipe => exact hpromise himage
      | fork => exact hpromise himage
      | exit status => exact hpromise himage

theorem numbered_reach : Numbered g.next S.shared :=
  h.shared ⟨Nat.le_refl _, fun _ _ hk => (by cases hk), fun _ _ _ hk => (by cases hk)⟩
    fun p q o a g l r hg hr => numbered_exec p q o a g l r hg hr

end

theorem std_isSome (io : Io) (fd : ℕ) : (std io fd).isSome ↔ fd < 3 := by
  rcases fd with _ | _ | _ | fd <;> simp [std]

theorem std_eq_some {f : File} (h : std io fd = some f) : ∃ s, io s = f := by
  rcases fd with _ | _ | _ | fd
  · exact ⟨.stdin, Option.some.inj h⟩
  · exact ⟨.stdout, Option.some.inj h⟩
  · exact ⟨.stderr, Option.some.inj h⟩
  · cases h

end Xv6.ShellPipes
