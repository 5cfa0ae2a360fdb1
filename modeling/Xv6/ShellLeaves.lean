import Xv6.ShellPipes

set_option autoImplicit false

/-! Every command of the tree is executed: a run in which `pipe`, `fork` and `open` succeed passes
all of them before its end, and there is a run that comes to its end. -/
namespace Xv6.ShellLeaves
open Spawning ShellCode ShellPipes
open Function (update update_eq_self update_idem update_of_ne update_self)

variable {β : Type} {a : Call β} {k : β → Code Empty} {l : Loc} {root : Cmd} {π ρ σ : Path}
  {argv : List Word}

def succeeded : ∀ {β : Type}, Call β → β → Bool
  | _, .openFile _ _, fd => fd.isSome
  | _, .pipe, fds => fds.isSome
  | _, .fork, .failed => false
  | _, _, _ => true

/-- The kernel in runs in which `pipe`, `fork` and `open` succeed. -/
def lucky : Kernel Call Shared Loc Chance :=
  kernel.only fun a r => r.next.all fun b => succeeded a b.1

def atLeaf (σ : Path) (argv : List Word) : ∀ {β : Type}, Call β → Loc → Prop
  | _, .exec argv', l => argv' = argv ∧ l.node = σ
  | _, _, _ => False

theorem exec_of_lucky {p q : ℕ} {o : Chance} {g : Shared} {r : Result β Shared Loc}
    (h : lucky.exec p q o a g l = some r) : kernel.exec p q o a g l = some r ∧
      ∀ b l', r.next = some (b, l') → succeeded a b = true := by
  obtain ⟨hexec, hok⟩ := Option.filter_eq_some_iff.1 h
  refine ⟨hexec, fun b l' hnext => ?_⟩
  simpa only [hnext, Option.all_some] using hok

section Owing

variable {hit : ∀ {β : Type}, Call β → Loc → Prop}

theorem next_of_exec [Nonempty β] {p q : ℕ} {o : Chance} {g : Shared} {r : Result β Shared Loc}
    (h : kernel.exec p q o a g l = some r) : ∃ b l', r.next = some (b, l') := by
  have hret : ∀ {g' : Shared} {b : β} {l' : Loc}, returns g' b l' = some r →
      ∃ b l', r.next = some (b, l') := by
    rintro g' b l' h
    cases h
    exact ⟨b, l', rfl⟩
  cases a with
  | node π | close fd => exact hret h
  | dup fd | openFile file mode | pipe =>
    simp only [kernel, exec] at h
    split at h
    · first | exact hret h | (split at h <;> exact hret h)
    · first | exact hret h | (split at h <;> exact hret h)
  | fork =>
    simp only [kernel, exec] at h
    split_ifs at h
    · cases h
      exact ⟨_, _, rfl⟩
    · exact hret h
  | wait | exec argv =>
    simp only [kernel, exec] at h
    split_ifs at h <;> exact hret h
  | exit status => exact (Classical.arbitrary Empty).elim

theorem owes_call [Nonempty β] (h : ∀ b l', succeeded a b = true → Owes lucky hit (k b) l') :
    Owes lucky hit (.act a k) l := by
  refine .inr fun p q o g r hr => ?_
  obtain ⟨hexec, hok⟩ := exec_of_lucky hr
  obtain ⟨b, l', hnext⟩ := next_of_exec hexec
  exact .inl ⟨b, l', hnext, h b l' (hok b l' hnext)⟩

theorem owes_fork1 {k : Bool → Code Empty}
    (h : (∀ l, Owes lucky hit (k true) l) ∨ ∀ l, Owes lucky hit (k false) l) :
    Owes lucky hit (fork1 >>= k) l := by
  refine .inr fun p q o g r hr => ?_
  obtain ⟨hexec, hok⟩ := exec_of_lucky hr
  simp only [kernel, exec] at hexec
  split_ifs at hexec <;> cases hexec
  · rcases h with h | h
    · exact .inr ⟨.child, l, rfl, h l⟩
    · exact .inl ⟨.parent, l, rfl, h l⟩
  · cases hok _ _ rfl

end Owing

theorem sub_of_suffix (hρ : ρ <:+ σ) (h : sub root σ ≠ none) : sub root ρ ≠ none := by
  obtain ⟨τ, rfl⟩ := hρ
  induction τ with
  | nil => exact h
  | cons e τ ih =>
    refine ih fun hnone => h ?_
    simp only [List.cons_append, sub, hnone]

theorem part_of_suffix (hπ : π <:+ σ) (h : sub root σ ≠ none) :
    σ = π ∨ ∃ d, sub root (d :: π) ≠ none ∧ d :: π <:+ σ := by
  obtain ⟨τ, rfl⟩ := hπ
  rcases List.eq_nil_or_concat τ with rfl | ⟨τ, d, rfl⟩
  · exact .inl rfl
  · have hd : d :: π <:+ τ.concat d ++ π := ⟨τ, List.concat_append.symm⟩
    exact .inr ⟨d, sub_of_suffix hd h, hd⟩

theorem owes_runcmd (hne : argv ≠ []) (hσ : sub root σ = some (.exec argv)) (cmd : Cmd) (π : Path)
    (l : Loc) (hπ : sub root π = some cmd) (hin : π <:+ σ) :
    Owes lucky (atLeaf σ argv) (runcmd cmd π) l := by
  induction cmd generalizing π l with
  | exec argv' =>
    unfold runcmd
    rcases part_of_suffix hin (hσ.trans_ne (Option.some_ne_none _)) with rfl | ⟨d, hd, -⟩
    · cases hσ.symm.trans hπ
      rw [if_neg hne]
      refine .inr fun p q o g r hr => .inl ?_
      cases (exec_of_lucky hr).1
      exact ⟨(), _, rfl, .inl ⟨rfl, rfl⟩⟩
    · simp [sub, hπ] at hd
  | redir cmd file mode fd ih =>
    unfold runcmd
    rcases part_of_suffix hin (hσ.trans_ne (Option.some_ne_none _)) with rfl | ⟨d, hd, hin⟩
    · cases hσ.symm.trans hπ
    refine owes_call fun _ _ _ => owes_call fun _ _ _ => owes_call fun fd l hfd => ?_
    cases fd with
    | none => cases hfd
    | some fd =>
      cases d with
      | left => exact ih _ l (by simp only [sub, hπ]) hin
      | right => simp [sub, hπ] at hd
  | pipe left right ihl ihr =>
    unfold runcmd
    rcases part_of_suffix hin (hσ.trans_ne (Option.some_ne_none _)) with rfl | ⟨d, -, hin⟩
    · cases hσ.symm.trans hπ
    refine owes_call fun _ _ _ => owes_call fun fds l hfds => ?_
    cases fds with
    | none => cases hfds
    | some fds =>
      cases d with
      | left =>
        refine owes_fork1 (.inl fun l => ?_)
        refine owes_call fun _ _ _ => owes_call fun _ _ _ => owes_call fun _ _ _ =>
          owes_call fun _ l _ => ?_
        exact ihl _ l (by simp only [sub, hπ]) hin
      | right =>
        refine owes_fork1 (.inr fun l => owes_fork1 (.inl fun l => ?_))
        refine owes_call fun _ _ _ => owes_call fun _ _ _ => owes_call fun _ _ _ =>
          owes_call fun _ l _ => ?_
        exact ihr _ l (by simp only [sub, hπ]) hin
  | list left right ihl ihr =>
    unfold runcmd
    rcases part_of_suffix hin (hσ.trans_ne (Option.some_ne_none _)) with rfl | ⟨d, -, hin⟩
    · cases hσ.symm.trans hπ
    refine owes_call fun _ l _ => ?_
    cases d with
    | left => exact owes_fork1 (.inl fun l => ihl _ l (by simp only [sub, hπ]) hin)
    | right =>
      refine owes_fork1 (.inr fun l => owes_call fun _ l _ => ?_)
      exact ihr _ l (by simp only [sub, hπ]) hin
  | back cmd ih =>
    unfold runcmd
    rcases part_of_suffix hin (hσ.trans_ne (Option.some_ne_none _)) with rfl | ⟨d, hd, hin⟩
    · cases hσ.symm.trans hπ
    refine owes_call fun _ l _ => ?_
    cases d with
    | left => exact owes_fork1 (.inl fun l => ih _ l (by simp only [sub, hπ]) hin)
    | right => simp [sub, hπ] at hd

abbrev Procs := ℕ → Option (Proc Call Empty Loc)

def Roomy (g : Shared) (P : Procs) : Prop := ∃ N, ∀ q, N ≤ q → g.zombie q = false ∧ P q = none

/-- The process `p` can come to its end, and so can those it creates. It has the children `kids`,
    which are at their end. -/
def Finishes (p : ℕ) (kids : List ℕ) (x : Proc Call Empty Loc) : Prop :=
  ∀ g P, P p = some x → Roomy g P → (∀ q ∈ kids, q ∈ g.children p ∧ g.zombie q = true) →
    ∃ g', Reach lucky ⟨g, P⟩ ⟨g', update P p none⟩ ∧ g'.zombie p = true ∧
      (∀ q, q ∉ kids → g.zombie q = true → g'.zombie q = true) ∧
      (∀ p', p' ≠ p → P p' ≠ none → g.children p' ⊆ g'.children p') ∧ Roomy g' (update P p none)

section Finish

variable {p : ℕ} {kids : List ℕ} {g g' : Shared} {P : Procs} {x : Proc Call Empty Loc}

theorem Roomy.update (h : Roomy g P) (hx : P p = some x) (y : Option (Proc Call Empty Loc))
    (hz : ∀ q, g'.zombie q = true → q ≠ p → g.zombie q = true) : Roomy g' (update P p y) := by
  obtain ⟨N, hN⟩ := h
  refine ⟨N, fun q hq => ?_⟩
  have hqp : q ≠ p := by
    rintro rfl
    cases hx.symm.trans (hN q hq).2
  refine ⟨Bool.eq_false_iff.2 fun ht => ?_, (update_of_ne hqp ..).trans (hN q hq).2⟩
  cases (hz q ht hqp).symm.trans (hN q hq).1

theorem reach_call {o : Chance} {next : Option (β × Loc)} (here : P p = some ⟨l, .act a k⟩)
    (room : Roomy g P) (hexec : ∀ q, kernel.exec p q o a g l = some ⟨g', next, none⟩)
    (hok : (next.all fun b => succeeded a b.1) = true) :
    Reach lucky ⟨g, P⟩ ⟨g', update P p (resume k next)⟩ := by
  obtain ⟨N, hN⟩ := room
  have hresult : lucky.exec p N o a g l = some ⟨g', next, none⟩ :=
    Option.filter_eq_some_iff.2 ⟨hexec N, hok⟩
  have hsame : update P N none = P := by
    rw [← (hN N le_rfl).2, update_eq_self]
  have hstep := Step.act (S := ⟨g, P⟩) here (hN N le_rfl).2 hresult
  simp only [Sys.after, resume, hsame] at hstep
  exact .step .start hstep

theorem finishes_call (h : ∀ g, ∃ o g' b l', (∀ q, kernel.exec p q o a g l = returns g' b l') ∧
      succeeded a b = true ∧ g'.children = g.children ∧ g'.zombie = g.zombie ∧
      Finishes p kids ⟨l', k b⟩) : Finishes p kids ⟨l, .act a k⟩ := by
  intro g P here room hkids
  obtain ⟨o, g1, b, l', hexec, hok, hchildren, hzombie, hfin⟩ := h g
  obtain ⟨g', reach, hp, hz, hc, room'⟩ := hfin g1 _ (update_self ..)
    (room.update here (some _) fun q hq _ => hzombie ▸ hq) (by rwa [hchildren, hzombie])
  rw [update_idem] at reach room'
  rw [hzombie] at hz
  rw [hchildren] at hc
  refine ⟨g', (reach_call here room hexec hok).trans reach, hp, hz, fun p' hp' hlive => ?_, room'⟩
  exact hc p' hp' ((update_of_ne hp' ..).trans_ne hlive)

theorem finishes_returns {b : β} {l' : Loc} (hexec : ∀ q o g, kernel.exec p q o a g l =
    returns g b l') (hok : succeeded a b = true) (h : Finishes p kids ⟨l', k b⟩) :
    Finishes p kids ⟨l, .act a k⟩ :=
  finishes_call fun g => ⟨⟨true, 0⟩, g, b, l', fun q => hexec q _ g, hok, rfl, rfl, h⟩

theorem finishes_exit {status : ℕ} {k : Empty → Code Empty} :
    Finishes p kids ⟨l, .act (.exit status) k⟩ := by
  intro g P here room _
  refine ⟨_, reach_call (o := ⟨true, 0⟩) here room (fun _ => rfl) rfl, update_self ..,
    fun q _ hq => ?_, fun p' hp' _ => ?_,
    room.update here none fun q hq hqp => (update_of_ne hqp ..).symm.trans hq⟩
  · dsimp only
    rw [Function.update_apply]
    split_ifs
    · rfl
    · exact hq
  · dsimp only
    rw [update_of_ne hp']
    grind

theorem finishes_wait {q : ℕ} {k : Unit → Code Empty} (hq : q ∉ kids)
    (h : Finishes p kids ⟨l, k ()⟩) : Finishes p (q :: kids) ⟨l, .act .wait k⟩ := by
  intro g P here room hkids
  obtain ⟨hmem, hz⟩ := hkids q (List.mem_cons_self ..)
  let g1 : Shared := { g with
    children := update g.children p ((g.children p).erase q)
    zombie := update g.zombie q false }
  have hexec : ∀ r, kernel.exec p r ⟨true, q⟩ .wait g l = some ⟨g1, some ((), l), none⟩ := by
    intro r
    simp only [kernel, exec, List.ne_nil_of_mem hmem, hmem, hz, and_self, ↓reduceIte]
    rfl
  have hzombie : ∀ r, r ≠ q → g1.zombie r = g.zombie r := fun r hr => update_of_ne hr ..
  have hleft : ∀ r, g1.zombie r = true → r ≠ p → g.zombie r = true := by
    intro r hr _
    by_cases hrq : r = q
    · exact hrq ▸ hz
    · exact (hzombie r hrq).symm.trans hr
  have hkids1 : ∀ r ∈ kids, r ∈ g1.children p ∧ g1.zombie r = true := by
    intro r hr
    have hne : r ≠ q := fun he => hq (he ▸ hr)
    obtain ⟨hm, hrz⟩ := hkids r (List.mem_cons_of_mem q hr)
    refine ⟨?_, (hzombie r hne).trans hrz⟩
    rw [show g1.children p = _ from update_self ..]
    exact (List.mem_erase_of_ne hne).2 hm
  obtain ⟨g', reach, hp, hzs, hc, room'⟩ :=
    h g1 _ (update_self ..) (room.update here (some _) hleft) hkids1
  rw [update_idem] at reach room'
  refine ⟨g', (reach_call here room hexec rfl).trans reach, hp, fun r hr hrz => ?_,
    fun p' hp' hlive => ?_, room'⟩
  · rw [List.mem_cons, not_or] at hr
    exact hzs r hr.2 ((hzombie r hr.1).trans hrz)
  · have hsub := hc p' hp' ((update_of_ne hp' ..).trans_ne hlive)
    rwa [show g1.children p' = _ from update_of_ne hp' ..] at hsub

theorem finishes_fork1 {k : Bool → Code Empty} (hchild : ∀ q, Finishes q [] ⟨l, k true⟩)
    (hparent : ∀ q, q ∉ kids → Finishes p (q :: kids) ⟨l, k false⟩) :
    Finishes p kids ⟨l, fork1 >>= k⟩ := by
  intro g P here room hkids
  obtain ⟨q, hN⟩ := room
  obtain ⟨hqz, hqP⟩ := hN q le_rfl
  have hqp : q ≠ p := by
    rintro rfl
    cases here.symm.trans hqP
  have hqkids : q ∉ kids := by
    intro hm
    cases (hkids q hm).2.symm.trans hqz
  let g1 : Shared := { g with children := update g.children p (q :: g.children p) }
  have hresult : lucky.exec p q ⟨true, 0⟩ .fork g l =
      some ⟨g1, some (.parent, l), some (.child, l)⟩ := by
    refine Option.filter_eq_some_iff.2 ⟨?_, rfl⟩
    simp only [kernel, exec, hqz, and_self, ↓reduceIte]
    rfl
  have hstep := Step.act (S := ⟨g, P⟩) here hqP hresult
  let P1 : Procs := update (update P q (some ⟨l, k true⟩)) p (some ⟨l, k false⟩)
  have hother : ∀ r, r ≠ p → r ≠ q → P1 r = P r :=
    fun r hrp hrq => (update_of_ne hrp ..).trans (update_of_ne hrq ..)
  have room1 : Roomy g1 P1 := by
    refine ⟨q + 1, fun r hr => ?_⟩
    obtain ⟨hrz, hrP⟩ := hN r (by omega)
    have hrp : r ≠ p := by
      rintro rfl
      cases here.symm.trans hrP
    exact ⟨hrz, (hother r hrp (by omega)).trans hrP⟩
  have hprocs : update P1 q none = update P p (some ⟨l, k false⟩) := by
    rw [Function.update_comm hqp.symm, update_idem, ← hqP, update_eq_self]
  have hp1 : g1.children p = q :: g.children p := update_self ..
  -- the child comes to its end, and then the parent
  obtain ⟨g2, reach2, hz2, hzs2, hc2, room2⟩ := hchild q g1 P1
    ((update_of_ne hqp ..).trans (update_self ..)) room1 fun _ h => absurd h List.not_mem_nil
  rw [hprocs] at reach2 room2
  have hkids2 : ∀ r ∈ q :: kids, r ∈ g2.children p ∧ g2.zombie r = true := by
    have hsub := hc2 p hqp.symm ((update_self ..).trans_ne (Option.some_ne_none _))
    rw [hp1] at hsub
    intro r hr
    rcases List.mem_cons.1 hr with rfl | hr
    · exact ⟨hsub (List.mem_cons_self ..), hz2⟩
    · obtain ⟨hm, hrz⟩ := hkids r hr
      exact ⟨hsub (List.mem_cons_of_mem q hm), hzs2 r List.not_mem_nil hrz⟩
  obtain ⟨g', reach, hp, hzs, hc, room'⟩ := hparent q hqkids g2 _ (update_self ..) room2 hkids2
  rw [update_idem] at reach room'
  refine ⟨g', ((Reach.start.step hstep).trans reach2).trans reach, hp, fun r hr hrz => ?_,
    fun p' hp' hlive => ?_, room'⟩
  · refine hzs r ?_ (hzs2 r List.not_mem_nil hrz)
    intro hm
    rcases List.mem_cons.1 hm with rfl | hm
    · cases hrz.symm.trans hqz
    · exact hr hm
  · have hpq : p' ≠ q := by
      rintro rfl
      exact hlive hqP
    have hsub := hc2 p' hpq ((hother p' hp' hpq).trans_ne hlive)
    rw [show g1.children p' = _ from update_of_ne hp' ..] at hsub
    exact List.Subset.trans hsub (hc p' hp' ((update_of_ne hp' ..).trans_ne hlive))

end Finish

theorem finishes_runcmd (cmd : Cmd) (π : Path) (io : Io) (l : Loc) (p : ℕ) (hfds : l.fds = std io) :
    Finishes p [] ⟨l, runcmd cmd π⟩ := by
  have close : ∀ {p kids fd l} {k : Unit → Code Empty},
      Finishes p kids ⟨{ l with fds := update l.fds fd none }, k ()⟩ →
      Finishes p kids ⟨l, .act (.close fd) k⟩ := finishes_returns (fun _ _ _ => rfl) rfl
  have dup : ∀ {p kids fd fd' fds f l} {k : Option ℕ → Code Empty}, l.fds fd = some f →
      fdalloc l.fds f = some (fd', fds) → Finishes p kids ⟨{ l with fds := fds }, k (some fd')⟩ →
      Finishes p kids ⟨l, .act (.dup fd) k⟩ := by
    intro p kids fd fd' fds f l k hf halloc
    refine finishes_returns (fun q o g => ?_) rfl
    simp only [kernel, exec, hf, halloc]
  induction cmd generalizing π io l p with
  | exec argv =>
    unfold runcmd
    refine finishes_returns (fun _ _ _ => rfl) rfl ?_
    by_cases hargv : argv = []
    · rw [if_pos hargv]
      exact finishes_exit
    · rw [if_neg hargv]
      exact finishes_call fun g => ⟨⟨true, 0⟩, g, true, _, fun _ => rfl, rfl, rfl, rfl,
        finishes_exit⟩
  | redir cmd file mode fd ih =>
    unfold runcmd
    refine finishes_returns (fun _ _ _ => rfl) rfl (close ?_)
    rw [hfds]
    refine finishes_call fun g => ⟨⟨true, 0⟩, g.make π, some fd.fd,
      ⟨std (update io fd (.file g.next)), π, l.image⟩, fun q => ?_, rfl, rfl, rfl,
      ih _ _ _ p rfl⟩
    simp only [kernel, exec, fdalloc_closed]
  | pipe left right ihl ihr =>
    unfold runcmd
    refine finishes_returns (fun _ _ _ => rfl) rfl ?_
    rw [hfds]
    refine finishes_call fun g => ⟨⟨true, 0⟩, g.make π, some (3, 4),
      ⟨piped io g.next, π, l.image⟩, fun q => ?_, rfl, rfl, rfl, ?_⟩
    · simp only [kernel, exec, fdalloc_read, fdalloc_write]
    refine finishes_fork1 (fun q => ?_) fun q1 _ => finishes_fork1 (fun q => ?_) fun q2 hq2 => ?_
    · refine close (dup rfl (fdalloc_dup io _ .stdout _) (close (close ?_)))
      rw [piped_closed]
      exact ihl _ _ _ q rfl
    · refine close (dup rfl (fdalloc_dup io _ .stdin _) (close (close ?_)))
      rw [piped_closed]
      exact ihr _ _ _ q rfl
    · exact close (close (finishes_wait hq2 (finishes_wait List.not_mem_nil finishes_exit)))
  | list left right ihl ihr =>
    unfold runcmd
    refine finishes_returns (fun _ _ _ => rfl) rfl ?_
    exact finishes_fork1 (fun q => ihl _ io _ q hfds) fun q hq =>
      finishes_wait hq (ihr _ io _ p hfds)
  | back cmd ih =>
    unfold runcmd
    refine finishes_returns (fun _ _ _ => rfl) rfl ?_
    exact finishes_fork1 (fun q => ih _ io _ q hfds) fun q _ => finishes_exit

/-- A process is about to execute the command at the node `σ`. -/
def Reached (σ : Path) (argv : List Word) (S : Sys Call Empty Shared Loc) : Prop :=
  ∃ p l k, S.procs p = some ⟨l, .act (.exec argv) k⟩ ∧ l.node = σ

theorem reached_of_hits {S : Sys Call Empty Shared Loc} (h : Hits (atLeaf σ argv) S) :
    Reached σ argv S := by
  obtain ⟨p, β, a, k, l, hp, hit⟩ := h
  cases a with
  | exec argv' =>
    obtain ⟨rfl, hσ⟩ := hit
    exact ⟨p, l, k, hp, hσ⟩
  | _ => exact hit.elim

section Start

variable {io : Io} {pid : ℕ} {g : Shared}

theorem passes_leaf (hσ : sub root σ = some (.exec argv)) (hne : argv ≠ [])
    {S : Sys Call Empty Shared Loc} (h : Reach lucky (start root io pid g) S)
    (hend : ∀ p, S.procs p = none) :
    ∃ S', Reach lucky (start root io pid g) S' ∧ Reach lucky S' S ∧ Reached σ argv S' := by
  have howes := owes_runcmd hne hσ root [] ⟨std io, [], none⟩ rfl List.nil_suffix
  rcases Owes.passes (p := pid) (if_pos rfl) howes h with ⟨S', h1, h2, hits⟩ | ⟨p, x, hx, -⟩
  · exact ⟨S', h1, h2, reached_of_hits hits⟩
  · cases (hend p).symm.trans hx

theorem comes_to_end (root : Cmd) (room : ∃ N, ∀ q, N ≤ q → g.zombie q = false) :
    ∃ S, Reach lucky (start root io pid g) S ∧ ∀ p, S.procs p = none := by
  obtain ⟨N, hN⟩ := room
  obtain ⟨g', hreach, -⟩ := finishes_runcmd root [] io ⟨std io, [], none⟩ pid rfl
    (start root io pid g).shared (start root io pid g).procs (if_pos rfl)
    ⟨max N (pid + 1), fun q hq => ⟨hN q (by omega), if_neg (by omega)⟩⟩ nofun
  refine ⟨_, hreach, fun p => ?_⟩
  dsimp only
  rw [Function.update_apply]
  split_ifs with hp
  · rfl
  · exact if_neg hp

end Start

/-- In every run of a command, a program starts at the node that names it, with the three standard
    files and nothing else; the parts of a pipe have its two ends unless something inside overrides
    them, and no process that waits outside keeps one open. Where the calls succeed, a run has
    started every program when it comes to its end, and some run comes to its end. -/
theorem pipelines_wired (root : Cmd) (io : Io) (pid : ℕ) (g : Shared)
    (hio : ∀ s, (io s).object < g.next) {S : Sys Call Empty Shared Loc}
    (h : Reach kernel (start root io pid g) S) :
    (∀ p l argv k, S.procs p = some ⟨l, .act (.exec argv) k⟩ →
      sub root l.node = some (.exec argv) ∧ ∀ fd, (l.fds fd).isSome ↔ fd < 3) ∧
    (∀ ρ left right k, sub root ρ = some (.pipe left right) → S.shared.made ρ = some k →
      (g.next ≤ k ∧ ∀ ρ', S.shared.made ρ' = some k → ρ' = ρ) ∧
      (∀ p x, S.procs p = some x → Executes x →
        (.left :: ρ <:+ x.loc.node → Inherits root .stdout (.left :: ρ) x.loc.node →
          x.loc.fds 1 = some (.pipeWrite k)) ∧
        (.right :: ρ <:+ x.loc.node → Inherits root .stdin (.right :: ρ) x.loc.node →
          x.loc.fds 0 = some (.pipeRead k))) ∧
      (∀ p x fd, S.procs p = some x → Waits x →
        x.loc.fds fd = some (.pipeWrite k) ∨ x.loc.fds fd = some (.pipeRead k) →
          .left :: ρ <:+ x.loc.node ∨ .right :: ρ <:+ x.loc.node) ∧
      ∀ p x fd, S.procs p = some x → Settled x → x.loc.fds fd = some (.pipeWrite k) →
        .left :: ρ <:+ x.loc.node) ∧
    (∀ σ argv, sub root σ = some (.exec argv) → argv ≠ [] → ∀ S',
      Reach lucky (start root io pid g) S' → (∀ p, S'.procs p = none) →
        ∃ T, Reach lucky (start root io pid g) T ∧ Reach lucky T S' ∧ Reached σ argv T) ∧
    ((∃ N, ∀ q, N ≤ q → g.zombie q = false) →
      ∃ S', Reach lucky (start root io pid g) S' ∧ ∀ p, S'.procs p = none) := by
  have hnum := numbered_reach h
  have hclean := fun {p x} => settled_clean (p := p) (x := x) h
  refine ⟨fun p l argv k hx => ⟨executes_leaf h hx, fun fd => ?_⟩,
    fun ρ left right k hpipe hk => ⟨?_, ?_, ?_, ?_⟩,
    fun σ argv hσ hne S' h' hend => passes_leaf hσ hne h' hend, comes_to_end root⟩
  · obtain ⟨cmd, io', hfds, _⟩ := hclean hx (.inl ⟨argv, k, rfl⟩)
    rw [hfds]
    exact std_isSome io' fd
  · exact ⟨(hnum.range ρ k hk).1, fun ρ' hk' => hnum.once ρ' ρ k hk' hk⟩
  · intro p x hx hex
    obtain ⟨cmd, io', hfds, hw⟩ := hclean hx (.inl hex)
    rw [hfds]
    exact ⟨fun hin hs => congrArg some (hw.stdout hpipe hk hin hs),
      fun hin hs => congrArg some (hw.stdin hpipe hk hin hs)⟩
  · intro p x fd hx hwait hend
    obtain ⟨cmd, io', hfds, hw⟩ := hclean hx (.inr (.inl hwait))
    rw [hfds] at hend
    rcases hend with hend | hend
    · obtain ⟨s, hs⟩ := std_eq_some hend
      exact .inl ((hw.holds hio hnum hk).1 hs)
    · obtain ⟨s, hs⟩ := std_eq_some hend
      exact .inr ((hw.holds hio hnum hk).2 hs)
  · intro p x fd hx hsettled hend
    obtain ⟨cmd, io', hfds, hw⟩ := hclean hx hsettled
    rw [hfds] at hend
    obtain ⟨s, hs⟩ := std_eq_some hend
    exact (hw.holds hio hnum hk).1 hs

/-- `(a ; b > f) | c` -/
def pipeline : Cmd :=
  .pipe (.list (.exec [['a']]) (.redir (.exec [['b']]) ['f'] 1 .stdout)) (.exec [['c']])

def plain : Shared := ⟨1, fun _ => none, fun _ => [], fun _ => false⟩

def pipelineMoves : List (ℕ × ℕ × Chance) :=
  [(2, 9), (2, 9), (2, 3), (2, 4), (3, 9), (3, 9), (3, 9), (3, 9), (3, 9), (3, 5), (5, 9), (4, 9),
    (4, 9), (4, 9), (4, 9), (4, 9)].map fun m => (m.1, m.2, ⟨true, 0⟩)

theorem pipeline_runs :
    ∃ S x y, play kernel pipelineMoves (start pipeline (fun _ => .file 0) 2 plain) = some S ∧
      S.procs 5 = some x ∧ Executes x ∧ x.loc.node = [.left, .left] ∧
      S.procs 4 = some y ∧ Executes y ∧ y.loc.node = [.right] ∧ S.shared.made [] = some 1 :=
  ⟨_, _, _, rfl, rfl, ⟨_, _, rfl⟩, rfl, rfl, ⟨_, _, rfl⟩, rfl, rfl⟩

theorem inherits_self (root : Cmd) (s : Std) (σ : Path) : Inherits root s σ σ := by
  intro ρ d hρ hd
  have := hρ.length_le
  have := hd.length_le
  simp only [List.length_cons] at *
  omega

theorem pipelines_wired_pipeline :
    (∃ S x y, Reach kernel (start pipeline (fun _ => .file 0) 2 plain) S ∧
      S.procs 5 = some x ∧ Executes x ∧ x.loc.fds 1 = some (.pipeWrite 1) ∧
      S.procs 4 = some y ∧ Executes y ∧ y.loc.fds 0 = some (.pipeRead 1)) ∧
    ∃ T, Reach lucky (start pipeline (fun _ => .file 0) 2 plain) T ∧
      Reached [.left, .right, .left] [['b']] T := by
  obtain ⟨S, x, y, hplay, hx, hexec, hnode, hy, hexec', hnode', hmade⟩ := pipeline_runs
  have hreach := reach_of_play hplay
  obtain ⟨-, hpipe, hleaf, hends⟩ := pipelines_wired pipeline (fun _ => .file 0) 2 plain
    (fun _ => Nat.zero_lt_one) hreach
  obtain ⟨-, hwired, -⟩ := hpipe [] _ _ 1 rfl hmade
  refine ⟨⟨S, x, y, hreach, hx, hexec, ?_, hy, hexec', ?_⟩, ?_⟩
  · refine (hwired 5 x hx hexec).1 ⟨[.left], hnode.symm⟩ fun ρ d hρ hd => ?_
    rw [hnode] at hd
    rcases List.suffix_cons_iff.1 hd with heq | hd
    · cases heq
      exact id
    · exact inherits_self _ _ _ ρ d hρ hd
  · refine (hwired 4 y hy hexec').2 ⟨[], hnode'.symm⟩ ?_
    rw [hnode']
    exact inherits_self _ _ _
  · obtain ⟨S', h', hend⟩ := hends ⟨0, fun _ _ => rfl⟩
    obtain ⟨T, hT, -, hreached⟩ := hleaf [.left, .right, .left] [['b']] rfl nofun S' h' hend
    exact ⟨T, hT, hreached⟩

end Xv6.ShellLeaves
