import Xv6.ShellSyntax

set_option autoImplicit false

namespace Xv6.ShellPrinting
open ShellParser ShellGrammar ShellSyntax
open ShellCode (CmdTree Word Cmd)

variable {cmd : Cmd} {rs : List (Op × Word)} {ts : List Token}

inductive Level where
  | line
  | backs
  | pipe
  | exec
  deriving DecidableEq

def paren (b : Bool) (ts : List Token) : List Token :=
  if b then .sym .lparen :: ts ++ [.sym .rparen] else ts

def opOf (mode : ℕ) : Op :=
  if mode = O_RDONLY then .lt else if mode = O_WRONLY ||| O_CREATE then .gtgt else .gt

def print : Cmd → Level → List Token
  | .exec argv, _ => argv.map .word
  | .redir cmd file mode _, _ => print cmd .exec ++ [.sym (opOf mode).sym, .word file]
  | .pipe left right, level =>
    paren (level = .exec) (print left .exec ++ .sym .bar :: print right .pipe)
  | .back cmd, level =>
    paren (level = .exec ∨ level = .pipe) (print cmd .backs ++ [.sym .amp])
  | .list left right, level =>
    paren (level ≠ .line) (print left .backs ++ .sym .semi :: print right .line)

def charsOf : Token → List Char
  | .sym .gtgt => ['>', '>']
  | .sym y => [first y]
  | .word w => w

def render (ts : List Token) : List Char := ts.flatMap fun t => charsOf t ++ [' ']

def IsWord (w : Word) : Prop := w ≠ [] ∧ ∀ c ∈ w, wordChar c ∧ c ≠ '\x00'

def Printable : Cmd → Prop
  | .exec argv => argv.length < MAXARGS ∧ ∀ w ∈ argv, IsWord w
  | .redir cmd file mode fd =>
    Printable cmd ∧ IsWord file ∧ CmdTree.redir cmd file mode fd = (opOf mode).redir file cmd
  | .pipe left right => Printable left ∧ Printable right
  | .list left right => Printable left ∧ Printable right
  | .back cmd => Printable cmd

def IsToken (t : Token) : Prop := ∀ w, t = .word w → IsWord w

theorem printable_redir (op : Op) {w : Word} (h : Printable cmd) (hw : IsWord w) :
    Printable (op.redir w cmd) := by
  cases op <;> exact ⟨h, hw, rfl⟩

theorem printable_wrap (h : Printable cmd) (hrs : ∀ r ∈ rs, IsWord r.2) :
    Printable (wrap rs cmd) := by
  induction rs generalizing cmd with
  | nil => exact h
  | cons r rs ih =>
    refine ih (printable_redir r.1 h (hrs r List.mem_cons_self)) fun r' hr' => ?_
    exact hrs r' (List.mem_cons_of_mem r hr')

theorem printable_backs {k : ℕ} (h : Printable cmd) : Printable (backs k cmd) := by
  induction k generalizing cmd with
  | zero => exact h
  | succ k ih =>
    have hback : Printable (.back cmd) := h
    exact ih hback

theorem redirs_words (h : Redirs ts rs) (hts : ∀ t ∈ ts, IsToken t) : ∀ r ∈ rs, IsWord r.2 := by
  induction h with
  | nil => exact fun r hr => absurd hr List.not_mem_nil
  | cons op w rest ih =>
    intro r hr
    rcases List.mem_cons.1 hr with rfl | hr
    · exact hts (.word w) (by simp) w rfl
    · exact ih (fun t ht => hts t (by simp [ht])) r hr

theorem args_words {ws : List Word} (h : Args ts ws rs) (hts : ∀ t ∈ ts, IsToken t) :
    (∀ w ∈ ws, IsWord w) ∧ ∀ r ∈ rs, IsWord r.2 := by
  induction h with
  | nil => exact ⟨fun w hw => absurd hw List.not_mem_nil, fun r hr => absurd hr List.not_mem_nil⟩
  | cons w redirs rest ih =>
    have hrest := ih fun t ht => hts t (by simp [ht])
    have hredirs := redirs_words redirs fun t ht => hts t (by simp [ht])
    refine ⟨fun w' hw' => ?_, fun r hr => ?_⟩
    · rcases List.mem_cons.1 hw' with rfl | hw'
      · exact hts (.word w') (by simp) w' rfl
      · exact hrest.1 w' hw'
    · rcases List.mem_append.1 hr with hr | hr
      · exact hredirs r hr
      · exact hrest.2 r hr

theorem gen_printable {y : Symbol} (h : Gen y ts cmd) (hts : ∀ t ∈ ts, IsToken t) :
    Printable cmd := by
  induction h with
  | words redirs args few =>
    have hargs := args_words args fun t ht => hts t (by simp [ht])
    have hredirs := redirs_words redirs fun t ht => hts t (by simp [ht])
    refine printable_wrap ⟨few, hargs.1⟩ fun r hr => ?_
    rcases List.mem_append.1 hr with hr | hr
    · exact hredirs r hr
    · exact hargs.2 r hr
  | block _ redirs ih =>
    exact printable_wrap (ih fun t ht => hts t (by simp [ht]))
      (redirs_words redirs fun t ht => hts t (by simp [ht]))
  | last _ ih => exact ih hts
  | pipe _ _ ih ih' =>
    exact ⟨ih fun t ht => hts t (by simp [ht]), ih' fun t ht => hts t (by simp [ht])⟩
  | line k _ ih => exact printable_backs (ih fun t ht => hts t (by simp [ht]))
  | list k _ _ ih ih' =>
    exact ⟨printable_backs (ih fun t ht => hts t (by simp [ht])),
      ih' fun t ht => hts t (by simp [ht])⟩

theorem redirs_snoc (h : Redirs ts rs) (op : Op) (w : Word) :
    Redirs (ts ++ [.sym op.sym, .word w]) (rs ++ [(op, w)]) := by
  induction h with
  | nil => exact .cons op w .nil
  | cons op' w' rest ih => exact .cons op' w' ih

theorem args_snoc {ws : List Word} (h : Args ts ws rs) (hne : ws ≠ []) (op : Op) (w : Word) :
    Args (ts ++ [.sym op.sym, .word w]) ws (rs ++ [(op, w)]) := by
  induction h with
  | nil => exact absurd rfl hne
  | cons w' redirs rest ih =>
    cases rest with
    | nil =>
      have hlast := Args.cons w' (redirs_snoc redirs op w) .nil
      simp only [List.append_nil, List.cons_append] at hlast ⊢
      exact hlast
    | cons w'' redirs' rest' =>
      have hlast := Args.cons w' redirs (ih (List.cons_ne_nil _ _))
      simp only [List.cons_append, List.append_assoc] at hlast ⊢
      exact hlast

theorem gen_redir (h : Gen .exec ts cmd) (op : Op) (w : Word) :
    Gen .exec (ts ++ [.sym op.sym, .word w]) (op.redir w cmd) := by
  have hwrap : ∀ (rs : List (Op × Word)) (cmd : Cmd),
      op.redir w (wrap rs cmd) = wrap (rs ++ [(op, w)]) cmd := fun rs cmd => by
    rw [wrap_append]
    rfl
  cases h with
  | words redirs args few =>
    rename_i ts1 ts2 rs1 rs2 ws
    rw [hwrap]
    cases args with
    | nil =>
      have hexec := Gen.words (redirs_snoc redirs op w) .nil few
      simp only [List.append_nil] at hexec ⊢
      exact hexec
    | cons w' redirs' rest =>
      have hexec := Gen.words redirs (args_snoc (.cons w' redirs' rest) (List.cons_ne_nil _ _) op w)
        few
      simp only [List.append_assoc, List.cons_append] at hexec ⊢
      exact hexec
  | block line redirs =>
    have hexec := Gen.block line (redirs_snoc redirs op w)
    rw [hwrap, List.append_assoc, List.cons_append]
    exact hexec

theorem gen_paren (h : Gen .line ts cmd) :
    Gen .exec (paren true ts) cmd := Gen.block h .nil

theorem back_backs {ω : Type} (k : ℕ) (cmd : CmdTree ω) : .back (backs k cmd) = backs
    (k + 1) cmd := by
  induction k generalizing cmd with
  | zero => rfl
  | succ k ih => exact ih (.back cmd)

def GenBacks (ts : List Token) (cmd : Cmd) : Prop :=
  ∃ k ts' cmd', ts = ts' ++ List.replicate k (.sym .amp) ∧ cmd = backs k cmd' ∧ Gen .pipe ts' cmd'

theorem GenBacks.line (h : GenBacks ts cmd) : Gen .line ts cmd := by
  obtain ⟨k, ts', cmd', rfl, rfl, hpipe⟩ := h
  exact .line k hpipe

theorem GenBacks.of_pipe (h : Gen .pipe ts cmd) : GenBacks ts cmd :=
  ⟨0, ts, cmd, (List.append_nil ts).symm, rfl, h⟩

structure Prints (cmd : Cmd) : Prop where
  exec : Gen .exec (print cmd .exec) cmd
  pipe : Gen .pipe (print cmd .pipe) cmd
  backs : GenBacks (print cmd .backs) cmd
  line : Gen .line (print cmd .line) cmd

theorem Prints.of_exec (h : Gen .exec (print cmd .exec) cmd)
    (hsame : ∀ level, print cmd level = print cmd .exec) : Prints cmd := by
  refine ⟨h, ?_, ?_, ?_⟩
  · rw [hsame]
    exact .last h
  · rw [hsame]
    exact .of_pipe (.last h)
  · rw [hsame]
    exact (GenBacks.of_pipe (.last h)).line

theorem prints (h : Printable cmd) : Prints cmd := by
  induction cmd with
  | exec argv =>
    have hargs : ∀ ws : List Word, Args (ws.map .word) ws [] := by
      intro ws
      induction ws with
      | nil => exact .nil
      | cons w ws ih => exact .cons w .nil ih
    exact .of_exec (.words .nil (hargs argv) h.1) fun _ => rfl
  | redir cmd file mode fd ih =>
    have hexec := gen_redir (ih h.1).exec (opOf mode) file
    rw [← h.2.2] at hexec
    exact .of_exec hexec fun _ => rfl
  | pipe left right ihl ihr =>
    have hpipe := Gen.pipe (ihl h.1).exec (ihr h.2).pipe
    have hline := (GenBacks.of_pipe hpipe).line
    exact ⟨gen_paren hline, hpipe, .of_pipe hpipe, hline⟩
  | list left right ihl ihr =>
    obtain ⟨k, ts, cmd', hts, hcmd, hpipe⟩ := (ihl h.1).backs
    have hline : Gen .line (print left .backs ++ .sym .semi :: print right .line)
        (.list left right) := by
      rw [hts, hcmd]
      exact .list k hpipe (ihr h.2).line
    have hexec := gen_paren hline
    exact ⟨hexec, .last hexec, .of_pipe (.last hexec), hline⟩
  | back cmd ih =>
    obtain ⟨k, ts, cmd', hts, hcmd, hpipe⟩ := (ih h).backs
    have hbacks : GenBacks (print cmd .backs ++ [.sym .amp]) (.back cmd) := by
      refine ⟨k + 1, ts, cmd', ?_, ?_, hpipe⟩
      · rw [hts, List.append_assoc, List.replicate_succ']
      · rw [hcmd, back_backs]
    have hexec := gen_paren hbacks.line
    exact ⟨hexec, .last hexec, hbacks, hbacks.line⟩

theorem tokens_space (s : Cursor) : tokens (' ' :: s) = tokens s := lex_space (by decide) [] s

theorem tokens_charsOf {t : Token} (h : IsToken t) (s : Cursor) :
    tokens (charsOf t ++ ' ' :: s) = t :: tokens s := by
  rw [← tokens_space s]
  cases t with
  | sym y =>
    cases y with
    | gt => exact lex_gt [] (s := ' ' :: s) (by simp)
    | gtgt => exact lex_gtgt [] (' ' :: s)
    | bar | lparen | rparen | semi | amp | lt =>
      exact lex_symbol (by decide) (by rfl) [] (' ' :: s)
  | word w =>
    obtain ⟨hne, hchars⟩ := h w rfl
    unfold tokens charsOf
    dsimp only
    rw [lex_append fun c hc => (hchars c hc).1, List.nil_append,
      lex_space (by decide : ' ' ∈ whitespace), lex_space (by decide : ' ' ∈ whitespace)]
    exact if_neg hne

theorem tokens_render (h : ∀ t ∈ ts, IsToken t) : tokens (render ts) = ts := by
  induction ts with
  | nil => rfl
  | cons t ts ih =>
    have hrender : render (t :: ts) = charsOf t ++ ' ' :: render ts := by
      unfold render
      rw [List.flatMap_cons, List.append_assoc, List.singleton_append]
    rw [hrender, tokens_charsOf (h t List.mem_cons_self),
      ih fun t' ht' => h t' (List.mem_cons_of_mem t ht')]

theorem isToken_sym (y : Sym) : IsToken (.sym y) := fun _ h => by cases h

theorem isToken_paren {b : Bool} (h : ∀ t ∈ ts, IsToken t) : ∀ t ∈ paren b ts, IsToken t := by
  unfold paren
  split_ifs
  · intro t ht
    simp only [List.cons_append, List.mem_cons, List.mem_append, List.not_mem_nil, or_false] at ht
    rcases ht with rfl | ht | rfl
    · exact isToken_sym _
    · exact h t ht
    · exact isToken_sym _
  · exact h

theorem isToken_print (h : Printable cmd) (level : Level) : ∀ t ∈ print cmd level, IsToken t := by
  induction cmd generalizing level with
  | exec argv =>
    intro t ht w hw
    obtain ⟨w', hw', rfl⟩ := List.mem_map.1 ht
    cases hw
    exact h.2 w hw'
  | redir cmd file mode fd ih =>
    intro t ht
    rcases List.mem_append.1 ht with ht | ht
    · exact ih h.1 .exec t ht
    · simp only [List.mem_cons, List.not_mem_nil, or_false] at ht
      rcases ht with rfl | rfl
      · exact isToken_sym _
      · intro w hw
        cases hw
        exact h.2.1
  | pipe left right ihl ihr =>
    refine isToken_paren fun t ht => ?_
    rcases List.mem_append.1 ht with ht | ht
    · exact ihl h.1 _ t ht
    · rcases List.mem_cons.1 ht with rfl | ht
      · exact isToken_sym _
      · exact ihr h.2 _ t ht
  | list left right ihl ihr =>
    refine isToken_paren fun t ht => ?_
    rcases List.mem_append.1 ht with ht | ht
    · exact ihl h.1 _ t ht
    · rcases List.mem_cons.1 ht with rfl | ht
      · exact isToken_sym _
      · exact ihr h.2 _ t ht
  | back cmd ih =>
    refine isToken_paren fun t ht => ?_
    rcases List.mem_append.1 ht with ht | ht
    · exact ih h _ t ht
    · rw [List.mem_singleton.1 ht]
      exact isToken_sym _

theorem nul_notMem_render (h : ∀ t ∈ ts, IsToken t) : '\x00' ∉ render ts := by
  intro hmem
  obtain ⟨t, ht, hc⟩ := List.mem_flatMap.1 hmem
  rcases List.mem_append.1 hc with hc | hc
  · cases t with
    | sym y => cases y <;> revert hc <;> decide
    | word w => exact ((h _ ht w rfl).2 _ hc).2 rfl
  · exact absurd hc (by decide)

theorem isToken_flush {w : Word} (hw : ∀ c ∈ w, wordChar c ∧ c ≠ '\x00')
    (hts : ∀ t ∈ ts, IsToken t) : ∀ t ∈ flush w ts, IsToken t := by
  unfold flush
  split_ifs with hne
  · exact hts
  · intro t ht
    rcases List.mem_cons.1 ht with rfl | ht
    · intro w' hw'
      cases hw'
      exact ⟨hne, hw⟩
    · exact hts t ht

theorem isToken_lex (s : Cursor) (w : Word) (hs : '\x00' ∉ s)
    (hw : ∀ c ∈ w, wordChar c ∧ c ≠ '\x00') : ∀ t ∈ lex w s, IsToken t := by
  induction hlength : s.length using Nat.strong_induction_on generalizing s w with
  | _ m ih =>
    subst hlength
    have hempty : ∀ t ∈ ([] : List Token), IsToken t := fun t ht => absurd ht List.not_mem_nil
    have hnone : ∀ c ∈ ([] : Word), wordChar c ∧ c ≠ '\x00' := fun c hc =>
      absurd hc List.not_mem_nil
    cases s with
    | nil => exact isToken_flush hw hempty
    | cons c s =>
      have hrest : ∀ w, (∀ c ∈ w, wordChar c ∧ c ≠ '\x00') → ∀ t ∈ lex w s, IsToken t :=
        fun w hw => ih s.length (Nat.lt_succ_self _) s w
          (fun hmem => hs (List.mem_cons_of_mem c hmem)) hw rfl
      have hsym : ∀ y ts, (∀ t ∈ ts, IsToken t) → ∀ t ∈ flush w (.sym y :: ts), IsToken t := by
        intro y ts hts
        refine isToken_flush hw fun t ht => ?_
        rcases List.mem_cons.1 ht with rfl | ht
        · exact isToken_sym y
        · exact hts t ht
      by_cases hspace : c ∈ whitespace
      · rw [lex_space hspace]
        exact isToken_flush hw (hrest [] hnone)
      cases hsymbol : symbol c with
      | some y =>
        rw [lex_symbol hspace hsymbol]
        exact hsym y _ (hrest [] hnone)
      | none =>
        by_cases hgt : c = '>'
        · subst hgt
          by_cases hhead : s.head? = some '>'
          · obtain ⟨s', rfl⟩ : ∃ s', s = '>' :: s' := ⟨s.tail, List.eq_cons_of_mem_head? hhead⟩
            rw [lex_gtgt]
            refine hsym _ _ (ih s'.length ?_ s' [] (fun hmem => hs ?_) hnone rfl)
            · rw [List.length_cons, List.length_cons]
              omega
            · exact List.mem_cons_of_mem _ (List.mem_cons_of_mem _ hmem)
          · rw [lex_gt w hhead]
            exact hsym _ _ (hrest [] hnone)
        · have hword := wordChar_of hspace hsymbol hgt
          rw [lex_wordChar hword]
          refine hrest _ fun c' hc' => ?_
          rcases List.mem_append.1 hc' with hc' | hc'
          · exact hw c' hc'
          · rw [List.mem_singleton.1 hc']
            exact ⟨hword, fun heq => hs (heq ▸ List.mem_cons_self)⟩

/-- The parser returns a command exactly when the grammar generates the tokens of the line; the
    tree is that of the derivation, and a tree that is printed and parsed comes back. -/
theorem parsecmd_grammar (line : List Char) (hnul : '\x00' ∉ line) :
    ((∃ tree, parsecmd line = .done tree []) ∨ ∃ msg, parsecmd line = .panic msg) ∧
    (∀ cmd, (∃ tree, parsecmd line = .done tree [] ∧ textTree tree = cmd) ↔
      Gen .line (tokens line) cmd) ∧
    (∀ cmd cmd', Gen .line (tokens line) cmd → Gen .line (tokens line) cmd' → cmd = cmd') ∧
    ∀ cmd, Gen .line (tokens line) cmd → '\x00' ∉ render (print cmd .line) ∧
      ∃ tree, parsecmd (render (print cmd .line)) = .done tree [] ∧ textTree tree = cmd := by
  refine ⟨?_, fun cmd => ⟨?_, fun h => parsecmd_complete h⟩, fun cmd cmd' h h' => ?_,
    fun cmd h => ?_⟩
  · rcases parsecmd_ends line with ⟨tree, hrun, _⟩ | hpanic
    · exact .inl ⟨tree, hrun⟩
    · exact .inr hpanic
  · rintro ⟨tree, hrun, rfl⟩
    rcases parsecmd_ends line with ⟨tree', hrun', hgen⟩ | ⟨msg, hpanic⟩
    · cases hrun.symm.trans hrun'
      exact hgen
    · cases hrun.symm.trans hpanic
  · obtain ⟨tree, hrun, rfl⟩ := parsecmd_complete h
    obtain ⟨tree', hrun', rfl⟩ := parsecmd_complete h'
    cases hrun.symm.trans hrun'
    rfl
  · have hprintable := gen_printable h (isToken_lex line [] hnul fun c hc => (by cases hc))
    have htokens := isToken_print hprintable .line
    refine ⟨nul_notMem_render htokens, parsecmd_complete ?_⟩
    rw [tokens_render htokens]
    exact (prints hprintable).line

theorem parsecmd_grammar_pipe :
    ∃ tree, parsecmd ['a', '>', 'f', '|', 'b', '&'] = .done tree [] ∧
      textTree tree = .back (.pipe (Op.redir .gt ['f'] (.exec [['a']])) (.exec [['b']])) := by
  have htokens : tokens ['a', '>', 'f', '|', 'b', '&'] =
      [.word ['a'], .sym .gt, .word ['f'], .sym .bar, .word ['b'], .sym .amp] := by decide
  have hleft : Gen .exec [.word ['a'], .sym .gt, .word ['f']]
    (Op.redir .gt ['f'] (.exec [['a']])) :=
    .words .nil (.cons ['a'] (.cons .gt ['f'] .nil) .nil) (by decide)
  have hright : Gen .exec [.word ['b']] (.exec [['b']]) :=
    .words .nil (.cons ['b'] .nil .nil) (by decide)
  refine ((parsecmd_grammar ['a', '>', 'f', '|', 'b', '&'] (by decide)).2.1 _).2 ?_
  rw [htokens]
  exact .line 1 (.pipe hleft (.last hright))

end Xv6.ShellPrinting
