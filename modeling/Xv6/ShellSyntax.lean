import Mathlib.Data.List.TakeWhile
import Xv6.ShellGrammar

set_option autoImplicit false

namespace Xv6.ShellSyntax
open Resumption Xv6.Sequential ShellParser ShellGrammar
open ShellCode (CmdTree Word Cmd)

variable {c : Char} {y : Sym} {s : Cursor} {ts us ts' : List Token} {w : Word}
  {rs : List (Op × Word)} {ws : List Word} {n : ℕ} {cmd : Cmd} {fits : Prop}

def text (sp : Span) : Word := sp.q.take (sp.q.length - sp.eq.length)

theorem not_space_of_wordChar (h : wordChar c) : c ∉ whitespace := by
  unfold wordChar at h
  simp only [Bool.and_eq_true, Bool.not_eq_true', decide_eq_false_iff_not] at h
  exact h.1

theorem not_symbol_of_wordChar (h : wordChar c) : symbol c = none ∧ c ≠ '>' := by
  unfold wordChar symbols at h
  simp only [List.mem_cons, List.not_mem_nil, or_false, Bool.and_eq_true, Bool.not_eq_true',
    decide_eq_false_iff_not, not_or] at h
  unfold symbol
  simp only [h, ↓reduceIte, ne_eq, not_false_eq_true, and_self]

theorem wordChar_of (hspace : c ∉ whitespace) (hsymbol : symbol c = none) (hgt : c ≠ '>') :
    wordChar c := by
  unfold symbol at hsymbol
  unfold wordChar symbols
  split_ifs at hsymbol
  simp only [List.mem_cons, List.not_mem_nil, or_false, Bool.and_eq_true, Bool.not_eq_true',
    decide_eq_false_iff_not, not_or]
  exact ⟨hspace, ‹_›, ‹_›, hgt, ‹_›, ‹_›, ‹_›, ‹_›⟩

theorem lex_space (h : c ∈ whitespace) (w : Word) (s : Cursor) :
    lex w (c :: s) = flush w (lex [] s) := by
  rw [lex.eq_def]
  exact if_pos h

theorem lex_symbol (hspace : c ∉ whitespace) (h : symbol c = some y) (w : Word) (s : Cursor) :
    lex w (c :: s) = flush w (.sym y :: tokens s) := by
  rw [lex.eq_def]
  simp only [hspace, ↓reduceIte, h, tokens]

theorem lex_gtgt (w : Word) (s : Cursor) :
    lex w ('>' :: '>' :: s) = flush w (.sym .gtgt :: tokens s) := by
  rw [lex.eq_def]
  rfl

theorem lex_gt (w : Word) (h : s.head? ≠ some '>') :
    lex w ('>' :: s) = flush w (.sym .gt :: tokens s) := by
  rw [lex.eq_def]
  cases s with
  | nil => rfl
  | cons c s =>
    have hc : c ≠ '>' := fun heq => h (congrArg some heq)
    simp only [hc, ↓reduceIte, tokens]
    rfl

theorem lex_wordChar (h : wordChar c) (w : Word) (s : Cursor) :
    lex w (c :: s) = lex (w ++ [c]) s := by
  obtain ⟨hsymbol, hgt⟩ := not_symbol_of_wordChar h
  rw [lex.eq_def]
  simp only [not_space_of_wordChar h, hsymbol, hgt, ↓reduceIte]

theorem lex_append {u : Word} (h : ∀ c ∈ u, wordChar c) (w : Word) (s : Cursor) :
    lex w (u ++ s) = lex (w ++ u) s := by
  induction u generalizing w with
  | nil => rw [List.append_nil, List.nil_append]
  | cons c u ih =>
    rw [List.cons_append, lex_wordChar (h c List.mem_cons_self),
      ih (fun c' hc' => h c' (List.mem_cons_of_mem c hc')), List.append_assoc,
      List.singleton_append]

theorem lex_flush (w : Word) (h : ∀ c s', s = c :: s' → ¬ wordChar c) :
    lex w s = flush w (tokens s) := by
  cases s with
  | nil => rfl
  | cons c s =>
    have hc := h c s rfl
    unfold tokens
    by_cases hspace : c ∈ whitespace
    · rw [lex_space hspace, lex_space hspace]
      rfl
    cases hsymbol : symbol c with
    | some y =>
      rw [lex_symbol hspace hsymbol, lex_symbol hspace hsymbol]
      rfl
    | none =>
      by_cases hgt : c = '>'
      · subst hgt
        by_cases hhead : s.head? = some '>'
        · obtain ⟨s', rfl⟩ : ∃ s', s = '>' :: s' := ⟨s.tail, List.eq_cons_of_mem_head? hhead⟩
          rw [lex_gtgt, lex_gtgt]
          rfl
        · rw [lex_gt w hhead, lex_gt [] hhead]
          rfl
      · exact absurd (wordChar_of hspace hsymbol hgt) hc

theorem tokens_skip (s : Cursor) : tokens (skip s) = tokens s := by
  induction s with
  | nil => rfl
  | cons c s ih =>
    by_cases hspace : c ∈ whitespace
    · have hskip : skip (c :: s) = skip s := by
        simp only [skip, List.dropWhile_cons, hspace, decide_true, ↓reduceIte]
      rw [hskip, ih]
      exact (lex_space hspace [] s).symm
    · have hskip : skip (c :: s) = c :: s := by
        simp only [skip, List.dropWhile_cons, hspace, decide_false, Bool.false_eq_true, ↓reduceIte]
      rw [hskip]

theorem skip_length (s : Cursor) : (skip s).length ≤
    s.length := (List.dropWhile_sublist _).length_le

theorem skip_head {s' : Cursor} (h : skip s = c :: s') : c ∉ whitespace := by
  have hhead := List.head?_dropWhile_not (fun c => decide (c ∈ whitespace)) s
  unfold skip at h
  rw [h] at hhead
  simpa using hhead

def Scanned (q : Cursor) : Tok → Cursor → Prop
  | .eof, s => q = [] ∧ s = []
  | .sym y, s => tokens q = .sym y :: tokens s ∧ s.length < q.length
  | .word, s => tokens q = .word (text ⟨q, s⟩) :: tokens s ∧ s.length < q.length

theorem text_dropWhile (q : Cursor) : text ⟨q, q.dropWhile wordChar⟩ = q.takeWhile wordChar := by
  have hlength := congrArg List.length (List.takeWhile_append_dropWhile (p := wordChar) (l := q))
  rw [List.length_append] at hlength
  unfold text
  dsimp only
  rw [show q.length - (q.dropWhile wordChar).length = (q.takeWhile wordChar).length by omega]
  exact (List.prefix_iff_eq_take.1 (List.takeWhile_prefix _)).symm

theorem scanned_word (s : Cursor) (h : wordChar c) :
    Scanned (c :: s) .word ((c :: s).dropWhile wordChar) := by
  have hsplit := List.takeWhile_append_dropWhile (p := wordChar) (l := c :: s)
  have hdrop : ((c :: s).dropWhile wordChar).length < (c :: s).length := by
    rw [List.dropWhile_cons, if_pos h]
    exact Nat.lt_succ_of_le (List.dropWhile_sublist _).length_le
  refine ⟨?_, hdrop⟩
  have hword : (c :: s).takeWhile wordChar ≠ [] := by
    rw [List.takeWhile_cons, if_pos h]
    exact List.cons_ne_nil _ _
  rw [text_dropWhile]
  conv_lhs => rw [← hsplit]
  unfold tokens
  rw [lex_append (fun c hc => List.mem_takeWhile_imp hc), List.nil_append, lex_flush]
  · exact if_neg hword
  · intro c' s' hc'
    have hhead := List.head?_dropWhile_not wordChar (c :: s)
    rw [hc'] at hhead
    simpa using hhead

theorem scanned_scan {q : Cursor} (hq : ∀ c s, q = c :: s → c ∉ whitespace) :
    Scanned q (scan q).1 (scan q).2 := by
  cases q with
  | nil => exact ⟨rfl, rfl⟩
  | cons c s =>
    have hspace := hq c s rfl
    cases hsymbol : symbol c with
    | some y =>
      simp only [scan, hsymbol]
      exact ⟨lex_symbol hspace hsymbol [] s, Nat.lt_succ_self _⟩
    | none =>
      by_cases hgt : c = '>'
      · subst hgt
        by_cases hhead : s.head? = some '>'
        · obtain ⟨s', rfl⟩ : ∃ s', s = '>' :: s' := ⟨s.tail, List.eq_cons_of_mem_head? hhead⟩
          have hlength : s'.length < ('>' :: '>' :: s').length := by
            rw [List.length_cons, List.length_cons]
            omega
          exact ⟨lex_gtgt [] s', hlength⟩
        · simp only [scan, hsymbol, hhead, ↓reduceIte]
          exact ⟨lex_gt [] hhead, Nat.lt_succ_self _⟩
      · simp only [scan, hsymbol, hgt, ↓reduceIte]
        exact scanned_word s (wordChar_of hspace hsymbol hgt)

theorem gettoken_eq (s : Cursor) :
    ∃ tok q s', gettoken s = .done (tok, ⟨q, s'⟩) (skip s') ∧ tokens q = tokens s ∧
      q.length ≤ s.length ∧ Scanned q tok s' :=
  ⟨_, skip s, _, rfl, tokens_skip s, skip_length s, scanned_scan fun _ _ h => skip_head h⟩

theorem gettoken_nil (h : tokens s = []) : ∃ sp, gettoken s = .done (.eof, sp) [] := by
  obtain ⟨tok, q, s', hrun, hq, _, hscan⟩ := gettoken_eq s
  cases tok with
  | eof =>
    rw [hscan.2] at hrun
    exact ⟨_, hrun⟩
  | sym y => exact absurd (h.symm.trans (hq.symm.trans hscan.1)) (List.cons_ne_nil _ _).symm
  | word => exact absurd (h.symm.trans (hq.symm.trans hscan.1)) (List.cons_ne_nil _ _).symm

theorem gettoken_sym (h : tokens s = .sym y :: ts) :
    ∃ sp s', gettoken s = .done (.sym y, sp) s' ∧ tokens s' = ts ∧ s'.length < s.length := by
  obtain ⟨tok, q, s', hrun, hq, hlen, hscan⟩ := gettoken_eq s
  rw [← hq] at h
  cases tok with
  | eof =>
    rw [hscan.1] at h
    cases h
  | sym y' =>
    cases h.symm.trans hscan.1
    exact ⟨_, _, hrun, tokens_skip s', by have := skip_length s'; have := hscan.2; omega⟩
  | word => cases h.symm.trans hscan.1

theorem gettoken_word (h : tokens s = .word w :: ts) :
    ∃ sp s', gettoken s = .done (.word, sp) s' ∧ text sp = w ∧ tokens s' = ts ∧
      s'.length < s.length := by
  obtain ⟨tok, q, s', hrun, hq, hlen, hscan⟩ := gettoken_eq s
  rw [← hq] at h
  cases tok with
  | eof =>
    rw [hscan.1] at h
    cases h
  | sym y' => cases h.symm.trans hscan.1
  | word =>
    cases h.symm.trans hscan.1
    exact ⟨_, _, hrun, rfl, tokens_skip s', by have := skip_length s'; have := hscan.2; omega⟩

def first : Sym → Char
  | .bar => '|'
  | .lparen => '('
  | .rparen => ')'
  | .semi => ';'
  | .amp => '&'
  | .lt => '<'
  | .gt => '>'
  | .gtgt => '>'

def starts (toks : List Char) : List Token → Bool
  | .sym y :: _ => first y ∈ toks
  | _ => false

theorem first_symbol (h : symbol c = some y) : first y = c := by
  unfold symbol at h
  split_ifs at h <;> cases h <;> exact Eq.symm ‹_›

theorem starts_cons (toks : List Char) (hspace : c ∉ whitespace) (htoks : ∀ c ∈ toks, c ∈ symbols) :
    starts toks (tokens (c :: s)) = decide (c ∈ toks) := by
  cases hsymbol : symbol c with
  | some y =>
    unfold tokens
    rw [lex_symbol hspace hsymbol]
    change decide (first y ∈ toks) = _
    rw [first_symbol hsymbol]
  | none =>
    by_cases hgt : c = '>'
    · subst hgt
      unfold tokens
      by_cases hhead : s.head? = some '>'
      · obtain ⟨s', rfl⟩ : ∃ s', s = '>' :: s' := ⟨s.tail, List.eq_cons_of_mem_head? hhead⟩
        rw [lex_gtgt]
        rfl
      · rw [lex_gt [] hhead]
        rfl
    · have hword := wordChar_of hspace hsymbol hgt
      rw [(scanned_word s hword).1]
      have hnot : c ∉ toks := by
        intro hmem
        have hsym := htoks c hmem
        unfold wordChar at hword
        simp only [hsym, decide_true, Bool.not_true, Bool.and_false, Bool.false_eq_true] at hword
      exact (decide_eq_false hnot).symm

theorem peek_eq (toks : List Char) (htoks : toks.all (decide <| · ∈ symbols)) (s : Cursor) :
    ∃ s', peek toks s = .done (starts toks (tokens s)) s' ∧ tokens s' = tokens s ∧
      s'.length ≤ s.length := by
  have hskip := tokens_skip s
  have hlength := skip_length s
  unfold peek
  cases hs : skip s with
  | nil =>
    rw [hs] at hskip
    rw [← hskip]
    exact ⟨[], rfl, rfl, Nat.zero_le _⟩
  | cons c s' =>
    rw [hs] at hskip hlength
    have hall : ∀ c ∈ toks, c ∈ symbols := fun c hc => of_decide_eq_true
      (List.all_eq_true.1 htoks c hc)
    rw [← hskip, starts_cons toks (skip_head hs) hall]
    exact ⟨c :: s', rfl, rfl, hlength⟩

def textOf (r : Op × Span) : Op × Word := (r.1, text r.2)

theorem wrap_append {ω : Type} (rs rs' : List (Op × ω)) (cmd : CmdTree ω) :
    wrap (rs ++ rs') cmd = wrap rs' (wrap rs cmd) := List.foldl_append

theorem starts_redir (h : starts ['<', '>'] ts = true) :
    ∃ (op : Op) (rest : List Token), ts = .sym op.sym :: rest := by
  cases ts with
  | nil => cases h
  | cons t rest =>
    cases t with
    | word w => cases h
    | sym y =>
      cases y with
      | lt => exact ⟨.lt, rest, rfl⟩
      | gt => exact ⟨.gt, rest, rfl⟩
      | gtgt => exact ⟨.gtgt, rest, rfl⟩
      | bar | lparen | rparen | semi | amp => simp [starts, first] at h

theorem starts_op (op : Op) (rest : List Token) : starts ['<', '>']
    (.sym op.sym :: rest) = true := by
  cases op <;> rfl

/-- The tokens `us` are left. -/
abbrev Left (us : List Token) (s s' : Cursor) : Prop := tokens s' = us ∧ s'.length ≤ s.length

theorem parseredirs_stop (n : ℕ) (cmd : CmdTree Span) (h : starts ['<', '>'] (tokens s) = false) :
    Ends fits (parseredirs (n + 1) cmd) (fun t s' => t = cmd ∧ Left (tokens s) s s') s := by
  obtain ⟨s', hpeek, hleft⟩ := peek_eq ['<', '>'] rfl s
  rw [h] at hpeek
  refine .inl ⟨cmd, s', ?_, rfl, hleft⟩
  unfold parseredirs
  rw [bind_of_done hpeek]
  rfl

theorem parseredirs_go (n : ℕ) (cmd : CmdTree Span) {op : Op}
    (h : tokens s = .sym op.sym :: .word w :: ts) :
    ∃ sp s', parseredirs (n + 1) cmd s = parseredirs n (op.redir sp cmd) s' ∧ text sp = w ∧
      tokens s' = ts ∧ s'.length < s.length := by
  obtain ⟨s1, hpeek, htokens1, hlength1⟩ := peek_eq ['<', '>'] rfl s
  rw [h, starts_op] at hpeek
  obtain ⟨sp2, s2, hop, htokens2, hlength2⟩ := gettoken_sym (htokens1.trans h)
  obtain ⟨sp3, s3, hword, htext, htokens3, hlength3⟩ := gettoken_word htokens2
  refine ⟨sp3, s3, ?_, htext, htokens3, by omega⟩
  rw [parseredirs, bind_of_done hpeek, if_pos rfl, bind_of_done hop, bind_of_done hword]
  cases op <;> rfl

theorem parseredirs_fail (n : ℕ) (cmd : CmdTree Span) {op : Op} (h : tokens s = .sym op.sym :: ts)
    (hts : ∀ w ts', ts ≠ .word w :: ts') :
    parseredirs (n + 1) cmd s = .panic "missing file for redirection" := by
  obtain ⟨s1, hpeek, htokens1, -⟩ := peek_eq ['<', '>'] rfl s
  rw [h, starts_op] at hpeek
  obtain ⟨sp2, s2, hop, htokens2, -⟩ := gettoken_sym (htokens1.trans h)
  obtain ⟨tok, sp3, s3, hnext, htok⟩ : ∃ tok sp s', gettoken s2 = .done (tok, sp) s' ∧
    tok ≠ .word := by
    cases ts with
    | nil =>
      obtain ⟨sp, hrun⟩ := gettoken_nil htokens2
      exact ⟨_, sp, [], hrun, Tok.noConfusion⟩
    | cons t ts' =>
      cases t with
      | sym y =>
        obtain ⟨sp, s', hrun, -⟩ := gettoken_sym htokens2
        exact ⟨_, sp, s', hrun, Tok.noConfusion⟩
      | word w => exact absurd rfl (hts w ts')
  rw [parseredirs, bind_of_done hpeek, if_pos rfl, bind_of_done hop,
    bind_of_done hnext, if_pos htok]
  rfl

theorem sound_redirs (n : ℕ) (cmd : CmdTree Span) (s : Cursor) (hn : s.length < n) :
    Ends False (parseredirs n cmd) (fun cmd' s' => ∃ ts rs, tokens s = ts ++ tokens s' ∧
      Redirs ts (rs.map textOf) ∧ cmd' = wrap rs cmd ∧ s'.length ≤ s.length) s := by
  induction n generalizing cmd s with
  | zero => omega
  | succ n ih =>
    by_cases hstart : starts ['<', '>'] (tokens s) = true
    · obtain ⟨op, rest, hs⟩ := starts_redir hstart
      by_cases hword : ∃ w ts', rest = .word w :: ts'
      · obtain ⟨w, ts', rfl⟩ := hword
        obtain ⟨sp, s1, hrun, htext, htokens, hlength⟩ := parseredirs_go n cmd hs
        refine Ends.of_run hrun ((ih (op.redir sp cmd) s1 (by omega)).mono id ?_)
        rintro cmd' s' ⟨ts, rs, hts, hrs, rfl, hlen⟩
        refine ⟨.sym op.sym :: .word w :: ts, (op, sp) :: rs, ?_, ?_, rfl, by omega⟩
        · rw [hs, ← htokens, hts]
          rfl
        · rw [← htext]
          exact .cons op _ hrs
      · refine .inr ⟨id, _, parseredirs_fail n cmd hs fun w ts' heq => hword ⟨w, ts', heq⟩⟩
    · refine (parseredirs_stop n cmd (Bool.eq_false_of_not_eq_true hstart)).mono id ?_
      exact fun _ s' h => ⟨[], [], h.2.1.symm, .nil, h.1, h.2.2⟩

theorem complete_redirs (h : Redirs ts rs) (n : ℕ) (cmd : CmdTree Span) (s : Cursor)
    (us : List Token) (hs : tokens s = ts ++ us) (hus : starts ['<', '>'] us = false)
    (hn : s.length < n) :
    Ends True (parseredirs n cmd)
      (fun t s' => (∃ rs', rs'.map textOf = rs ∧ t = wrap rs' cmd) ∧ Left us s s') s := by
  induction h generalizing n cmd s with
  | nil =>
    obtain ⟨m, rfl⟩ := Nat.exists_eq_add_of_lt hn
    rw [List.nil_append] at hs
    refine (parseredirs_stop _ cmd (by rw [hs, hus])).mono id ?_
    exact fun _ _ h => ⟨⟨[], rfl, h.1⟩, hs ▸ h.2⟩
  | cons op w rest ih =>
    obtain ⟨m, rfl⟩ := Nat.exists_eq_add_of_lt hn
    obtain ⟨sp, s1, hrun, htext, htokens, hlength⟩ := parseredirs_go _ cmd hs
    refine Ends.of_run hrun ((ih _ (op.redir sp cmd) s1 htokens (by omega)).mono id ?_)
    rintro _ s' ⟨⟨rs', hrs', rfl⟩, htokens', hlength'⟩
    refine ⟨⟨(op, sp) :: rs', ?_, rfl⟩, htokens', by omega⟩
    rw [List.map_cons, hrs', textOf, htext]

theorem setArgv_wrap {ω : Type} (argv : List ω) (rs : List (Op × ω)) (cmd : CmdTree ω) :
    setArgv argv (wrap rs cmd) = wrap rs (setArgv argv cmd) := by
  induction rs generalizing cmd with
  | nil => rfl
  | cons r rs ih =>
    have hstep : setArgv argv (r.1.redir r.2 cmd) = r.1.redir r.2 (setArgv argv cmd) := by
      cases r.1 <;> rfl
    change setArgv argv (wrap rs (r.1.redir r.2 cmd)) = wrap rs (r.1.redir r.2 (setArgv argv cmd))
    rw [ih, hstep]

def ends (ts : List Token) : Prop := ts = [] ∨ starts ['|', ')', '&', ';'] ts = true

theorem parseargs_stop (n : ℕ) (argv : List Span) (ret : CmdTree Span) (h : ends (tokens s)) :
    Ends fits (parseargs (n + 1) argv ret) (fun t s' => t = ret ∧ Left (tokens s) s s') s := by
  obtain ⟨s1, hpeek, hleft⟩ := peek_eq ['|', ')', '&', ';'] rfl s
  rcases h with h | h
  · obtain ⟨sp, hnext⟩ := gettoken_nil (hleft.1.trans h)
    rw [h] at hpeek
    refine .inl ⟨ret, [], ?_, rfl, h.symm, Nat.zero_le _⟩
    rw [parseargs, bind_of_done hpeek, if_neg Bool.noConfusion, bind_of_done hnext, if_pos rfl]
    rfl
  · rw [h] at hpeek
    refine .inl ⟨ret, s1, ?_, rfl, hleft⟩
    rw [parseargs, bind_of_done hpeek, if_pos rfl]
    rfl

theorem parseargs_go (n : ℕ) (argv : List Span) (ret : CmdTree Span) (h : tokens s = .word w :: ts)
    (hargs : argv.length + 1 < MAXARGS) :
    ∃ sp s', parseargs (n + 1) argv ret s =
        (parseredirs n (setArgv (argv ++ [sp]) ret) >>= parseargs n (argv ++ [sp])) s' ∧
      text sp = w ∧ tokens s' = ts ∧ s'.length < s.length := by
  obtain ⟨s1, hpeek, htokens, hlength⟩ := peek_eq ['|', ')', '&', ';'] rfl s
  rw [h] at hpeek
  obtain ⟨sp, s2, hnext, htext, htokens2, hlength2⟩ := gettoken_word (htokens.trans h)
  refine ⟨sp, s2, ?_, htext, htokens2, by omega⟩
  have hfew : ¬ MAXARGS ≤ (argv ++ [sp]).length := by
    rw [List.length_append, List.length_singleton]
    omega
  rw [parseargs, bind_of_done hpeek, if_neg Bool.noConfusion, bind_of_done hnext,
    if_neg Tok.noConfusion, if_neg (not_not.2 rfl), if_neg hfew]

theorem parseargs_fail (n : ℕ) (argv : List Span) (ret : CmdTree Span) (h : ¬ ends (tokens s))
    (hword : ∀ w ts, tokens s = .word w :: ts → MAXARGS ≤ argv.length + 1) :
    ∃ msg, parseargs (n + 1) argv ret s = .panic msg := by
  obtain ⟨s1, hpeek, htokens, hlength⟩ := peek_eq ['|', ')', '&', ';'] rfl s
  rw [Bool.eq_false_of_not_eq_true fun hstart => h (.inr hstart)] at hpeek
  cases hs : tokens s with
  | nil => exact absurd (.inl hs) h
  | cons t ts =>
    cases t with
    | sym y =>
      obtain ⟨sp, s2, hnext, -⟩ := gettoken_sym (htokens.trans hs)
      have hsym : Tok.sym y ≠ .word := Tok.noConfusion
      refine ⟨"syntax", ?_⟩
      rw [parseargs, bind_of_done hpeek, if_neg Bool.noConfusion, bind_of_done hnext,
        if_neg Tok.noConfusion, if_pos hsym]
      rfl
    | word w =>
      obtain ⟨sp, s2, hnext, -⟩ := gettoken_word (htokens.trans hs)
      have hmany : MAXARGS ≤ (argv ++ [sp]).length := by
        rw [List.length_append, List.length_singleton]
        exact hword w ts hs
      refine ⟨"too many args", ?_⟩
      rw [parseargs, bind_of_done hpeek, if_neg Bool.noConfusion, bind_of_done hnext,
        if_neg Tok.noConfusion, if_neg (not_not.2 rfl), if_pos hmany]
      rfl

theorem sound_args (n : ℕ) (argv : List Span) (rs0 : List (Op × Span)) (s : Cursor)
    (hn : s.length < n) (hargs : argv.length < MAXARGS) :
    Ends False (parseargs n argv (wrap rs0 (.exec argv))) (fun cmd s' =>
      ∃ ts sps rs, tokens s = ts ++ tokens s' ∧ Args ts (sps.map text) (rs.map textOf) ∧
        argv.length + sps.length < MAXARGS ∧ cmd = wrap (rs0 ++ rs) (.exec (argv ++ sps)) ∧
        s'.length ≤ s.length) s := by
  induction n generalizing argv rs0 s with
  | zero => omega
  | succ n ih =>
    by_cases hend : ends (tokens s)
    · refine (parseargs_stop n argv (wrap rs0 (.exec argv)) hend).mono id ?_
      rintro _ s' ⟨rfl, htokens, hlength⟩
      refine ⟨[], [], [], htokens.symm, .nil, hargs, ?_, hlength⟩
      rw [List.append_nil, List.append_nil]
    by_cases hword : ∃ w ts, tokens s = .word w :: ts ∧ argv.length + 1 < MAXARGS
    · obtain ⟨w, ts, hs, hfew⟩ := hword
      obtain ⟨sp, s1, hrun, htext, htokens, hlength⟩ :=
        parseargs_go n argv (wrap rs0 (.exec argv)) hs hfew
      rw [setArgv_wrap] at hrun
      refine Ends.of_run hrun ((sound_redirs n _ s1 (by omega)).bind ?_)
      rintro _ s2 ⟨ts2, rs2, hts2, hrs2, rfl, hlen2⟩
      rw [← wrap_append]
      refine (ih (argv ++ [sp]) (rs0 ++ rs2) s2 (by omega) ?_).mono id ?_
      · rw [List.length_append, List.length_singleton]
        exact hfew
      · rintro cmd s3 ⟨ts3, sps, rs3, hts3, hargs3, hcount, rfl, hlen3⟩
        refine ⟨.word w :: ts2 ++ ts3, sp :: sps, rs2 ++ rs3, ?_, ?_, ?_, ?_, by omega⟩
        · rw [hs, ← htokens, hts2, hts3]
          simp only [List.cons_append, List.append_assoc]
        · rw [List.map_cons, List.map_append, htext]
          exact .cons w hrs2 hargs3
        · rw [List.length_append, List.length_singleton] at hcount
          rw [List.length_cons]
          omega
        · rw [List.append_assoc, List.append_assoc, List.singleton_append]
    · obtain ⟨msg, hrun⟩ := parseargs_fail n argv (wrap rs0 (.exec argv)) hend fun w ts hs => by
        by_contra hfew
        exact hword ⟨w, ts, hs, by omega⟩
      exact .inr ⟨id, msg, hrun⟩

theorem ends_not_op (h : ends ts) : starts ['<', '>'] ts = false := by
  rcases h with rfl | h
  · rfl
  · by_contra hstart
    obtain ⟨op, rest, rfl⟩ := starts_redir (Bool.eq_true_of_not_eq_false hstart)
    cases op <;> simp [starts, Op.sym, first] at h

theorem args_not_op (h : Args ts ws rs) (hus : ends us) : starts ['<', '>'] (ts ++ us) = false := by
  cases h with
  | nil => exact ends_not_op hus
  | cons w redirs rest => rfl

theorem complete_args (h : Args ts ws rs) (n : ℕ) (argv : List Span) (rs0 : List (Op × Span))
    (s : Cursor) (us : List Token) (hs : tokens s = ts ++ us) (hus : ends us)
    (hargs : argv.length + ws.length < MAXARGS) (hn : s.length < n) :
    Ends True (parseargs n argv (wrap rs0 (.exec argv))) (fun t s' => (∃ sps rs', sps.map text = ws ∧
      rs'.map textOf = rs ∧ t = wrap (rs0 ++ rs') (.exec (argv ++ sps))) ∧ Left us s s') s := by
  induction h generalizing n argv rs0 s with
  | nil =>
    obtain ⟨m, rfl⟩ := Nat.exists_eq_add_of_lt hn
    rw [List.nil_append] at hs
    refine (parseargs_stop _ argv _ (by rw [hs]; exact hus)).mono id ?_
    rintro _ s' ⟨rfl, hleft⟩
    refine ⟨⟨[], [], rfl, rfl, ?_⟩, hs ▸ hleft⟩
    rw [List.append_nil, List.append_nil]
  | cons w redirs rest ih =>
    obtain ⟨m, rfl⟩ := Nat.exists_eq_add_of_lt hn
    rw [List.length_cons] at hargs
    rw [List.cons_append, List.cons_append, List.append_assoc] at hs
    obtain ⟨sp, s1, hrun, htext, htokens, hlength⟩ :=
      parseargs_go _ argv (wrap rs0 (.exec argv)) hs (by omega)
    rw [setArgv_wrap] at hrun
    refine Ends.of_run hrun ((complete_redirs redirs _ _ s1 _ htokens
      (args_not_op rest hus) (by omega)).bind ?_)
    rintro _ s2 ⟨⟨rs2, hrs2, rfl⟩, htokens2, hlength2⟩
    rw [← wrap_append]
    refine (ih _ (argv ++ [sp]) (rs0 ++ rs2) s2 htokens2
      (by rw [List.length_append, List.length_singleton]; omega) (by omega)).mono id ?_
    rintro _ s3 ⟨⟨sps, rs3, hsps, hrs3, rfl⟩, htokens3, hlength3⟩
    refine ⟨⟨sp :: sps, rs2 ++ rs3, ?_, ?_, ?_⟩, htokens3, by omega⟩
    · rw [List.map_cons, htext, hsps]
    · rw [List.map_append, hrs2, hrs3]
    · rw [List.append_assoc, List.append_assoc, List.singleton_append]

theorem starts_symbol (hy : y ≠ .gt ∧ y ≠ .gtgt) (h : starts [first y] ts = true) :
    ∃ rest, ts = .sym y :: rest := by
  cases ts with
  | nil => cases h
  | cons t rest =>
    cases t with
    | word w => cases h
    | sym y' =>
      have heq : y' = y := by
        simp only [starts, List.mem_singleton, decide_eq_true_eq] at h
        cases y <;> cases y' <;> simp_all [first]
      exact ⟨rest, by rw [heq]⟩

section Option

variable {α : Type} {A B : ParseCode α} {Q : α → Cursor → Prop}

/-- `if(peek(ps, es, toks)){ gettoken(ps, es, 0, 0); A } else B`, for a single symbol. -/
theorem ends_go (h : tokens s = .sym y :: ts)
    (go : ∀ s', tokens s' = ts → s'.length < s.length → Ends fits A Q s') :
    Ends fits (peek [first y] >>= fun b => if b then gettoken >>= fun _ => A else B) Q s := by
  obtain ⟨s1, hpeek, htokens, hlength⟩ := peek_eq [first y] (by cases y <;> rfl) s
  have hstart : starts [first y] (tokens s) = true := by
    rw [h]
    exact decide_eq_true (List.mem_singleton_self _)
  rw [hstart] at hpeek
  obtain ⟨sp, s2, hnext, htokens2, hlength2⟩ := gettoken_sym (htokens.trans h)
  refine Ends.of_run ?_ (go s2 htokens2 (by omega))
  rw [bind_of_done hpeek, if_pos rfl, bind_of_done hnext]

theorem ends_stop (h : starts [first y] (tokens s) = false)
    (stop : ∀ s', tokens s' = tokens s → s'.length ≤ s.length → Ends fits B Q s') :
    Ends fits (peek [first y] >>= fun b => if b then gettoken >>= fun _ => A else B) Q s := by
  obtain ⟨s', hpeek, htokens, hlength⟩ := peek_eq [first y] (by cases y <;> rfl) s
  rw [h] at hpeek
  refine Ends.of_run ?_ (stop s' htokens hlength)
  rw [bind_of_done hpeek, if_neg Bool.noConfusion]

theorem ends_option (hy : y ≠ .gt ∧ y ≠ .gtgt)
    (go : ∀ s', tokens s = .sym y :: tokens s' → s'.length < s.length → Ends fits A Q s')
    (stop : ∀ s', tokens s' = tokens s → s'.length ≤ s.length → Ends fits B Q s') :
    Ends fits (peek [first y] >>= fun b => if b then gettoken >>= fun _ => A else B) Q s := by
  by_cases hstart : starts [first y] (tokens s) = true
  · obtain ⟨rest, hs⟩ := starts_symbol hy hstart
    exact ends_go hs fun s' htokens => go s' (htokens ▸ hs)
  · exact ends_stop (Bool.eq_false_of_not_eq_true hstart) stop

end Option

theorem sound_backs (n : ℕ) (cmd : CmdTree Span) (s : Cursor) (hn : s.length < n) :
    Ends False (parsebacks n cmd) (fun cmd' s' => ∃ k,
      tokens s = List.replicate k (.sym .amp) ++ tokens s' ∧ cmd' = backs k cmd ∧
        s'.length ≤ s.length) s := by
  induction n generalizing cmd s with
  | zero => omega
  | succ n ih =>
    refine ends_option (y := .amp) (by decide) (fun s1 hs hlength => ?_) fun s1 htokens hlength => ?_
    · refine (ih (.back cmd) s1 (by omega)).mono id ?_
      rintro cmd' s' ⟨k, hk, rfl, hlen⟩
      refine ⟨k + 1, ?_, rfl, by omega⟩
      rw [hs, hk, List.replicate_succ, List.cons_append]
    · exact ends_pure ⟨0, htokens.symm, rfl, hlength⟩

theorem complete_backs (k n : ℕ) (cmd : CmdTree Span) (s : Cursor) (us : List Token)
    (hs : tokens s = List.replicate k (.sym .amp) ++ us) (hus : starts ['&'] us = false)
    (hn : s.length < n) :
    Ends True (parsebacks n cmd) (fun t s' => t = backs k cmd ∧ Left us s s') s := by
  induction k generalizing n cmd s with
  | zero =>
    obtain ⟨m, rfl⟩ := Nat.exists_eq_add_of_lt hn
    rw [List.replicate_zero, List.nil_append] at hs
    refine ends_stop (y := .amp) (by rw [hs]; exact hus) fun s' htokens hlength => ?_
    exact ends_pure ⟨rfl, htokens.trans hs, hlength⟩
  | succ k ih =>
    obtain ⟨m, rfl⟩ := Nat.exists_eq_add_of_lt hn
    rw [List.replicate_succ, List.cons_append] at hs
    refine ends_go hs fun s1 htokens hlength => ?_
    refine (ih _ (.back cmd) s1 htokens (by omega)).mono id ?_
    exact fun _ _ h => ⟨h.1, h.2.1, by have := h.2.2; omega⟩

def textTree : CmdTree Span → Cmd
  | .exec argv => .exec (argv.map text)
  | .redir cmd file mode fd => .redir (textTree cmd) (text file) mode fd
  | .pipe left right => .pipe (textTree left) (textTree right)
  | .list left right => .list (textTree left) (textTree right)
  | .back cmd => .back (textTree cmd)

theorem textTree_wrap (rs : List (Op × Span)) (cmd : CmdTree Span) :
    textTree (wrap rs cmd) = wrap (rs.map textOf) (textTree cmd) := by
  induction rs generalizing cmd with
  | nil => rfl
  | cons r rs ih =>
    have hstep : textTree (r.1.redir r.2 cmd) = r.1.redir (text r.2) (textTree cmd) := by
      cases r.1 <;> rfl
    change textTree (wrap rs (r.1.redir r.2 cmd)) = wrap (rs.map textOf) (r.1.redir (text r.2) _)
    rw [ih, hstep]

theorem textTree_backs (k : ℕ) (cmd : CmdTree Span) :
    textTree (backs k cmd) = backs k (textTree cmd) := by
  induction k generalizing cmd with
  | zero => rfl
  | succ k ih => exact ih (.back cmd)

def parse : Symbol → ℕ → ParseCode (CmdTree Span)
  | .line => parseline
  | .pipe => parsepipe
  | .exec => parseexec

def depth (y : Symbol) (s : Cursor) : ℕ :=
  match y with
  | .line => 4 * s.length + 4
  | .pipe => 4 * s.length + 3
  | .exec => 4 * s.length + 2

theorem depth_rest {y y' : Symbol} {s' : Cursor} (h : s'.length < s.length)
    (hn : depth y s ≤ n + 1) : depth y' s' ≤ n := by
  unfold depth at *
  cases y <;> cases y' <;> dsimp only at * <;> omega

theorem exists_succ_of_depth {y : Symbol} (hn : depth y s ≤ n) : ∃ m, n = m + 1 := by
  refine Nat.exists_eq_succ_of_ne_zero ?_
  rintro rfl
  unfold depth at hn
  cases y <;> dsimp only at hn <;> omega

def Reads (y : Symbol) (s : Cursor) (cmd : CmdTree Span) (s' : Cursor) : Prop :=
  (∃ ts, tokens s = ts ++ tokens s' ∧ Gen y ts (textTree cmd)) ∧ s'.length ≤ s.length

theorem sound_line (pipe : ∀ s, depth .pipe s ≤ n → Ends False (parsepipe n) (Reads .pipe s) s)
    (line : ∀ s, depth .line s ≤ n → Ends False (parseline n) (Reads .line s) s) (s : Cursor)
    (hn : depth .line s ≤ n + 1) : Ends False (parseline (n + 1)) (Reads .line s) s := by
  have hlen : 4 * s.length + 4 ≤ n + 1 := hn
  rw [parseline]
  refine (pipe s (Nat.le_of_succ_le_succ hn)).bind ?_
  rintro cmd s1 ⟨⟨ts1, hts1, hgen1⟩, hlen1⟩
  refine (sound_backs n cmd s1 (by omega)).bind ?_
  rintro _ s2 ⟨k, hk, rfl, hlen2⟩
  refine ends_option (y := .semi) (by decide) (fun s4 hrest hlen4 => ?_) fun s3 htokens hlen3 => ?_
  · refine (line s4 (depth_rest (by omega) hn)).bind ?_
    rintro cmd' s' ⟨⟨ts', hts', hgen'⟩, hlen'⟩
    refine ends_pure ⟨⟨ts1 ++ List.replicate k (.sym .amp) ++ .sym .semi :: ts', ?_, ?_⟩, by omega⟩
    · rw [hts1, hk, hrest, hts']
      simp only [List.append_assoc, List.cons_append]
    · change Gen .line _ (.list (textTree (backs k cmd)) (textTree cmd'))
      rw [textTree_backs]
      exact .list k hgen1 hgen'
  · refine ends_pure ⟨⟨ts1 ++ List.replicate k (.sym .amp), ?_, ?_⟩, by omega⟩
    · rw [hts1, hk, htokens, List.append_assoc]
    · rw [textTree_backs]
      exact .line k hgen1

theorem sound_pipe (exec : ∀ s, depth .exec s ≤ n → Ends False (parseexec n) (Reads .exec s) s)
    (pipe : ∀ s, depth .pipe s ≤ n → Ends False (parsepipe n) (Reads .pipe s) s) (s : Cursor)
    (hn : depth .pipe s ≤ n + 1) : Ends False (parsepipe (n + 1)) (Reads .pipe s) s := by
  rw [parsepipe]
  refine (exec s (Nat.le_of_succ_le_succ hn)).bind ?_
  rintro cmd s1 ⟨⟨ts1, hts1, hgen1⟩, hlen1⟩
  refine ends_option (y := .bar) (by decide) (fun s3 hrest hlen3 => ?_) fun s2 htokens hlen2 => ?_
  · refine (pipe s3 (depth_rest (by omega) hn)).bind ?_
    rintro cmd' s' ⟨⟨ts', hts', hgen'⟩, hlen'⟩
    refine ends_pure ⟨⟨ts1 ++ .sym .bar :: ts', ?_, .pipe hgen1 hgen'⟩, by omega⟩
    rw [hts1, hrest, hts']
    simp only [List.append_assoc, List.cons_append]
  · refine ends_pure ⟨⟨ts1, ?_, .last hgen1⟩, by omega⟩
    rw [hts1, htokens]

theorem sound_block (line : ∀ s, depth .line s ≤ n → Ends False (parseline n) (Reads .line s) s)
    (s : Cursor) (hn : 4 * s.length < n + 1) :
    Ends False (parseblock (n + 1)) (Reads .exec s) s := by
  unfold depth at line
  rw [parseblock]
  refine ends_option (y := .lparen) (by decide) (fun s2 hrest hlen2 => ?_) fun _ _ _ => ?_
  · refine (line s2 (by dsimp only; omega)).bind ?_
    rintro cmd s3 ⟨⟨ts3, hts3, hgen⟩, hlen3⟩
    refine ends_option (y := .rparen) (by decide) (fun s5 hrest3 hlen5 => ?_) fun _ _ _ => ?_
    · refine (sound_redirs n cmd s5 (by omega)).mono id ?_
      rintro _ s' ⟨ts', rs, hts', hrs, rfl, hlen'⟩
      refine ⟨⟨.sym .lparen :: ts3 ++ .sym .rparen :: ts', ?_, ?_⟩, by omega⟩
      · rw [hrest, hts3, hrest3, hts']
        simp only [List.append_assoc, List.cons_append]
      · rw [textTree_wrap]
        exact .block hgen hrs
    · exact .inr ⟨id, _, rfl⟩
  · exact .inr ⟨id, _, rfl⟩

theorem sound_exec
    (block : ∀ s : Cursor, 4 * s.length < n → Ends False (parseblock n) (Reads .exec s) s)
    (s : Cursor) (hn : depth .exec s ≤ n + 1) :
    Ends False (parseexec (n + 1)) (Reads .exec s) s := by
  have hlen : 4 * s.length + 2 ≤ n + 1 := hn
  rw [parseexec]
  obtain ⟨s1, hpeek, htokens1, hlen1⟩ := peek_eq ['('] rfl s
  refine Ends.of_run (bind_of_done hpeek) ?_
  by_cases hopen : starts ['('] (tokens s) = true
  · rw [if_pos hopen]
    refine (block s1 (by omega)).mono id ?_
    rintro cmd s' ⟨⟨ts, hts, hgen⟩, hlen⟩
    exact ⟨⟨ts, htokens1.symm.trans hts, hgen⟩, by omega⟩
  rw [if_neg hopen]
  refine (sound_redirs n (.exec []) s1 (by omega)).bind ?_
  rintro _ s2 ⟨ts2, rs2, hts2, hrs2, rfl, hlen2⟩
  refine (sound_args n [] rs2 s2 (by omega) (by decide)).mono id ?_
  rintro _ s' ⟨ts', sps, rs', hts', hargs, hfew, rfl, hlen'⟩
  refine ⟨⟨ts2 ++ ts', ?_, ?_⟩, by omega⟩
  · rw [← htokens1, hts2, hts', List.append_assoc]
  · rw [textTree_wrap, List.map_append, List.nil_append]
    refine .words hrs2 hargs ?_
    rw [List.length_map, ← Nat.zero_add sps.length]
    exact hfew

theorem sound (n : ℕ) :
    (∀ s, depth .line s ≤ n → Ends False (parseline n) (Reads .line s) s) ∧
    (∀ s, depth .pipe s ≤ n → Ends False (parsepipe n) (Reads .pipe s) s) ∧
    (∀ s, depth .exec s ≤ n → Ends False (parseexec n) (Reads .exec s) s) ∧
    ∀ s : Cursor, 4 * s.length < n → Ends False (parseblock n) (Reads .exec s) s := by
  induction n with
  | zero =>
    unfold depth
    dsimp only
    exact ⟨fun s hs => absurd hs (by omega), fun s hs => absurd hs (by omega),
      fun s hs => absurd hs (by omega), fun s hs => absurd hs (by omega)⟩
  | succ n ih =>
    obtain ⟨hline, hpipe, hexec, hblock⟩ := ih
    exact ⟨sound_line hpipe hline, sound_pipe hexec hpipe, sound_exec hblock, sound_block hline⟩

def follows (y : Symbol) (us : List Token) : Prop :=
  match y with
  | .line => us = [] ∨ starts [')'] us = true
  | .pipe => us = [] ∨ starts [')', '&', ';'] us = true
  | .exec => ends us

def Parses (y : Symbol) (ts : List Token) (cmd : Cmd) : Prop :=
  ∀ n s us, tokens s = ts ++ us → follows y us → depth y s ≤ n →
    Ends True (parse y n) (fun tree s' => textTree tree = cmd ∧ Left us s s') s

theorem starts_mono {toks toks' : List Char} (hsub : toks.all (decide <| · ∈ toks'))
    (h : starts toks us = true) : starts toks' us = true := by
  cases us with
  | nil => cases h
  | cons t us =>
    cases t with
    | word w => cases h
    | sym y =>
      simp only [starts, decide_eq_true_eq] at h ⊢
      exact of_decide_eq_true (List.all_eq_true.1 hsub _ h)

theorem starts_ne {toks : List Char} (hc : c ∉ toks) (h : us = [] ∨ starts toks us = true) :
    starts [c] us = false := by
  rcases h with rfl | h
  · rfl
  cases us with
  | nil => rfl
  | cons t us =>
    cases t with
    | word w => cases h
    | sym y =>
      simp only [starts, decide_eq_true_eq] at h
      simp only [starts, List.mem_singleton, decide_eq_false_iff_not]
      rintro rfl
      exact hc h

theorem parses_words {rs' : List (Op × Word)} (redirs : Redirs ts rs) (args : Args ts' ws rs')
    (few : ws.length < MAXARGS) :
    Parses .exec (ts ++ ts') (wrap (rs ++ rs') (.exec ws)) := by
  intro n s us hs hus hn
  obtain ⟨m, rfl⟩ := exists_succ_of_depth hn
  have hlen : 4 * s.length + 2 ≤ m + 1 := hn
  rw [List.append_assoc] at hs
  have hopen : starts ['('] (tokens s) = false := by
    rw [hs]
    cases redirs with
    | cons op w rest => cases op <;> rfl
    | nil =>
      cases args with
      | cons w redirs rest => rfl
      | nil => exact starts_ne (by decide) hus
  obtain ⟨s1, hpeek, htokens1, hlen1⟩ := peek_eq ['('] rfl s
  rw [hopen] at hpeek
  change Ends True (parseexec (m + 1)) _ s
  rw [parseexec]
  refine Ends.of_run (bind_of_done hpeek) ((complete_redirs redirs m (.exec []) s1 _
    (htokens1.trans hs) (args_not_op args hus) (by omega)).bind ?_)
  rintro _ s2 ⟨⟨rs2, rfl, rfl⟩, htokens2, hlen2⟩
  refine (complete_args args m [] rs2 s2 us htokens2 hus
    (by rw [List.length_nil, Nat.zero_add]; exact few) (by omega)).mono id ?_
  rintro _ s3 ⟨⟨sps, rs3, rfl, rfl, rfl⟩, htokens3, hlen3⟩
  refine ⟨?_, htokens3, by omega⟩
  rw [textTree_wrap, List.map_append, List.nil_append, textTree]

theorem parses_block (line : Parses .line ts cmd) (redirs : Redirs ts' rs) :
    Parses .exec (.sym .lparen :: ts ++ .sym .rparen :: ts') (wrap rs cmd) := by
  intro n s us hs hus hn
  have hlen : 4 * s.length + 2 ≤ n := hn
  obtain ⟨m, rfl⟩ : ∃ m, n = m + 2 := ⟨n - 2, by omega⟩
  rw [List.cons_append, List.cons_append, List.append_assoc, List.cons_append] at hs
  obtain ⟨s1, hpeek, htokens1, hlen1⟩ := peek_eq ['('] rfl s
  rw [hs] at hpeek
  change Ends True (parseexec (m + 2)) _ s
  rw [parseexec]
  refine Ends.of_run (bind_of_done hpeek) ?_
  rw [if_pos (by rfl), parseblock]
  refine ends_go (htokens1.trans hs) fun s3 htokens3 hlen3 => ?_
  have hdepth : depth .line s3 ≤ m := by
    change 4 * s3.length + 4 ≤ m
    omega
  refine (line m s3 _ htokens3 (.inr rfl) hdepth).bind ?_
  rintro tree s4 ⟨rfl, htokens4, hlen4⟩
  refine ends_go htokens4 fun s6 htokens6 hlen6 => ?_
  refine (complete_redirs redirs m tree s6 us htokens6 (ends_not_op hus) (by omega)).mono id ?_
  rintro _ s' ⟨⟨rs', rfl, rfl⟩, htokens', hlen'⟩
  exact ⟨textTree_wrap rs' tree, htokens', by omega⟩

theorem parses_pipe (exec : Parses .exec ts cmd) : Parses .pipe ts cmd := by
  intro n s us hs hus hn
  obtain ⟨m, rfl⟩ := exists_succ_of_depth hn
  change Ends True (parsepipe (m + 1)) _ s
  rw [parsepipe]
  refine (exec m s us hs (hus.imp_right fun h => starts_mono rfl h)
    (Nat.le_of_succ_le_succ hn)).bind ?_
  rintro tree s1 ⟨rfl, rfl, hlen1⟩
  refine ends_stop (y := .bar) (starts_ne (by decide) hus) fun s2 htokens2 hlen2 => ?_
  exact ends_pure ⟨rfl, htokens2, by omega⟩

theorem parses_pipes {cmd' : Cmd} (exec : Parses .exec ts cmd) (rest : Parses .pipe ts' cmd') :
    Parses .pipe (ts ++ .sym .bar :: ts') (.pipe cmd cmd') := by
  intro n s us hs hus hn
  obtain ⟨m, rfl⟩ := exists_succ_of_depth hn
  rw [List.append_assoc, List.cons_append] at hs
  change Ends True (parsepipe (m + 1)) _ s
  rw [parsepipe]
  refine (exec m s _ hs (.inr rfl) (Nat.le_of_succ_le_succ hn)).bind ?_
  rintro tree s1 ⟨rfl, htokens1, hlen1⟩
  refine ends_go htokens1 fun s3 htokens3 hlen3 => ?_
  refine (rest m s3 us htokens3 hus (depth_rest (by omega) hn)).bind ?_
  rintro tree' s' ⟨rfl, htokens', hlen'⟩
  exact ends_pure ⟨rfl, htokens', by omega⟩

theorem parses_line (k : ℕ) (pipe : Parses .pipe ts cmd) :
    Parses .line (ts ++ List.replicate k (.sym .amp)) (backs k cmd) := by
  intro n s us hs hus hn
  obtain ⟨m, rfl⟩ := exists_succ_of_depth hn
  have hlen : 4 * s.length + 4 ≤ m + 1 := hn
  rw [List.append_assoc] at hs
  have hfollow : follows .pipe (List.replicate k (.sym .amp) ++ us) := by
    cases k with
    | zero => exact hus.imp_right fun h => starts_mono rfl h
    | succ k => exact .inr rfl
  change Ends True (parseline (m + 1)) _ s
  rw [parseline]
  refine (pipe m s _ hs hfollow (Nat.le_of_succ_le_succ hn)).bind ?_
  rintro tree s1 ⟨rfl, htokens1, hlen1⟩
  refine (complete_backs k m tree s1 us htokens1 (starts_ne (by decide) hus) (by omega)).bind ?_
  rintro _ s2 ⟨rfl, rfl, hlen2⟩
  refine ends_stop (y := .semi) (starts_ne (by decide) hus) fun s3 htokens3 hlen3 => ?_
  exact ends_pure ⟨textTree_backs k tree, htokens3, by omega⟩

theorem parses_list {cmd' : Cmd} (k : ℕ) (pipe : Parses .pipe ts cmd)
    (rest : Parses .line ts' cmd') :
    Parses .line (ts ++ List.replicate k (.sym .amp) ++ .sym .semi :: ts')
      (.list (backs k cmd) cmd') := by
  intro n s us hs hus hn
  obtain ⟨m, rfl⟩ := exists_succ_of_depth hn
  have hlen : 4 * s.length + 4 ≤ m + 1 := hn
  rw [List.append_assoc, List.append_assoc, List.cons_append] at hs
  have hfollow : follows .pipe (List.replicate k (.sym .amp) ++ .sym .semi :: (ts' ++ us)) := by
    cases k <;> exact .inr rfl
  change Ends True (parseline (m + 1)) _ s
  rw [parseline]
  refine (pipe m s _ hs hfollow (Nat.le_of_succ_le_succ hn)).bind ?_
  rintro tree s1 ⟨rfl, htokens1, hlen1⟩
  refine (complete_backs k m tree s1 _ htokens1 rfl (by omega)).bind ?_
  rintro _ s2 ⟨rfl, htokens2, hlen2⟩
  refine ends_go htokens2 fun s4 htokens4 hlen4 => ?_
  refine (rest m s4 us htokens4 hus (depth_rest (by omega) hn)).bind ?_
  rintro tree' s' ⟨rfl, htokens', hlen'⟩
  refine ends_pure ⟨?_, htokens', by omega⟩
  rw [textTree, textTree_backs]

theorem complete {y : Symbol} (h : Gen y ts cmd) : Parses y ts cmd := by
  induction h with
  | words redirs args few => exact parses_words redirs args few
  | block _ redirs ih => exact parses_block ih redirs
  | last _ ih => exact parses_pipe ih
  | pipe _ _ ih ih' => exact parses_pipes ih ih'
  | line k _ ih => exact parses_line k ih
  | list k _ _ ih ih' => exact parses_list k ih ih'

theorem tokens_eq_nil : tokens s = [] ↔ skip s = [] := by
  constructor
  · intro h
    have hscan := scanned_scan (q := skip s) fun _ _ hs => skip_head hs
    have htokens := (tokens_skip s).trans h
    cases htok : (scan (skip s)).1 with
    | eof =>
      rw [htok] at hscan
      exact hscan.1
    | sym y =>
      rw [htok] at hscan
      cases htokens.symm.trans hscan.1
    | word =>
      rw [htok] at hscan
      cases htokens.symm.trans hscan.1
  · intro h
    rw [← tokens_skip, h]
    rfl

theorem peek_skip (toks : List Char) (s : Cursor) : ∃ b, peek toks s = .done b (skip s) := by
  unfold peek
  cases skip s with
  | nil => exact ⟨false, rfl⟩
  | cons c s' => exact ⟨c ∈ toks, rfl⟩

theorem parsecmd_of_done {line : Cursor} {tree : CmdTree Span}
    (h : parseline (4 * line.length + 4) line = .done tree s) :
    parsecmd line = if tokens s = [] then .done tree [] else .panic "syntax" := by
  obtain ⟨b, hpeek⟩ := peek_skip [] s
  unfold parsecmd
  rw [bind_of_done h, bind_of_done hpeek, bind_of_done (rfl : (Code.get : ParseCode Cursor) _ = _)]
  by_cases hend : tokens s = []
  · have hskip := tokens_eq_nil.1 hend
    rw [if_pos hend, if_neg (not_not.2 hskip), hskip]
    rfl
  · rw [if_neg hend, if_pos (mt tokens_eq_nil.2 hend)]
    rfl

theorem parsecmd_ends (line : Cursor) :
    (∃ tree, parsecmd line = .done tree [] ∧ Gen .line (tokens line) (textTree tree)) ∨
      ∃ msg, parsecmd line = .panic msg := by
  rcases (sound (4 * line.length + 4)).1 line (Nat.le_refl _) with
    ⟨tree, s, hrun, ⟨ts, hts, hgen⟩, _⟩ | ⟨_, msg, hrun⟩
  · have hcmd := parsecmd_of_done hrun
    by_cases hend : tokens s = []
    · rw [if_pos hend] at hcmd
      rw [hend, List.append_nil] at hts
      exact .inl ⟨tree, hcmd, hts ▸ hgen⟩
    · rw [if_neg hend] at hcmd
      exact .inr ⟨_, hcmd⟩
  · refine .inr ⟨msg, ?_⟩
    unfold parsecmd
    change Code.bind _ _ line = _
    unfold Code.bind
    rw [hrun]

theorem parsecmd_complete {line : Cursor} (h : Gen .line (tokens line) cmd) :
    ∃ tree, parsecmd line = .done tree [] ∧ textTree tree = cmd := by
  obtain ⟨tree, s, hrun, htree, htokens, _⟩ := (complete h (4 * line.length + 4) line []
    (List.append_nil _).symm (.inl rfl) (Nat.le_refl _)).sure trivial
  have hcmd := parsecmd_of_done hrun
  rw [if_pos htokens] at hcmd
  exact ⟨tree, hcmd, htree⟩

end Xv6.ShellSyntax
