import Xv6.ShellSyntax

set_option autoImplicit false

namespace Xv6.ShellStrings
open Resumption Xv6.Sequential ShellParser ShellGrammar ShellSyntax
open ShellCode (CmdTree Std Word)

variable {line s s' : Cursor} {w : Span} {tree cmd : CmdTree Span} {argv : List Span} {n : ℕ}

/-- Where a pointer into the line points to. -/
def position (line s : Cursor) : ℕ := line.length - s.length

/-- `*w.eq = 0` -/
def clear (line : Cursor) (buf : List Char) (w : Span) : List Char :=
  buf.set (position line w.eq) '\x00'

def nulterminate (line : Cursor) : CmdTree Span → List Char → List Char
  | .exec argv, buf => argv.foldl (clear line) buf
  | .redir cmd file _ _, buf => clear line (nulterminate line cmd buf) file
  | .pipe left right, buf => nulterminate line right (nulterminate line left buf)
  | .list left right, buf => nulterminate line right (nulterminate line left buf)
  | .back cmd, buf => nulterminate line cmd buf

def cString (buf : List Char) (i : ℕ) : Word := (buf.drop i).takeWhile (· ≠ '\x00')

def argvs : CmdTree Span → List (List Span)
  | .exec argv => [argv]
  | .redir cmd _ _ _ => argvs cmd
  | .pipe left right => argvs left ++ argvs right
  | .list left right => argvs left ++ argvs right
  | .back cmd => argvs cmd

def spans : CmdTree Span → List Span
  | .exec argv => argv
  | .redir cmd file _ _ => spans cmd ++ [file]
  | .pipe left right => spans left ++ spans right
  | .list left right => spans left ++ spans right
  | .back cmd => spans cmd

theorem mem_spans (h : argv ∈ argvs tree) (hw : w ∈ argv) : w ∈ spans tree := by
  induction tree with
  | exec argv' => rwa [List.mem_singleton.1 h] at hw
  | redir cmd file mode fd ih => exact List.mem_append_left _ (ih h)
  | pipe left right ihl ihr => exact List.mem_append.2 ((List.mem_append.1 h).imp ihl ihr)
  | list left right ihl ihr => exact List.mem_append.2 ((List.mem_append.1 h).imp ihl ihr)
  | back cmd ih => exact ih h

theorem nulterminate_eq (line : Cursor) (tree : CmdTree Span) (buf : List Char) :
    nulterminate line tree buf = (spans tree).foldl (clear line) buf := by
  induction tree generalizing buf with
  | exec argv => rfl
  | redir cmd file mode fd ih =>
    unfold nulterminate spans
    rw [List.foldl_append, ih]
    rfl
  | pipe left right ihl ihr =>
    unfold nulterminate spans
    rw [List.foldl_append, ihl, ihr]
  | list left right ihl ihr =>
    unfold nulterminate spans
    rw [List.foldl_append, ihl, ihr]
  | back cmd ih => exact ih buf

structure IsToken (line : Cursor) (w : Span) : Prop where
  inside : w.q <:+ line
  rest : w.eq = w.q.dropWhile wordChar
  nonempty : w.eq.length < w.q.length

structure IsArgv (argv : List Span) : Prop where
  few : argv.length < MAXARGS
  order : argv.Pairwise fun w w' => w'.q.length < w.q.length

structure Good (line : Cursor) (tree : CmdTree Span) : Prop where
  tokens : ∀ w ∈ spans tree, IsToken line w
  argvs : ∀ argv ∈ argvs tree, IsArgv argv

theorem Good.redir (h : Good line cmd) (hw : IsToken line w) (mode : ℕ) (fd : Std) :
    Good line (.redir cmd w mode fd) := by
  refine ⟨fun v hv => ?_, h.argvs⟩
  rcases List.mem_append.1 hv with hv | hv
  · exact h.tokens v hv
  · rw [List.mem_singleton.1 hv]
    exact hw

theorem Good.both {cmd' : CmdTree Span} (h : Good line cmd) (h' : Good line cmd') :
    Good line (.pipe cmd cmd') ∧ Good line (.list cmd cmd') := by
  have hboth : Good line (.pipe cmd cmd') :=
    ⟨fun v hv => (List.mem_append.1 hv).elim (h.tokens v) (h'.tokens v),
      fun v hv => (List.mem_append.1 hv).elim (h.argvs v) (h'.argvs v)⟩
  exact ⟨hboth, hboth.tokens, hboth.argvs⟩

theorem Good.setArgv (h : Good line cmd) (hargv : IsArgv argv) (hw : ∀ w ∈ argv, IsToken line w) :
    Good line (setArgv argv cmd) := by
  induction cmd with
  | exec argv' =>
    refine ⟨hw, fun a ha => ?_⟩
    rw [List.mem_singleton.1 ha]
    exact hargv
  | redir cmd file mode fd ih =>
    have hcmd : Good line cmd := ⟨fun v hv => h.tokens v (List.mem_append_left _ hv), h.argvs⟩
    exact (ih hcmd).redir (h.tokens file (List.mem_append_right _
      (List.mem_singleton_self _))) mode fd
  | pipe left right => exact h
  | list left right => exact h
  | back cmd => exact h

theorem skip_suffix (s : Cursor) : skip s <:+ s := List.dropWhile_suffix _

theorem scan_rest (s : Cursor) :
    (scan s).2 <:+ s ∧ ((scan s).1 = .word → (scan s).2 = s.dropWhile wordChar) := by
  cases s with
  | nil => exact ⟨List.suffix_refl [], fun h => by cases h⟩
  | cons c s =>
    cases hsymbol : symbol c with
    | some y =>
      simp only [scan, hsymbol]
      exact ⟨List.suffix_cons c s, fun h => by cases h⟩
    | none =>
      simp only [scan, hsymbol]
      split_ifs
      · exact ⟨(List.tail_suffix s).trans (List.suffix_cons c s), fun h => by cases h⟩
      · exact ⟨List.suffix_cons c s, fun h => by cases h⟩
      · exact ⟨List.dropWhile_suffix _, fun _ => rfl⟩

theorem gettoken_done {t : Tok} (h : gettoken s = .done (t, w) s') (hs : s <:+ line) :
    s' <:+ s ∧ (t = .word → IsToken line w ∧ w.q <:+ s ∧ s' <:+ w.eq) := by
  have hscan := scanned_scan (q := skip s) fun _ _ hs => skip_head hs
  obtain ⟨hrest, hword⟩ := scan_rest (skip s)
  cases h
  refine ⟨((skip_suffix _).trans hrest).trans (skip_suffix s), fun ht => ?_⟩
  rw [ht] at hscan
  exact ⟨⟨(skip_suffix s).trans hs, hword ht, hscan.2⟩, skip_suffix s, skip_suffix _⟩

theorem peek_done {toks : List Char} {b : Bool} (h : peek toks s = .done b s') : s' <:+ s := by
  obtain ⟨b', hpeek⟩ := peek_skip toks s
  cases hpeek.symm.trans h
  exact skip_suffix s

section Yields

variable {α β : Type} {p : ParseCode α} {f : α → ParseCode β} {P : α → Prop} {Q : β → Prop}

/-- What the code returns has the property, and the code has read on in the line. -/
def Yields (line : Cursor) (p : ParseCode α) (P : α → Prop) : Prop :=
  ∀ s a s', s <:+ line → p s = .done a s' → P a ∧ s' <:+ s

theorem Yields.bind (h : Yields line p P) (rest : ∀ a, P a → Yields line (f a) Q) :
    Yields line (p >>= f) Q := by
  intro s b s' hs hrun
  obtain ⟨a, s1, hp, hf⟩ := done_bind hrun
  obtain ⟨ha, hs1⟩ := h s a s1 hs hp
  exact (rest a ha s1 b s' (hs1.trans hs) hf).imp_right fun h => h.trans hs1

theorem yields_pure {a : α} (h : P a) : Yields line (pure a) P := by
  intro s a' s' hs hrun
  cases hrun
  exact ⟨h, List.suffix_refl s⟩

theorem yields_panic (msg : String) : Yields line (Code.panic msg) P := nofun

theorem yields_undefined : Yields line (fun _ => .undefined) P := fun _ _ _ _ h => by cases h

theorem yields_peek (toks : List Char) : Yields line (peek toks) fun _ => True :=
  fun _ _ _ _ h => ⟨trivial, peek_done h⟩

theorem yields_gettoken : Yields line gettoken fun t => t.1 = .word → IsToken line t.2 :=
  fun _ _ _ hs h => ⟨fun ht => ((gettoken_done h hs).2 ht).1, (gettoken_done h hs).1⟩

end Yields

theorem yields_redirs (n : ℕ) (hcmd : Good line cmd) :
    Yields line (parseredirs n cmd) (Good line) := by
  induction n generalizing cmd with
  | zero => exact nofun
  | succ n ih =>
    unfold parseredirs
    refine (yields_peek _).bind fun b _ => ?_
    split_ifs
    · refine yields_gettoken.bind fun tok _ => yields_gettoken.bind fun file hfile => ?_
      split_ifs with hne
      · exact yields_panic _
      · have hw := hfile (not_not.1 hne)
        split
        · exact ih (hcmd.redir hw _ _)
        · exact ih (hcmd.redir hw _ _)
        · exact ih (hcmd.redir hw _ _)
        · exact ih hcmd
    · exact yields_pure hcmd

theorem IsArgv.snoc (h : IsArgv argv) (hw : ∀ v ∈ argv, w.q.length < v.q.length)
    (hfew : ¬ MAXARGS ≤ (argv ++ [w]).length) : IsArgv (argv ++ [w]) := by
  refine ⟨Nat.lt_of_not_le hfew, List.pairwise_append.2 ⟨h.order, List.pairwise_singleton _ _, ?_⟩⟩
  intro v hv v' hv'
  rw [List.mem_singleton.1 hv']
  exact hw v hv

def Behind (line s : Cursor) (argv : List Span) : Prop :=
  ∀ w ∈ argv, IsToken line w ∧ s.length ≤ w.eq.length

theorem good_args (n : ℕ) (hcmd : Good line cmd) (hargv : IsArgv argv) (hs : s <:+ line)
    (hbehind : Behind line s argv) (h : parseargs n argv cmd s = .done tree s') :
    Good line tree ∧ s' <:+ s := by
  induction n generalizing argv cmd s with
  | zero => cases h
  | succ n ih =>
    unfold parseargs at h
    obtain ⟨b, s1, hpeek, h⟩ := done_bind h
    have hs1 := peek_done hpeek
    split_ifs at h with hb
    · cases h
      exact ⟨hcmd, hs1⟩
    obtain ⟨⟨t, w⟩, s2, htok, h⟩ := done_bind h
    obtain ⟨hs2, hword⟩ := gettoken_done htok (hs1.trans hs)
    dsimp only at h
    split_ifs at h with heof hne hmany
    · cases h
      exact ⟨hcmd, hs2.trans hs1⟩
    · cases h
    · cases h
    · obtain ⟨hw, hq, hrest⟩ := hword (not_not.1 hne)
      obtain ⟨ret, s3, hredirs, h⟩ := done_bind h
      have hargv' := hargv.snoc (w := w) (fun v hv => by
        have hlength := (hq.trans hs1).length_le
        have := (hbehind v hv).1.nonempty
        have := (hbehind v hv).2
        omega) hmany
      have hbehind' : ∀ s3 : Cursor, s3 <:+ s2 → Behind line s3 (argv ++ [w]) := by
        intro s3 hs3 v hv
        rcases List.mem_append.1 hv with hv | hv
        · exact ⟨(hbehind v hv).1, ((hs3.trans hs2).trans hs1).length_le.trans (hbehind v hv).2⟩
        · rw [List.mem_singleton.1 hv]
          exact ⟨hw, (hs3.trans hrest).length_le⟩
      have hset := hcmd.setArgv hargv' fun v hv => (hbehind' s2 (List.suffix_refl s2) v hv).1
      obtain ⟨hret, hs3⟩ := yields_redirs n hset s2 ret s3 (hs2.trans (hs1.trans hs)) hredirs
      have hread := hs3.trans (hs2.trans hs1)
      exact (ih hret hargv' (hread.trans hs) (hbehind' s3 hs3) h).imp_right fun h => h.trans hread

theorem yields_backs (n : ℕ) (hcmd : Good line cmd) :
    Yields line (parsebacks n cmd) (Good line) := by
  induction n generalizing cmd with
  | zero => exact nofun
  | succ n ih =>
    unfold parsebacks
    refine (yields_peek _).bind fun b _ => ?_
    split_ifs
    · exact yields_gettoken.bind fun _ _ => ih ⟨hcmd.tokens, hcmd.argvs⟩
    · exact yields_pure hcmd

theorem yields_parse (line : Cursor) (n : ℕ) :
    Yields line (parseline n) (Good line) ∧ Yields line (parsepipe n) (Good line) ∧
      Yields line (parseblock n) (Good line) ∧ Yields line (parseexec n) (Good line) := by
  induction n with
  | zero => exact ⟨yields_undefined, yields_undefined, yields_undefined, yields_undefined⟩
  | succ n ih =>
    obtain ⟨ihline, ihpipe, ihblock, ihexec⟩ := ih
    refine ⟨?_, ?_, ?_, ?_⟩
    · unfold parseline
      refine ihpipe.bind fun cmd hcmd => (yields_backs n hcmd).bind fun cmd hcmd =>
        (yields_peek _).bind fun b _ => ?_
      split_ifs
      · exact yields_gettoken.bind fun _ _ => ihline.bind fun rest hrest =>
          yields_pure (hcmd.both hrest).2
      · exact yields_pure hcmd
    · unfold parsepipe
      refine ihexec.bind fun cmd hcmd => (yields_peek _).bind fun b _ => ?_
      split_ifs
      · exact yields_gettoken.bind fun _ _ => ihpipe.bind fun rest hrest =>
          yields_pure (hcmd.both hrest).1
      · exact yields_pure hcmd
    · unfold parseblock
      refine (yields_peek _).bind fun b _ => ?_
      split_ifs
      · refine yields_gettoken.bind fun _ _ => ihline.bind fun cmd hcmd =>
          (yields_peek _).bind fun b _ => ?_
        split_ifs
        · exact yields_gettoken.bind fun _ _ => yields_redirs n hcmd
        · exact yields_panic _
      · exact yields_panic _
    · unfold parseexec
      refine (yields_peek _).bind fun b _ => ?_
      split_ifs
      · exact ihblock
      · have hnil : IsArgv [] := ⟨by decide, List.Pairwise.nil⟩
        have hempty : Good line (.exec []) := by
          refine ⟨fun w hw => absurd hw List.not_mem_nil, fun argv hargv => ?_⟩
          rw [List.mem_singleton.1 hargv]
          exact hnil
        exact (yields_redirs n hempty).bind fun ret hret s tree s' hs h =>
          good_args n hret hnil hs (fun w hw => absurd hw List.not_mem_nil) h

theorem good_parsecmd (h : parsecmd line = .done tree s) : Good line tree := by
  unfold parsecmd at h
  obtain ⟨cmd, s1, hline, h⟩ := done_bind h
  obtain ⟨hgood, -⟩ := (yields_parse line _).1 line cmd s1 (List.suffix_refl line) hline
  obtain ⟨b, s2, hpeek, h⟩ := done_bind h
  obtain ⟨rest, s3, hget, h⟩ := done_bind h
  split_ifs at h with hrest
  · cases h
  · cases h
    exact hgood

theorem getElem?_clears (line : Cursor) (ws : List Span) (buf : List Char) (i : ℕ) :
    (ws.foldl (clear line) buf)[i]? =
      if ∃ w ∈ ws, position line w.eq = i then buf[i]?.map fun _ => '\x00' else buf[i]? := by
  induction ws generalizing buf with
  | nil => simp
  | cons w ws ih =>
    rw [List.foldl_cons, ih]
    unfold clear
    by_cases hw : position line w.eq = i
    · have hset : (buf.set i '\x00')[i]? = buf[i]?.map fun _ => '\x00' := by
        rw [List.getElem?_set_self']
        rfl
      have hsome : ∃ v ∈ w :: ws, position line v.eq = i := ⟨w, List.mem_cons_self, hw⟩
      rw [hw, hset, if_pos hsome]
      split_ifs
      · rw [Option.map_map]
        rfl
      · rfl
    · simp [hw]

theorem IsToken.text_eq (h : IsToken line w) : text w = w.q.takeWhile wordChar := by
  rw [← text_dropWhile, ← h.rest]

theorem IsToken.split (h : IsToken line w) : ∃ before, line = before ++ (text w ++ w.eq) ∧
    position line w.q = before.length ∧ position line w.eq = before.length + (text w).length := by
  obtain ⟨before, hline⟩ := h.inside
  have hq : w.q = text w ++ w.eq := by
    rw [h.text_eq, h.rest]
    exact List.takeWhile_append_dropWhile.symm
  refine ⟨before, by rw [← hq, hline], ?_, ?_⟩
  · unfold position
    rw [← hline, List.length_append]
    omega
  · unfold position
    rw [← hline, hq, List.length_append, List.length_append]
    omega

theorem cString_eq {buf : List Char} {i : ℕ} {u : Word} (hu : ∀ k < u.length, buf[i + k]? = u[k]?)
    (hend : buf[i + u.length]? = some '\x00') (hne : '\x00' ∉ u) : cString buf i = u := by
  have htake : (buf.drop i).take u.length = u := by
    apply List.ext_getElem?
    intro k
    rw [List.getElem?_take, List.getElem?_drop]
    split_ifs with hk
    · exact hu k hk
    · rw [List.getElem?_eq_none (by omega)]
  have hdrop : (buf.drop i).drop u.length = '\x00' :: buf.drop (i + u.length + 1) := by
    obtain ⟨hlt, hget⟩ := List.getElem?_eq_some_iff.1 hend
    rw [List.drop_drop, List.drop_eq_getElem_cons hlt, hget]
  unfold cString
  rw [← List.take_append_drop u.length (buf.drop i), htake, hdrop, List.takeWhile_append_of_pos]
  · simp
  · intro c hc
    simp only [ne_eq, decide_eq_true_eq]
    rintro rfl
    exact hne hc

theorem getElem?_split {before u rest : List Char} (h : s = before ++ (u ++ rest)) {k : ℕ}
    (hk : k < u.length) : s[before.length + k]? = u[k]? := by
  rw [h, List.getElem?_append_right (by omega), Nat.add_sub_cancel_left,
    List.getElem?_append_left hk]

theorem IsToken.wordChar_of_mem (h : IsToken line w) {c : Char} (hc : c ∈ text w) : wordChar c := by
  rw [h.text_eq] at hc
  exact List.mem_takeWhile_imp hc

theorem IsToken.not_cleared {v : Span} (hv : IsToken line v) (hw : IsToken line w)
    {before : List Char} (h : line = before ++ (text w ++ w.eq)) {k : ℕ}
    (hk : k < (text w).length) : position line v.eq ≠ before.length + k := by
  intro he
  obtain ⟨before', h', -, hpos⟩ := hv.split
  have hword := getElem?_split h hk
  rw [← he, hpos, h', ← List.append_assoc, ← List.length_append,
    List.getElem?_append_right (Nat.le_refl _), Nat.sub_self, List.getElem?_eq_getElem hk,
    ← List.head?_eq_getElem?, hv.rest] at hword
  have hhead := List.head?_dropWhile_not wordChar v.q
  rw [hword] at hhead
  simp [hw.wordChar_of_mem (List.getElem_mem hk)] at hhead

/-- After `nulterminate` every word of the tree is a C string, the text of its token. -/
theorem nulterminate_strings (line : Cursor) (hnul : '\x00' ∉ line)
    (h : parsecmd line = .done tree s) :
    Gen .line (tokens line) (textTree tree) ∧
    (∀ w ∈ spans tree, w.q <:+ line ∧
      cString (nulterminate line tree (line ++ ['\x00'])) (position line w.q) = text w) ∧
    ∀ argv ∈ argvs tree, argv.length < MAXARGS ∧
      argv.Pairwise fun w w' => position line w.q < position line w'.q := by
  have hgood := good_parsecmd h
  refine ⟨?_, fun w hw => ⟨(hgood.tokens w hw).inside, ?_⟩, fun argv hargv => ?_⟩
  · rcases parsecmd_ends line with ⟨tree', hrun, hgen⟩ | ⟨msg, hrun⟩
    · cases hrun.symm.trans h
      exact hgen
    · cases hrun.symm.trans h
  · have htoken := hgood.tokens w hw
    obtain ⟨before, hline, hq, heq⟩ := htoken.split
    have hlength := congrArg List.length hline
    rw [List.length_append, List.length_append] at hlength
    rw [nulterminate_eq, hq]
    apply cString_eq
    · intro k hk
      rw [getElem?_clears, if_neg]
      · rw [List.getElem?_append_left (by omega), getElem?_split hline hk]
      · rintro ⟨v, hv, hpos⟩
        exact (hgood.tokens v hv).not_cleared htoken hline hk hpos
    · rw [getElem?_clears, if_pos ⟨w, hw, heq⟩, List.getElem?_eq_getElem (by simp; omega)]
      rfl
    · intro hmem
      apply hnul
      rw [hline]
      exact List.mem_append_right _ (List.mem_append_left _ hmem)
  · obtain ⟨hfew, horder⟩ := hgood.argvs argv hargv
    refine ⟨hfew, horder.imp_of_mem fun {w w'} hw _ hlt => ?_⟩
    have hle := (hgood.tokens w (mem_spans hargv hw)).inside.length_le
    unfold position
    omega

theorem nulterminate_strings_redir :
    let line := ['a', '>', 'b']
    let w : Span := ⟨['b'], []⟩
    ∃ tree, parsecmd line = .done tree [] ∧ w ∈ spans tree ∧
      cString (nulterminate line tree (line ++ ['\x00'])) (position line w.q) = ['b'] := by
  have hparse : parsecmd ['a', '>', 'b'] = .done (.redir (.exec [⟨['a', '>', 'b'], ['>', 'b']⟩])
    ⟨['b'], []⟩ (O_WRONLY ||| O_CREATE ||| O_TRUNC) .stdout) [] := rfl
  refine ⟨_, hparse, List.mem_append_right _ (List.mem_singleton_self _), ?_⟩
  exact ((nulterminate_strings _ (by decide) hparse).2.1 _
    (List.mem_append_right _ (List.mem_singleton_self _))).2

end Xv6.ShellStrings
