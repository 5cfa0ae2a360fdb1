import Xv6.GrepMatcher

set_option autoImplicit false

/-! `grep` of `grep.c`. A read returns at least one byte and at most as many as it is asked for and
as are left; it is asked for nothing when a line has filled the buffer, and returns nothing. -/
namespace Xv6.GrepLines
open GrepMatcher

variable {s l : List UInt8}

def newline : UInt8 := 0x0a

def sizeofBuf : ℕ := 1024

def cstr (s : List UInt8) : List UInt8 := s.takeWhile (· ≠ 0)

def strchr (s : List UInt8) (c : UInt8) : Option ℕ := (cstr s).findIdx? (· = c)

theorem strchr_lt {c : UInt8} {i : ℕ} (h : strchr s c = some i) : i < s.length := by
  obtain ⟨hi, -⟩ := List.findIdx?_eq_some_iff_getElem.1 h
  exact hi.trans_le (List.takeWhile_sublist _).length_le

/-- The number of bytes that `read` returns when it would return `k + 1` if it could. -/
def read (k len : ℕ) (file : List UInt8) : ℕ := min (k + 1) (min len file.length)

/-- The inner loop: `p` goes from line to line. It returns `buf`, `p` and the output. -/
def lineLoop (re buf : List UInt8) (p : ℕ) (out : List UInt8) : List UInt8 × ℕ × List UInt8 :=
  match h : strchr (buf.drop p) newline with
  | none => (buf, p, out)
  | some i =>
    let q := p + i
    if matchRe re (cstr ((buf.set q 0).drop p)) then
      let buf := (buf.set q 0).set q newline
      lineLoop re buf (q + 1) (out ++ (buf.drop p).take (q + 1 - p))
    else lineLoop re (buf.set q 0) (q + 1) out
termination_by buf.length - p
decreasing_by
  all_goals
    have hlt := strchr_lt h
    simp only [List.length_drop, List.length_set] at hlt ⊢
    omega

def grepLoop (re : List UInt8) (chunk : ℕ → ℕ) (calls : ℕ) (file buf : List UInt8) (m : ℕ)
    (out : List UInt8) : List UInt8 :=
  let n := read (chunk calls) (sizeofBuf - m - 1) file
  if 0 < n then
    let buf := (buf.take m ++ file.take n ++ buf.drop (m + n)).set (m + n) 0
    let (buf, p, out) := lineLoop re buf 0 out
    if 0 < m + n then
      let rest := m + n - p
      grepLoop re chunk (calls + 1) (file.drop n) ((buf.drop p).take rest ++ buf.drop rest) rest out
    else grepLoop re chunk (calls + 1) (file.drop n) buf (m + n) out
  else out
termination_by file.length
decreasing_by
  all_goals
    have hle : n ≤ file.length := (min_le_right _ _).trans (min_le_right _ _)
    rw [List.length_drop]
    omega

def grep (re : List UInt8) (chunk : ℕ → ℕ) (file : List UInt8) : List UInt8 :=
  grepLoop re chunk 0 file (List.replicate sizeofBuf 0) 0 []

def splitLines : List UInt8 → List (List UInt8) × List UInt8
  | [] => ([], [])
  | c :: s =>
    if c = newline then ([] :: (splitLines s).1, (splitLines s).2)
    else
      match splitLines s with
      | ([], rest) => ([], c :: rest)
      | (l :: ls, rest) => ((c :: l) :: ls, rest)

def lines (file : List UInt8) : List (List UInt8) := (splitLines file).1

def printed (re : List UInt8) (ls : List (List UInt8)) : List UInt8 :=
  (ls.filter (matchRe re)).flatMap (· ++ [newline])

theorem printed_append (re : List UInt8) (ls ls' : List (List UInt8)) :
    printed re (ls ++ ls') = printed re ls ++ printed re ls' := by
  simp [printed]

theorem splitLines_of_notMem (h : newline ∉ s) : splitLines s = ([], s) := by
  induction s with
  | nil => rfl
  | cons c s ih =>
    obtain ⟨hc, hs⟩ := List.ne_and_not_mem_of_not_mem_cons h
    rw [splitLines, if_neg (Ne.symm hc), ih hs]

theorem splitLines_line (h : newline ∉ l) (s : List UInt8) :
    splitLines (l ++ newline :: s) = (l :: (splitLines s).1, (splitLines s).2) := by
  induction l with
  | nil => rw [List.nil_append, splitLines, if_pos rfl]
  | cons c l ih =>
    obtain ⟨hc, hl⟩ := List.ne_and_not_mem_of_not_mem_cons h
    rw [List.cons_append, splitLines, if_neg (Ne.symm hc), ih hl]

theorem first_line (s : List UInt8) :
    newline ∉ s ∨ ∃ l s', s = l ++ newline :: s' ∧ newline ∉ l := by
  by_cases h : newline ∈ s
  · exact .inr (List.eq_append_cons_of_mem h)
  · exact .inl h

theorem splitLines_append (s t : List UInt8) :
    lines (s ++ t) = lines s ++ lines ((splitLines s).2 ++ t) := by
  induction hn : s.length using Nat.strong_induction_on generalizing s with
  | _ n ih =>
    unfold lines at ih ⊢
    rcases first_line s with h | ⟨l, s', rfl, hl⟩
    · simp [splitLines_of_notMem h]
    · have hlt : s'.length < n := by simp at hn; omega
      simp [splitLines_line hl, ih _ hlt s' rfl]

theorem rest_spec (s : List UInt8) :
    newline ∉ (splitLines s).2 ∧ (splitLines s).2 <:+ s ∧
      ∀ l ∈ lines s, l.length < s.length := by
  induction hn : s.length using Nat.strong_induction_on generalizing s with
  | _ n ih =>
    unfold lines at ih ⊢
    rcases first_line s with h | ⟨l, s', rfl, hl⟩
    · rw [splitLines_of_notMem h]
      exact ⟨h, List.suffix_rfl, nofun⟩
    have hlen : l.length + (s'.length + 1) = n := by simpa using hn
    obtain ⟨hrest, hsuff, hshort⟩ := ih s'.length (by omega) s' rfl
    rw [splitLines_line hl]
    refine ⟨hrest, hsuff.trans ⟨l ++ [newline], by simp⟩, ?_⟩
    intro k hk
    rcases List.mem_cons.1 hk with rfl | hk
    · omega
    · have := hshort k hk
      omega

theorem lines_append_of_notMem (h : newline ∉ s) (t : List UInt8) :
    lines (s ++ t) = [] ∨ ∃ l ls, lines (s ++ t) = (s ++ l) :: ls := by
  rcases first_line t with ht | ⟨l, t', rfl, hl⟩
  · refine .inl ?_
    have hst : newline ∉ s ++ t := by simp [h, ht]
    rw [lines, splitLines_of_notMem hst]
  · refine .inr ⟨l, (splitLines t').1, ?_⟩
    have hsl : newline ∉ s ++ l := by simp [h, hl]
    rw [← List.append_assoc, lines, splitLines_line hsl]

theorem cstr_append (h : 0 ∉ s) (t : List UInt8) : cstr (s ++ 0 :: t) = s := by
  have hall : ∀ c ∈ s, decide (c ≠ 0) = true := fun c hc =>
    decide_eq_true (ne_of_mem_of_not_mem hc h)
  unfold cstr
  rw [List.takeWhile_append_of_pos hall]
  simp

theorem strchr_none (h : 0 ∉ s) (hs : newline ∉ s) (t : List UInt8) :
    strchr (s ++ 0 :: t) newline = none := by
  rw [strchr, cstr_append h, List.findIdx?_eq_none_iff]
  intro c hc
  exact decide_eq_false (ne_of_mem_of_not_mem hc hs)

theorem strchr_line (h : 0 ∉ l ++ newline :: s) (hl : newline ∉ l) (t : List UInt8) :
    strchr (l ++ newline :: s ++ 0 :: t) newline = some l.length := by
  rw [strchr, cstr_append h, List.findIdx?_append]
  have hnone : l.findIdx? (· = newline) = none := by
    rw [List.findIdx?_eq_none_iff]
    intro c hc
    exact decide_eq_false (ne_of_mem_of_not_mem hc hl)
  rw [hnone]
  simp [List.findIdx?_cons]

theorem lineLoop_spec (re done : List UInt8) {pend : List UInt8} (junk out : List UInt8)
    (h : 0 ∉ pend) :
    ∃ done', lineLoop re (done ++ (pend ++ 0 :: junk)) done.length out =
        (done' ++ ((splitLines pend).2 ++ 0 :: junk), done'.length,
          out ++ printed re (lines pend)) ∧
      done'.length + (splitLines pend).2.length = done.length + pend.length := by
  induction hn : pend.length using Nat.strong_induction_on generalizing done pend out with
  | _ n ih =>
    rw [lineLoop]
    rcases first_line pend with hs | ⟨l, s, rfl, hl⟩
    · have hfind : strchr ((done ++ (pend ++ 0 :: junk)).drop done.length) newline = none := by
        rw [List.drop_left]
        exact strchr_none h hs junk
      refine ⟨done, ?_, ?_⟩
      · split
        next => simp [lines, splitLines_of_notMem hs, printed]
        next i hi =>
          rw [hfind] at hi
          cases hi
      · rw [splitLines_of_notMem hs, hn]
    · have hfind : strchr ((done ++ (l ++ newline :: s ++ 0 :: junk)).drop done.length) newline =
          some l.length := by
        rw [List.drop_left]
        exact strchr_line h hl junk
      have h0 : 0 ∉ l ∧ 0 ∉ s := by
        simp only [List.mem_append, List.mem_cons, not_or] at h
        exact ⟨h.1, h.2.2⟩
      have hlen : l.length + (s.length + 1) = n := by simpa using hn
      -- The byte at `q` is replaced.
      have hset (b c : UInt8) (tail : List UInt8) :
          (done ++ (l ++ b :: tail)).set (done.length + l.length) c =
            done ++ (l ++ c :: tail) := by
        simp
      have hbuf : done ++ (l ++ newline :: s ++ 0 :: junk) =
          done ++ (l ++ newline :: (s ++ 0 :: junk)) := by simp
      have hnext (c : UInt8) : done ++ (l ++ c :: (s ++ 0 :: junk)) =
          (done ++ (l ++ [c])) ++ (s ++ 0 :: junk) := by simp
      have hat (c : UInt8) : done.length + l.length + 1 = (done ++ (l ++ [c])).length := by
        simp
        omega
      have hrest (c : UInt8) (o : List UInt8) :=
        ih s.length (by omega) (done ++ (l ++ [c])) o h0.2 rfl
      have hlines : lines (l ++ newline :: s) = l :: lines s := by
        rw [lines, splitLines_line hl, lines]
      have hcstr : cstr ((done ++ (l ++ 0 :: (s ++ 0 :: junk))).drop done.length) = l := by
        rw [List.drop_left, cstr_append h0.1]
      split
      next hi =>
        rw [hfind] at hi
        cases hi
      next i hi =>
        rw [hfind] at hi
        cases hi
        simp only [hbuf, hset, hcstr]
        by_cases hm : matchRe re l = true
        · obtain ⟨done', hrun, hsum⟩ := hrest newline (out ++ (l ++ [newline]))
          refine ⟨done', ?_, ?_⟩
          · have htake : ((done ++ (l ++ newline :: (s ++ 0 :: junk))).drop done.length).take
                (done.length + l.length + 1 - done.length) = l ++ [newline] := by
              rw [List.drop_left, show done.length + l.length + 1 - done.length =
                l.length + 1 by omega, List.take_append]
              simp
            rw [if_pos hm, htake, hnext, hat newline, hrun, splitLines_line hl, hlines]
            simp [printed, hm]
          · rw [splitLines_line hl]
            simp at hsum ⊢
            omega
        · obtain ⟨done', hrun, hsum⟩ := hrest 0 out
          refine ⟨done', ?_, ?_⟩
          · rw [if_neg hm, hnext, hat 0, hrun, splitLines_line hl, hlines]
            simp [printed, hm]
          · rw [splitLines_line hl]
            simp at hsum ⊢
            omega

def short (l : List UInt8) : Bool := l.length + 1 < sizeofBuf

theorem takeWhile_short {ls ls' : List (List UInt8)} (h : ∀ l ∈ ls, l.length + 1 < sizeofBuf) :
    (ls ++ ls').takeWhile short = ls ++ ls'.takeWhile short :=
  List.takeWhile_append_of_pos fun l hl => decide_eq_true (h l hl)

theorem grepLoop_spec (re : List UInt8) (chunk : ℕ → ℕ) (calls : ℕ)
    (file buf part out : List UInt8) (hbuf : buf.length = sizeofBuf)
    (hpart : buf.take part.length = part) (hfit : part.length < sizeofBuf)
    (hline : newline ∉ part) (h0 : 0 ∉ part ++ file) :
    grepLoop re chunk calls file buf part.length out =
      out ++ printed re ((lines (part ++ file)).takeWhile short) := by
  induction hn : file.length using Nat.strong_induction_on
    generalizing calls file buf part out with
  | _ n ih =>
    rw [grepLoop]
    by_cases hread : 0 < read (chunk calls) (sizeofBuf - part.length - 1) file
    · set k := read (chunk calls) (sizeofBuf - part.length - 1) file
      have hfile : k ≤ file.length := (min_le_right _ _).trans (min_le_right _ _)
      have hroom : k ≤ sizeofBuf - part.length - 1 := (min_le_right _ _).trans (min_le_left _ _)
      obtain ⟨pend, hpend⟩ : ∃ pend, pend = part ++ file.take k := ⟨_, rfl⟩
      have hlength : pend.length = part.length + k := by simp [hpend, hfile]
      have hsplit : part ++ file = pend ++ file.drop k := by simp [hpend]
      have hfilled : (buf.take part.length ++ file.take k ++ buf.drop (part.length + k)).set
          (part.length + k) 0 = [] ++ (pend ++ 0 :: buf.drop (part.length + k + 1)) := by
        rw [hpart, ← hpend, ← hlength, List.set_append_right _ _ le_rfl, Nat.sub_self,
          List.drop_eq_getElem_cons (by omega), List.set_cons_zero, List.nil_append]
      have hzero : 0 ∉ pend ∧ 0 ∉ file.drop k := by
        rw [hsplit] at h0
        simpa using h0
      obtain ⟨hrest, hsuff, hshort⟩ := rest_spec pend
      obtain ⟨done, hloop, hsum⟩ := lineLoop_spec re [] (buf.drop (part.length + k + 1)) out hzero.1
      have hlen : part.length + k - done.length = (splitLines pend).2.length := by
        rw [List.length_nil, hlength] at hsum
        omega
      have hle := hsuff.length_le
      have hlines : (lines (part ++ file)).takeWhile short =
          lines pend ++ (lines ((splitLines pend).2 ++ file.drop k)).takeWhile short := by
        rw [hsplit, splitLines_append, takeWhile_short]
        intro l hl
        have := hshort l hl
        omega
      have hnew : 0 ∉ (splitLines pend).2 ++ file.drop k := by
        simp only [List.mem_append, not_or]
        exact ⟨fun h => hzero.1 (hsuff.subset h), hzero.2⟩
      rw [← hfilled, List.length_nil] at hloop
      rw [List.length_nil, hlength] at hsum
      simp only [hread, hloop, hlen, if_true, show 0 < part.length + k by omega, List.drop_left,
        List.take_left]
      rw [ih (file.drop k).length _ _ _ _ _ _ _ _ _ hrest hnew rfl, hlines, printed_append,
        List.append_assoc]
      · rw [List.length_drop]
        omega
      · simp only [List.length_append, List.length_drop, List.length_cons]
        omega
      · exact List.take_left
      · omega
    · have hstop : file = [] ∨ part.length + 1 = sizeofBuf := by
        unfold read at hread
        rcases file with - | ⟨c, file⟩
        · exact .inl rfl
        · refine .inr ?_
          simp only [List.length_cons] at hread
          omega
      have hnone : (lines (part ++ file)).takeWhile short = [] := by
        rcases hstop with rfl | hfull
        · rw [List.append_nil, lines, splitLines_of_notMem hline]
          rfl
        rcases lines_append_of_notMem hline file with hnil | ⟨l, ls, hcons⟩
        · rw [hnil]
          rfl
        · have hlong : short (part ++ l) = false := by
            simp [short]
            omega
          rw [hcons, List.takeWhile_cons_of_neg (by simp [hlong])]
      simp [hread, hnone, printed]

theorem grep_eq (re : List UInt8) (chunk : ℕ → ℕ) {file : List UInt8} (h0 : 0 ∉ file) :
    grep re chunk file = printed re ((lines file).takeWhile short) := by
  have hloop := grepLoop_spec re chunk 0 file (List.replicate sizeofBuf 0) [] []
    List.length_replicate rfl (by decide) List.not_mem_nil h0
  exact hloop

theorem printed_eq_nil (re : List UInt8) (ls : List (List UInt8)) :
    printed re ls = [] ↔ ∀ l ∈ ls, matchRe re l = false := by
  simp [printed, List.flatMap_eq_nil_iff]

/-- `grep` prints exactly the matching lines if and only if no line matches from the first one on
    that does not fit into the buffer with its newline. -/
theorem grep_prints_iff (re : List UInt8) (chunk : ℕ → ℕ) {file : List UInt8} (h0 : 0 ∉ file) :
    grep re chunk file = printed re (lines file) ↔
      ∀ l ∈ (lines file).dropWhile short, matchRe re l = false := by
  have hsplit : printed re (lines file) = printed re ((lines file).takeWhile short) ++
      printed re ((lines file).dropWhile short) := by
    rw [← printed_append, List.takeWhile_append_dropWhile]
  rw [grep_eq re chunk h0, hsplit, List.self_eq_append_right, printed_eq_nil]

theorem grep_prints_two_lines :
    0 ∉ [0x61, newline, 0x62, newline] ∧
      grep [0x61] (fun _ => 0) [0x61, newline, 0x62, newline] =
        printed [0x61] (lines [0x61, newline, 0x62, newline]) :=
  ⟨by decide, (grep_prints_iff [0x61] (fun _ => 0) (by decide)).2 (by decide)⟩

theorem lines_line (h : newline ∉ l) : lines (l ++ [newline]) = [l] := by
  rw [lines, splitLines_line h]
  rfl

theorem matchRe_head (text : List UInt8) : matchRe [0x61] (0x61 :: text) = true := by
  simp [matchRe, matchFrom, matchhere, caret, dollar]

/-- A line of 1023 bytes is not printed, although it matches. -/
theorem grep_long_line :
    grep [0x61] (fun _ => 0) (List.replicate 1023 0x61 ++ [newline]) = [] ∧
      printed [0x61] (lines (List.replicate 1023 0x61 ++ [newline])) =
        List.replicate 1023 0x61 ++ [newline] := by
  have hbytes (c : UInt8) (hc : c ≠ 0x61) : c ∉ List.replicate 1023 (0x61 : UInt8) :=
    fun h => hc (List.eq_of_mem_replicate h)
  have h0 : 0 ∉ List.replicate 1023 (0x61 : UInt8) ++ [newline] := by
    rw [List.mem_append, not_or]
    exact ⟨hbytes 0 (by decide), by decide⟩
  have hlong : short (List.replicate 1023 0x61) = false := by
    rw [short, List.length_replicate]
    rfl
  have hmatch : matchRe [0x61] (List.replicate 1023 0x61) = true := matchRe_head _
  rw [grep_eq _ _ h0, lines_line (hbytes newline (by decide)), List.takeWhile_cons, hlong]
  refine ⟨rfl, ?_⟩
  rw [printed, List.filter_cons_of_pos hmatch, List.filter_nil, List.flatMap_singleton]

end Xv6.GrepLines
