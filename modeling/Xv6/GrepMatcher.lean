import Mathlib.Computability.Language
import Mathlib.Data.List.Induction

set_option autoImplicit false

/-! `match`, `matchhere` and `matchstar` of `grep.c`. A string is the list of the bytes before its
NUL. A pattern is read from left to right as items, and means the product of their languages. -/
namespace Xv6.GrepMatcher

def caret : UInt8 := 0x5e
def dollar : UInt8 := 0x24
def star : UInt8 := 0x2a
def dot : UInt8 := 0x2e

mutual

def matchhere (re text : List UInt8) : Bool :=
  match re with
  | [] => true
  | c :: re =>
    if re.head? = some star then matchstar c re.tail text
    else if c = dollar ∧ re = [] then text.isEmpty
    else
      match text with
      | [] => false
      | t :: text => if c = dot ∨ c = t then matchhere re text else false
termination_by (re.length, text.length, 0)
decreasing_by all_goals grind

def matchstar (c : UInt8) (re text : List UInt8) : Bool :=
  if matchhere re text then true
  else
    match text with
    | [] => false
    | t :: text => if t = c ∨ c = dot then matchstar c re text else false
termination_by (re.length, text.length, 1)
decreasing_by all_goals grind

end

/-- The loop of `match`, which looks at the empty rest of the text too. -/
def matchFrom (re : List UInt8) : List UInt8 → Bool
  | [] => matchhere re []
  | t :: text => if matchhere re (t :: text) then true else matchFrom re text

def matchRe (re text : List UInt8) : Bool :=
  if re.head? = some caret then matchhere re.tail text else matchFrom re text

inductive Item where
  | one (c : UInt8)
  | star (c : UInt8)

structure Regexp where
  anchored : Bool
  items : List Item
  toEnd : Bool

def parseItems : List UInt8 → List Item × Bool
  | [] => ([], false)
  | [c] => if c = dollar then ([], true) else ([.one c], false)
  | c :: d :: re =>
    if d = star then ((parseItems re).map (.star c :: ·) id)
    else ((parseItems (d :: re)).map (.one c :: ·) id)

def parse (re : List UInt8) : Regexp :=
  if re.head? = some caret then ⟨true, (parseItems re.tail).1, (parseItems re.tail).2⟩
  else ⟨false, (parseItems re).1, (parseItems re).2⟩

def Accepts (c t : UInt8) : Prop := c = dot ∨ c = t

def chars (c : UInt8) : Language UInt8 := {w | ∃ t, w = [t] ∧ Accepts c t}

open scoped Computability in
def Item.lang : Item → Language UInt8
  | .one c => chars c
  | .star c => (chars c)∗

def language (l : List Item) : Language UInt8 := (l.map Item.lang).prod

/-- Some part of the text is in the language of the items: a part at the beginning if the pattern
    begins with `^`, and a part at the end if it ends with `$`. -/
def Regexp.Matches (r : Regexp) (text : List UInt8) : Prop :=
  ∃ before part behind, text = before ++ part ++ behind ∧ part ∈ language r.items ∧
    (r.anchored = true → before = []) ∧ (r.toEnd = true → behind = [])

def Fits (p : List Item × Bool) (text : List UInt8) : Prop :=
  ∃ part behind, text = part ++ behind ∧ part ∈ language p.1 ∧ (p.2 = true → behind = [])

theorem mem_star {c : UInt8} {w : List UInt8} : w ∈ (Item.star c).lang ↔ ∀ t ∈ w, Accepts c t := by
  unfold Item.lang
  rw [Language.mem_kstar]
  constructor
  · rintro ⟨L, rfl, hL⟩ t ht
    obtain ⟨y, hy, hty⟩ := List.mem_flatten.1 ht
    obtain ⟨t', rfl, hacc⟩ := hL y hy
    rw [List.mem_singleton.1 hty]
    exact hacc
  · intro h
    refine ⟨w.map fun t => [t], by rw [← List.flatMap_def, List.flatMap_singleton'], ?_⟩
    intro y hy
    obtain ⟨t, ht, rfl⟩ := List.mem_map.1 hy
    exact ⟨t, rfl, h t ht⟩

theorem fits_nil (text : List UInt8) : Fits ([], false) text :=
  ⟨[], text, rfl, rfl, nofun⟩

theorem fits_end (text : List UInt8) : Fits ([], true) text ↔ text = [] := by
  constructor
  · rintro ⟨part, behind, rfl, hpart, hend⟩
    rw [hend rfl, List.append_nil]
    exact hpart
  · rintro rfl
    exact ⟨[], [], rfl, rfl, fun _ => rfl⟩

theorem fits_cons (i : Item) (p : List Item × Bool) (text : List UInt8) :
    Fits (p.map (i :: ·) id) text ↔ ∃ part behind, text = part ++ behind ∧ part ∈ i.lang ∧
      Fits p behind := by
  have hlang : language (i :: p.1) = i.lang * language p.1 := by simp [language]
  constructor
  · rintro ⟨part, behind, rfl, hpart, hend⟩
    change part ∈ language (i :: p.1) at hpart
    rw [hlang, Language.mem_mul] at hpart
    obtain ⟨a, ha, b, hb, rfl⟩ := hpart
    exact ⟨a, b ++ behind, List.append_assoc .., ha, b, behind, rfl, hb, hend⟩
  · rintro ⟨a, behind, rfl, ha, b, behind, rfl, hb, hend⟩
    refine ⟨a ++ b, behind, (List.append_assoc ..).symm, ?_, hend⟩
    change a ++ b ∈ language (i :: p.1)
    rw [hlang]
    exact Language.append_mem_mul ha hb

theorem fits_one (c : UInt8) (p : List Item × Bool) (text : List UInt8) :
    Fits (p.map (.one c :: ·) id) text ↔ ∃ t rest, text = t :: rest ∧ Accepts c t ∧
      Fits p rest := by
  rw [fits_cons]
  constructor
  · rintro ⟨part, behind, rfl, ⟨t, rfl, hacc⟩, hfits⟩
    exact ⟨t, behind, rfl, hacc, hfits⟩
  · rintro ⟨t, rest, rfl, hacc, hfits⟩
    exact ⟨[t], rest, rfl, ⟨t, rfl, hacc⟩, hfits⟩

theorem matchstar_iff (c : UInt8) (re text : List UInt8) :
    matchstar c re text = true ↔ ∃ part behind, text = part ++ behind ∧
      part ∈ (Item.star c).lang ∧ matchhere re behind = true := by
  simp only [mem_star]
  induction text with
  | nil =>
    rw [matchstar]
    simp
  | cons t text ih =>
    rw [matchstar]
    constructor
    · intro h
      by_cases here : matchhere re (t :: text) = true
      · exact ⟨[], t :: text, rfl, nofun, here⟩
      simp only [here, Bool.false_eq_true, if_false] at h
      split at h
      next hacc =>
        obtain ⟨part, behind, rfl, hpart, hre⟩ := ih.1 h
        have hc : Accepts c t := hacc.symm.imp_right Eq.symm
        exact ⟨t :: part, behind, rfl, List.forall_mem_cons.2 ⟨hc, hpart⟩, hre⟩
      next => cases h
    · rintro ⟨part, behind, htext, hpart, hre⟩
      cases part with
      | nil =>
        rw [List.nil_append] at htext
        rw [htext, hre, if_pos rfl]
      | cons a part =>
        obtain ⟨rfl, rfl⟩ := List.cons.inj htext
        obtain ⟨hc, hpart⟩ := List.forall_mem_cons.1 hpart
        have hstar := ih.2 ⟨part, behind, rfl, hpart, hre⟩
        simp only [hstar, hc.symm.imp_left Eq.symm, if_true, ite_self]

theorem matchhere_iff (re text : List UInt8) :
    matchhere re text = true ↔ Fits (parseItems re) text := by
  induction re using List.twoStepInduction generalizing text with
  | nil =>
    rw [matchhere]
    exact iff_of_true rfl (fits_nil text)
  | singleton c =>
    rw [matchhere.eq_def, parseItems]
    by_cases hc : c = dollar
    · simp [hc, fits_end]
    · have hone := fits_one c ([], false) text
      cases text with
      | nil => simpa [hc] using hone
      | cons t text => simpa [hc, matchhere, fits_nil, Accepts] using hone.symm
  | cons_cons c d re ih ih' =>
    rw [matchhere.eq_def, parseItems]
    by_cases hd : d = star
    · have hstar := fits_cons (.star c) (parseItems re) text
      simpa [hd, matchstar_iff, ih] using hstar.symm
    · have hone := fits_one c (parseItems (d :: re)) text
      cases text with
      | nil => simpa [hd] using hone
      | cons t text => simpa [hd, ih', Accepts] using hone.symm

theorem matchFrom_iff (re text : List UInt8) :
    matchFrom re text = true ↔ ∃ before rest, text = before ++ rest ∧
      matchhere re rest = true := by
  induction text with
  | nil => simp [matchFrom]
  | cons t text ih =>
    rw [matchFrom]
    constructor
    · intro h
      by_cases here : matchhere re (t :: text) = true
      · exact ⟨[], t :: text, rfl, here⟩
      · simp only [here, Bool.false_eq_true, if_false] at h
        obtain ⟨before, rest, rfl, hrest⟩ := ih.1 h
        exact ⟨t :: before, rest, rfl, hrest⟩
    · rintro ⟨before, rest, htext, hrest⟩
      cases before with
      | nil =>
        rw [List.nil_append] at htext
        rw [htext, hrest, if_pos rfl]
      | cons a before =>
        obtain ⟨rfl, rfl⟩ := List.cons.inj htext
        rw [ih.2 ⟨before, rest, rfl, hrest⟩, ite_self]

/-- `match` finds a text exactly if the pattern means it. -/
theorem matcher_means_pattern (re text : List UInt8) :
    matchRe re text = true ↔ (parse re).Matches text := by
  unfold matchRe parse
  by_cases hcaret : re.head? = some caret
  · rw [if_pos hcaret, if_pos hcaret, matchhere_iff]
    constructor
    · rintro ⟨part, behind, rfl, hpart, hend⟩
      exact ⟨[], part, behind, rfl, hpart, fun _ => rfl, hend⟩
    · rintro ⟨before, part, behind, rfl, hpart, hbefore, hend⟩
      rw [hbefore rfl]
      exact ⟨part, behind, rfl, hpart, hend⟩
  rw [if_neg hcaret, if_neg hcaret, matchFrom_iff]
  simp only [matchhere_iff]
  constructor
  · rintro ⟨before, rest, rfl, part, behind, rfl, hpart, hend⟩
    exact ⟨before, part, behind, (List.append_assoc ..).symm, hpart, nofun, hend⟩
  · rintro ⟨before, part, behind, rfl, hpart, -, hend⟩
    exact ⟨before, part ++ behind, List.append_assoc .., part, behind, rfl, hpart, hend⟩

end Xv6.GrepMatcher
