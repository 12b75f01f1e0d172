import GlobalsJs.Ecma.Text
import GlobalsJs.Lists.Replace

/-!
# Formal parameters of a method

A class file writes the parameters of a method as `Output name As type`; the class dictionary
wants `*name:type`. `translateFormalSpec` turns the one into the other by replacing the keywords
wherever they stand.
-/

namespace GlobalsJs.Noble

open Ecma Replace

def outputs : List JsString := [js "output ", js "Output ", js "OUTPUT "]
def byrefs : List JsString := [js "byref ", js "ByRef ", js "BYREF "]
def ases : List JsString := [js " as ", js " As ", js " aS ", js " AS "]

def translateFormalSpec (input : JsString) : JsString :=
  let out := input
  let out := replaceEach (js "*") outputs out
  let out := replaceEach (js "&") byrefs out
  let out := replaceEach (js ":") ases out
  out

def lowerCase (c : CodeUnit) : CodeUnit := if 65 ≤ c ∧ c ≤ 90 then c + 32 else c

inductive Passing where
  | output
  | byRef
deriving DecidableEq

def Passing.word : Passing → JsString
  | .output => js "output"
  | .byRef => js "byref"

def Passing.mark : Passing → CodeUnit
  | .output => 42
  | .byRef => ampersand

structure Keyword where
  passing : Passing
  text : JsString
  spelled : text.map lowerCase = passing.word

def isClassUnit (c : CodeUnit) : Bool := isAlphanumeric c || c = 37 || c = dot

structure Typing where
  as : JsString
  spelled : as.map lowerCase = js "as"
  className : JsString
  className_units : className.all isClassUnit

/-- A parameter as it is written, after a comma or after a comma and a blank. -/
structure FormalParameter where
  spaced : Bool
  keyword : Option Keyword
  name : JsString
  name_ne : name ≠ []
  name_units : name.all isAlphanumeric
  type : Option Typing

def Typing.text (t : Typing) : JsString := space :: (t.as ++ space :: t.className)

def FormalParameter.declaration (p : FormalParameter) : JsString :=
  p.name ++ (p.type.map Typing.text).getD []

def FormalParameter.text (p : FormalParameter) : JsString :=
  (if p.spaced then [space] else []) ++
    (p.keyword.map fun k => k.text ++ [space]).getD [] ++ p.declaration

def FormalParameter.translated (p : FormalParameter) : JsString :=
  (p.keyword.map fun k => [k.passing.mark]).getD [] ++ p.name ++
    (p.type.map fun t => colon :: t.className).getD []

def formalSpec (ps : List FormalParameter) : JsString := [comma].intercalate (ps.map FormalParameter.text)
def translatedSpec (ps : List FormalParameter) : JsString :=
  [comma].intercalate (ps.map FormalParameter.translated)

def Passing.spellings : Passing → List JsString
  | .output => [js "output", js "Output", js "OUTPUT"]
  | .byRef => [js "byref", js "ByRef", js "BYREF"]

/-- No blank stands before the parameter, its keyword is spelled in one of the ways that are
replaced, and a name before a type does not end in one of these. -/
structure FormalParameter.Plain (p : FormalParameter) : Prop where
  unspaced : p.spaced = false
  keyword : ∀ k ∈ p.keyword, k.text ∈ k.passing.spellings
  name : p.type.isSome → ∀ q : Passing, ∀ w ∈ q.spellings, ¬ w <:+ p.name

theorem isClassUnit_of_alphanumeric {c : CodeUnit} (h : isAlphanumeric c) : isClassUnit c := by
  simp [isClassUnit, h]

theorem isClassUnit_of_lowerCase {c : CodeUnit} (h : isLetter (lowerCase c)) : isClassUnit c := by
  refine isClassUnit_of_alphanumeric ?_
  rw [lowerCase] at h
  split_ifs at h with hupper
  · simp [isAlphanumeric, isLetter, hupper.1, hupper.2]
  · simp [isAlphanumeric, h]

theorem lowerCase_cases {c d : CodeUnit} (h : lowerCase c = d) : c = d ∨ c = d - 32 := by
  rw [lowerCase] at h
  split_ifs at h
  · rw [← h, UInt16.add_sub_cancel]
    exact .inr rfl
  · exact .inl h

def Clean (s : JsString) : Prop := ∀ c ∈ s, isClassUnit c

theorem Clean.notMem {s : JsString} (hs : Clean s) {c : CodeUnit} (hc : isClassUnit c = false) : c ∉ s := by
  intro hmem
  rw [hs c hmem] at hc
  cases hc

theorem FormalParameter.name_clean (p : FormalParameter) : Clean p.name :=
  fun c hc => isClassUnit_of_alphanumeric (List.all_eq_true.mp p.name_units c hc)

theorem Typing.className_clean (t : Typing) : Clean t.className := List.all_eq_true.mp t.className_units

theorem clean_of_lowerCase {s w : JsString} (h : s.map lowerCase = w) (hw : w.all isLetter) : Clean s := by
  intro c hc
  refine isClassUnit_of_lowerCase (List.all_eq_true.mp hw _ ?_)
  rw [← h]
  exact List.mem_map_of_mem hc

theorem Keyword.text_clean (k : Keyword) : Clean k.text :=
  clean_of_lowerCase k.spelled (by cases k.passing <;> decide)

theorem Typing.as_clean (t : Typing) : Clean t.as := clean_of_lowerCase t.spelled (by decide)

def asSpellings : List JsString := [js "as", js "As", js "aS", js "AS"]

theorem Typing.as_spelled (t : Typing) : t.as ∈ asSpellings := by
  have h := t.spelled
  have hlen : t.as.length = 2 := by rw [← List.length_map lowerCase, h]; rfl
  obtain ⟨c, d, hcd⟩ := List.length_eq_two.mp hlen
  rw [hcd] at h ⊢
  have hc : lowerCase c = 97 := (List.cons.inj h).1
  have hd : lowerCase d = 115 := (List.cons.inj (List.cons.inj h).2).1
  rcases lowerCase_cases hc with rfl | rfl <;> rcases lowerCase_cases hd with rfl | rfl <;> decide

theorem spelling_lowerCase {q : Passing} {w : JsString} (hw : w ∈ q.spellings) : w.map lowerCase = q.word := by
  have hall : ∀ q : Passing, ∀ w ∈ q.spellings, w.map lowerCase = q.word := by
    intro q
    cases q <;> decide
  exact hall q w hw

theorem Keyword.eq_of_suffix (k : Keyword) {q : Passing} {w : JsString} (hw : w ∈ q.spellings)
    (h : w <:+ k.text) : q = k.passing ∧ w = k.text := by
  have hlower := spelling_lowerCase hw
  have hwords : q.word <:+ k.passing.word := by
    rw [← hlower, ← k.spelled]
    exact h.map lowerCase
  have hq : q = k.passing := by
    revert hwords
    cases q <;> cases k.passing <;> decide
  refine ⟨hq, h.eq_of_length ?_⟩
  have hlen := congrArg List.length (hlower.trans (hq ▸ k.spelled.symm))
  rwa [List.length_map, List.length_map] at hlen

theorem outputs_eq : outputs = Passing.output.spellings.map (· ++ [space]) := rfl
theorem byrefs_eq : byrefs = Passing.byRef.spellings.map (· ++ [space]) := rfl
theorem ases_eq : ases = asSpellings.map fun w => space :: (w ++ [space]) := rfl

theorem spelling_clean {q : Passing} {w : JsString} (hw : w ∈ q.spellings) : Clean w :=
  clean_of_lowerCase (spelling_lowerCase hw) (by cases q <;> decide)

theorem spelling_blank {q : Passing} : ∀ w ∈ q.spellings, space ∉ w :=
  fun _ hw => (spelling_clean hw).notMem (by decide)

theorem Passing.mark_unclean (q : Passing) : isClassUnit q.mark = false := by cases q <;> decide

/-- What the first two loops make of the text. -/
def keywordsOut (s : JsString) : JsString := replaceEach (js "&") byrefs (replaceEach (js "*") outputs s)

theorem translateFormalSpec_eq (s : JsString) :
    translateFormalSpec s = replaceEach (js ":") ases (keywordsOut s) := rfl

theorem keywordsOut_clean {s : JsString} (hs : Clean s) : keywordsOut s = s := by
  have hblank : space ∉ s := hs.notMem (by decide)
  rw [keywordsOut, replaceEach_eq_self (c := space) (by decide) hblank,
    replaceEach_eq_self (c := space) (by decide) hblank]

theorem keywordsOut_word {word : JsString} (hword : Clean word)
    (hend : ∀ q : Passing, ∀ w ∈ q.spellings, ¬ w <:+ word) (t : JsString) :
    keywordsOut (word ++ space :: t) = word ++ space :: keywordsOut t := by
  have hblank : space ∉ word := hword.notMem (by decide)
  rw [keywordsOut, outputs_eq, byrefs_eq, replaceEach_word spelling_blank hblank (hend .output),
    replaceEach_word spelling_blank hblank (hend .byRef)]
  rfl

theorem replaced_self {q : Passing} {word : JsString} (hword : word ∈ q.spellings)
    (hend : ∀ w ∈ q.spellings, w <:+ word → w = word) (t : JsString) :
    replaceEach [q.mark] (q.spellings.map (· ++ [space])) (word ++ space :: t) =
      q.mark :: replaceEach [q.mark] (q.spellings.map (· ++ [space])) t := by
  refine replaceEach_word_self (fun w hw => ⟨spelling_blank w hw, ?_, ?_⟩) hword hend t
  · rintro rfl
    cases q <;> exact absurd hw (by decide)
  · exact (spelling_clean hw).notMem q.mark_unclean

theorem keywordsOut_keyword (k : Keyword) (hk : k.text ∈ k.passing.spellings) (t : JsString) :
    keywordsOut (k.text ++ space :: t) = k.passing.mark :: keywordsOut t := by
  have hself := replaced_self hk (fun w hw h => (k.eq_of_suffix hw h).2)
  cases hq : k.passing with
  | output =>
    rw [hq] at hself
    have hfirst : replaceEach (js "*") outputs (k.text ++ space :: t) =
        Passing.output.mark :: replaceEach (js "*") outputs t := hself t
    rw [keywordsOut, hfirst, replaceEach_head (by decide)]
    rfl
  | byRef =>
    rw [hq] at hself
    have hblank : space ∉ k.text := k.text_clean.notMem (by decide)
    have hend : ∀ w ∈ Passing.output.spellings, ¬ w <:+ k.text := by
      intro w hw h
      have hp := (k.eq_of_suffix hw h).1
      rw [hq] at hp
      cases hp
    rw [keywordsOut, outputs_eq, replaceEach_word spelling_blank hblank hend]
    exact hself _

theorem mark_mem_keywordsOut {word : JsString} (hword : Clean word) {q : Passing} {w : JsString}
    (hw : w ∈ q.spellings) (hend : w <:+ word) (t : JsString) :
    ∃ p : Passing, p.mark ∈ keywordsOut (word ++ space :: t) := by
  have hblank : space ∉ word := hword.notMem (by decide)
  have hmem : ∀ p : Passing, (∃ v ∈ p.spellings, v <:+ word) →
      p.mark ∈ replaceEach [p.mark] (p.spellings.map (· ++ [space])) (word ++ space :: t) := by
    intro p hp
    refine mem_replaceEach_word (fun v hv => ⟨spelling_blank v hv, ?_⟩) ?_ hblank hp t
    · exact (spelling_clean hv).notMem p.mark_unclean
    · cases p <;> decide
  by_cases hout : ∃ v ∈ Passing.output.spellings, v <:+ word
  · refine ⟨.output, List.count_pos_iff.mp (lt_of_lt_of_le ?_ (count_le_replaceEach (by decide) _))⟩
    exact List.count_pos_iff.mpr (hmem .output hout)
  · cases q with
    | output => exact absurd ⟨w, hw, hend⟩ hout
    | byRef =>
      refine ⟨.byRef, ?_⟩
      rw [keywordsOut, outputs_eq, replaceEach_word spelling_blank hblank fun v hv h => hout ⟨v, hv, h⟩]
      exact mem_replaceEach_word (fun v hv => ⟨spelling_blank v hv,
        (spelling_clean hv).notMem Passing.byRef.mark_unclean⟩) (by decide) hblank ⟨w, hw, hend⟩ _

theorem as_no_spelling (t : Typing) {q : Passing} {w : JsString} (hw : w ∈ q.spellings) : ¬ w <:+ t.as := by
  intro h
  have hlen := (h.map lowerCase).length_le
  rw [spelling_lowerCase hw, t.spelled] at hlen
  cases q <;> exact absurd hlen (by decide)

theorem keywordsOut_declaration {p : FormalParameter}
    (hname : p.type.isSome → ∀ q : Passing, ∀ w ∈ q.spellings, ¬ w <:+ p.name) :
    keywordsOut p.declaration = p.declaration := by
  rw [FormalParameter.declaration]
  cases htype : p.type with
  | none =>
    rw [Option.map_none, Option.getD_none, List.append_nil]
    exact keywordsOut_clean p.name_clean
  | some t =>
    rw [Option.map_some, Option.getD_some, Typing.text,
      keywordsOut_word p.name_clean (hname (by rw [htype]; rfl)),
      keywordsOut_word t.as_clean fun _ _ hw => as_no_spelling t hw, keywordsOut_clean t.className_clean]

theorem typed_out {u : JsString} (hu : space ∉ u) (type : Option Typing) :
    replaceEach (js ":") ases (u ++ (type.map Typing.text).getD []) =
      u ++ (type.map fun t => colon :: t.className).getD [] := by
  cases type with
  | none =>
    simp only [Option.map_none, Option.getD_none, List.append_nil]
    exact replaceEach_eq_self (c := space) (by decide) hu
  | some t =>
    rw [Option.map_some, Option.map_some, Option.getD_some, Option.getD_some, Typing.text, ases_eq,
      replaceEach_between (by decide) t.as_spelled hu (t.className_clean.notMem (by decide)) (by decide),
      List.append_assoc]
    rfl

theorem translate_plain {p : FormalParameter} (h : p.Plain) : translateFormalSpec p.text = p.translated := by
  have hdeclaration := keywordsOut_declaration h.name
  have hname : space ∉ p.name := p.name_clean.notMem (by decide)
  rw [translateFormalSpec_eq, FormalParameter.text, FormalParameter.translated, h.unspaced]
  cases hk : p.keyword with
  | none =>
    have htyped := typed_out hname p.type
    simp only [Bool.false_eq_true, if_false, Option.map_none, Option.getD_none, List.nil_append]
    rw [hdeclaration]
    exact htyped
  | some k =>
    have hblank : space ∉ k.passing.mark :: p.name := by
      rw [List.mem_cons, not_or]
      refine ⟨?_, hname⟩
      cases k.passing <;> decide
    have htyped := typed_out hblank p.type
    simp only [Bool.false_eq_true, if_false, Option.map_some, Option.getD_some, List.nil_append,
      List.append_assoc, List.singleton_append]
    rw [keywordsOut_keyword k (h.keyword k hk), hdeclaration]
    exact htyped

def weight (c : CodeUnit) : ℕ :=
  if c = space ∨ c = Passing.output.mark ∨ c = Passing.byRef.mark then 1 else if c = colon then 2 else 0

theorem Clean.weight {s : JsString} (hs : Clean s) : (s.map weight).sum = 0 := by
  refine List.sum_eq_zero fun n hn => ?_
  obtain ⟨c, hc, rfl⟩ := List.mem_map.mp hn
  have hne : ∀ d, isClassUnit d = false → c ≠ d := by
    rintro d hd rfl
    rw [hs c hc] at hd
    cases hd
  rw [Noble.weight, if_neg, if_neg (hne colon (by decide))]
  simp only [not_or]
  exact ⟨hne space (by decide), hne _ Passing.output.mark_unclean, hne _ Passing.byRef.mark_unclean⟩

theorem translateFormalSpec_weight (s : JsString) :
    ((translateFormalSpec s).map weight).sum = (s.map weight).sum := by
  rw [translateFormalSpec_eq, keywordsOut, sum_replaceEach (by decide), sum_replaceEach (by decide),
    sum_replaceEach (by decide)]

theorem unspaced_of_translated {p : FormalParameter} (h : translateFormalSpec p.text = p.translated) :
    p.spaced = false := by
  have hweight := translateFormalSpec_weight p.text
  rw [h, FormalParameter.text, FormalParameter.translated, FormalParameter.declaration] at hweight
  simp only [List.map_append, List.sum_append, p.name_clean.weight] at hweight
  have hkeyword : (((p.keyword.map fun k => [k.passing.mark]).getD []).map weight).sum =
      (((p.keyword.map fun k => k.text ++ [space]).getD []).map weight).sum := by
    cases p.keyword with
    | none => rfl
    | some k =>
      simp only [Option.map_some, Option.getD_some, List.map_append, List.sum_append, k.text_clean.weight]
      cases k.passing <;> rfl
  have htype : (((p.type.map fun t => colon :: t.className).getD []).map weight).sum =
      (((p.type.map Typing.text).getD []).map weight).sum := by
    cases p.type with
    | none => rfl
    | some t =>
      simp only [Option.map_some, Option.getD_some, Typing.text, List.map_cons, List.sum_cons,
        List.map_append, List.sum_append, t.as_clean.weight, t.className_clean.weight]
      rfl
  cases hs : p.spaced with
  | false => rfl
  | true =>
    rw [hs] at hweight
    have hblank : weight space = 1 := rfl
    simp only [if_true, List.map_cons, List.map_nil, List.sum_cons, List.sum_nil, hblank] at hweight
    omega

theorem spelled_of_translated {p : FormalParameter} (h : translateFormalSpec p.text = p.translated)
    {k : Keyword} (hk : p.keyword = some k) : k.text ∈ k.passing.spellings := by
  by_contra hnot
  have hend : ∀ q : Passing, ∀ w ∈ q.spellings, ¬ w <:+ k.text := by
    intro q w hw hsuf
    obtain ⟨rfl, rfl⟩ := k.eq_of_suffix hw hsuf
    exact hnot hw
  obtain ⟨c, r, hc⟩ := List.exists_cons_of_ne_nil (show k.text ≠ [] from fun hnil => by
    have hword := k.spelled
    rw [hnil] at hword
    revert hword
    cases k.passing <;> decide)
  have hclass : isClassUnit c := k.text_clean c (hc ▸ List.mem_cons_self)
  have hspace : c ≠ space := by
    rintro rfl
    exact absurd hclass (by decide)
  have hkept : ∀ t, translateFormalSpec (k.text ++ space :: t) =
      c :: replaceEach (js ":") ases (r ++ space :: keywordsOut t) := by
    intro t
    rw [translateFormalSpec_eq, keywordsOut_word k.text_clean hend, hc, List.cons_append]
    refine replaceEach_head (fun old hold => ?_) _
    rw [ases_eq] at hold
    obtain ⟨w, -, rfl⟩ := List.mem_map.mp hold
    exact ⟨by simp, fun hhead => hspace (Option.some.inj hhead).symm⟩
  rw [FormalParameter.text, FormalParameter.translated, unspaced_of_translated h, hk] at h
  simp only [Bool.false_eq_true, if_false, Option.map_some, Option.getD_some, List.nil_append,
    List.append_assoc, List.singleton_append] at h
  rw [hkept] at h
  rw [(List.cons.inj h).1, Passing.mark_unclean] at hclass
  cases hclass

def marks (s : JsString) : ℕ := s.count Passing.output.mark + s.count Passing.byRef.mark

theorem marks_append (s t : JsString) : marks (s ++ t) = marks s + marks t := by
  simp only [marks, List.count_append]
  omega

theorem Clean.marks {s : JsString} (hs : Clean s) : marks s = 0 := by
  rw [Noble.marks, List.count_eq_zero.mpr (hs.notMem Passing.output.mark_unclean),
    List.count_eq_zero.mpr (hs.notMem Passing.byRef.mark_unclean)]

theorem marks_mark (q : Passing) (s : JsString) : marks (q.mark :: s) = 1 + marks s := by
  cases q with
  | output =>
    rw [marks, marks, List.count_cons_self, List.count_cons_of_ne (by decide)]
    omega
  | byRef =>
    rw [marks, marks, List.count_cons_self, List.count_cons_of_ne (by decide)]
    omega

theorem marks_le (s : JsString) : marks s ≤ marks (replaceEach (js ":") ases s) :=
  Nat.add_le_add (count_le_replaceEach (by decide) s) (count_le_replaceEach (by decide) s)

theorem name_of_translated {p : FormalParameter} (h : translateFormalSpec p.text = p.translated)
    (htype : p.type.isSome) {q : Passing} {w : JsString} (hw : w ∈ q.spellings) : ¬ w <:+ p.name := by
  intro hend
  obtain ⟨t, ht⟩ := Option.isSome_iff_exists.mp htype
  have hdeclaration : 0 < marks (keywordsOut p.declaration) := by
    rw [FormalParameter.declaration, ht]
    obtain ⟨r, hr⟩ := mark_mem_keywordsOut p.name_clean hw hend (t.as ++ space :: t.className)
    have hpos := List.count_pos_iff.mpr hr
    cases r with
    | output => exact Nat.add_pos_left hpos _
    | byRef => exact Nat.add_pos_right _ hpos
  have hmarks := marks_le (keywordsOut p.text)
  rw [← translateFormalSpec_eq, h, FormalParameter.translated, ht] at hmarks
  have hspaced := unspaced_of_translated h
  have hnone : marks (p.name ++ colon :: t.className) = 0 := by
    have hclass : marks (colon :: t.className) = marks t.className := by
      rw [marks, marks, List.count_cons_of_ne (by decide), List.count_cons_of_ne (by decide)]
    rw [marks_append, hclass, p.name_clean.marks, t.className_clean.marks]
  cases hk : p.keyword with
  | none =>
    simp only [FormalParameter.text, hspaced, hk, Bool.false_eq_true, if_false, Option.map_none,
      Option.map_some, Option.getD_none, Option.getD_some, List.nil_append] at hmarks
    omega
  | some k =>
    simp only [FormalParameter.text, hspaced, hk, Bool.false_eq_true, if_false, Option.map_some,
      Option.getD_some, List.nil_append, List.append_assoc, List.cons_append,
      keywordsOut_keyword k (spelled_of_translated h hk), marks_mark] at hmarks
    omega

theorem translate_iff (p : FormalParameter) : translateFormalSpec p.text = p.translated ↔ p.Plain :=
  ⟨fun h => ⟨unspaced_of_translated h, fun _ hk => spelled_of_translated h hk,
    fun htype _ _ hw => name_of_translated h htype hw⟩, translate_plain⟩

theorem FormalParameter.text_comma (p : FormalParameter) : comma ∉ p.text := by
  rw [text, declaration]
  have hname : comma ∉ p.name := p.name_clean.notMem (by decide)
  have hspaced : comma ∉ if p.spaced then [space] else [] := by split_ifs <;> decide
  have hkeyword : comma ∉ (p.keyword.map fun k => k.text ++ [space]).getD [] := by
    cases p.keyword with
    | none => exact List.not_mem_nil
    | some k =>
      have hk : comma ∉ k.text := k.text_clean.notMem (by decide)
      simp [hk, show comma ≠ space by decide]
  have htype : comma ∉ (p.type.map Typing.text).getD [] := by
    cases p.type with
    | none => exact List.not_mem_nil
    | some t =>
      have has : comma ∉ t.as := t.as_clean.notMem (by decide)
      have hclass : comma ∉ t.className := t.className_clean.notMem (by decide)
      simp [Typing.text, has, hclass, show comma ≠ space by decide]
  simp only [List.mem_append, not_or]
  exact ⟨⟨hspaced, hkeyword⟩, hname, htype⟩

theorem FormalParameter.translated_comma (p : FormalParameter) : comma ∉ p.translated := by
  rw [translated]
  have hname : comma ∉ p.name := p.name_clean.notMem (by decide)
  have hkeyword : comma ∉ (p.keyword.map fun k => [k.passing.mark]).getD [] := by
    cases p.keyword with
    | none => exact List.not_mem_nil
    | some k => rw [Option.map_some, Option.getD_some]; cases k.passing <;> decide
  have htype : comma ∉ (p.type.map fun t => colon :: t.className).getD [] := by
    cases p.type with
    | none => exact List.not_mem_nil
    | some t =>
      have hclass : comma ∉ t.className := t.className_clean.notMem (by decide)
      simp [hclass, show comma ≠ colon by decide]
  simp only [List.mem_append, not_or]
  exact ⟨⟨hkeyword, hname⟩, htype⟩

theorem translateFormalSpec_comma {s : JsString} (hs : comma ∉ s) : comma ∉ translateFormalSpec s := by
  rw [translateFormalSpec_eq, keywordsOut]
  exact notMem_replaceEach (by decide) (notMem_replaceEach (by decide)
    (notMem_replaceEach (by decide) hs (by decide)) (by decide)) (by decide)

theorem translateFormalSpec_formalSpec (ps : List FormalParameter) : translateFormalSpec (formalSpec ps) =
    [comma].intercalate (ps.map fun p => translateFormalSpec p.text) := by
  rw [translateFormalSpec_eq, keywordsOut, formalSpec, replaceEach_intercalate (by decide),
    replaceEach_intercalate (by decide), replaceEach_intercalate (by decide), List.map_map, List.map_map,
    List.map_map]
  simp only [Function.comp_def, translateFormalSpec_eq, keywordsOut]

/-- The parameters are translated when they are plain, and only then. -/
theorem formalSpec_translated_iff (ps : List FormalParameter) :
    translateFormalSpec (formalSpec ps) = translatedSpec ps ↔ ∀ p ∈ ps, p.Plain := by
  rw [translateFormalSpec_formalSpec, translatedSpec]
  have heach : (ps.map fun p => translateFormalSpec p.text) = ps.map FormalParameter.translated ↔
      ∀ p ∈ ps, p.Plain := by
    rw [List.map_inj_left]
    exact forall₂_congr fun p _ => translate_iff p
  rw [← heach]
  constructor
  · intro h
    by_cases hps : ps = []
    · rw [hps]
      rfl
    · have hfrom : ∀ s ∈ ps.map fun p => translateFormalSpec p.text, comma ∉ s :=
        List.forall_mem_map.mpr fun p _ => translateFormalSpec_comma p.text_comma
      have hto : ∀ s ∈ ps.map FormalParameter.translated, comma ∉ s :=
        List.forall_mem_map.mpr fun p _ => p.translated_comma
      have hne : ∀ f : FormalParameter → JsString, ps.map f ≠ [] := fun f => mt List.map_eq_nil_iff.mp hps
      have hsplit := congrArg (List.splitOn comma) h
      rwa [List.splitOn_intercalate comma hfrom (hne _), List.splitOn_intercalate comma hto (hne _)] at hsplit
  · exact fun h => congrArg _ h

def myoutput : FormalParameter where
  spaced := false
  keyword := none
  name := js "myoutput"
  name_ne := by decide
  name_units := by decide
  type := some ⟨js "As", by decide, js "%String", by decide⟩

theorem formalSpec_myoutput :
    ¬ ∀ ps, translateFormalSpec (formalSpec ps) = translatedSpec ps :=
  fun h => absurd (h [myoutput]) (by decide)

end GlobalsJs.Noble
