import GlobalsJs.Ecma.JsonParse
import GlobalsJs.Ecma.Utf8

/-!
# Text with replaced characters is still JSON

Units beyond ASCII occur in the strings of a JSON text only. When such a unit is replaced by
others of the kind, the text is read as before, as a value with other strings in it.
-/

namespace Ecma.Json

/-- Some of the units beyond ASCII have been replaced by one or more others. -/
inductive Blurred : JsString → JsString → Prop
  | nil : Blurred [] []
  | keep (c : CodeUnit) {s t : JsString} : Blurred s t → Blurred (c :: s) (c :: t)
  | blur {c : CodeUnit} {vs s t : JsString} : 128 ≤ c → vs ≠ [] → (∀ v ∈ vs, 128 ≤ v) → Blurred s t →
      Blurred (c :: s) (vs ++ t)

theorem Blurred.ascii {c : CodeUnit} {s t : JsString} (h : Blurred (c :: s) t) (hc : c < 128) :
    ∃ t', t = c :: t' ∧ Blurred s t' := by
  cases h with
  | keep _ h => exact ⟨_, rfl, h⟩
  | blur hle => exact absurd hc (UInt16.not_lt.mpr hle)

theorem Blurred.length_le {s t : JsString} (h : Blurred s t) : s.length ≤ t.length := by
  induction h with
  | nil => exact le_rfl
  | keep c _ ih => exact Nat.succ_le_succ ih
  | blur _ hvs _ _ ih =>
    have hpos := List.length_pos_of_ne_nil hvs
    rw [List.length_cons, List.length_append]
    omega

theorem ne_of_high {c d : CodeUnit} (hc : 128 ≤ c) (hd : d < 128) : c ≠ d := by
  rintro rfl
  exact UInt16.not_lt.mpr hc hd

theorem isSpace_high {c : CodeUnit} (hc : 128 ≤ c) : isSpace c = false := by
  simp [isSpace, ne_of_high hc (show space < 128 by decide), ne_of_high hc (show tab < 128 by decide),
    ne_of_high hc (show newline < 128 by decide), ne_of_high hc (show carriage < 128 by decide)]

theorem isDigit_high {c : CodeUnit} (hc : 128 ≤ c) : isDigit c = false := by
  rw [isDigit, Bool.and_eq_false_iff]
  refine .inr (decide_eq_false fun h => ?_)
  have : (128 : CodeUnit) ≤ nine := UInt16.le_trans hc h
  revert this
  decide

theorem isNumeralUnit_high {c : CodeUnit} (hc : 128 ≤ c) : isNumeralUnit c = false := by
  simp [isNumeralUnit, isDigit_high hc, ne_of_high hc (show minus < 128 by decide),
    ne_of_high hc (show plus < 128 by decide), ne_of_high hc (show dot < 128 by decide),
    ne_of_high hc (show (101 : CodeUnit) < 128 by decide), ne_of_high hc (show (69 : CodeUnit) < 128 by decide)]

theorem hexValue_high {c : CodeUnit} (hc : 128 ≤ c) : hexValue c = none := by
  have hle : ∀ d : CodeUnit, d < 128 → ¬ c ≤ d := fun d hd h =>
    UInt16.not_lt.mpr (UInt16.le_trans hc h) hd
  rw [hexValue, if_neg (by rw [isDigit_high hc]; decide), if_neg fun h => hle 102 (by decide) h.2,
    if_neg fun h => hle 70 (by decide) h.2]

theorem simpleEscape_high {c : CodeUnit} (hc : 128 ≤ c) : simpleEscape c = none := by
  simp [simpleEscape, ne_of_high hc (show quote < 128 by decide), ne_of_high hc (show backslash < 128 by decide),
    ne_of_high hc (show slash < 128 by decide), ne_of_high hc (show (98 : CodeUnit) < 128 by decide),
    ne_of_high hc (show (102 : CodeUnit) < 128 by decide), ne_of_high hc (show (110 : CodeUnit) < 128 by decide),
    ne_of_high hc (show (114 : CodeUnit) < 128 by decide), ne_of_high hc (show (116 : CodeUnit) < 128 by decide)]

theorem Blurred.skipSpace_cons {s t : JsString} (h : Blurred s t) {c : CodeUnit} {r : JsString}
    (hs : skipSpace s = c :: r) (hc : c < 128) : ∃ r', skipSpace t = c :: r' ∧ Blurred r r' := by
  induction h with
  | nil => cases hs
  | @keep d s t h ih =>
    by_cases hd : isSpace d = true
    · rw [skipSpace, List.dropWhile_cons_of_pos hd] at hs ⊢
      exact ih hs
    · rw [skipSpace, List.dropWhile_cons_of_neg hd] at hs ⊢
      obtain ⟨rfl, rfl⟩ := List.cons.inj hs
      exact ⟨t, rfl, h⟩
  | blur hle =>
    rw [Json.skipSpace_cons (isSpace_high hle)] at hs
    obtain ⟨rfl, -⟩ := List.cons.inj hs
    exact absurd hc (UInt16.not_lt.mpr hle)

theorem Blurred.skipSpace_nil {s t : JsString} (h : Blurred s t) (hs : skipSpace s = []) : skipSpace t = [] := by
  induction h with
  | nil => rfl
  | @keep d s t h ih =>
    by_cases hd : isSpace d = true
    · rw [skipSpace, List.dropWhile_cons_of_pos hd] at hs ⊢
      exact ih hs
    · rw [skipSpace, List.dropWhile_cons_of_neg hd] at hs
      cases hs
  | blur hle =>
    rw [Json.skipSpace_cons (isSpace_high hle)] at hs
    cases hs

theorem parseBody_high {vs : JsString} (hvs : ∀ v ∈ vs, 128 ≤ v) (t : JsString) :
    parseBody (vs ++ t) = (parseBody t).map fun r => (vs ++ r.1, r.2) := by
  induction vs with
  | nil => simp
  | cons v vs ih =>
    have hv := hvs v List.mem_cons_self
    have hcontrol : ¬ v < 32 := UInt16.not_lt.mpr (UInt16.le_trans (by decide) hv)
    rw [List.cons_append, parseBody_plain (ne_of_high hv (by decide)) (ne_of_high hv (by decide)) hcontrol,
      ih fun w hw => hvs w (List.mem_cons_of_mem v hw), Option.map_map]
    rfl

theorem ascii_of_simpleEscape {c x : CodeUnit} (h : simpleEscape c = some x) : c < 128 := by
  by_contra hc
  rw [simpleEscape_high (UInt16.not_lt.mp hc)] at h
  cases h

theorem ascii_of_hexUnit {a b c d x : CodeUnit} (h : hexUnit a b c d = some x) :
    a < 128 ∧ b < 128 ∧ c < 128 ∧ d < 128 := by
  have hex : ∀ {e : CodeUnit} {n : ℕ}, hexValue e = some n → e < 128 := by
    intro e n he
    by_contra hlt
    rw [hexValue_high (UInt16.not_lt.mp hlt)] at he
    cases he
  unfold hexUnit at h
  cases ha : hexValue a with
  | none => simp [ha] at h
  | some _ =>
    cases hb : hexValue b with
    | none => simp [ha, hb] at h
    | some _ =>
      cases hc : hexValue c with
      | none => simp [ha, hb, hc] at h
      | some _ =>
        cases hd : hexValue d with
        | none => simp [ha, hb, hc, hd] at h
        | some _ => exact ⟨hex ha, hex hb, hex hc, hex hd⟩

theorem Blurred.parseBody {s t k r : JsString} (hs : parseBody s = some (k, r)) (h : Blurred s t) :
    ∃ k' r', Json.parseBody t = some (k', r') ∧ Blurred r r' := by
  fun_induction Json.parseBody s generalizing t k r with
  | case2 s =>
    obtain ⟨rfl, rfl⟩ : [] = k ∧ s = r := by simpa using hs
    obtain ⟨t', rfl, ht⟩ := h.ascii (by decide)
    exact ⟨[], t', parseBody_quote t', ht⟩
  | case4 a b c d s x hx hq ih =>
    obtain ⟨⟨k', r'⟩, hbody, heq⟩ := Option.map_eq_some_iff.mp hs
    obtain ⟨rfl, rfl⟩ := Prod.mk.inj heq
    obtain ⟨ha, hb, hc, hd⟩ := ascii_of_hexUnit hx
    obtain ⟨_, rfl, h₁⟩ := h.ascii (by decide)
    obtain ⟨_, rfl, h₂⟩ := h₁.ascii (by decide)
    obtain ⟨_, rfl, h₃⟩ := h₂.ascii ha
    obtain ⟨_, rfl, h₄⟩ := h₃.ascii hb
    obtain ⟨_, rfl, h₅⟩ := h₄.ascii hc
    obtain ⟨_, rfl, h₆⟩ := h₅.ascii hd
    obtain ⟨k₂, r₂, hk₂, hr₂⟩ := ih hbody h₆
    exact ⟨_, r₂, by rw [parseBody_unicode hx, hk₂]; rfl, hr₂⟩
  | case7 e s he x hx hq ih =>
    obtain ⟨⟨k', r'⟩, hbody, heq⟩ := Option.map_eq_some_iff.mp hs
    obtain ⟨rfl, rfl⟩ := Prod.mk.inj heq
    obtain ⟨_, rfl, h₁⟩ := h.ascii (by decide)
    obtain ⟨_, rfl, h₂⟩ := h₁.ascii (ascii_of_simpleEscape hx)
    obtain ⟨k₂, r₂, hk₂, hr₂⟩ := ih hbody h₂
    exact ⟨_, r₂, by rw [parseBody_escape he hx, hk₂]; rfl, hr₂⟩
  | case10 c s hq hb hc ih =>
    obtain ⟨⟨k', r'⟩, hbody, heq⟩ := Option.map_eq_some_iff.mp hs
    obtain ⟨rfl, rfl⟩ := Prod.mk.inj heq
    cases h with
    | keep _ h =>
      obtain ⟨k₂, r₂, hk₂, hr₂⟩ := ih hbody h
      exact ⟨_, r₂, by rw [parseBody_plain hq hb hc, hk₂]; rfl, hr₂⟩
    | blur hle hne hvs h =>
      obtain ⟨k₂, r₂, hk₂, hr₂⟩ := ih hbody h
      exact ⟨_, r₂, by rw [parseBody_high hvs, hk₂]; rfl, hr₂⟩
  | case1 | case3 | case5 | case6 | case8 | case9 => cases hs

theorem Blurred.expect {w s t r : JsString} {v u : Json} (hw : ∀ c ∈ w, c < 128)
    (hs : expect w v s = some (u, r)) (h : Blurred s t) :
    ∃ r', Json.expect w v t = some (u, r') ∧ Blurred r r' := by
  have hword : ∀ {w s t : JsString}, (∀ c ∈ w, c < 128) → w <+: s → Blurred s t →
      w <+: t ∧ Blurred (s.drop w.length) (t.drop w.length) := by
    intro w
    induction w with
    | nil => exact fun _ _ h => ⟨List.nil_prefix, h⟩
    | cons c w ih =>
      rintro _ t hw ⟨x, rfl⟩ h
      obtain ⟨t', rfl, ht⟩ := Blurred.ascii h (hw c List.mem_cons_self)
      obtain ⟨hpre, hdrop⟩ := ih (fun d hd => hw d (List.mem_cons_of_mem c hd)) (List.prefix_append w x) ht
      exact ⟨List.cons_prefix_cons.mpr ⟨rfl, hpre⟩, hdrop⟩
  unfold Json.expect at hs ⊢
  split_ifs at hs with hpre
  obtain ⟨rfl, rfl⟩ := Prod.mk.inj (Option.some.inj hs)
  obtain ⟨hpre', hdrop⟩ := hword hw (List.isPrefixOf_iff_prefix.mp hpre) h
  exact ⟨_, if_pos (List.isPrefixOf_iff_prefix.mpr hpre'), hdrop⟩

theorem Blurred.numeral {s t : JsString} (h : Blurred s t) :
    t.takeWhile isNumeralUnit = s.takeWhile isNumeralUnit ∧
      Blurred (s.dropWhile isNumeralUnit) (t.dropWhile isNumeralUnit) := by
  induction h with
  | nil => exact ⟨rfl, .nil⟩
  | @keep c s t h ih =>
    by_cases hc : isNumeralUnit c = true
    · simpa [List.takeWhile_cons, List.dropWhile_cons, hc] using ih
    · simpa [List.takeWhile_cons, List.dropWhile_cons, hc] using h.keep c
  | @blur c vs s t hle hne hvs h _ =>
    obtain ⟨v, vs, rfl⟩ := List.exists_cons_of_ne_nil hne
    have hc := isNumeralUnit_high hle
    have hv := isNumeralUnit_high (hvs v List.mem_cons_self)
    simpa [List.takeWhile_cons, List.dropWhile_cons, hc, hv] using Blurred.blur hle hne hvs h

theorem Blurred.parseNumber {s t r : JsString} {v : Json} (hs : parseNumber s = some (v, r)) (h : Blurred s t) :
    ∃ r', Json.parseNumber t = some (v, r') ∧ Blurred r r' := by
  obtain ⟨htake, hdrop⟩ := h.numeral
  unfold Json.parseNumber at hs ⊢
  dsimp only at hs ⊢
  split_ifs at hs with hnum
  obtain ⟨rfl, rfl⟩ := Prod.mk.inj (Option.some.inj hs)
  simp only [htake, hnum, dite_true]
  exact ⟨_, rfl, hdrop⟩

structure Survives (n : ℕ) : Prop where
  value : ∀ {s t r v}, parseValue n s = some (v, r) → Blurred s t →
    ∃ v' r', parseValue n t = some (v', r') ∧ Blurred r r'
  members : ∀ {s t r ps}, parseMembers n s = some (ps, r) → Blurred s t →
    ∃ ps' r', parseMembers n t = some (ps', r') ∧ Blurred r r'
  elems : ∀ {s t r xs}, parseElems n s = some (xs, r) → Blurred s t →
    ∃ xs' r', parseElems n t = some (xs', r') ∧ Blurred r r'

theorem ascii_of_numeral {c : CodeUnit} {s r : JsString} {v : Json}
    (h : Json.parseNumber (c :: s) = some (v, r)) : c < 128 := by
  by_contra hc
  have hc := isNumeralUnit_high (UInt16.not_lt.mp hc)
  unfold Json.parseNumber at h
  simp only [List.takeWhile_cons, hc] at h
  cases h

theorem ascii_of_parseValue {n : ℕ} {s r x : JsString} {c : CodeUnit} {v : Json}
    (h : parseValue n s = some (v, r)) (hs : skipSpace s = c :: x) : c < 128 := by
  cases n with
  | zero => cases h
  | succ n =>
    rw [parseValue, hs] at h
    dsimp only at h
    split_ifs at h with hq hb hl ht hf hn
    · rw [hq]; decide
    · rw [hb]; decide
    · rw [hl]; decide
    · rw [ht]; decide
    · rw [hf]; decide
    · rw [hn]; decide
    · exact ascii_of_numeral h

theorem ascii_of_parseMembers {n : ℕ} {s r x : JsString} {c : CodeUnit} {ps : Props}
    (h : parseMembers n s = some (ps, r)) (hs : skipSpace s = c :: x) : c < 128 := by
  cases n with
  | zero => cases h
  | succ n =>
    rw [parseMembers, hs] at h
    dsimp only at h
    split_ifs at h with hq
    rw [hq]
    decide

theorem ascii_of_parseElems {n : ℕ} {s r x : JsString} {c : CodeUnit} {xs : List Json}
    (h : parseElems n s = some (xs, r)) (hs : skipSpace s = c :: x) : c < 128 := by
  cases n with
  | zero => cases h
  | succ n =>
    rw [parseElems] at h
    cases hv : parseValue n s with
    | none =>
      rw [hv] at h
      cases h
    | some vr => exact ascii_of_parseValue (r := vr.2) (v := vr.1) hv hs

theorem Survives.value_succ {n : ℕ} (ih : Survives n) {s t r : JsString} {v : Json}
    (hs : parseValue (n + 1) s = some (v, r)) (h : Blurred s t) :
    ∃ v' r', parseValue (n + 1) t = some (v', r') ∧ Blurred r r' := by
  cases hskip : skipSpace s with
  | nil =>
    rw [parseValue, hskip] at hs
    cases hs
  | cons c x =>
    have hc := ascii_of_parseValue hs hskip
    obtain ⟨y, ht, hxy⟩ := h.skipSpace_cons hskip hc
    rw [parseValue, hskip] at hs
    rw [parseValue, ht]
    dsimp only at hs ⊢
    split_ifs at hs ⊢ with hq hb hl ht hf hn
    · obtain ⟨⟨k, r'⟩, hbody, heq⟩ := Option.map_eq_some_iff.mp hs
      obtain ⟨-, rfl⟩ := Prod.mk.inj heq
      obtain ⟨k', r'', hbody', hr⟩ := Blurred.parseBody hbody hxy
      exact ⟨_, r'', by rw [hbody']; rfl, hr⟩
    · cases hx : skipSpace x with
      | nil =>
        rw [hx] at hs
        cases hs
      | cons d x' =>
        rw [hx] at hs
        dsimp only at hs
        split_ifs at hs with hd
        · obtain ⟨-, rfl⟩ := Prod.mk.inj (Option.some.inj hs)
          obtain ⟨y', hy, hr⟩ := hxy.skipSpace_cons hx (by rw [hd]; decide)
          exact ⟨_, y', by rw [hy]; exact if_pos hd, hr⟩
        · obtain ⟨⟨ms, r'⟩, hm, heq⟩ := Option.map_eq_some_iff.mp hs
          obtain ⟨-, rfl⟩ := Prod.mk.inj heq
          obtain ⟨y', hy, -⟩ := hxy.skipSpace_cons hx (ascii_of_parseMembers hm hx)
          obtain ⟨ms', r'', hm', hr⟩ := ih.members hm hxy
          refine ⟨.obj (build ms'), r'', ?_, hr⟩
          rw [hy]
          dsimp only
          rw [if_neg hd, hm']
          rfl
    · cases hx : skipSpace x with
      | nil =>
        rw [hx] at hs
        cases hs
      | cons d x' =>
        rw [hx] at hs
        dsimp only at hs
        split_ifs at hs with hd
        · obtain ⟨-, rfl⟩ := Prod.mk.inj (Option.some.inj hs)
          obtain ⟨y', hy, hr⟩ := hxy.skipSpace_cons hx (by rw [hd]; decide)
          exact ⟨_, y', by rw [hy]; exact if_pos hd, hr⟩
        · obtain ⟨⟨ms, r'⟩, hm, heq⟩ := Option.map_eq_some_iff.mp hs
          obtain ⟨-, rfl⟩ := Prod.mk.inj heq
          obtain ⟨y', hy, -⟩ := hxy.skipSpace_cons hx (ascii_of_parseElems hm hx)
          obtain ⟨ms', r'', hm', hr⟩ := ih.elems hm hxy
          refine ⟨.arr ms', r'', ?_, hr⟩
          rw [hy]
          dsimp only
          rw [if_neg hd, hm']
          rfl
    · obtain ⟨r', hr', hr⟩ := Blurred.expect (forall_mem_of_all (by decide)) hs hxy
      exact ⟨_, r', hr', hr⟩
    · obtain ⟨r', hr', hr⟩ := Blurred.expect (forall_mem_of_all (by decide)) hs hxy
      exact ⟨_, r', hr', hr⟩
    · obtain ⟨r', hr', hr⟩ := Blurred.expect (forall_mem_of_all (by decide)) hs hxy
      exact ⟨_, r', hr', hr⟩
    · obtain ⟨r', hr', hr⟩ := Blurred.parseNumber hs (.keep c hxy)
      exact ⟨_, r', hr', hr⟩

theorem Survives.members_succ {n : ℕ} (ih : Survives n) {s t r : JsString} {ps : Props}
    (hs : parseMembers (n + 1) s = some (ps, r)) (h : Blurred s t) :
    ∃ ps' r', parseMembers (n + 1) t = some (ps', r') ∧ Blurred r r' := by
  cases hskip : skipSpace s with
  | nil =>
    rw [parseMembers, hskip] at hs
    cases hs
  | cons c s₁ =>
    obtain ⟨t₁, ht₁, h₁⟩ := h.skipSpace_cons hskip (ascii_of_parseMembers hs hskip)
    rw [parseMembers, hskip] at hs
    rw [parseMembers, ht₁]
    dsimp only at hs ⊢
    split_ifs at hs ⊢ with hc
    cases hk : Json.parseBody s₁ with
    | none =>
      rw [hk] at hs
      cases hs
    | some ks =>
      obtain ⟨k, s₂⟩ := ks
      obtain ⟨k', t₂, hk', h₂⟩ := Blurred.parseBody hk h₁
      rw [hk] at hs
      rw [hk']
      dsimp only at hs ⊢
      cases hs₂ : skipSpace s₂ with
      | nil =>
        rw [hs₂] at hs
        cases hs
      | cons d s₃ =>
        rw [hs₂] at hs
        dsimp only at hs
        split_ifs at hs with hd
        obtain ⟨t₃, ht₃, h₃⟩ := h₂.skipSpace_cons hs₂ (by rw [hd]; decide)
        rw [ht₃]
        dsimp only
        rw [if_pos hd]
        cases hv : parseValue n s₃ with
        | none =>
          rw [hv] at hs
          cases hs
        | some vs =>
          obtain ⟨v, s₄⟩ := vs
          obtain ⟨v', t₄, hv', h₄⟩ := ih.value hv h₃
          rw [hv] at hs
          rw [hv']
          dsimp only at hs ⊢
          cases hs₄ : skipSpace s₄ with
          | nil =>
            rw [hs₄] at hs
            cases hs
          | cons e s₅ =>
            rw [hs₄] at hs
            dsimp only at hs
            split_ifs at hs with hcomma hbrace
            · obtain ⟨t₅, ht₅, h₅⟩ := h₄.skipSpace_cons hs₄ (by rw [hcomma]; decide)
              obtain ⟨⟨ms, r'⟩, hm, heq⟩ := Option.map_eq_some_iff.mp hs
              obtain ⟨-, rfl⟩ := Prod.mk.inj heq
              obtain ⟨ms', r'', hm', hr⟩ := ih.members hm h₅
              refine ⟨(k', v') :: ms', r'', ?_, hr⟩
              rw [ht₅]
              dsimp only
              rw [if_pos hcomma, hm']
              rfl
            · obtain ⟨t₅, ht₅, h₅⟩ := h₄.skipSpace_cons hs₄ (by rw [hbrace]; decide)
              obtain ⟨-, rfl⟩ := Prod.mk.inj (Option.some.inj hs)
              refine ⟨[(k', v')], t₅, ?_, h₅⟩
              rw [ht₅]
              dsimp only
              rw [if_neg hcomma, if_pos hbrace]

theorem Survives.elems_succ {n : ℕ} (ih : Survives n) {s t r : JsString} {xs : List Json}
    (hs : parseElems (n + 1) s = some (xs, r)) (h : Blurred s t) :
    ∃ xs' r', parseElems (n + 1) t = some (xs', r') ∧ Blurred r r' := by
  rw [parseElems] at hs ⊢
  cases hv : parseValue n s with
  | none =>
    rw [hv] at hs
    cases hs
  | some vs =>
    obtain ⟨v, s₁⟩ := vs
    obtain ⟨v', t₁, hv', h₁⟩ := ih.value hv h
    rw [hv] at hs
    rw [hv']
    dsimp only at hs ⊢
    cases hs₁ : skipSpace s₁ with
    | nil =>
      rw [hs₁] at hs
      cases hs
    | cons e s₂ =>
      rw [hs₁] at hs
      dsimp only at hs
      split_ifs at hs with hcomma hbracket
      · obtain ⟨t₂, ht₂, h₂⟩ := h₁.skipSpace_cons hs₁ (by rw [hcomma]; decide)
        obtain ⟨⟨ms, r'⟩, hm, heq⟩ := Option.map_eq_some_iff.mp hs
        obtain ⟨-, rfl⟩ := Prod.mk.inj heq
        obtain ⟨ms', r'', hm', hr⟩ := ih.elems hm h₂
        refine ⟨v' :: ms', r'', ?_, hr⟩
        rw [ht₂]
        dsimp only
        rw [if_pos hcomma, hm']
        rfl
      · obtain ⟨t₂, ht₂, h₂⟩ := h₁.skipSpace_cons hs₁ (by rw [hbracket]; decide)
        obtain ⟨-, rfl⟩ := Prod.mk.inj (Option.some.inj hs)
        refine ⟨[v'], t₂, ?_, h₂⟩
        rw [ht₂]
        dsimp only
        rw [if_neg hcomma, if_pos hbracket]

theorem survives (n : ℕ) : Survives n := by
  induction n with
  | zero => constructor <;> intro _ _ _ _ hs <;> simp [parseValue, parseMembers, parseElems] at hs
  | succ n ih => exact ⟨ih.value_succ, ih.members_succ, ih.elems_succ⟩

theorem parse_blurred {s t : JsString} {v : Json} (hv : ∀ k, v ≠ .num k) (hs : parse s = some v)
    (h : Blurred s t) : ∃ w, parse t = some w ∧ ∀ k, w ≠ .num k := by
  obtain ⟨r, hvalue, hr⟩ := parse_eq_some.mp hs
  have hidem : ∀ s, skipSpace (skipSpace s) = skipSpace s := fun s => List.dropWhile_idempotent _ _
  cases hx : skipSpace s with
  | nil =>
    rw [hx] at hvalue
    cases hvalue
  | cons c x =>
    have hc := ascii_of_parseValue hvalue ((hidem s).trans hx)
    obtain ⟨y, hy, hxy⟩ := h.skipSpace_cons hx hc
    have hskip : Blurred (skipSpace s) (skipSpace t) := by
      rw [hx, hy]
      exact .keep c hxy
    obtain ⟨w, r', hw, hr'⟩ := (survives _).value hvalue hskip
    have hnum : ∀ k, w ≠ .num k := by
      rintro k rfl
      have hhead := (number_iff_head hw ((hidem t).trans hy)).mp ⟨k, rfl⟩
      obtain ⟨l, hl⟩ := (number_iff_head hvalue ((hidem s).trans hx)).mpr hhead
      exact hv l hl
    have hfuel := (extends_of_le (Nat.succ_le_succ hskip.length_le)).value hw (.inr hnum) []
    rw [List.append_nil, List.append_nil] at hfuel
    exact ⟨w, parse_eq_some.mpr ⟨r', hfuel, hr'.skipSpace_nil hr⟩, hnum⟩

theorem Blurred.eq_of_ascii {s t : JsString} (h : Blurred s t) (hs : ∀ c ∈ s, c < 128) : t = s := by
  induction h with
  | nil => rfl
  | keep c _ ih => rw [ih fun d hd => hs d (List.mem_cons_of_mem c hd)]
  | blur hle => exact absurd (hs _ List.mem_cons_self) (UInt16.not_lt.mpr hle)

theorem Blurred.mem_of_ascii {s t : JsString} (h : Blurred s t) {c : CodeUnit} (hc : c < 128)
    (ht : c ∈ t) : c ∈ s := by
  induction h with
  | nil => exact ht
  | keep d _ ih =>
    rcases List.mem_cons.mp ht with rfl | ht
    · exact List.mem_cons_self
    · exact List.mem_cons_of_mem d (ih ht)
  | blur _ _ hvs _ ih =>
    rcases List.mem_append.mp ht with ht | ht
    · exact absurd hc (UInt16.not_lt.mpr (hvs c ht))
    · exact List.mem_cons_of_mem _ (ih ht)

theorem Blurred.ends {s t : JsString} {c : CodeUnit} (hc : c < 128) (h : Blurred (s ++ [c]) t) :
    t.getLast? = some c := by
  induction s generalizing t with
  | nil =>
    obtain ⟨t', rfl, ht⟩ := h.ascii hc
    cases ht
    rfl
  | cons d s ih =>
    cases h with
    | keep _ h => rw [List.getLast?_cons, ih h, Option.getD_some]
    | blur _ _ _ h => rw [List.getLast?_append, ih h, Option.some_or]

theorem blurred_of_blurs {cs : List Char} {u : JsString} (hbasic : ∀ c ∈ cs, Basic c) (h : Blurs cs u) :
    Blurred (utf16 cs) u := by
  have hreplaced : ∀ n : ℕ, ∀ v ∈ List.replicate n replacement, 128 ≤ v := by
    intro n v hv
    rw [List.eq_of_mem_replicate hv]
    decide
  have hcons : ∀ {c : Char} {cs : List Char}, Basic c → utf16 (c :: cs) = seen c :: utf16 cs := by
    intro c cs hc
    rw [utf16, List.flatMap_cons, units_basic hc]
    rfl
  induction h with
  | nil => exact .nil
  | keep hc _ ih =>
    rw [hcons hc]
    exact .keep _ (ih fun d hd => hbasic d (List.mem_cons_of_mem _ hd))
  | @tear c n cs u hhigh hn _ ih =>
    have hc := hbasic c List.mem_cons_self
    have hle : c.toNat ≤ 0xFFFF := hc
    rw [hcons hc]
    refine .blur ?_ ?_ (hreplaced n) (ih fun d hd => hbasic d (List.mem_cons_of_mem _ hd))
    · rw [seen, if_neg (by omega), UInt16.le_iff_toNat_le]
      simp
      omega
    · intro hnil
      have hlen := congrArg List.length hnil
      rw [List.length_replicate, List.length_nil] at hlen
      omega

end Ecma.Json
