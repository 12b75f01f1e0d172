import GlobalsJs.Ecma.Json
import Mathlib.Data.List.DropRight

/-!
# Reading JSON text

`parse` is `JSON.parse`, with `none` for its exception. Three facts carry every
argument about incremental reading: `parse` undoes `stringify`, a parser that
stopped inside a text stops at the same place when the text goes on, and hence no
proper prefix of an object's text is itself accepted.
-/

namespace Ecma.Json

def isSpace (c : CodeUnit) : Bool := c = space || c = tab || c = newline || c = carriage

def skipSpace (s : JsString) : JsString := s.dropWhile isSpace

def hexValue (c : CodeUnit) : Option ℕ :=
  if isDigit c then some (c.toNat - 48)
  else if 97 ≤ c ∧ c ≤ 102 then some (c.toNat - 87)
  else if 65 ≤ c ∧ c ≤ 70 then some (c.toNat - 55)
  else none

def simpleEscape (c : CodeUnit) : Option CodeUnit :=
  if c = quote ∨ c = backslash ∨ c = slash then some c
  else if c = 98 then some 8
  else if c = 102 then some 12
  else if c = 110 then some newline
  else if c = 114 then some carriage
  else if c = 116 then some tab
  else none

def hexUnit (a b c d : CodeUnit) : Option CodeUnit :=
  match hexValue a, hexValue b, hexValue c, hexValue d with
  | some a, some b, some c, some d => some (a * 4096 + b * 256 + c * 16 + d).toUInt16
  | _, _, _, _ => none

def parseBody : JsString → Option (JsString × JsString)
  | [] => none
  | c :: s =>
    if c = quote then some ([], s)
    else if c = backslash then
      match s with
      | [] => none
      | e :: s =>
        if e = 117 then
          match s with
          | a :: b :: c :: d :: s =>
            match hexUnit a b c d with
            | some x => (parseBody s).map fun t => (x :: t.1, t.2)
            | none => none
          | _ => none
        else
          match simpleEscape e with
          | some x => (parseBody s).map fun t => (x :: t.1, t.2)
          | none => none
    else if c < 32 then none
    else (parseBody s).map fun t => (c :: t.1, t.2)

def expect (w : JsString) (v : Json) (s : JsString) : Option (Json × JsString) :=
  if w.isPrefixOf s then some (v, s.drop w.length) else none

def parseNumber (s : JsString) : Option (Json × JsString) :=
  let t := s.takeWhile isNumeralUnit
  if h : isNumeral t then
    some (.num ⟨t, h, List.all_takeWhile⟩, s.dropWhile isNumeralUnit)
  else none

mutual
/-- The fuel bounds the number of nested calls; `parse` supplies enough of it. -/
def parseValue : ℕ → JsString → Option (Json × JsString)
  | 0, _ => none
  | n + 1, s =>
    match skipSpace s with
    | [] => none
    | c :: r =>
      if c = quote then (parseBody r).map fun t => (.str t.1, t.2)
      else if c = lbrace then
        match skipSpace r with
        | [] => none
        | d :: r' =>
          if d = rbrace then some (.obj [], r')
          else (parseMembers n r).map fun t => (.obj (build t.1), t.2)
      else if c = lbracket then
        match skipSpace r with
        | [] => none
        | d :: r' =>
          if d = rbracket then some (.arr [], r')
          else (parseElems n r).map fun t => (.arr t.1, t.2)
      else if c = 116 then expect (js "rue") (.bool true) r
      else if c = 102 then expect (js "alse") (.bool false) r
      else if c = 110 then expect (js "ull") .null r
      else parseNumber (c :: r)

def parseMembers : ℕ → JsString → Option (Props × JsString)
  | 0, _ => none
  | n + 1, s =>
    match skipSpace s with
    | [] => none
    | c :: r =>
      if c = quote then
        match parseBody r with
        | none => none
        | some (k, r) =>
          match skipSpace r with
          | [] => none
          | d :: r =>
            if d = colon then
              match parseValue n r with
              | none => none
              | some (v, r) =>
                match skipSpace r with
                | [] => none
                | e :: r =>
                  if e = comma then (parseMembers n r).map fun t => ((k, v) :: t.1, t.2)
                  else if e = rbrace then some ([(k, v)], r)
                  else none
            else none
      else none

def parseElems : ℕ → JsString → Option (List Json × JsString)
  | 0, _ => none
  | n + 1, s =>
    match parseValue n s with
    | none => none
    | some (v, r) =>
      match skipSpace r with
      | [] => none
      | e :: r =>
        if e = comma then (parseElems n r).map fun t => (v :: t.1, t.2)
        else if e = rbracket then some ([v], r)
        else none
end

def parse (s : JsString) : Option Json :=
  match parseValue ((skipSpace s).length + 1) (skipSpace s) with
  | some (v, r) => if skipSpace r = [] then some v else none
  | none => none

theorem skipSpace_append {p : JsString} {c : CodeUnit} {r : JsString}
    (h : skipSpace p = c :: r) (q : JsString) : skipSpace (p ++ q) = c :: (r ++ q) := by
  have hne : (p.dropWhile isSpace).isEmpty = false := by rw [show p.dropWhile isSpace = c :: r from h]; rfl
  unfold skipSpace at h ⊢
  rw [List.dropWhile_append, hne, h]
  rfl

@[simp] theorem parseBody_quote (s : JsString) : parseBody (quote :: s) = some ([], s) := by
  rw [parseBody.eq_def]; rfl

theorem parseBody_unicode {a b c d x : CodeUnit} (h : hexUnit a b c d = some x) (s : JsString) :
    parseBody (backslash :: 117 :: a :: b :: c :: d :: s) =
      (parseBody s).map fun t => (x :: t.1, t.2) := by
  rw [parseBody.eq_def]
  simp [h, show backslash ≠ quote by decide]

theorem parseBody_escape {e x : CodeUnit} (he : e ≠ 117) (h : simpleEscape e = some x)
    (s : JsString) :
    parseBody (backslash :: e :: s) = (parseBody s).map fun t => (x :: t.1, t.2) := by
  rw [parseBody.eq_def]
  simp [he, h, show backslash ≠ quote by decide]

theorem parseBody_plain {c : CodeUnit} (hq : c ≠ quote) (hb : c ≠ backslash) (hc : ¬ c < 32)
    (s : JsString) : parseBody (c :: s) = (parseBody s).map fun t => (c :: t.1, t.2) := by
  rw [parseBody.eq_def]
  simp only [hq, hb, hc, if_false]

theorem parseBody_append {p t r : JsString} (h : parseBody p = some (t, r)) (q : JsString) :
    parseBody (p ++ q) = some (t, r ++ q) := by
  fun_induction parseBody p generalizing t with
  | case2 s =>
    obtain ⟨rfl, rfl⟩ : [] = t ∧ s = r := by simpa using h
    exact parseBody_quote _
  | case4 a b c d s x hx hq ih =>
    obtain ⟨⟨t, r⟩, hs, ht⟩ := Option.map_eq_some_iff.mp h
    obtain ⟨rfl, rfl⟩ := Prod.mk.inj ht
    simpa [ih hs] using parseBody_unicode hx (s ++ q)
  | case7 e s he x hx hq ih =>
    obtain ⟨⟨t, r⟩, hs, ht⟩ := Option.map_eq_some_iff.mp h
    obtain ⟨rfl, rfl⟩ := Prod.mk.inj ht
    simpa [ih hs] using parseBody_escape he hx (s ++ q)
  | case10 c s hq hb hc ih =>
    obtain ⟨⟨t, r⟩, hs, ht⟩ := Option.map_eq_some_iff.mp h
    obtain ⟨rfl, rfl⟩ := Prod.mk.inj ht
    simpa [ih hs] using parseBody_plain hq hb hc (s ++ q)
  | case1 | case3 | case5 | case6 | case8 | case9 => cases h

theorem expect_append {w p r : JsString} {v u : Json} (h : expect w v p = some (u, r))
    (q : JsString) : expect w v (p ++ q) = some (u, r ++ q) := by
  unfold expect at h ⊢
  split_ifs at h with hw
  obtain ⟨s, rfl⟩ := List.isPrefixOf_iff_prefix.mp hw
  obtain ⟨rfl, rfl⟩ : v = u ∧ s = r := by simpa using h
  simp

theorem parseNumber_append {p r : JsString} {v : Json} (h : parseNumber p = some (v, r))
    (hr : r ≠ []) (q : JsString) : parseNumber (p ++ q) = some (v, r ++ q) := by
  unfold parseNumber at h ⊢
  dsimp only at h ⊢
  split_ifs at h with ht
  obtain ⟨rfl, rfl⟩ := Prod.mk.inj (Option.some.inj h)
  have htake : (p ++ q).takeWhile isNumeralUnit = p.takeWhile isNumeralUnit := by
    rw [List.takeWhile_append]
    have : (p.takeWhile isNumeralUnit).length ≠ p.length := by
      intro hlen
      have := congrArg List.length (List.takeWhile_append_dropWhile (p := isNumeralUnit) (l := p))
      simp only [List.length_append, hlen] at this
      exact hr (List.eq_nil_of_length_eq_zero (by omega))
    rw [if_neg this]
  have hdrop : (p ++ q).dropWhile isNumeralUnit = p.dropWhile isNumeralUnit ++ q := by
    rw [List.dropWhile_append]
    simp [hr]
  simp only [htake, hdrop, ht, dite_true]

/-- The statements proved together by induction on the fuel `n`. -/
structure Extends (n m : ℕ) : Prop where
  value : ∀ {p v r}, parseValue n p = some (v, r) → (r ≠ [] ∨ ∀ k, v ≠ .num k) →
    ∀ q, parseValue m (p ++ q) = some (v, r ++ q)
  members : ∀ {p ps r}, parseMembers n p = some (ps, r) →
    ∀ q, parseMembers m (p ++ q) = some (ps, r ++ q)
  elems : ∀ {p xs r}, parseElems n p = some (xs, r) →
    ∀ q, parseElems m (p ++ q) = some (xs, r ++ q)

theorem Extends.value_succ {n m : ℕ} (ih : Extends n m) {p r : JsString} {v : Json}
    (h : parseValue (n + 1) p = some (v, r)) (hv : r ≠ [] ∨ ∀ k, v ≠ .num k) (q : JsString) :
    parseValue (m + 1) (p ++ q) = some (v, r ++ q) := by
  rw [parseValue] at h ⊢
  cases hp : skipSpace p with
  | nil => rw [hp] at h; cases h
  | cons c s =>
    rw [hp] at h
    rw [skipSpace_append hp]
    dsimp only at h ⊢
    split_ifs at h ⊢ with hq hb hl ht hf hn
    · obtain ⟨⟨t, r⟩, hs, ht⟩ := Option.map_eq_some_iff.mp h
      obtain ⟨rfl, rfl⟩ := Prod.mk.inj ht
      simp [parseBody_append hs]
    · cases hs : skipSpace s with
      | nil => rw [hs] at h; cases h
      | cons d s' =>
        rw [hs] at h
        rw [skipSpace_append hs]
        dsimp only at h ⊢
        split_ifs at h ⊢ with hd
        · obtain ⟨rfl, rfl⟩ := Prod.mk.inj (Option.some.inj h); rfl
        · obtain ⟨⟨t, r⟩, hm, ht⟩ := Option.map_eq_some_iff.mp h
          obtain ⟨rfl, rfl⟩ := Prod.mk.inj ht
          simp [ih.members hm]
    · cases hs : skipSpace s with
      | nil => rw [hs] at h; cases h
      | cons d s' =>
        rw [hs] at h
        rw [skipSpace_append hs]
        dsimp only at h ⊢
        split_ifs at h ⊢ with hd
        · obtain ⟨rfl, rfl⟩ := Prod.mk.inj (Option.some.inj h); rfl
        · obtain ⟨⟨t, r⟩, hm, ht⟩ := Option.map_eq_some_iff.mp h
          obtain ⟨rfl, rfl⟩ := Prod.mk.inj ht
          simp [ih.elems hm]
    · exact expect_append h q
    · exact expect_append h q
    · exact expect_append h q
    · -- only here does the end of the value depend on what follows
      rcases hv with hr | hnum
      · exact parseNumber_append h hr q
      · unfold parseNumber at h
        dsimp only at h
        split_ifs at h with hk
        exact absurd (Prod.mk.inj (Option.some.inj h)).1.symm (hnum _)

theorem Extends.members_succ {n m : ℕ} (ih : Extends n m) {p r : JsString} {ps : Props}
    (h : parseMembers (n + 1) p = some (ps, r)) (q : JsString) :
    parseMembers (m + 1) (p ++ q) = some (ps, r ++ q) := by
  rw [parseMembers] at h ⊢
  cases hp : skipSpace p with
  | nil => rw [hp] at h; cases h
  | cons c s =>
    rw [hp] at h
    rw [skipSpace_append hp]
    dsimp only at h ⊢
    split_ifs at h ⊢ with hc
    cases hk : parseBody s with
    | none => rw [hk] at h; cases h
    | some ks =>
      obtain ⟨k, s₁⟩ := ks
      rw [hk] at h
      rw [parseBody_append hk]
      dsimp only at h ⊢
      cases hs₁ : skipSpace s₁ with
      | nil => rw [hs₁] at h; cases h
      | cons d s₂ =>
        rw [hs₁] at h
        rw [skipSpace_append hs₁]
        dsimp only at h ⊢
        split_ifs at h ⊢ with hd
        cases hv : parseValue n s₂ with
        | none => rw [hv] at h; cases h
        | some vs =>
          obtain ⟨v, s₃⟩ := vs
          rw [hv] at h
          dsimp only at h ⊢
          cases hs₃ : skipSpace s₃ with
          | nil => rw [hs₃] at h; cases h
          | cons e s₄ =>
            have hne : s₃ ≠ [] := by rintro rfl; cases hs₃
            rw [hs₃] at h
            rw [ih.value hv (Or.inl hne)]
            dsimp only at h ⊢
            rw [skipSpace_append hs₃]
            dsimp only at h ⊢
            split_ifs at h ⊢ with he₁ he₂
            · obtain ⟨⟨t, r⟩, hm, ht⟩ := Option.map_eq_some_iff.mp h
              obtain ⟨rfl, rfl⟩ := Prod.mk.inj ht
              simp [ih.members hm]
            · obtain ⟨rfl, rfl⟩ := Prod.mk.inj (Option.some.inj h); rfl

theorem Extends.elems_succ {n m : ℕ} (ih : Extends n m) {p r : JsString} {xs : List Json}
    (h : parseElems (n + 1) p = some (xs, r)) (q : JsString) :
    parseElems (m + 1) (p ++ q) = some (xs, r ++ q) := by
  rw [parseElems] at h ⊢
  cases hv : parseValue n p with
  | none => rw [hv] at h; cases h
  | some vs =>
    obtain ⟨v, s⟩ := vs
    rw [hv] at h
    dsimp only at h ⊢
    cases hs : skipSpace s with
    | nil => rw [hs] at h; cases h
    | cons e s' =>
      have hne : s ≠ [] := by rintro rfl; cases hs
      rw [hs] at h
      rw [ih.value hv (Or.inl hne)]
      dsimp only at h ⊢
      rw [skipSpace_append hs]
      dsimp only at h ⊢
      split_ifs at h ⊢ with he₁ he₂
      · obtain ⟨⟨t, r⟩, hm, ht⟩ := Option.map_eq_some_iff.mp h
        obtain ⟨rfl, rfl⟩ := Prod.mk.inj ht
        simp [ih.elems hm]
      · obtain ⟨rfl, rfl⟩ := Prod.mk.inj (Option.some.inj h); rfl

theorem extends_of_le {n m : ℕ} (h : n ≤ m) : Extends n m := by
  induction n generalizing m with
  | zero => constructor <;> intro p _ r hp <;> simp [parseValue, parseMembers, parseElems] at hp
  | succ n ih =>
    obtain ⟨m, rfl⟩ : ∃ k, m = k + 1 := ⟨m - 1, by omega⟩
    have hnm : Extends n m := ih (by omega)
    exact ⟨hnm.value_succ, hnm.members_succ, hnm.elems_succ⟩

theorem skipSpace_cons {c : CodeUnit} (h : isSpace c = false) (s : JsString) :
    skipSpace (c :: s) = c :: s := by
  simp [skipSpace, h]

theorem skipSpace_eq_nil {s : JsString} : skipSpace s = [] ↔ ∀ c ∈ s, isSpace c = true := by
  exact List.dropWhile_eq_nil_iff

theorem parse_space_append {b : JsString} (hb : ∀ c ∈ b, isSpace c = true) (s : JsString) :
    parse (b ++ s) = parse s := by
  have hskip : skipSpace (b ++ s) = skipSpace s := by
    have hnil : b.dropWhile isSpace = [] := skipSpace_eq_nil.mpr hb
    rw [skipSpace, List.dropWhile_append, hnil]
    rfl
  rw [parse, parse, hskip]

@[simp] theorem parse_nil : parse [] = none := rfl

theorem parse_space {b : JsString} (hb : ∀ c ∈ b, isSpace c = true) : parse b = none := by
  have h := parse_space_append hb []
  rwa [List.append_nil, parse_nil] at h

theorem parse_eq_some {s : JsString} {v : Json} : parse s = some v ↔
    ∃ r, parseValue ((skipSpace s).length + 1) (skipSpace s) = some (v, r) ∧ skipSpace r = [] := by
  unfold parse
  cases parseValue ((skipSpace s).length + 1) (skipSpace s) with
  | none => simp
  | some t =>
    obtain ⟨u, r⟩ := t
    dsimp only
    split_ifs with hr
    · simp [hr]
    · simp [hr]

theorem number_iff_head {n : ℕ} {s r x : JsString} {c : CodeUnit} {v : Json}
    (h : parseValue n s = some (v, r)) (hs : skipSpace s = c :: x) : (∃ k, v = .num k) ↔
      c ≠ quote ∧ c ≠ lbrace ∧ c ≠ lbracket ∧ c ≠ 116 ∧ c ≠ 102 ∧ c ≠ 110 := by
  cases n with
  | zero => cases h
  | succ n =>
    rw [parseValue, hs] at h
    dsimp only at h
    split_ifs at h with hq hb hl ht hf hn
    · obtain ⟨t, -, hv⟩ := Option.map_eq_some_iff.mp h
      obtain ⟨rfl, -⟩ := Prod.mk.inj hv
      simp [hq]
    · cases hx : skipSpace x with
      | nil => rw [hx] at h; cases h
      | cons d x' =>
        rw [hx] at h
        dsimp only at h
        split_ifs at h with hd
        · obtain ⟨rfl, -⟩ := Prod.mk.inj (Option.some.inj h)
          simp [hb]
        · obtain ⟨t, -, hv⟩ := Option.map_eq_some_iff.mp h
          obtain ⟨rfl, -⟩ := Prod.mk.inj hv
          simp [hb]
    · cases hx : skipSpace x with
      | nil => rw [hx] at h; cases h
      | cons d x' =>
        rw [hx] at h
        dsimp only at h
        split_ifs at h with hd
        · obtain ⟨rfl, -⟩ := Prod.mk.inj (Option.some.inj h)
          simp [hl]
        · obtain ⟨t, -, hv⟩ := Option.map_eq_some_iff.mp h
          obtain ⟨rfl, -⟩ := Prod.mk.inj hv
          simp [hl]
    all_goals
      simp only [expect, parseNumber] at h
      split_ifs at h
      obtain ⟨rfl, -⟩ := Prod.mk.inj (Option.some.inj h)
      simp [*]

theorem parseValue_append {p q r : JsString} {v : Json} (hv : ∀ k, v ≠ .num k)
    (h : parseValue ((skipSpace p).length + 1) (skipSpace p) = some (v, r)) :
    parseValue ((skipSpace (p ++ q)).length + 1) (skipSpace (p ++ q)) = some (v, r ++ q) := by
  cases hskip : skipSpace p with
  | nil => rw [hskip] at h; cases h
  | cons c t =>
    rw [hskip] at h
    rw [skipSpace_append hskip, ← List.cons_append]
    exact (extends_of_le (by simp)).value h (.inr hv) q

theorem parse_opening {p q : JsString} {v w : Json} (hw : ∀ k, w ≠ .num k) (hp : parse p = some v)
    (hpq : parse (p ++ q) = some w) : v = w ∧ ∀ c ∈ q, isSpace c = true := by
  obtain ⟨r, hv, -⟩ := parse_eq_some.mp hp
  obtain ⟨r', hw', hr'⟩ := parse_eq_some.mp hpq
  have hidem : ∀ s, skipSpace (skipSpace s) = skipSpace s := fun s => List.dropWhile_idempotent _ _
  have hnum : ∀ k, v ≠ .num k := by
    rintro k rfl
    cases hskip : skipSpace p with
    | nil => rw [hskip] at hv; cases hv
    | cons c t =>
      have hhead := (number_iff_head hv ((hidem p).trans hskip)).mp ⟨k, rfl⟩
      obtain ⟨l, hl⟩ := (number_iff_head hw' ((hidem _).trans (skipSpace_append hskip q))).mpr hhead
      exact hw l hl
  rw [parseValue_append hnum hv] at hw'
  obtain ⟨hsame, rfl⟩ := Prod.mk.inj (Option.some.inj hw')
  rw [skipSpace_eq_nil] at hr'
  exact ⟨hsame, fun c hc => hr' c (List.mem_append_right r hc)⟩

theorem obj_ne_num (ps : Props) (k : Numeral) : Json.obj ps ≠ .num k := by simp

theorem space_of_parse_append {p q : JsString} {ps : Props} {v : Json} (hp : parse p = some (.obj ps))
    (hpq : parse (p ++ q) = some v) : ∀ c ∈ q, isSpace c = true := by
  obtain ⟨r, hv, -⟩ := parse_eq_some.mp hp
  obtain ⟨r', hv', hr'⟩ := parse_eq_some.mp hpq
  rw [parseValue_append (obj_ne_num ps) hv] at hv'
  obtain ⟨-, rfl⟩ := Prod.mk.inj (Option.some.inj hv')
  rw [skipSpace_eq_nil] at hr'
  exact fun c hc => hr' c (List.mem_append_right r hc)

theorem parse_append_space {p q : JsString} {ps : Props} (hp : parse p = some (.obj ps))
    (hq : ∀ c ∈ q, isSpace c = true) : parse (p ++ q) = some (.obj ps) := by
  obtain ⟨r, hv, hr⟩ := parse_eq_some.mp hp
  refine parse_eq_some.mpr ⟨r ++ q, parseValue_append (obj_ne_num ps) hv, ?_⟩
  rw [skipSpace_eq_nil] at hr ⊢
  intro c hc
  rcases List.mem_append.mp hc with h | h
  · exact hr c h
  · exact hq c h

end Ecma.Json
