import GlobalsJs.Ecma.JsonParse

/-!
# Printed JSON reads back, and only as a whole

`parse_stringify` is the round trip over every well-formed value. With the
extension lemmas of `JsonParse` it gives `parse_proper_prefix`: a reader that
tries to parse whatever part of an object's text has arrived succeeds exactly
when all of it has.
-/

namespace Ecma.Json

theorem hexUnit_hexDigit {n : ℕ} (hn : n < 32) :
    hexUnit zero zero (hexDigit (n / 16)) (hexDigit (n % 16)) = some n.toUInt16 := by
  interval_cases n <;> rfl

theorem parseBody_escapeUnit (c : CodeUnit) (s : JsString) :
    parseBody (escapeUnit c ++ s) = (parseBody s).map fun t => (c :: t.1, t.2) := by
  unfold escapeUnit
  split_ifs with hq hb h8 h12 hn hr ht hc
  · subst hq; exact parseBody_escape (by decide) rfl s
  · subst hb; exact parseBody_escape (by decide) rfl s
  · subst h8; exact parseBody_escape (by decide) rfl s
  · subst h12; exact parseBody_escape (by decide) rfl s
  · subst hn; exact parseBody_escape (by decide) rfl s
  · subst hr; exact parseBody_escape (by decide) rfl s
  · subst ht; exact parseBody_escape (by decide) rfl s
  · have hlt : c.toNat < 32 := UInt16.lt_iff_toNat_lt.mp hc
    have hx := hexUnit_hexDigit hlt
    rw [show c.toNat.toUInt16 = c from UInt16.ofNat_toNat] at hx
    exact parseBody_unicode hx s
  · exact parseBody_plain hq hb hc s

theorem parseBody_escaped (k s : JsString) :
    parseBody (k.flatMap escapeUnit ++ quote :: s) = some (k, s) := by
  induction k with
  | nil => exact parseBody_quote s
  | cons c k ih => simp [parseBody_escapeUnit, ih]

theorem isSpace_of_numeralUnit {c : CodeUnit} (h : isNumeralUnit c = true) : isSpace c = false := by
  by_contra hs
  rw [Bool.not_eq_false] at hs
  simp only [isSpace, Bool.or_eq_true, decide_eq_true_eq] at hs
  rcases hs with ((rfl | rfl) | rfl) | rfl <;> revert h <;> decide

theorem stringify_head (v : Json) : ∃ c s, stringify v = c :: s ∧ isSpace c = false ∧
    c ≠ rbrace ∧ c ≠ rbracket := by
  cases v with
  | null => exact ⟨_, _, rfl, by decide⟩
  | bool b => cases b <;> exact ⟨_, _, rfl, by decide⟩
  | num n =>
    obtain ⟨c, s, hcs⟩ := List.exists_cons_of_ne_nil n.text_ne_nil
    have hc : isNumeralUnit c = true := by
      have := n.units
      simp only [hcs, List.all_cons, Bool.and_eq_true] at this
      exact this.1
    refine ⟨c, s, by simp [stringify, hcs], isSpace_of_numeralUnit hc, ?_, ?_⟩ <;>
    · rintro rfl
      revert hc; decide
  | str s => exact ⟨_, _, rfl, by decide⟩
  | arr xs => exact ⟨_, _, rfl, by decide⟩
  | obj ps => exact ⟨_, _, rfl, by decide⟩

theorem parseNumber_text (n : Numeral) {rest : JsString}
    (hrest : ∀ c ∈ rest.head?, isNumeralUnit c = false) :
    parseNumber (n.text ++ rest) = some (.num n, rest) := by
  obtain ⟨htake, hdrop⟩ := takeWhile_append_stop (List.all_eq_true.mp n.units) hrest
  simp [parseNumber, htake, hdrop, n.numeral]

theorem parseValue_num (n : Numeral) (fuel : ℕ) {rest : JsString}
    (hrest : ∀ c ∈ rest.head?, isNumeralUnit c = false) :
    parseValue (fuel + 1) (n.text ++ rest) = some (.num n, rest) := by
  obtain ⟨c, s, hcs⟩ := List.exists_cons_of_ne_nil n.text_ne_nil
  have hc : isNumeralUnit c = true := by
    have := n.units
    simp only [hcs, List.all_cons, Bool.and_eq_true] at this
    exact this.1
  have hne : ∀ d : CodeUnit, isNumeralUnit d = false → c ≠ d := by
    rintro d hd rfl
    rw [hc] at hd; cases hd
  have hnum := parseNumber_text n hrest
  rw [hcs, List.cons_append] at hnum ⊢
  rw [parseValue, skipSpace_cons (isSpace_of_numeralUnit hc)]
  simp only [hne quote rfl, hne lbrace rfl, hne lbracket rfl, hne 116 rfl, hne 102 rfl,
    hne 110 rfl, if_false]
  exact hnum

theorem quoted_append (s rest : JsString) :
    quoted s ++ rest = quote :: (s.flatMap escapeUnit ++ quote :: rest) := by
  simp [quoted]

theorem stringify_arr_append (xs : List Json) (rest : JsString) : stringify (.arr xs) ++ rest =
    lbracket :: (stringify.stringifyElems xs ++ rbracket :: rest) := by
  simp [stringify]

theorem stringify_obj_append (ps : Props) (rest : JsString) : stringify (.obj ps) ++ rest =
    lbrace :: (stringify.stringifyProps ps ++ rbrace :: rest) := by
  simp [stringify]

theorem stringifyElems_head (x : Json) (xs : List Json) (rest : JsString) :
    ∃ c s, stringify.stringifyElems (x :: xs) ++ rest = c :: s ∧ isSpace c = false ∧
      c ≠ rbracket := by
  obtain ⟨c, s, hcs, hc, -, hcb⟩ := stringify_head x
  cases xs with
  | nil => exact ⟨c, _, by rw [stringify.stringifyElems, hcs]; rfl, hc, hcb⟩
  | cons y ys => exact ⟨c, _, by rw [stringify.stringifyElems, hcs]; rfl, hc, hcb⟩

theorem stringifyProps_head (p : JsString × Json) (ps : Props) (rest : JsString) :
    ∃ s, stringify.stringifyProps (p :: ps) ++ rest = quote :: s := by
  cases ps with
  | nil => exact ⟨_, by rw [stringify.stringifyProps, quoted]; rfl⟩
  | cons q qs => exact ⟨_, by rw [stringify.stringifyProps, quoted]; rfl⟩

/-- The three round trips at fuel `n`. Every nested call has less fuel and less text. -/
structure ReadsBack (n : ℕ) : Prop where
  value : ∀ v : Json, v.WF → (stringify v).length < n →
    ∀ rest : JsString, (∀ c ∈ rest.head?, isNumeralUnit c = false) →
      parseValue n (stringify v ++ rest) = some (v, rest)
  elems : ∀ (x : Json) (xs : List Json), WFElems (x :: xs) →
    (stringify.stringifyElems (x :: xs)).length + 1 < n → ∀ rest : JsString,
      parseElems n (stringify.stringifyElems (x :: xs) ++ rbracket :: rest) = some (x :: xs, rest)
  members : ∀ (p : JsString × Json) (ps : Props), WFProps (p :: ps) →
    (stringify.stringifyProps (p :: ps)).length + 1 < n → ∀ rest : JsString,
      parseMembers n (stringify.stringifyProps (p :: ps) ++ rbrace :: rest) = some (p :: ps, rest)

theorem ReadsBack.value_succ {n : ℕ} (ih : ReadsBack n) (v : Json) (hv : v.WF)
    (hn : (stringify v).length < n + 1) (rest : JsString)
    (hrest : ∀ c ∈ rest.head?, isNumeralUnit c = false) :
    parseValue (n + 1) (stringify v ++ rest) = some (v, rest) := by
  match v with
  | .null => rfl
  | .bool true => rfl
  | .bool false => rfl
  | .num m => exact parseValue_num m n hrest
  | .str s =>
    rw [parseValue, stringify, quoted_append, skipSpace_cons (by decide)]
    simp [parseBody_escaped]
  | .arr [] => rfl
  | .arr (x :: xs) =>
    have helems := ih.elems x xs hv
      (by simp only [stringify, List.length_append, List.length_cons] at hn; omega) rest
    obtain ⟨c, s, hcs, hc, hcb⟩ := stringifyElems_head x xs (rbracket :: rest)
    rw [hcs] at helems
    rw [parseValue, stringify_arr_append, skipSpace_cons (by decide), hcs]
    simp only [show lbracket ≠ quote by decide, show lbracket ≠ lbrace by decide, if_false, if_true,
      skipSpace_cons hc, hcb, helems, Option.map_some]
  | .obj [] => rfl
  | .obj (p :: ps) =>
    have hmembers := ih.members p ps hv.2
      (by simp only [stringify, List.length_append, List.length_cons] at hn; omega) rest
    obtain ⟨s, hs⟩ := stringifyProps_head p ps (rbrace :: rest)
    rw [hs] at hmembers
    rw [parseValue, stringify_obj_append, skipSpace_cons (by decide), hs]
    simp only [show lbrace ≠ quote by decide, if_false, if_true, skipSpace_cons
      (show isSpace quote = false by decide), show quote ≠ rbrace by decide, hmembers,
      Option.map_some, build_of_nodup hv.1]

theorem ReadsBack.elems_succ {n : ℕ} (ih : ReadsBack n) (x : Json) (xs : List Json)
    (hxs : WFElems (x :: xs)) (hn : (stringify.stringifyElems (x :: xs)).length + 1 < n + 1)
    (rest : JsString) :
    parseElems (n + 1) (stringify.stringifyElems (x :: xs) ++ rbracket :: rest) =
      some (x :: xs, rest) := by
  match xs with
  | [] =>
    rw [stringify.stringifyElems] at hn ⊢
    have hx := ih.value x hxs.1 (by omega) (rbracket :: rest) (by simp; decide)
    rw [parseElems, hx]
    simp only [skipSpace_cons (show isSpace rbracket = false by decide),
      show rbracket ≠ comma by decide, if_false, if_true]
  | y :: ys =>
    rw [stringify.stringifyElems] at hn ⊢
    simp only [List.length_append, List.length_cons] at hn
    have hx := ih.value x hxs.1 (by omega)
      (comma :: (stringify.stringifyElems (y :: ys) ++ rbracket :: rest)) (by simp; decide)
    have hys := ih.elems y ys hxs.2 (by omega) rest
    rw [parseElems, List.append_assoc, List.cons_append, hx]
    simp only [skipSpace_cons (show isSpace comma = false by decide), if_true, hys,
      Option.map_some]

theorem ReadsBack.members_succ {n : ℕ} (ih : ReadsBack n) (p : JsString × Json) (ps : Props)
    (hps : WFProps (p :: ps)) (hn : (stringify.stringifyProps (p :: ps)).length + 1 < n + 1)
    (rest : JsString) :
    parseMembers (n + 1) (stringify.stringifyProps (p :: ps) ++ rbrace :: rest) =
      some (p :: ps, rest) := by
  obtain ⟨k, v⟩ := p
  match ps with
  | [] =>
    rw [stringify.stringifyProps] at hn ⊢
    simp only [List.length_append, List.length_cons] at hn
    have hv := ih.value v hps.1 (by omega) (rbrace :: rest) (by simp; decide)
    rw [parseMembers, List.append_assoc, List.cons_append, quoted_append,
      skipSpace_cons (by decide)]
    simp only [if_true, parseBody_escaped, skipSpace_cons (show isSpace colon = false by decide),
      hv, skipSpace_cons (show isSpace rbrace = false by decide),
      show rbrace ≠ comma by decide, if_false]
  | q :: qs =>
    rw [stringify.stringifyProps] at hn ⊢
    simp only [List.length_append, List.length_cons] at hn
    have hv := ih.value v hps.1 (by omega)
      (comma :: (stringify.stringifyProps (q :: qs) ++ rbrace :: rest)) (by simp; decide)
    have hqs := ih.members q qs hps.2 (by omega) rest
    rw [parseMembers, List.append_assoc, List.append_assoc, List.cons_append, List.cons_append,
      quoted_append, skipSpace_cons (by decide)]
    simp only [if_true, parseBody_escaped, skipSpace_cons (show isSpace colon = false by decide),
      hv, skipSpace_cons (show isSpace comma = false by decide), hqs, Option.map_some]

theorem readsBack (n : ℕ) : ReadsBack n := by
  induction n with
  | zero => exact ⟨fun _ _ h => by omega, fun _ _ _ h => by omega, fun _ _ _ h => by omega⟩
  | succ n ih => exact ⟨ih.value_succ, ih.elems_succ, ih.members_succ⟩

theorem skipSpace_stringify (v : Json) : skipSpace (stringify v) = stringify v := by
  obtain ⟨c, s, hcs, hc, -⟩ := stringify_head v
  rw [hcs, skipSpace_cons hc]

theorem parse_stringify {v : Json} (hv : v.WF) : parse (stringify v) = some v := by
  have h := (readsBack _).value v hv (Nat.lt_succ_self _) [] (by simp)
  rw [List.append_nil] at h
  exact parse_eq_some.mpr ⟨[], by rw [skipSpace_stringify]; exact h, rfl⟩

theorem parse_proper_prefix {ps : Props} (hps : (Json.obj ps).WF) {p q : JsString}
    (hpq : p ++ q = stringify (.obj ps)) (hq : q ≠ []) : parse p = none := by
  cases hp : parse p with
  | none => rfl
  | some v =>
    have hspace := (parse_opening (obj_ne_num ps) hp (by rw [hpq]; exact parse_stringify hps)).2
    -- the text ends with a brace, so what is missing is not space
    have hlast : q.getLast hq = rbrace := by
      have h : (p ++ q).getLast? = some rbrace := by
        rw [hpq, stringify, List.getLast?_append]
        rfl
      rw [List.getLast?_append_of_ne_nil _ hq, List.getLast?_eq_some_getLast hq] at h
      exact Option.some.inj h
    have hbrace : isSpace rbrace = true := hlast ▸ hspace _ (List.getLast_mem hq)
    cases hbrace

theorem newline_notMem_escapeUnit (c : CodeUnit) : newline ∉ escapeUnit c := by
  unfold escapeUnit
  split_ifs with hq hb h8 h12 hn hr ht hc
  any_goals decide
  · have hlt : c.toNat < 32 := UInt16.lt_iff_toNat_lt.mp hc
    have hall : ∀ n < 32, newline ∉
        [backslash, 117, zero, zero, hexDigit (n / 16), hexDigit (n % 16)] := by decide
    exact hall _ hlt
  · simpa using Ne.symm hn

theorem newline_notMem_quoted (s : JsString) : newline ∉ quoted s := by
  simp only [quoted, List.cons_append, List.mem_cons, List.mem_append, List.mem_flatMap,
    List.not_mem_nil, or_false, not_or, not_exists, not_and]
  exact ⟨by decide, fun c _ => newline_notMem_escapeUnit c, by decide⟩

mutual
theorem newline_notMem_stringify : (v : Json) → newline ∉ stringify v
  | .null => by decide
  | .bool true => by decide
  | .bool false => by decide
  | .num n => fun h => by
    have := List.all_eq_true.mp n.units newline h
    revert this; decide
  | .str s => newline_notMem_quoted s
  | .arr xs => by
    have := newline_notMem_elems xs
    simp [stringify, this]; decide
  | .obj ps => by
    have := newline_notMem_props ps
    simp [stringify, this]; decide

theorem newline_notMem_elems : (xs : List Json) → newline ∉ stringify.stringifyElems xs
  | [] => by simp [stringify.stringifyElems]
  | [x] => by
    rw [stringify.stringifyElems]
    exact newline_notMem_stringify x
  | x :: y :: ys => by
    have hx := newline_notMem_stringify x
    have hys := newline_notMem_elems (y :: ys)
    simp [stringify.stringifyElems, hx, hys]; decide

theorem newline_notMem_props : (ps : List (JsString × Json)) → newline ∉ stringify.stringifyProps ps
  | [] => by simp [stringify.stringifyProps]
  | [(k, v)] => by
    have hk := newline_notMem_quoted k
    have hv := newline_notMem_stringify v
    simp [stringify.stringifyProps, hk, hv]; decide
  | (k, v) :: p :: ps => by
    have hk := newline_notMem_quoted k
    have hv := newline_notMem_stringify v
    have hps := newline_notMem_props (p :: ps)
    simp [stringify.stringifyProps, hk, hv, hps]; decide
end

theorem stringify_ne_nil (v : Json) : stringify v ≠ [] := by
  obtain ⟨c, s, hcs, -⟩ := stringify_head v
  simp [hcs]

end Ecma.Json
