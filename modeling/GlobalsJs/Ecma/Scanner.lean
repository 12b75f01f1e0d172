import GlobalsJs.Ecma.Number

/-!
# Scanning source text

The tokens of a program as far as comparisons and their combinations need them,
as the scanner of the engine reads them: escapes in string literals that the
standard forbids stand for their last letter, and numbers may be octal. Text that
starts with anything else is `unread`, which says nothing about it.
-/

namespace Ecma

def isLineEnd (c : CodeUnit) : Bool := c = newline || c = carriage || c = 8232 || c = 8233

def isOctal (c : CodeUnit) : Bool := zero ≤ c && c ≤ 55

def hexPrefix : ℕ → JsString → Option ℕ
  | 0, _ => some 0
  | _ + 1, [] => none
  | n + 1, c :: s =>
    match Json.hexValue c, hexPrefix n s with
    | some d, some x => some (d * 16 ^ n + x)
    | _, _ => none

def octalMore : ℕ → ℕ → JsString → ℕ × ℕ
  | n + 1, x, c :: s =>
    if isOctal c ∧ x * 8 + digitValue c < 256 then
      let t := octalMore n (x * 8 + digitValue c) s
      (t.1, t.2 + 1)
    else (x, 0)
  | _, x, _ => (x, 0)

def unescaped (c : CodeUnit) : CodeUnit :=
  if c = 98 then 8
  else if c = 102 then 12
  else if c = 110 then newline
  else if c = 114 then carriage
  else if c = 116 then tab
  else if c = 118 then 11
  else c

def escape : JsString → JsString × ℕ
  | [] => ([], 1)
  | c :: s =>
    if isLineEnd c then
      ([], if (c = carriage ∧ s.head? = some newline) ∨ (c = newline ∧ s.head? = some carriage)
        then 2 else 1)
    else if c = 117 then
      match hexPrefix 4 s with
      | some x => ([x.toUInt16], 5)
      | none => ([c], 1)
    else if c = 120 then
      match hexPrefix 2 s with
      | some x => ([x.toUInt16], 3)
      | none => ([c], 1)
    else if isOctal c then
      let t := octalMore 2 (digitValue c) s
      ([t.1.toUInt16], t.2 + 1)
    else ([unescaped c], 1)

def scanString : ℕ → JsString → Option (JsString × JsString)
  | _, [] => none
  | n + 1, _ :: s => scanString n s
  | 0, c :: s =>
    if c = quote then some ([], s)
    else if isLineEnd c then none
    else if c = backslash then
      (scanString (escape s).2 s).map fun t => ((escape s).1 ++ t.1, t.2)
    else (scanString 0 s).map fun t => (c :: t.1, t.2)

def literalValue : ℕ → JsString → Option JsString
  | 0, [] => some []
  | _ + 1, [] => none
  | n + 1, _ :: s => literalValue n s
  | 0, c :: s =>
    if c = quote ∨ isLineEnd c then none
    else if c = backslash then (literalValue (escape s).2 s).map ((escape s).1 ++ ·)
    else (literalValue 0 s).map (c :: ·)

theorem hexPrefix_append (n : ℕ) (a r : JsString) :
    hexPrefix n (a ++ quote :: r) = hexPrefix n a := by
  induction n generalizing a with
  | zero => rfl
  | succ n ih =>
    cases a with
    | nil => rfl
    | cons c a => simp only [List.cons_append, hexPrefix, ih]

theorem octalMore_append (n x : ℕ) (a r : JsString) :
    octalMore n x (a ++ quote :: r) = octalMore n x a := by
  induction n generalizing x a with
  | zero => simp [octalMore]
  | succ n ih =>
    cases a with
    | nil => rfl
    | cons c a => simp only [List.cons_append, octalMore, ih]

theorem escape_append {a : JsString} (ha : a ≠ []) (r : JsString) :
    escape (a ++ quote :: r) = escape a := by
  obtain ⟨c, a, rfl⟩ := List.exists_cons_of_ne_nil ha
  have hhead : ∀ d : CodeUnit, d ≠ quote →
      ((a ++ quote :: r).head? = some d ↔ a.head? = some d) := by
    intro d hd
    cases a with
    | nil => simp [Ne.symm hd]
    | cons e a => simp
  simp only [List.cons_append, escape, hexPrefix_append, octalMore_append,
    hhead newline (by decide), hhead carriage (by decide)]

theorem scanString_length {n : ℕ} {s x r : JsString} (h : scanString n s = some (x, r)) :
    r.length < s.length := by
  fun_induction scanString n s generalizing x with
  | case1 => cases h
  | case2 n c s ih =>
    have := ih h
    rw [List.length_cons]
    omega
  | case3 s =>
    obtain ⟨-, rfl⟩ : [] = x ∧ s = r := by simpa using h
    simp
  | case4 => cases h
  | case5 s _ _ ih =>
    obtain ⟨t, ht, hx⟩ := Option.map_eq_some_iff.mp h
    obtain ⟨-, rfl⟩ := Prod.mk.inj hx
    have := ih ht
    rw [List.length_cons]
    omega
  | case6 c s _ _ _ ih =>
    obtain ⟨t, ht, hx⟩ := Option.map_eq_some_iff.mp h
    obtain ⟨-, rfl⟩ := Prod.mk.inj hx
    have := ih ht
    rw [List.length_cons]
    omega

theorem scanString_append (n : ℕ) (a r x : JsString) :
    scanString n (a ++ quote :: r) = some (x, r) ↔ literalValue n a = some x := by
  induction a generalizing n x with
  | nil =>
    cases n with
    | zero => simp [scanString, literalValue]
    | succ n =>
      simp only [List.nil_append, scanString, literalValue, iff_false, reduceCtorEq]
      intro h
      exact absurd (scanString_length h) (lt_irrefl _)
  | cons c a ih =>
    cases n with
    | succ n => exact ih n x
    | zero =>
      simp only [List.cons_append, scanString, literalValue]
      by_cases hq : c = quote
      · have hlen : a ++ quote :: r ≠ r := fun h => by
          have := congrArg List.length h
          simp only [List.length_append, List.length_cons] at this
          omega
        simp [hq, hlen]
      by_cases hl : isLineEnd c = true
      · simp [hq, hl]
      by_cases hb : c = backslash
      · subst hb
        by_cases ha : a = []
        · -- the quote belongs to the escape, and the literal runs on
          subst ha
          have hlen : (escape (quote :: r)).2 = 1 := rfl
          have hend : literalValue (escape []).2 [] = none := rfl
          rw [List.nil_append, if_neg hq, if_neg hl, if_pos rfl, hlen, scanString,
            if_neg (by simp [hq, hl]), if_pos rfl, hend]
          refine ⟨fun h => ?_, fun h => by cases h⟩
          obtain ⟨t, ht, hx⟩ := Option.map_eq_some_iff.mp h
          have hlt := scanString_length (r := t.2) ht
          rw [(Prod.mk.inj hx).2] at hlt
          exact absurd hlt (lt_irrefl _)
        · simp [hq, hl, escape_append ha, ← ih]
      · simp [hq, hl, hb, ← ih]

theorem literalValue_self {s : JsString}
    (h : ∀ c ∈ s, c ≠ quote ∧ c ≠ backslash ∧ isLineEnd c = false) : literalValue 0 s = some s := by
  induction s with
  | nil => rfl
  | cons c s ih =>
    obtain ⟨hq, hb, hl⟩ := h c List.mem_cons_self
    have hs := ih fun d hd => h d (List.mem_cons_of_mem c hd)
    simp [literalValue, hq, hb, hl, hs]

end Ecma
