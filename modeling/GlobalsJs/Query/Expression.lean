import GlobalsJs.Ecma.Eval

/-!
# Expressions of a query

`Expression.evaluate` writes the stored value and the operand of the query into a
program and runs it. Two strings are compared as they are exactly when both read
as the inside of a string literal and denote strings in the same relation.
-/

namespace GlobalsJs.Query
open Ecma

structure Expression where
  operator : Option JsString
  value : Option Json

/-- What the surroundings of the processor contribute: the rounding of numbers, the names
it does not bind itself, the text of an expression, and, given the names, the results of
programs that are not run here, for `evaluate` and for the scope of the joined results. -/
structure Realm where
  round : Rounding
  lookup : JsString → Except JsError Val
  expressionToString : Except JsError Prim
  other : (JsString → Except JsError Val) → Expression → Json → JsString → Except JsError Outcome
  joining : (JsString → Except JsError Val) → Scope

def Realm.assign (realm : Realm) (name : JsString) (value : Option Prim) : Realm :=
  { realm with lookup := fun s =>
      match value with
      | some p => if s = name then .ok (.prim p) else realm.lookup s
      | none => realm.lookup s }

/-- `k` is no variable of `execute`: the loop of a joiner counts in a global, and leaves
there the number of results that it joined. -/
def Realm.counted (realm : Realm) (k : Option ℕ) : Realm :=
  realm.assign (js "k") (k.map fun n => .num (realm.round ⟨n, 0⟩))

def evaluators : List (JsString × Rel) :=
  [(js "$eq", .eq), (js "$nq", .ne), (js "$lt", .lt), (js "$lte", .le), (js "$gt", .gt),
    (js "$gte", .ge)]

def operatorName : Rel → JsString
  | .eq => js "$eq"
  | .ne => js "$nq"
  | .lt => js "$lt"
  | .le => js "$lte"
  | .gt => js "$gt"
  | .ge => js "$gte"

@[simp] theorem lookup_operatorName (op : Rel) : evaluators.lookup (operatorName op) = some op := by
  cases op <;> decide

namespace Expression

/-- A value that is no object stands for a test of equality. -/
def new : Json → Except JsError Expression
  | .null => .error .typeError
  | .obj ps => .ok ⟨ps.head?.map Prod.fst, ps.head?.map Prod.snd⟩
  | .arr xs => .ok ⟨xs.head?.map fun _ => js "0", xs.head?⟩
  | v => .ok ⟨some (js "$eq"), some v⟩

def evaluator (self : Expression) : Option Rel := self.operator.bind fun name => evaluators.lookup name

/-- The operator is looked up in an object, which inherits members. -/
def evaluatorText (self : Expression) : Option JsString :=
  match self.evaluator with
  | some op => some (relText op)
  | none => self.operator.bind inheritedText

/-- `value + undefined + self.value` when no operand before the last is a string. -/
def numericSum (self : Expression) : Option JsString :=
  match self.value with
  | some (.str s) => some (js "NaN" ++ s)
  | some (.arr xs) => some (js "NaN" ++ Json.joinText xs)
  | some (.obj _) => some (js "NaN[object Object]")
  | _ => none

/-- The text that is given to `eval`; `none` for the number `NaN`. -/
def source (self : Expression) (value : Json) : Option JsString :=
  if isNaN value then
    some (quote :: value.toText ++ quote ::
      (self.evaluatorText.getD (js "undefined") ++ (quote :: textOf self.value ++ [quote])))
  else
    match self.evaluatorText, value with
    | none, .null | none, .bool _ | none, .num _ => self.numericSum
    | text, _ => some (value.toText ++ (text.getD (js "undefined") ++ textOf self.value))

def jsonVal (round : Rounding) : Json → Val
  | .arr xs => .object (.ok (.str (Json.joinText xs)))
  | .obj _ => .object (.ok (.str (js "[object Object]")))
  | v => .prim (v.prim round)

/-- The names that `evaluate` binds hide those of its surroundings. -/
def scope (realm : Realm) (self : Expression) (value : Json) (source : JsString) : Scope where
  round := realm.round
  lookup s :=
    if s = js "self" ∨ s = js "this" then .ok (.object realm.expressionToString)
    else if s = js "value" then .ok (jsonVal realm.round value)
    else if s = js "exp" then .ok (.prim (.str source))
    else if s = js "result" then .ok (.prim .undefined)
    else if s = js "arguments" then .ok (.object (.ok (.str (js "[object Arguments]"))))
    else realm.lookup s
  rest := realm.other realm.lookup self value

/-- Both values are converted to text or to numbers before a program is run. -/
def evaluate (realm : Realm) (self : Expression) (value : Json) : Except JsError Outcome :=
  if value.convertible && self.value.all Json.convertible then
    match self.source value with
    | none => .ok .nan
    | some source => (scope realm self value source).eval source
  else .error .typeError

end Expression

def test (op : Rel) (b : Json) : Expression := ⟨some (operatorName op), some b⟩

@[simp] theorem evaluator_test (op : Rel) (b : Json) : (test op b).evaluator = some op := by
  simp [Expression.evaluator, test]

@[simp] theorem value_test (op : Rel) (b : Json) : (test op b).value = some b := rfl

inductive IsTest : Json → Rel → Json → Prop
  | operator (op : Rel) (b : Json) : IsTest (.obj [(operatorName op, b)]) op b
  | implicit {b : Json} (h : Plain b) : IsTest b .eq b

theorem IsTest.new_eq {e b : Json} {op : Rel} (h : IsTest e op b) :
    Expression.new e = .ok (test op b) := by
  cases h with
  | operator => rfl
  | implicit h => obtain ⟨n, rfl⟩ | ⟨s, rfl, -⟩ := h <;> rfl

theorem evaluate_quoted (realm : Realm) (op : Rel) {v b : Json} (hv : isNaN v = true)
    (hconv : v.convertible = true) (hconv' : b.convertible = true) :
    (test op b).evaluate realm v =
      (Expression.scope realm (test op b) v (literalComparison op v.toText b.toText)).eval
        (literalComparison op v.toText b.toText) := by
  have hsource : (test op b).source v = some (literalComparison op v.toText b.toText) := by
    simp [Expression.source, hv, Expression.evaluatorText, literalComparison, textOf]
  simp [Expression.evaluate, hsource, hconv, hconv']

theorem evaluate_literals (realm : Realm) (op : Rel) {v b : Json} (hv : isNaN v = true)
    (hconv : v.convertible = true) (hconv' : b.convertible = true) {x y : JsString}
    (hx : literalValue 0 v.toText = some x) (hy : literalValue 0 b.toText = some y) :
    (test op b).evaluate realm v = .ok (.bool (compareText op x y)) := by
  rw [evaluate_quoted realm op hv hconv hconv']
  exact Scope.eval_literalComparison op hx hy

theorem source_bare (op : Rel) {v b : Json} (hv : isNaN v = false) :
    (test op b).source v = some (v.toText ++ (relText op ++ b.toText)) := by
  simp [Expression.source, hv, Expression.evaluatorText, textOf]

theorem evaluate_bare (realm : Realm) (op : Rel) {v b : Json} (hv : isNaN v = false)
    (hconv : v.convertible = true) (hconv' : b.convertible = true) :
    (test op b).evaluate realm v =
      (Expression.scope realm (test op b) v (v.toText ++ (relText op ++ b.toText))).eval
        (v.toText ++ (relText op ++ b.toText)) := by
  simp [Expression.evaluate, source_bare op hv, hconv, hconv']

def OnlyData (round : Rounding) (op : Rel) (a b : JsString) : Prop :=
  (∃ x, nextToken round (literalComparison op a b) =
    .token (.str x) (relText op ++ (quote :: b ++ [quote]))) ∧
  ∃ y, nextToken round (quote :: b ++ [quote]) = .token (.str y) []

/-- The expression `{op: b}` gives the answer of the operator on `a` and `b`, and takes no
part of either for program text. -/
def ComparedAsText (op : Rel) (a b : JsString) : Prop :=
  ∃ e, Expression.new (.obj [(operatorName op, .str b)]) = .ok e ∧ ∀ realm : Realm,
    e.evaluate realm (.str a) = .ok (.bool (compareText op a b)) ∧ OnlyData realm.round op a b

/-- Both strings read as the inside of a literal, and what they denote compares as they do. -/
def SurviveQuoting (op : Rel) (a b : JsString) : Prop :=
  ∃ x y, literalValue 0 a = some x ∧ literalValue 0 b = some y ∧
    compareText op x y = compareText op a b

theorem literalValue_of_nextToken {round : Rounding} {a r x : JsString}
    (h : nextToken round (quote :: a ++ quote :: r) = .token (.str x) r) :
    literalValue 0 a = some x := by
  have hwhite : (quote :: (a ++ quote :: r)).dropWhile isWhite = quote :: (a ++ quote :: r) := rfl
  rw [List.cons_append, nextToken, hwhite] at h
  simp only [if_true] at h
  refine (scanString_append 0 a r x).mp ?_
  cases hscan : scanString 0 (a ++ quote :: r) with
  | none => rw [hscan] at h; cases h
  | some t =>
    rw [hscan] at h
    obtain ⟨ht, hr⟩ := Next.token.inj h
    rw [← Token.str.inj ht, ← hr]

def Realm.bare : Realm where
  round := .finite
  lookup s := .error (.referenceError s)
  expressionToString := .error (.referenceError (js "self"))
  other _ _ _ _ := .error .syntaxError
  joining lookup := ⟨.finite, lookup, fun _ => .error .syntaxError⟩

theorem outcome_bool_inj {a b : Bool} (h : Outcome.bool a = Outcome.bool b) : a = b :=
  congrArg Outcome.truthy h

theorem strings_compared_iff (op : Rel) {a : JsString} (ha : isNaN (.str a) = true)
    (b : JsString) : ComparedAsText op a b ↔ SurviveQuoting op a b := by
  constructor
  · rintro ⟨e, he, hall⟩
    obtain rfl : test op (.str b) = e := by
      rw [(IsTest.operator op (.str b)).new_eq] at he
      exact Except.ok.inj he
    obtain ⟨hrun, ⟨x, hx⟩, y, hy⟩ := hall Realm.bare
    have hxa := literalValue_of_nextToken hx
    have hyb := literalValue_of_nextToken (r := []) hy
    refine ⟨x, y, hxa, hyb, ?_⟩
    have hread := evaluate_literals Realm.bare op (b := .str b) ha rfl rfl hxa hyb
    rw [hrun] at hread
    exact (outcome_bool_inj (Except.ok.inj hread)).symm
  · rintro ⟨x, y, hx, hy, heq⟩
    refine ⟨_, (IsTest.operator op (.str b)).new_eq, fun realm => ⟨?_, ?_, ?_⟩⟩
    · rw [evaluate_literals realm op (b := .str b) ha rfl rfl hx hy, heq]
    · exact ⟨x, nextToken_literal hx _⟩
    · exact ⟨y, nextToken_literal hy []⟩

theorem strings_compared_apple : ComparedAsText .lt (js "apple") (js "bananna") :=
  (strings_compared_iff .lt (by decide) _).mpr ⟨js "apple", js "bananna", by decide⟩

theorem two_lines_not_compared :
    let a := js "two\nlines"
    isNaN (.str a) = true ∧ compareText .eq a a = true ∧
      ∀ realm, (test .eq (.str a)).evaluate realm (.str a) = .error .syntaxError := by
  refine ⟨by decide, by decide, fun realm => ?_⟩
  rw [evaluate_quoted realm .eq (by decide) rfl rfl]
  exact Scope.eval_of_illegal (.done _) rfl

/-- The comparison of `v` goes through: `v` is quoted, or both sides read as operands in
the program that is built from them. -/
def Comparable (realm : Realm) (e : Expression) (v : Json) : Prop :=
  isNaN v = true ∨ ∀ source ∈ e.source v,
    (Expression.scope realm e v source).Readable v.toText ∧
      (Expression.scope realm e v source).Readable (textOf e.value)

theorem literalValue_plain {v : Json} (hv : Plain v) : literalValue 0 v.toText = some v.toText := by
  refine literalValue_self fun c hc => ?_
  have hne : ∀ {p : CodeUnit → Bool}, p c = true → (∀ d ∈ [quote, backslash, newline, carriage,
      8232, 8233], p d = false) → c ≠ quote ∧ c ≠ backslash ∧ isLineEnd c = false := by
    intro p hp hd
    have hall : ∀ d ∈ [quote, backslash, newline, carriage, 8232, 8233], c ≠ d := by
      rintro d hmem rfl
      rw [hd c hmem] at hp
      cases hp
    refine ⟨hall _ (by simp), hall _ (by simp), ?_⟩
    simp [isLineEnd, hall newline (by simp), hall carriage (by simp), hall 8232 (by simp),
      hall 8233 (by simp)]
  obtain ⟨n, rfl⟩ | ⟨s, rfl, hs⟩ := hv
  · exact hne (List.all_eq_true.mp n.units c hc) (forall_mem_of_all (by decide))
  · exact hne (List.all_eq_true.mp hs c hc) (forall_mem_of_all (by decide))

theorem evaluate_settles (realm : Realm) (op : Rel) {v b : Json} (hv : Plain v) (hb : Plain b) :
    Settles (Comparable realm (test op b) v) ((test op b).evaluate realm v) := by
  by_cases hnan : isNaN v = true
  · rw [evaluate_literals realm op hnan hv.convertible hb.convertible (literalValue_plain hv) (literalValue_plain hb)]
    exact .answers (Or.inl hnan) _
  · rw [Bool.not_eq_true] at hnan
    rw [evaluate_bare realm op hnan hv.convertible hb.convertible]
    generalize hprogram : v.toText ++ (relText op ++ b.toText) = program
    have hsource : (test op b).source v = some program := hprogram ▸ source_bare op hnan
    have hcond : Comparable realm (test op b) v ↔
        (Expression.scope realm (test op b) v program).Readable v.toText ∧
          (Expression.scope realm (test op b) v program).Readable b.toText := by
      simp [Comparable, hnan, hsource, textOf]
    rw [hcond, ← hprogram]
    exact Scope.eval_plain hv hnan hb op

theorem readable_numeral (sc : Scope) (n : Numeral) : sc.Readable n.text := by
  obtain ⟨x, hx⟩ := (operand_numeralTokens n sc.round).read_number sc (Or.inl ⟨n, rfl⟩) rfl
  have hscan := scans_numeral n sc.round Stops.nil
  have hoperand := Scope.operand_of_scans (by simpa using hscan) (by simpa using hx [])
  exact ⟨.num x, by rw [hoperand]; rfl⟩

theorem evaluate_numbers (round : Rounding) (op : Rel) (a b : Numeral) : ∃ t, ∀ realm : Realm,
    realm.round = round → (test op (.num b)).evaluate realm (.num a) = .ok (.bool t) := by
  obtain ⟨t, ht⟩ := Scope.eval_numerals round op a b
  refine ⟨t, fun realm hround => ?_⟩
  rw [evaluate_bare realm op rfl rfl rfl]
  exact ht _ hround

end GlobalsJs.Query
