import GlobalsJs.Ecma.Lexer

/-!
# Evaluating source text

`Scope.eval` runs the programs that are one comparison of two operands or constants
joined by one connective, and reports the syntax errors that show in the tokens.
What any other program does is left to `Scope.rest`.
-/

namespace Ecma

/-- The value of an operand. Turning an object into a primitive value may throw. -/
inductive Val
  | prim (p : Prim)
  | object (convert : Except JsError Prim)

def Val.toPrim : Val → Except JsError Prim
  | .prim p => .ok p
  | .object convert => convert

/-- A result as its users see it: converted to text and as a condition. -/
structure Outcome where
  text : JsString
  truthy : Bool
deriving DecidableEq

def Outcome.undefined : Outcome := ⟨js "undefined", false⟩
def Outcome.nan : Outcome := ⟨js "NaN", false⟩
def boolText (b : Bool) : JsString := if b then js "true" else js "false"
def Outcome.bool (b : Bool) : Outcome := ⟨boolText b, b⟩

structure Scope where
  round : Rounding
  lookup : JsString → Except JsError Val
  rest : JsString → Except JsError Outcome

def reserved : List JsString :=
  ["break", "case", "catch", "class", "const", "continue", "debugger", "default", "delete", "do",
    "else", "enum", "export", "extends", "finally", "for", "function", "if", "import", "in",
    "instanceof", "new", "return", "super", "switch", "throw", "try", "typeof", "var", "void",
    "while", "with"].map js

def JsNumber.neg : JsNumber → JsNumber
  | .nan => .nan
  | .infinite negative => .infinite !negative
  | .finite d => .finite ⟨-d.coeff, d.exp⟩

def constants (round : Rounding) : List (JsString × Prim) :=
  [(js "true", .bool true), (js "false", .bool false), (js "null", .null),
    (js "NaN", .num .nan), (js "Infinity", numberOf round (js "Infinity") |> .num)]

def Token.constant : Token → Option Outcome
  | .name s =>
    if s = js "true" then some (.bool true)
    else if s = js "false" then some (.bool false)
    else if s = js "NaN" then some .nan
    else none
  | _ => none

def Token.isBinary : Token → Bool
  | .rel _ | .logic _ => true
  | _ => false

def chain (op : Connective) : List Token → Option Outcome
  | [] => none
  | [t] => t.constant
  | t :: .logic op' :: ts =>
    if op' = op then
      match t.constant, chain op ts with
      | some a, some b => some (if a.truthy = (op = .or) then a else b)
      | _, _ => none
    else none
  | _ :: _ :: _ => none

namespace Scope
variable (sc : Scope)

def nameValue (s : JsString) : Except JsError Val :=
  match (constants sc.round).lookup s with
  | some p => .ok (.prim p)
  | none => if s ∈ reserved then .error .syntaxError else sc.lookup s

def readOperand : List Token → Option (Except JsError Val × List Token)
  | .num n :: ts => some (.ok (.prim (.num n)), ts)
  | .minus :: .num n :: ts => some (.ok (.prim (.num n.neg)), ts)
  | .str s :: ts => some (.ok (.prim (.str s)), ts)
  | .name s :: ts => some (sc.nameValue s, ts)
  | _ => none

/-- An object is compared by identity with an object, and differs from `undefined` and
`null`; otherwise it is converted. Identity is not followed. -/
def compareVals (op : Rel) (x y : Val) : Option (Except JsError Bool) :=
  match x, y with
  | .object _, .object _ =>
    if op = .eq ∨ op = .ne then none
    else some do return compare sc.round op (← x.toPrim) (← y.toPrim)
  | .object _, .prim p | .prim p, .object _ =>
    if (op = .eq ∨ op = .ne) ∧ (p = .undefined ∨ p = .null) then some (.ok (op = .ne))
    else some do return compare sc.round op (← x.toPrim) (← y.toPrim)
  | .prim a, .prim b => some (.ok (compare sc.round op a b))

def splitComparison (ts : List Token) :
    Option (Except JsError Val × Rel × Except JsError Val) :=
  match sc.readOperand ts with
  | some (x, .rel op :: us) =>
    match sc.readOperand us with
    | some (y, []) => some (x, op, y)
    | _ => none
  | _ => none

def runComparison (source : JsString) (op : Rel) :
    Except JsError Val → Except JsError Val → Except JsError Outcome
  | .error .syntaxError, _ | _, .error .syntaxError => .error .syntaxError
  | .error e, _ => .error e
  | _, .error e => .error e
  | .ok x, .ok y =>
    match sc.compareVals op x y with
    | some r => r.map .bool
    | none => sc.rest source

def runTokens (source : JsString) (ts : List Token) : Except JsError Outcome :=
  if ts = [] then .ok .undefined
  else if ts.head?.any Token.isBinary ∨ ts.getLast?.any fun t => t.isBinary || t = .minus then
    .error .syntaxError
  else
    match sc.splitComparison ts with
    | some (x, op, y) => sc.runComparison source op x y
    | none =>
      match (chain .and ts).or (chain .or ts) with
      | some r => .ok r
      | none => sc.rest source

def eval (source : JsString) : Except JsError Outcome :=
  match lex sc.round source with
  | .illegal => .error .syntaxError
  | .unread => sc.rest source
  | .tokens ts => sc.runTokens source ts

def operand (s : JsString) : Except JsError Val :=
  match lex sc.round s with
  | .tokens ts =>
    match sc.readOperand ts with
    | some (x, []) => x
    | _ => .error .syntaxError
  | _ => .error .syntaxError

end Scope

variable {sc : Scope}

theorem Scope.eval_of_scans {s : JsString} {ts : List Token} (h : Scans sc.round s ts []) :
    sc.eval s = sc.runTokens s ts := by
  simp only [Scope.eval, h.lex_tokens]

theorem Scope.eval_of_illegal {s r : JsString} {ts : List Token} (h : Scans sc.round s ts r)
    (hr : nextToken sc.round r = .illegal) : sc.eval s = .error .syntaxError := by
  simp only [Scope.eval, h.lex_illegal hr]

def literalComparison (op : Rel) (a b : JsString) : JsString :=
  quote :: a ++ quote :: (relText op ++ (quote :: b ++ [quote]))

theorem scans_literalComparison {a b x y : JsString} (op : Rel)
    (ha : literalValue 0 a = some x) (hb : literalValue 0 b = some y) (round : Rounding) :
    Scans round (literalComparison op a b) [.str x, .rel op, .str y] [] := by
  have hleft : Scans round (literalComparison op a b) [.str x] _ := scans_literal ha _
  have hop : Scans round (relText op ++ (quote :: b ++ [quote])) [.rel op] (quote :: b ++ [quote]) :=
    scans_relText op (by simp; decide)
  exact hleft.append (hop.append (scans_literal hb []))

theorem Scope.eval_literalComparison {a b x y : JsString} (op : Rel)
    (ha : literalValue 0 a = some x) (hb : literalValue 0 b = some y) :
    sc.eval (literalComparison op a b) = .ok (.bool (compareText op x y)) := by
  rw [Scope.eval_of_scans (scans_literalComparison op ha hb sc.round)]
  simp [runTokens, splitComparison, readOperand, runComparison, compareVals, compare_str,
    Token.isBinary, Except.map]

/-- The values that the data of a program is made of: numbers and words. -/
def Plain (v : Json) : Prop :=
  (∃ n, v = .num n) ∨ ∃ s, v = .str s ∧ s.all isAlphanumeric = true

theorem Plain.convertible {v : Json} (hv : Plain v) : v.convertible = true := by
  obtain ⟨n, rfl⟩ | ⟨s, rfl, -⟩ := hv <;> rfl

theorem isNamePart_of_alphanumeric {c : CodeUnit} (h : isAlphanumeric c = true) :
    isNamePart c = true := by
  simp only [isAlphanumeric, Bool.or_eq_true] at h
  rcases h with h | h <;> simp [isNamePart, isNameStart, h]

inductive OperandTokens : Json → List Token → Prop
  | num (v : Json) (n : JsNumber) : OperandTokens v [.num n]
  | negative (v : Json) (n : JsNumber) : OperandTokens v [.minus, .num n]
  | name {c : CodeUnit} (s : JsString) (h : isDigit c = false) :
    OperandTokens (.str (c :: s)) [.name (c :: s)]

def numeralTokens (round : Rounding) : JsString → List Token
  | [] => []
  | c :: s => if c = minus then [.minus, .num (numberOf round s)] else [.num (numberOf round (c :: s))]

theorem operand_numeralTokens (n : Numeral) (round : Rounding) :
    OperandTokens (.num n) (numeralTokens round n.text) := by
  obtain ⟨c, s, hcs⟩ := List.exists_cons_of_ne_nil n.text_ne_nil
  rw [hcs, numeralTokens]
  split_ifs
  · exact .negative _ _
  · exact .num _ _

theorem scans_numeral (n : Numeral) (round : Rounding) {r : JsString} (hr : Stops r) :
    Scans round (n.text ++ r) (numeralTokens round n.text) r := by
  have hnum := n.numeral
  obtain ⟨c, s, hcs⟩ := List.exists_cons_of_ne_nil n.text_ne_nil
  rw [hcs] at hnum ⊢
  simp only [isNumeral] at hnum
  rw [numeralTokens]
  split_ifs at hnum ⊢ with hc
  · subst hc
    have hnumber : nextToken round (s ++ r) = _ := nextToken_unsigned hnum hr
    obtain ⟨d, s, rfl, hd⟩ := unsigned_digit hnum
    exact .token (nextToken_minus hd (s ++ r)) (by simp) (.single hnumber (by simp))
  · exact .single (nextToken_unsigned hnum hr) (by simp)

theorem scans_plain {v : Json} (hv : Plain v) (round : Rounding) :
    (∃ ts, OperandTokens v ts ∧ ∀ r, Stops r → Scans round (v.toText ++ r) ts r) ∨
      v.toText = [] ∨ ∀ r, Stops r → nextToken round (v.toText ++ r) = .illegal := by
  rcases hv with ⟨n, rfl⟩ | ⟨s, rfl, hs⟩
  · exact Or.inl ⟨_, operand_numeralTokens n round, fun r hr => scans_numeral n round hr⟩
  · by_cases hne : s = []
    · exact Or.inr (Or.inl hne)
    have hpart : s.all isNamePart = true :=
      List.all_eq_true.mpr fun c hc => isNamePart_of_alphanumeric (List.all_eq_true.mp hs c hc)
    obtain ⟨o, hop, ho⟩ : ∃ o,
        (∀ t ∈ o, (∃ n, t = .num n) ∨ t = .name s ∧ s.head?.any isDigit = false) ∧
          ∀ r, Stops r → nextToken round (s ++ r) = Next.ofOption o r := nextToken_word hne hpart
    cases o with
    | none => exact Or.inr (Or.inr ho)
    | some t =>
      have hlen : ∀ r : JsString, r.length < (s ++ r).length := fun r => by
        have := List.length_pos_of_ne_nil hne
        rw [List.length_append]
        omega
      refine Or.inl ⟨[t], ?_, fun r hr => .single (ho r hr) (hlen r)⟩
      rcases hop t rfl with ⟨n, rfl⟩ | ⟨rfl, hd⟩
      · exact .num _ n
      · obtain ⟨c, s, rfl⟩ := List.exists_cons_of_ne_nil hne
        exact .name s (by simpa using hd)

theorem OperandTokens.read {v : Json} {ts : List Token} (h : OperandTokens v ts) (sc : Scope) :
    ∃ x, ∀ us, sc.readOperand (ts ++ us) = some (x, us) := by
  cases h with
  | num n => exact ⟨_, fun us => rfl⟩
  | negative n => exact ⟨_, fun us => rfl⟩
  | name => exact ⟨_, fun us => rfl⟩

theorem not_alphanumeric {c d : CodeUnit} (hc : isAlphanumeric c = true)
    (hd : isAlphanumeric d = false) : c ≠ d := by
  rintro rfl
  rw [hc] at hd
  cases hd

theorem numberText_word {c : CodeUnit} {s : JsString} (hs : (c :: s).all isAlphanumeric = true)
    (hc : isDigit c = false) (h : (readNumberText (c :: s)).isSome) : c :: s = js "Infinity" := by
  have hword : isAlphanumeric c = true := List.all_eq_true.mp hs c List.mem_cons_self
  have hwhite := (isWhite_of_namePart (isNamePart_of_alphanumeric hword)).1
  have hzero : c ≠ zero := by rintro rfl; revert hc; decide
  have hdot := not_alphanumeric hword (d := dot) (by decide)
  have hskip : (c :: s).dropWhile isWhite = c :: s := by simp [hwhite]
  have hdecimal : readDecimal (c :: s) = none := by
    simp [readDecimal, readFraction, hc, hdot]
  have hhex : (js "0x").isPrefixOf (c :: s) = false ∧ (js "0X").isPrefixOf (c :: s) = false := by
    simp +decide [js, List.isPrefixOf, Ne.symm hzero]
  simp only [readNumberText, hskip, if_neg (not_alphanumeric hword (d := minus) (by decide)),
    if_neg (not_alphanumeric hword (d := plus) (by decide)), readUnsigned, hdecimal, hhex.1,
    hhex.2, Bool.or_self, Bool.false_eq_true, if_false] at h
  split_ifs at h with hinf hrest
  · obtain ⟨t, ht⟩ := List.isPrefixOf_iff_prefix.mp hinf
    have hdrop : (c :: s).drop 8 = t := by rw [← ht]; rfl
    have hnil : t = [] := by
      by_contra hne
      obtain ⟨d, t, rfl⟩ := List.exists_cons_of_ne_nil hne
      rw [hdrop] at hrest
      have hd : isAlphanumeric d = true := List.all_eq_true.mp hs d (by rw [← ht]; simp)
      have := List.all_eq_true.mp hrest d List.mem_cons_self
      rw [(isWhite_of_namePart (isNamePart_of_alphanumeric hd)).1] at this
      cases this
    rw [← ht, hnil, List.append_nil]
  all_goals cases h

def Scope.Readable (sc : Scope) (s : JsString) : Prop := ∃ p, (sc.operand s).bind Val.toPrim = .ok p

theorem Scope.operand_of_scans {s : JsString} {ts : List Token} {x : Except JsError Val}
    (h : Scans sc.round s ts []) (hx : sc.readOperand ts = some (x, [])) : sc.operand s = x := by
  simp only [Scope.operand, h.lex_tokens, hx]

theorem Scope.not_readable_nil : ¬ sc.Readable [] := by
  rintro ⟨p, hp⟩
  have hlex : lex sc.round [] = .tokens [] := (Scans.done []).lex_tokens
  simp [Scope.operand, hlex, readOperand, Except.bind] at hp

theorem Scope.not_readable_illegal {s : JsString} (h : nextToken sc.round s = .illegal) :
    ¬ sc.Readable s := by
  rintro ⟨p, hp⟩
  have hlex : lex sc.round s = .illegal := (Scans.done s).lex_illegal h
  simp [Scope.operand, hlex, Except.bind] at hp

theorem OperandTokens.read_number {v : Json} {ts : List Token} (h : OperandTokens v ts)
    (sc : Scope) (hv : Plain v) (hnan : isNaN v = false) :
    ∃ n, ∀ us, sc.readOperand (ts ++ us) = some (.ok (.prim (.num n)), us) := by
  cases h with
  | num _ n => exact ⟨n, fun us => rfl⟩
  | negative _ n => exact ⟨n.neg, fun us => rfl⟩
  | @name c s hdigit =>
    obtain ⟨n, hn⟩ | ⟨t, ht, hword⟩ := hv
    · cases hn
    obtain rfl : c :: s = t := by simpa using ht
    have hsome : (readNumberText (c :: s)).isSome = true := by
      simpa [isNaN, Json.toText, Option.isSome_iff_ne_none] using hnan
    rw [numberText_word hword hdigit hsome]
    refine ⟨numberOf sc.round (js "Infinity"), fun us => ?_⟩
    have hconst : (constants sc.round).lookup (js "Infinity") =
        some (.num (numberOf sc.round (js "Infinity"))) := rfl
    simp only [List.singleton_append, Scope.readOperand, Scope.nameValue, hconst]

theorem plain_head {v : Json} (hv : Plain v) : ∀ c ∈ v.toText.head?, isStop c = false := by
  intro c hc
  by_contra hstop
  rw [Bool.not_eq_false] at hstop
  have hone : Stops [c] := fun d hd => by simp at hd; rw [← hd]; exact hstop
  obtain ⟨n, rfl⟩ | ⟨s, rfl, hs⟩ := hv
  · have hunit := List.all_eq_true.mp n.units c (List.mem_of_mem_head? hc)
    rw [hone.head (p := isNumeralUnit) (forall_mem_of_all (by decide)) c rfl] at hunit
    cases hunit
  · have hword := List.all_eq_true.mp hs c (List.mem_of_mem_head? hc)
    rw [hone.head (p := isAlphanumeric) (forall_mem_of_all (by decide)) c rfl] at hword
    cases hword

theorem OperandTokens.ends {v : Json} {ts : List Token} (h : OperandTokens v ts) :
    ∃ t us, ts = t :: us ∧ t.isBinary = false ∧
      ∀ pre, ((pre ++ ts).getLast?.any fun t => t.isBinary || t = .minus) = false := by
  cases h with
  | num | negative | name => exact ⟨_, _, rfl, rfl, fun pre => by simp [Token.isBinary]⟩

inductive Settles (P : Prop) : Except JsError Outcome → Prop
  | answers (hp : P) (t : Bool) : Settles P (.ok (.bool t))
  | throws (hp : ¬ P) (e : JsError) : Settles P (.error e)

theorem Scope.runComparison_number (source : JsString) (op : Rel) (n : JsNumber)
    (y : Except JsError Val) :
    Settles (∃ p, y.bind Val.toPrim = .ok p)
      (sc.runComparison source op (.ok (.prim (.num n))) y) := by
  have hno : ∀ e : JsError, ¬ ∃ p : Prim, (Except.error e : Except JsError Prim) = .ok p := by
    rintro e ⟨p, hp⟩
    cases hp
  cases y with
  | error e => cases e <;> exact .throws (hno _) _
  | ok y =>
    cases y with
    | prim p => exact .answers ⟨p, rfl⟩ _
    | object convert =>
      have hrun : sc.runComparison source op (.ok (.prim (.num n))) (.ok (.object convert)) =
          (convert.map fun p => compare sc.round op (.num n) p).map Outcome.bool := by
        cases convert <;>
          simp [runComparison, compareVals, Val.toPrim, Except.map, bind, Except.bind, pure,
            Except.pure]
      rw [hrun]
      cases convert with
      | error e => exact .throws (hno e) e
      | ok p => exact .answers ⟨p, rfl⟩ _

theorem Scope.runTokens_binary (source : JsString) {t : Token} (ts : List Token)
    (h : t.isBinary = true) : sc.runTokens source (t :: ts) = .error .syntaxError := by
  simp [runTokens, h]

theorem Scope.runTokens_trailing (source : JsString) {t : Token} (ts : List Token)
    (h : t.isBinary = true) : sc.runTokens source (ts ++ [t]) = .error .syntaxError := by
  simp [runTokens, h]

theorem Scope.runTokens_comparison (source : JsString) {v b : Json} {ts us : List Token}
    (hts : OperandTokens v ts) (hus : OperandTokens b us) {x y : Except JsError Val}
    (hx : ∀ us, sc.readOperand (ts ++ us) = some (x, us))
    (hy : ∀ us', sc.readOperand (us ++ us') = some (y, us')) (op : Rel) :
    sc.runTokens source (ts ++ [.rel op] ++ us) = sc.runComparison source op x y := by
  obtain ⟨t, ts', rfl, hfirst, -⟩ := hts.ends
  obtain ⟨-, -, -, -, hlast⟩ := hus.ends
  have hlast' := hlast ((t :: ts') ++ [Token.rel op])
  have hsplit : sc.splitComparison ((t :: ts') ++ [.rel op] ++ us) = some (x, op, y) := by
    have hy' := hy []
    rw [List.append_nil] at hy'
    simp only [splitComparison, List.append_assoc, hx, List.singleton_append, hy']
  have hhead : ((t :: ts') ++ [Token.rel op] ++ us).head?.any Token.isBinary = false := hfirst
  rw [runTokens, if_neg (by simp), if_neg (by rw [hhead, hlast']; simp), hsplit]

theorem Scope.eval_plain {v b : Json} (hv : Plain v) (hnan : isNaN v = false) (hb : Plain b)
    (op : Rel) :
    Settles (sc.Readable v.toText ∧ sc.Readable b.toText)
      (sc.eval (v.toText ++ (relText op ++ b.toText))) := by
  have hop : Scans sc.round (relText op ++ b.toText) [.rel op] b.toText :=
    scans_relText op (plain_head hb)
  rcases scans_plain hv sc.round with ⟨ts, hts, hscan⟩ | hnil | hbad
  · obtain ⟨n, hn⟩ := hts.read_number sc hv hnan
    have hleft : sc.Readable v.toText := by
      have := Scope.operand_of_scans (by simpa using hscan [] Stops.nil) (by simpa using hn [])
      exact ⟨.num n, by rw [this]; rfl⟩
    have hfront := (hscan _ (stops_relText op b.toText)).append hop
    rw [and_iff_right hleft]
    rcases scans_plain hb sc.round with ⟨us, hus, hscan'⟩ | hnil' | hbad'
    · have hback : Scans sc.round b.toText us [] := by simpa using hscan' [] Stops.nil
      obtain ⟨y, hy⟩ := hus.read sc
      rw [Scope.eval_of_scans (hfront.append hback),
        Scope.runTokens_comparison _ hts hus hn hy op, Scope.Readable,
        Scope.operand_of_scans hback (by simpa using hy [])]
      exact Scope.runComparison_number _ op n y
    · rw [hnil'] at hfront ⊢
      rw [Scope.eval_of_scans hfront, Scope.runTokens_trailing _ ts rfl]
      exact .throws Scope.not_readable_nil _
    · have hill : nextToken sc.round b.toText = .illegal := by simpa using hbad' [] Stops.nil
      rw [Scope.eval_of_illegal hfront hill]
      exact .throws (Scope.not_readable_illegal hill) _
  · -- the program starts with the operator
    have hno : ¬ (sc.Readable v.toText ∧ sc.Readable b.toText) := fun h =>
      Scope.not_readable_nil (hnil ▸ h.1)
    rw [hnil, List.nil_append] at *
    rcases scans_plain hb sc.round with ⟨us, hus, hscan'⟩ | hnil' | hbad'
    · have hback : Scans sc.round b.toText us [] := by simpa using hscan' [] Stops.nil
      rw [Scope.eval_of_scans (hop.append hback), List.singleton_append,
        Scope.runTokens_binary _ us rfl]
      exact .throws hno _
    · rw [hnil'] at hop hno ⊢
      rw [Scope.eval_of_scans hop, Scope.runTokens_binary _ [] rfl]
      exact .throws hno _
    · rw [Scope.eval_of_illegal hop (by simpa using hbad' [] Stops.nil)]
      exact .throws hno _
  · rw [Scope.eval_of_illegal (.done _) (hbad _ (stops_relText op b.toText))]
    exact .throws (fun h => Scope.not_readable_illegal (by simpa using hbad [] Stops.nil) h.1) _

theorem Scope.eval_numerals (round : Rounding) (op : Rel) (a b : Numeral) :
    ∃ t, ∀ sc : Scope, sc.round = round → sc.eval (a.text ++ (relText op ++ b.text)) = .ok (.bool t) := by
  have hnumber : ∀ n : Numeral, ∃ x, ∀ (sc : Scope) (us : List Token),
      sc.readOperand (numeralTokens round n.text ++ us) = some (.ok (.prim (.num x)), us) := by
    intro n
    have htokens := operand_numeralTokens n round
    generalize numeralTokens round n.text = ts at htokens ⊢
    cases htokens with
    | num _ x => exact ⟨x, fun _ _ => rfl⟩
    | negative _ x => exact ⟨x.neg, fun _ _ => rfl⟩
  obtain ⟨x, hx⟩ := hnumber a
  obtain ⟨y, hy⟩ := hnumber b
  refine ⟨compare round op (.num x) (.num y), ?_⟩
  rintro sc rfl
  have hop : Scans sc.round (relText op ++ b.text) [.rel op] b.text :=
    scans_relText op (plain_head (v := .num b) (.inl ⟨b, rfl⟩))
  have hleft := scans_numeral a sc.round (stops_relText op b.text)
  have hright := scans_numeral b sc.round Stops.nil
  rw [List.append_nil] at hright
  rw [Scope.eval_of_scans ((hleft.append hop).append hright),
    Scope.runTokens_comparison _ (operand_numeralTokens a sc.round) (operand_numeralTokens b sc.round)
      (hx sc) (hy sc) op]
  rfl

def joinTexts (sep : JsString) : List JsString → JsString
  | [] => []
  | [x] => x
  | x :: y :: xs => x ++ (sep ++ joinTexts sep (y :: xs))

def Connective.combine : Connective → List Bool → Bool
  | .and, bs => bs.all id
  | .or, bs => bs.any id

def Outcome.Constant (o : Outcome) : Prop := (∃ b, o = .bool b) ∨ o = .nan

def Connective.joined (op : Connective) : List Outcome → Outcome
  | [] => .undefined
  | [o] => o
  | o :: o' :: os => if o.truthy = (op = .or) then o else op.joined (o' :: os)

theorem Connective.joined_truthy (op : Connective) (os : List Outcome) :
    (op.joined os).truthy = (!os.isEmpty && op.combine (os.map (·.truthy))) := by
  induction os with
  | nil => rfl
  | cons o os ih =>
    cases os with
    | nil => cases op <;> simp [joined, combine]
    | cons o' os => cases op <;> cases ho : o.truthy <;> simp_all [joined, combine]

def chainTokens (op : Connective) : List Outcome → List Token
  | [] => []
  | [o] => [.name o.text]
  | o :: o' :: os => .name o.text :: .logic op :: chainTokens op (o' :: os)

theorem scans_constant (round : Rounding) {o : Outcome} (ho : o.Constant) {r : JsString} (hr : Stops r) :
    Scans round (o.text ++ r) [.name o.text] r := by
  have hlen : r.length < (o.text ++ r).length := by
    rcases ho with ⟨b, rfl⟩ | rfl
    · cases b <;> simp [Outcome.bool, boolText, js] <;> omega
    · simp [Outcome.nan, js]
      omega
  refine .single ?_ hlen
  rcases ho with ⟨b, rfl⟩ | rfl
  · cases b with
    | true => exact nextToken_append (c := 116) (by decide) (js "rue") hr
    | false => exact nextToken_append (c := 102) (by decide) (js "alse") hr
  · exact nextToken_append (c := 78) (by decide) (js "aN") hr

theorem scans_joinTexts (round : Rounding) (op : Connective) {os : List Outcome}
    (hos : ∀ o ∈ os, o.Constant) :
    Scans round (joinTexts (connectiveText op) (os.map (·.text))) (chainTokens op os) [] := by
  induction os with
  | nil => exact .done []
  | cons o os ih =>
    have ho := hos o List.mem_cons_self
    cases os with
    | nil => simpa [joinTexts, chainTokens] using scans_constant round ho Stops.nil
    | cons o' os =>
      have hrest := (scans_connectiveText op _).append (ih fun x hx => hos x (List.mem_cons_of_mem o hx))
      exact (scans_constant round ho (stops_connectiveText op _)).append hrest

theorem Outcome.Constant.token {o : Outcome} (ho : o.Constant) :
    (Token.name o.text).constant = some o := by
  rcases ho with ⟨b, rfl⟩ | rfl
  · cases b <;> rfl
  · rfl

theorem chain_chainTokens (op : Connective) {os : List Outcome} (hos : ∀ o ∈ os, o.Constant)
    (h : os ≠ []) : chain op (chainTokens op os) = some (op.joined os) := by
  induction os with
  | nil => exact absurd rfl h
  | cons o os ih =>
    have ho := (hos o List.mem_cons_self).token
    cases os with
    | nil => exact ho
    | cons o' os =>
      have hrest := ih (fun x hx => hos x (List.mem_cons_of_mem o hx)) (by simp)
      simp only [chainTokens, chain, if_pos, ho, hrest, Connective.joined]

theorem chainTokens_ends (op : Connective) {os : List Outcome} (h : os ≠ []) :
    (∃ (o : Outcome) (ts : List Token), chainTokens op os = .name o.text :: ts ∧ ∀ t ∈ ts.head?, t = .logic op) ∧
      ∃ s, (chainTokens op os).getLast? = some (.name s) := by
  induction os with
  | nil => exact absurd rfl h
  | cons o os ih =>
    cases os with
    | nil => exact ⟨⟨o, [], rfl, by simp⟩, o.text, rfl⟩
    | cons o' os =>
      obtain ⟨⟨x, ts, hts, -⟩, s, hs⟩ := ih (by simp)
      refine ⟨⟨o, _, rfl, by simp⟩, s, ?_⟩
      rw [chainTokens, List.getLast?_cons_cons, hts, List.getLast?_cons_cons, ← hts, hs]

theorem Scope.eval_joinTexts (op : Connective) {os : List Outcome} (hos : ∀ o ∈ os, o.Constant) :
    sc.eval (joinTexts (connectiveText op) (os.map (·.text))) = .ok (op.joined os) := by
  rw [Scope.eval_of_scans (scans_joinTexts sc.round op hos)]
  by_cases h : os = []
  · subst h
    rfl
  have hchain := chain_chainTokens op hos h
  obtain ⟨⟨o, ts, hts, hhead⟩, s, hlast⟩ := chainTokens_ends op h
  have hsplit : sc.splitComparison (chainTokens op os) = none := by
    rw [hts]
    cases ts with
    | nil => rfl
    | cons t ts =>
      obtain rfl := hhead t rfl
      rfl
  have hany : (chain .and (chainTokens op os)).or (chain .or (chainTokens op os)) =
      some (op.joined os) := by
    cases op with
    | and => rw [hchain]; rfl
    | or =>
      -- with more than one value the tokens are no conjunction
      cases ts with
      | nil =>
        rw [hts] at hchain ⊢
        simp only [chain] at hchain ⊢
        rw [hchain]; rfl
      | cons t ts =>
        obtain rfl := hhead t rfl
        have hnone : chain .and (chainTokens .or os) = none := by rw [hts]; rfl
        rw [hnone, hchain]; rfl
  have hbinary : (chainTokens op os).head?.any Token.isBinary = false := by rw [hts]; rfl
  have hne : chainTokens op os ≠ [] := by rw [hts]; simp
  rw [Scope.runTokens, if_neg hne, if_neg (by rw [hbinary, hlast]; simp [Token.isBinary]), hsplit,
    hany]

end Ecma
