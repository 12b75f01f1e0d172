import GlobalsJs.Ecma.Scanner

/-!
# From source text to tokens

`nextToken` reads one token and `lex` all of them. A word or a numeral is read
the same way whatever operator follows it.
-/

namespace Ecma

inductive Connective
  | and | or
deriving DecidableEq

inductive Token
  | num (n : JsNumber)
  | str (s : JsString)
  | name (s : JsString)
  | minus
  | rel (op : Rel)
  | logic (op : Connective)
deriving DecidableEq

inductive Next
  | done
  | illegal
  | unread
  | token (t : Token) (rest : JsString)
deriving DecidableEq

def isNameStart (c : CodeUnit) : Bool := isLetter c || c = underscore || c = dollar
def isNamePart (c : CodeUnit) : Bool := isNameStart c || isDigit c

/-- Units that may belong to a name in ways that are not read here. -/
def isForeign (c : CodeUnit) : Bool := c = backslash || 128 ≤ c

def endNumber (n : JsNumber) (rest : JsString) : Next :=
  match rest.head? with
  | none => .token (.num n) rest
  | some c =>
    if isNamePart c then .illegal
    else if isForeign c then .unread
    else .token (.num n) rest

def isExponentMark (c : CodeUnit) : Bool := c = 101 || c = 69

def scanNumber (round : Rounding) (s : JsString) : Next :=
  let ds := s.takeWhile isDigit
  let r := s.dropWhile isDigit
  if ds = [zero] ∧ (r.head? = some 120 ∨ r.head? = some 88) then
    let hs := r.tail.takeWhile isHex
    if hs = [] then .illegal
    else endNumber (round ⟨readRadix 16 hs, 0⟩) (r.tail.dropWhile isHex)
  else if 2 ≤ ds.length ∧ ds.head? = some zero ∧ ds.all isOctal then
    if r.head?.any isExponentMark then .illegal
    else endNumber (round ⟨readRadix 8 ds, 0⟩) r
  else
    match readDecimal s with
    | some (d, t) => endNumber (round d) t
    | none => .illegal

def scanName (s : JsString) : Next :=
  if (s.dropWhile isNamePart).head?.any isForeign then .unread
  else .token (.name (s.takeWhile isNamePart)) (s.dropWhile isNamePart)

def scanOperator (c : CodeUnit) (r : JsString) : Next :=
  if c = equals then
    if r.head? = some equals ∧ r.tail.head? ≠ some equals then .token (.rel .eq) r.tail else .unread
  else if c = bang then
    if r.head? = some equals ∧ r.tail.head? ≠ some equals then .token (.rel .ne) r.tail else .unread
  else if c = less then
    if r.head? = some equals then .token (.rel .le) r.tail
    else if r.head? = some less ∨ r.head? = some bang then .unread
    else .token (.rel .lt) r
  else if c = greater then
    if r.head? = some equals then .token (.rel .ge) r.tail
    else if r.head? = some greater then .unread
    else .token (.rel .gt) r
  else if c = ampersand then
    if r.head? = some ampersand then .token (.logic .and) r.tail else .unread
  else if c = bar then
    if r.head? = some bar then .token (.logic .or) r.tail else .unread
  else if c = minus then
    if r.head? = some minus ∨ r.head? = some equals then .unread else .token .minus r
  else .unread

def nextToken (round : Rounding) (s : JsString) : Next :=
  match s.dropWhile isWhite with
  | [] => .done
  | c :: r =>
    if c = quote then
      match scanString 0 r with
      | some (x, t) => .token (.str x) t
      | none => .illegal
    else if isDigit c ∨ c = dot ∧ r.head?.any isDigit then scanNumber round (c :: r)
    else if isNameStart c then scanName (c :: r)
    else scanOperator c r

inductive Lexed
  | tokens (ts : List Token)
  | illegal
  | unread
deriving DecidableEq

def Lexed.cons (t : Token) : Lexed → Lexed
  | .tokens ts => .tokens (t :: ts)
  | l => l

section
variable (round : Rounding)

def lexFuel : ℕ → JsString → Lexed
  | 0, _ => .unread
  | n + 1, s =>
    match nextToken round s with
    | .done => .tokens []
    | .illegal => .illegal
    | .unread => .unread
    | .token t r => (lexFuel n r).cons t

def lex (s : JsString) : Lexed := lexFuel round (s.length + 1) s

end

variable {round : Rounding}

def relText : Rel → JsString
  | .eq => js "=="
  | .ne => js "!="
  | .lt => js "<"
  | .le => js "<="
  | .gt => js ">"
  | .ge => js ">="

def connectiveText : Connective → JsString
  | .and => js "&&"
  | .or => js "||"

def isStop (c : CodeUnit) : Bool :=
  c = equals || c = bang || c = less || c = greater || c = ampersand || c = bar

def Stops (r : JsString) : Prop := ∀ c ∈ r.head?, isStop c = true

theorem Stops.nil : Stops [] := by simp [Stops]

theorem stops_relText (op : Rel) (r : JsString) : Stops (relText op ++ r) := by
  intro c hc
  cases op <;> · obtain rfl := Option.some.inj hc; decide

theorem stops_connectiveText (op : Connective) (r : JsString) : Stops (connectiveText op ++ r) := by
  intro c hc
  cases op <;> · obtain rfl := Option.some.inj hc; decide

theorem Stops.head {r : JsString} (hr : Stops r) {p : CodeUnit → Bool}
    (hp : ∀ c ∈ [equals, bang, less, greater, ampersand, bar], p c = false) :
    ∀ c ∈ r.head?, p c = false := by
  intro c hc
  have := hr c hc
  simp only [isStop, Bool.or_eq_true, decide_eq_true_eq] at this
  exact hp c (by simp [or_assoc] at this ⊢; exact this)

theorem nextToken_operator {c : CodeUnit} (hc : isStop c = true) (r : JsString) :
    nextToken round (c :: r) = scanOperator c r := by
  simp only [isStop, Bool.or_eq_true, decide_eq_true_eq] at hc
  rcases hc with ((((rfl | rfl) | rfl) | rfl) | rfl) | rfl <;> rfl

theorem nextToken_relText (op : Rel) {r : JsString} (hr : ∀ c ∈ r.head?, isStop c = false) :
    nextToken round (relText op ++ r) = .token (.rel op) r := by
  have hne : ∀ c : CodeUnit, isStop c = true → r.head? ≠ some c := by
    intro c hc h
    rw [hr c h] at hc
    cases hc
  have heq := hne equals (by decide)
  have hlt := hne less (by decide)
  have hgt := hne greater (by decide)
  have hbang := hne bang (by decide)
  have hfirst : ∀ c s, isStop c = true → relText op ++ r = c :: s →
      nextToken round (relText op ++ r) = scanOperator c s := by
    intro c s hc hs
    rw [hs, nextToken_operator hc]
  cases op with
  | eq => rw [hfirst equals (equals :: r) rfl rfl]; simp +decide [scanOperator, heq]
  | ne => rw [hfirst bang (equals :: r) rfl rfl]; simp +decide [scanOperator, heq]
  | lt => rw [hfirst less r rfl rfl]; simp +decide [scanOperator, heq, hlt, hbang]
  | le => rw [hfirst less (equals :: r) rfl rfl]; simp +decide [scanOperator]
  | gt => rw [hfirst greater r rfl rfl]; simp +decide [scanOperator, heq, hgt]
  | ge => rw [hfirst greater (equals :: r) rfl rfl]; simp +decide [scanOperator]

theorem nextToken_connectiveText (op : Connective) (r : JsString) :
    nextToken round (connectiveText op ++ r) = .token (.logic op) r := by
  have hfirst : ∀ c s, isStop c = true → connectiveText op ++ r = c :: s →
      nextToken round (connectiveText op ++ r) = scanOperator c s := by
    intro c s hc hs
    rw [hs, nextToken_operator hc]
  cases op with
  | and => rw [hfirst ampersand (ampersand :: r) rfl rfl]; simp +decide [scanOperator]
  | or => rw [hfirst bar (bar :: r) rfl rfl]; simp +decide [scanOperator]

theorem nextToken_literal {a x : JsString} (h : literalValue 0 a = some x) (r : JsString) :
    nextToken round (quote :: a ++ quote :: r) = .token (.str x) r := by
  have hscan := (scanString_append 0 a r x).mpr h
  have hwhite : (quote :: (a ++ quote :: r)).dropWhile isWhite = quote :: (a ++ quote :: r) := rfl
  rw [List.cons_append, nextToken, hwhite]
  simp only [if_true, hscan]

def Next.append (r : JsString) : Next → Next
  | .token t u => .token t (u ++ r)
  | n => n

section
variable {r : JsString} (hr : Stops r)
include hr

theorem head_append_of_stops {c : CodeUnit} (hc : isStop c = false) (s : JsString) :
    (s ++ r).head? = some c ↔ s.head? = some c := by
  cases s with
  | nil =>
    refine ⟨fun h => ?_, fun h => by cases h⟩
    rw [hr c h] at hc
    cases hc
  | cons d s => simp

theorem any_head_append {p : CodeUnit → Bool}
    (hp : ∀ c ∈ [equals, bang, less, greater, ampersand, bar], p c = false) (s : JsString) :
    (s ++ r).head?.any p = s.head?.any p := by
  cases s with
  | nil =>
    have hhead := hr.head hp
    cases r with
    | nil => rfl
    | cons c r => simpa using hhead c rfl
  | cons c s => rfl

theorem digits_append (s : JsString) : (s ++ r).takeWhile isDigit = s.takeWhile isDigit ∧
    (s ++ r).dropWhile isDigit = s.dropWhile isDigit ++ r :=
  takeWhile_append_head s (hr.head (forall_mem_of_all (by decide)))

theorem readFraction_append (s : JsString) :
    readFraction (s ++ r) = ((readFraction s).1, (readFraction s).2 ++ r) := by
  cases s with
  | nil =>
    have hdot := (head_append_of_stops hr (c := dot) (by decide) []).not.mpr (by simp)
    cases r with
    | nil => rfl
    | cons c r =>
      have hc : c ≠ dot := by simpa using hdot
      simp [readFraction, hc]
  | cons c s =>
    by_cases hc : c = dot
    · simp [readFraction, hc, digits_append hr]
    · simp [readFraction, hc]

theorem dropSign_append (s : JsString) : dropSign (s ++ r) = dropSign s ++ r := by
  cases s with
  | nil =>
    have hsign := hr.head (p := fun c => c = minus || c = plus) (forall_mem_of_all (by decide))
    cases r with
    | nil => rfl
    | cons c r =>
      have hc : ¬ (c = minus ∨ c = plus) := by simpa using hsign c rfl
      simp [dropSign, hc]
  | cons c s =>
    by_cases hc : c = minus ∨ c = plus
    · simp [dropSign, hc]
    · simp [dropSign, hc]

theorem readExponent_append (s : JsString) :
    readExponent (s ++ r) = (readExponent s).map fun t => (t.1, t.2 ++ r) := by
  cases s with
  | nil =>
    have hmark := hr.head (p := isExponentMark) (forall_mem_of_all (by decide))
    cases r with
    | nil => rfl
    | cons c r =>
      have hc : ¬ (c = 101 ∨ c = 69) := by simpa [isExponentMark] using hmark c rfl
      simp [readExponent, hc]
  | cons c s =>
    have hsign := head_append_of_stops hr (c := minus) (by decide) s
    obtain ⟨htake, hdrop⟩ := digits_append hr (dropSign s)
    simp only [List.cons_append, readExponent, dropSign_append hr, htake, hdrop, hsign]
    split_ifs <;> rfl

theorem readDecimal_append (s : JsString) :
    readDecimal (s ++ r) = (readDecimal s).map fun t => (t.1, t.2 ++ r) := by
  obtain ⟨htake, hdrop⟩ := digits_append hr s
  simp only [readDecimal, htake, hdrop, readFraction_append hr, readExponent_append hr]
  split_ifs
  · rfl
  · cases readExponent (readFraction (s.dropWhile isDigit)).2 <;> rfl

theorem endNumber_append (n : JsNumber) (s : JsString) :
    endNumber n (s ++ r) = (endNumber n s).append r := by
  cases s with
  | nil =>
    have hpart := hr.head (p := isNamePart) (forall_mem_of_all (by decide))
    have hforeign := hr.head (p := isForeign) (forall_mem_of_all (by decide))
    cases r with
    | nil => rfl
    | cons c r => simp [endNumber, Next.append, hpart c rfl, hforeign c rfl]
  | cons c s =>
    simp only [endNumber, List.cons_append, List.head?_cons]
    split_ifs <;> rfl

theorem scanNumber_append (s : JsString) :
    scanNumber round (s ++ r) = (scanNumber round s).append r := by
  obtain ⟨htake, hdrop⟩ := digits_append hr s
  have hx := head_append_of_stops hr (c := 120) (by decide) (s.dropWhile isDigit)
  have hX := head_append_of_stops hr (c := 88) (by decide) (s.dropWhile isDigit)
  have hmark := any_head_append hr (p := isExponentMark) (forall_mem_of_all (by decide)) (s.dropWhile isDigit)
  simp only [scanNumber, htake, hdrop, hx, hX, hmark, readDecimal_append hr]
  by_cases hhex : s.takeWhile isDigit = [zero] ∧
      ((s.dropWhile isDigit).head? = some 120 ∨ (s.dropWhile isDigit).head? = some 88)
  · obtain ⟨c, u, hu⟩ : ∃ c u, s.dropWhile isDigit = c :: u := by
      cases hu : s.dropWhile isDigit with
      | nil => simp [hu] at hhex
      | cons c u => exact ⟨c, u, rfl⟩
    obtain ⟨htail, hrest⟩ := takeWhile_append_head u (hr.head (p := isHex) (forall_mem_of_all (by decide)))
    rw [if_pos hhex, if_pos hhex, hu, List.cons_append, List.tail_cons, List.tail_cons, htail,
      hrest]
    split_ifs
    · rfl
    · exact endNumber_append hr _ _
  · rw [if_neg hhex, if_neg hhex]
    split_ifs
    · rfl
    · exact endNumber_append hr _ _
    · cases hd : readDecimal s with
      | none => rfl
      | some t => exact endNumber_append hr _ _

theorem scanName_append (s : JsString) :
    scanName (s ++ r) = (scanName s).append r := by
  obtain ⟨htake, hdrop⟩ := takeWhile_append_head s (hr.head (p := isNamePart) (forall_mem_of_all (by decide)))
  have hforeign := any_head_append hr (p := isForeign) (forall_mem_of_all (by decide)) (s.dropWhile isNamePart)
  simp only [scanName, htake, hdrop, hforeign]
  split_ifs <;> rfl

end

theorem isWhite_of_namePart {c : CodeUnit} (hc : isNamePart c = true) :
    isWhite c = false ∧ c ≠ quote := by
  simp only [isNamePart, isNameStart, isLetter, isDigit, Bool.or_eq_true, Bool.and_eq_true,
    decide_eq_true_eq, UInt16.le_iff_toNat_le, ← UInt16.toNat_inj] at hc
  simp only [isWhite, Bool.or_eq_false_iff, Bool.and_eq_false_iff, decide_eq_false_iff_not,
    UInt16.le_iff_toNat_le, ne_eq, ← UInt16.toNat_inj]
  simp only [underscore, dollar, zero, nine, quote, UInt16.reduceToNat] at hc ⊢
  omega

theorem nextToken_namePart {c : CodeUnit} (hc : isNamePart c = true) (s : JsString) :
    nextToken round (c :: s) =
      if isDigit c then scanNumber round (c :: s) else scanName (c :: s) := by
  obtain ⟨hwhite, hquote⟩ := isWhite_of_namePart hc
  have hskip : (c :: s).dropWhile isWhite = c :: s := by simp [hwhite]
  have hdot : c ≠ dot := by rintro rfl; revert hc; decide
  rw [nextToken, hskip]
  by_cases hd : isDigit c = true
  · simp [hquote, hd]
  · have hstart : isNameStart c = true := by simpa [isNamePart, hd] using hc
    simp [hquote, hd, hdot, hstart]

theorem nextToken_append {c : CodeUnit} (hc : isNamePart c = true) (s : JsString) {r : JsString}
    (hr : Stops r) :
    nextToken round (c :: s ++ r) = (nextToken round (c :: s)).append r := by
  rw [List.cons_append, nextToken_namePart hc, nextToken_namePart hc]
  split_ifs
  · exact scanNumber_append hr (c :: s)
  · exact scanName_append hr (c :: s)

theorem readFraction_sublist (s : JsString) : (readFraction s).2.Sublist s := by
  cases s with
  | nil => exact List.Sublist.refl _
  | cons c s =>
    simp only [readFraction]
    split_ifs
    · exact (List.dropWhile_sublist _).trans (List.sublist_cons_self c s)
    · exact List.Sublist.refl _

theorem dropSign_sublist (s : JsString) : (dropSign s).Sublist s := by
  cases s with
  | nil => exact List.Sublist.refl _
  | cons c s =>
    simp only [dropSign]
    split_ifs
    · exact List.sublist_cons_self c s
    · exact List.Sublist.refl _

theorem readExponent_sublist {s t : JsString} {e : ℤ} (h : readExponent s = some (e, t)) :
    t.Sublist s := by
  cases s with
  | nil => cases h; exact List.Sublist.refl _
  | cons c s =>
    simp only [readExponent] at h
    split_ifs at h
    all_goals cases h
    · exact ((List.dropWhile_sublist _).trans (dropSign_sublist s)).trans
        (List.sublist_cons_self c s)
    · exact ((List.dropWhile_sublist _).trans (dropSign_sublist s)).trans
        (List.sublist_cons_self c s)
    · exact List.Sublist.refl _

theorem readDecimal_sublist {s t : JsString} {d : Decimal} (h : readDecimal s = some (d, t)) :
    t.Sublist s := by
  simp only [readDecimal] at h
  split_ifs at h
  obtain ⟨e, he, hd⟩ := Option.map_eq_some_iff.mp h
  obtain ⟨-, rfl⟩ := Prod.mk.inj hd
  exact ((readExponent_sublist he).trans (readFraction_sublist _)).trans (List.dropWhile_sublist _)

def Next.ofOption (t : Option Token) (r : JsString) : Next :=
  match t with
  | some t => .token t r
  | none => .illegal

theorem endNumber_word (n : JsNumber) {s : JsString} (hs : s.all isNamePart) :
    ∃ o, (∀ t ∈ o, ∃ n, t = .num n) ∧ endNumber n s = Next.ofOption o [] := by
  cases s with
  | nil => exact ⟨some (.num n), by simp, rfl⟩
  | cons c s =>
    have hc : isNamePart c = true := List.all_eq_true.mp hs c List.mem_cons_self
    exact ⟨none, by simp, by simp [endNumber, Next.ofOption, hc]⟩

theorem all_of_sublist {p : CodeUnit → Bool} {s t : JsString} (h : t.Sublist s) (hs : s.all p) :
    t.all p :=
  List.all_eq_true.mpr fun c hc => List.all_eq_true.mp hs c (h.subset hc)

theorem scanNumber_word {s : JsString} (hs : s.all isNamePart) :
    ∃ o, (∀ t ∈ o, ∃ n, t = .num n) ∧ scanNumber round s = Next.ofOption o [] := by
  have hrest := all_of_sublist (List.dropWhile_sublist isDigit) hs
  simp only [scanNumber]
  split_ifs
  · exact ⟨none, by simp, rfl⟩
  · exact endNumber_word _
      (all_of_sublist ((List.dropWhile_sublist _).trans (List.tail_sublist _)) hrest)
  · exact ⟨none, by simp, rfl⟩
  · exact endNumber_word _ hrest
  · cases hd : readDecimal s with
    | none => exact ⟨none, by simp, rfl⟩
    | some t => exact endNumber_word _ (all_of_sublist (readDecimal_sublist hd) hs)

theorem scanName_word {s : JsString} (hs : s.all isNamePart) :
    scanName s = .token (.name s) [] := by
  obtain ⟨htake, hdrop⟩ := takeWhile_append_stop (r := []) (List.all_eq_true.mp hs) (by simp)
  rw [List.append_nil] at htake hdrop
  simp [scanName, htake, hdrop]

theorem nextToken_word {s : JsString} (hne : s ≠ []) (hs : s.all isNamePart) :
    ∃ o, (∀ t ∈ o, (∃ n, t = .num n) ∨ t = .name s ∧ s.head?.any isDigit = false) ∧
      ∀ r, Stops r → nextToken round (s ++ r) = Next.ofOption o r := by
  obtain ⟨c, s, rfl⟩ := List.exists_cons_of_ne_nil hne
  have hc : isNamePart c = true := List.all_eq_true.mp hs c List.mem_cons_self
  have halone : ∃ o, (∀ t ∈ o, (∃ n, t = .num n) ∨ t = .name (c :: s) ∧ isDigit c = false) ∧
      nextToken round (c :: s) = Next.ofOption o [] := by
    rw [nextToken_namePart hc]
    split_ifs with hd
    · obtain ⟨o, hnum, ho⟩ := scanNumber_word hs
      exact ⟨o, fun t ht => Or.inl (hnum t ht), ho⟩
    · exact ⟨some (.name (c :: s)), by simpa using hd, scanName_word hs⟩
  obtain ⟨o, hop, ho⟩ := halone
  refine ⟨o, hop, fun r hr => ?_⟩
  rw [nextToken_append hc s hr, ho]
  cases o <;> rfl

theorem scanNumber_of_isUnsigned {s : JsString} (h : isUnsigned s = true) :
    scanNumber round s = .token (.num (numberOf round s)) [] := by
  obtain ⟨hzero, -, -⟩ := unsigned_parts h
  obtain ⟨hx, hX⟩ := not_hex_of_isUnsigned h
  obtain ⟨d, hd⟩ := readDecimal_of_isUnsigned h
  have hhex : ¬ (s.takeWhile isDigit = [zero] ∧
      ((s.dropWhile isDigit).head? = some 120 ∨ (s.dropWhile isDigit).head? = some 88)) :=
    fun hpre => hpre.2.elim hx hX
  have hoct : ¬ (2 ≤ (s.takeWhile isDigit).length ∧ (s.takeWhile isDigit).head? = some zero ∧
      (s.takeWhile isDigit).all isOctal = true) := by
    rintro ⟨hlen, hhead, -⟩
    rcases hzero with hzero | hzero
    · exact hzero hhead
    · omega
  simp only [scanNumber, if_neg hhex, if_neg hoct, hd, numberOf, readNumberText_unsigned h hd]
  rfl

theorem nextToken_unsigned {s : JsString} (h : isUnsigned s = true) {r : JsString} (hr : Stops r) :
    nextToken round (s ++ r) = .token (.num (numberOf round s)) r := by
  have hscan : scanNumber round s = _ := scanNumber_of_isUnsigned h
  obtain ⟨c, s, rfl, hc⟩ := unsigned_digit h
  have hpart : isNamePart c = true := by simp [isNamePart, hc]
  rw [nextToken_append hpart s hr, nextToken_namePart hpart, if_pos hc, hscan]
  rfl

theorem nextToken_minus {c : CodeUnit} (hc : isDigit c = true) (s : JsString) :
    nextToken round (minus :: c :: s) = .token .minus (c :: s) := by
  have hminus : c ≠ minus := by rintro rfl; revert hc; decide
  have hequals : c ≠ equals := by rintro rfl; revert hc; decide
  have hop : nextToken round (minus :: c :: s) = scanOperator minus (c :: s) := rfl
  rw [hop]
  simp +decide [scanOperator, hminus, hequals]

/-- Reading the tokens `ts` from `s` leaves `r`. -/
inductive Scans (round : Rounding) : JsString → List Token → JsString → Prop
  | done (s : JsString) : Scans round s [] s
  | token {s m r : JsString} {t : Token} {ts : List Token} : nextToken round s = .token t m →
      m.length < s.length → Scans round m ts r → Scans round s (t :: ts) r

theorem Scans.single {s r : JsString} {t : Token} (h : nextToken round s = .token t r)
    (hlen : r.length < s.length) : Scans round s [t] r := .token h hlen (.done r)

theorem Scans.append {s m r : JsString} {ts us : List Token} (h : Scans round s ts m)
    (h' : Scans round m us r) : Scans round s (ts ++ us) r := by
  induction h with
  | done => exact h'
  | token ht hlen _ ih => exact .token ht hlen (ih h')

theorem Scans.length {s r : JsString} {ts : List Token} (h : Scans round s ts r) :
    ts.length + r.length ≤ s.length := by
  induction h with
  | done => simp
  | token _ hlen _ ih =>
    rw [List.length_cons]
    omega

theorem Scans.lexFuel {s r : JsString} {ts : List Token} (h : Scans round s ts r) (n : ℕ) :
    lexFuel round (n + ts.length) s = ts.foldr Lexed.cons (lexFuel round n r) := by
  induction h with
  | done => rfl
  | @token s m r t ts ht _ _ ih =>
    rw [List.length_cons, ← Nat.add_assoc, List.foldr_cons, ← ih]
    simp only [Ecma.lexFuel, ht]

theorem Scans.lex_eq {s r : JsString} {ts : List Token} (h : Scans round s ts r) :
    ∃ n, lex round s = ts.foldr Lexed.cons (Ecma.lexFuel round (n + 1) r) := by
  obtain ⟨n, hn⟩ : ∃ n, s.length + 1 = n + 1 + ts.length :=
    ⟨s.length - ts.length, by have := h.length; omega⟩
  exact ⟨n, by rw [lex, hn, h.lexFuel]⟩

theorem foldr_cons_tokens (ts us : List Token) :
    ts.foldr Lexed.cons (.tokens us) = .tokens (ts ++ us) := by
  induction ts with
  | nil => rfl
  | cons t ts ih => rw [List.foldr_cons, ih]; rfl

theorem foldr_cons_illegal (ts : List Token) : ts.foldr Lexed.cons .illegal = .illegal := by
  induction ts with
  | nil => rfl
  | cons t ts ih => rw [List.foldr_cons, ih]; rfl

theorem Scans.lex_tokens {s : JsString} {ts : List Token} (h : Scans round s ts []) :
    lex round s = .tokens ts := by
  obtain ⟨n, hn⟩ := h.lex_eq
  rw [hn, show Ecma.lexFuel round (n + 1) [] = .tokens [] from rfl, foldr_cons_tokens,
    List.append_nil]

theorem Scans.lex_illegal {s r : JsString} {ts : List Token} (h : Scans round s ts r)
    (hr : nextToken round r = .illegal) : lex round s = .illegal := by
  obtain ⟨n, hn⟩ := h.lex_eq
  rw [hn, show Ecma.lexFuel round (n + 1) r = .illegal by simp only [Ecma.lexFuel, hr],
    foldr_cons_illegal]

theorem scans_relText (op : Rel) {r : JsString} (hr : ∀ c ∈ r.head?, isStop c = false) :
    Scans round (relText op ++ r) [.rel op] r :=
  .single (nextToken_relText op hr) (by cases op <;> simp [relText, js])

theorem scans_connectiveText (op : Connective) (r : JsString) :
    Scans round (connectiveText op ++ r) [.logic op] r :=
  .single (nextToken_connectiveText op r) (by cases op <;> simp [connectiveText, js])

theorem scans_literal {a x : JsString} (h : literalValue 0 a = some x) (r : JsString) :
    Scans round (quote :: a ++ quote :: r) [.str x] r :=
  .single (nextToken_literal h r) (by simp; omega)

end Ecma
