import GlobalsJs.Ecma.Text

/-!
# JSON values and their printed text

A number is carried by the numeral the language prints for it, which is what
both `JSON.stringify` and string concatenation produce. An object is the list of
its own properties in enumeration order. `Json.WF` says that no object lists a
key twice, which holds of every object of the running program.
-/

namespace Ecma

def dropSign (s : JsString) : JsString :=
  match s with
  | c :: r => if c = minus ∨ c = plus then r else s
  | [] => []

def isExponent : JsString → Bool
  | [] => true
  | c :: s => (c = 101 || c = 69) && (dropSign s).all isDigit && !(dropSign s).isEmpty

def isFraction : JsString → Bool
  | [] => true
  | c :: s =>
    if c = dot then !(s.takeWhile isDigit).isEmpty && isExponent (s.dropWhile isDigit)
    else isExponent (c :: s)

def isUnsigned (s : JsString) : Bool :=
  let ds := s.takeWhile isDigit
  (ds.head? != some zero || ds.length = 1) && !ds.isEmpty && isFraction (s.dropWhile isDigit)

def isNumeral : JsString → Bool
  | [] => false
  | c :: s => if c = minus then isUnsigned s else isUnsigned (c :: s)

def isNumeralUnit (c : CodeUnit) : Bool :=
  isDigit c || c = minus || c = plus || c = dot || c = 101 || c = 69

structure Numeral where
  text : JsString
  numeral : isNumeral text = true
  units : text.all isNumeralUnit = true
deriving DecidableEq

theorem isUnsigned_natText (n : ℕ) : isUnsigned (natText n) = true := by
  have hsplit := takeWhile_append_stop (r := []) (natText_isDigit n) (by simp)
  rw [List.append_nil] at hsplit
  have hne : natText n ≠ [] := natText_ne_nil n
  have hhead : (natText n).head? ≠ some zero ∨ (natText n).length = 1 := by
    by_cases hn : n = 0
    · subst hn; right; rfl
    · obtain ⟨c, s, hcs, hc⟩ := natText_head hn
      left; simpa [hcs] using hc
  simpa [isUnsigned, hsplit.1, hsplit.2, isFraction, hne] using hhead

theorem isNumeral_intText (n : ℤ) : isNumeral (intText n) = true := by
  cases n with
  | ofNat n =>
    have h := isUnsigned_natText n
    obtain ⟨c, s, hcs⟩ := List.exists_cons_of_ne_nil (natText_ne_nil n)
    have hc : c ≠ minus := by
      rintro rfl
      have := natText_isDigit n minus (by simp [hcs])
      revert this; decide
    simpa [intText, hcs, isNumeral, hc] using h
  | negSucc n => simpa [intText, isNumeral] using isUnsigned_natText (n + 1)

theorem intText_units (n : ℤ) : (intText n).all isNumeralUnit = true := by
  have hnat : ∀ m, ∀ c ∈ natText m, isNumeralUnit c = true := by
    intro m c hc
    simp [isNumeralUnit, natText_isDigit m c hc]
  rw [List.all_eq_true]
  cases n with
  | ofNat n => exact hnat n
  | negSucc n =>
    intro c hc
    rcases List.mem_cons.mp hc with rfl | hc
    · decide
    · exact hnat _ c hc

def Numeral.ofInt (n : ℤ) : Numeral := ⟨intText n, isNumeral_intText n, intText_units n⟩

theorem Numeral.text_ne_nil (n : Numeral) : n.text ≠ [] := by
  intro h
  have := n.numeral
  rw [h] at this
  exact absurd this (by decide)

inductive Json where
  | null
  | bool (b : Bool)
  | num (n : Numeral)
  | str (s : JsString)
  | arr (xs : List Json)
  | obj (ps : List (JsString × Json))

abbrev Props := List (JsString × Json)

namespace Json

def ofInt (n : ℤ) : Json := .num (.ofInt n)

theorem ofInt_nat_inj {m n : ℕ} : ofInt m = ofInt n ↔ m = n := by
  refine ⟨fun h => natText_inj.mp ?_, fun h => h ▸ rfl⟩
  exact congrArg Numeral.text (Json.num.inj h)

mutual
def decEq : (a b : Json) → Decidable (a = b)
  | .null, .null => isTrue rfl
  | .bool a, .bool b => decidable_of_iff (a = b) (by simp)
  | .num a, .num b => decidable_of_iff (a = b) (by simp)
  | .str a, .str b => decidable_of_iff (a = b) (by simp)
  | .arr a, .arr b => @decidable_of_iff _ (a = b) (by simp) (decEqElems a b)
  | .obj a, .obj b => @decidable_of_iff _ (a = b) (by simp) (decEqProps a b)
  | .null, .bool _ | .null, .num _ | .null, .str _ | .null, .arr _ | .null, .obj _
  | .bool _, .null | .bool _, .num _ | .bool _, .str _ | .bool _, .arr _ | .bool _, .obj _
  | .num _, .null | .num _, .bool _ | .num _, .str _ | .num _, .arr _ | .num _, .obj _
  | .str _, .null | .str _, .bool _ | .str _, .num _ | .str _, .arr _ | .str _, .obj _
  | .arr _, .null | .arr _, .bool _ | .arr _, .num _ | .arr _, .str _ | .arr _, .obj _
  | .obj _, .null | .obj _, .bool _ | .obj _, .num _ | .obj _, .str _ | .obj _, .arr _ =>
    isFalse nofun

def decEqElems : (as bs : List Json) → Decidable (as = bs)
  | [], [] => isTrue rfl
  | [], _ :: _ | _ :: _, [] => isFalse nofun
  | a :: as, b :: bs =>
    match decEq a b, decEqElems as bs with
    | isTrue h, isTrue hs => isTrue (by rw [h, hs])
    | isFalse h, _ => isFalse fun he => h (List.cons.inj he).1
    | _, isFalse hs => isFalse fun he => hs (List.cons.inj he).2

def decEqProps : (ps qs : List (JsString × Json)) → Decidable (ps = qs)
  | [], [] => isTrue rfl
  | [], _ :: _ | _ :: _, [] => isFalse nofun
  | (k, a) :: ps, (l, b) :: qs =>
    match decEq a b, decEqProps ps qs with
    | isTrue h, isTrue hs => decidable_of_iff (k = l) (by simp [h, hs])
    | isFalse h, _ => isFalse fun he => h (Prod.mk.inj (List.cons.inj he).1).2
    | _, isFalse hs => isFalse fun he => hs (List.cons.inj he).2
end

instance : DecidableEq Json := decEq

end Json

/-- `o[k]`, with `none` for `undefined`. -/
def get (ps : Props) (k : JsString) : Option Json := ps.lookup k

def put (ps : Props) (k : JsString) (v : Json) : Props :=
  match ps with
  | [] => [(k, v)]
  | (l, w) :: ps => if l = k then (k, v) :: ps else (l, w) :: put ps k v

def keys (ps : Props) : List JsString := ps.map Prod.fst

@[simp] theorem get_nil (k : JsString) : get [] k = none := rfl

theorem get_cons (l : JsString) (w : Json) (ps : Props) (k : JsString) :
    get ((l, w) :: ps) k = if k = l then some w else get ps k := by
  by_cases h : k = l
  · simp [get, h]
  · simp [get, List.lookup_cons, beq_false_of_ne h, h]

@[simp] theorem get_put (ps : Props) (k l : JsString) (v : Json) :
    get (put ps k v) l = if l = k then some v else get ps l := by
  induction ps with
  | nil => simp [put, get_cons]
  | cons p ps ih =>
    obtain ⟨m, w⟩ := p
    by_cases hm : m = k
    · by_cases hl : l = k <;> simp [put, get_cons, hm, hl]
    · by_cases hl : l = m
      · have : l ≠ k := fun h => hm (hl.symm.trans h)
        simp [put, get_cons, hm, hl]
      · simp [put, get_cons, hm, hl, ih]

theorem put_of_notMem {ps : Props} {k : JsString} (hk : k ∉ keys ps) (v : Json) :
    put ps k v = ps ++ [(k, v)] := by
  induction ps with
  | nil => rfl
  | cons p ps ih =>
    obtain ⟨l, w⟩ := p
    simp only [keys, List.map_cons, List.mem_cons, not_or] at hk
    simp [put, Ne.symm hk.1, ih hk.2]

theorem mem_of_get {ps : Props} {k : JsString} {v : Json} (h : get ps k = some v) :
    (k, v) ∈ ps := by
  induction ps with
  | nil => cases h
  | cons p ps ih =>
    obtain ⟨l, w⟩ := p
    rw [get_cons] at h
    split_ifs at h with hk
    · rw [hk, Option.some.inj h]; exact List.mem_cons_self
    · exact List.mem_cons_of_mem _ (ih h)

def build (raw : Props) : Props := raw.foldl (fun ps p => put ps p.1 p.2) []

theorem build_of_nodup {raw : Props} (h : (keys raw).Nodup) : build raw = raw := by
  suffices hgen : ∀ done : Props, (keys (done ++ raw)).Nodup →
      raw.foldl (fun ps p => put ps p.1 p.2) done = done ++ raw by
    exact hgen [] h
  clear h
  induction raw with
  | nil => intro done _; simp
  | cons p raw ih =>
    intro done hnd
    have hnot : p.1 ∉ keys done := by
      simp only [keys, List.map_append, List.map_cons] at hnd
      exact fun hmem => (List.nodup_append.mp hnd).2.2 _ hmem _ (by simp) rfl
    rw [List.foldl_cons, put_of_notMem hnot, ih _ (by simpa using hnd)]
    simp

namespace Json

mutual
def WF : Json → Prop
  | .arr xs => WFElems xs
  | .obj ps => (keys ps).Nodup ∧ WFProps ps
  | .null | .bool _ | .num _ | .str _ => True
def WFElems : List Json → Prop
  | [] => True
  | x :: xs => WF x ∧ WFElems xs
def WFProps : List (JsString × Json) → Prop
  | [] => True
  | (_, v) :: ps => WF v ∧ WFProps ps
end

@[simp] theorem wf_ofInt (n : ℤ) : (ofInt n).WF := trivial

theorem wf_arr_iff (xs : List Json) : (arr xs).WF ↔ ∀ v ∈ xs, v.WF := by
  induction xs with
  | nil => exact iff_of_true trivial fun v hv => absurd hv List.not_mem_nil
  | cons x xs ih =>
    rw [List.forall_mem_cons, ← ih]
    rfl

theorem wf_of_get {ps : Props} (h : WFProps ps) {k : JsString} {v : Json} (hv : get ps k = some v) :
    v.WF := by
  have hmem := mem_of_get hv
  clear hv
  induction ps with
  | nil => cases hmem
  | cons p ps ih =>
    rcases List.mem_cons.mp hmem with rfl | hmem
    · exact h.1
    · exact ih h.2 hmem

def hexDigit (d : ℕ) : CodeUnit := if d < 10 then (48 + d).toUInt16 else (87 + d).toUInt16

def escapeUnit (c : CodeUnit) : JsString :=
  if c = quote then [backslash, quote]
  else if c = backslash then [backslash, backslash]
  else if c = 8 then [backslash, 98]
  else if c = 12 then [backslash, 102]
  else if c = newline then [backslash, 110]
  else if c = carriage then [backslash, 114]
  else if c = tab then [backslash, 116]
  else if c < 32 then
    [backslash, 117, zero, zero, hexDigit (c.toNat / 16), hexDigit (c.toNat % 16)]
  else [c]

def quoted (s : JsString) : JsString := quote :: s.flatMap escapeUnit ++ [quote]

/-- `JSON.stringify` -/
def stringify : Json → JsString
  | .null => js "null"
  | .bool b => if b then js "true" else js "false"
  | .num n => n.text
  | .str s => quoted s
  | .arr xs => lbracket :: stringifyElems xs ++ [rbracket]
  | .obj ps => lbrace :: stringifyProps ps ++ [rbrace]
where
  stringifyElems : List Json → JsString
    | [] => []
    | [x] => stringify x
    | x :: y :: xs => stringify x ++ comma :: stringifyElems (y :: xs)
  stringifyProps : List (JsString × Json) → JsString
    | [] => []
    | [(k, v)] => quoted k ++ colon :: stringify v
    | (k, v) :: p :: ps => quoted k ++ colon :: stringify v ++ comma :: stringifyProps (p :: ps)

end Json

end Ecma
