import GlobalsJs.Ecma.JsonParse
import GlobalsJs.Ecma.Value

/-!
# Numbers, conversion and comparison

A number is kept as a decimal. How a decimal is rounded to a machine number is a
parameter, so nothing below depends on it. `readNumberText` is the text that
`Number()` converts; `compare` is what the six comparison operators compute.
-/

namespace Ecma

structure Decimal where
  coeff : ℤ
  exp : ℤ
deriving DecidableEq

inductive JsNumber
  | nan
  | infinite (negative : Bool)
  | finite (d : Decimal)
deriving DecidableEq

abbrev Rounding := Decimal → JsNumber

def isHex (c : CodeUnit) : Bool := (Json.hexValue c).isSome

def readRadix (radix : ℕ) (s : JsString) : ℕ :=
  s.foldl (fun acc c => radix * acc + (Json.hexValue c).getD 0) 0

def readFraction : JsString → JsString × JsString
  | [] => ([], [])
  | c :: r => if c = dot then (r.takeWhile isDigit, r.dropWhile isDigit) else ([], c :: r)

def readExponent : JsString → Option (ℤ × JsString)
  | [] => some (0, [])
  | c :: r =>
    if c = 101 ∨ c = 69 then
      let ds := (dropSign r).takeWhile isDigit
      if ds = [] then none
      else
        some (if r.head? = some minus then -(readNat ds : ℤ) else readNat ds,
          (dropSign r).dropWhile isDigit)
    else some (0, c :: r)

def readDecimal (s : JsString) : Option (Decimal × JsString) :=
  let ds := s.takeWhile isDigit
  let fs := readFraction (s.dropWhile isDigit)
  if ds ++ fs.1 = [] then none
  else (readExponent fs.2).map fun e => (⟨readNat (ds ++ fs.1), e.1 - fs.1.length⟩, e.2)

inductive NumberText
  | infinity (negative : Bool)
  | decimal (d : Decimal)
deriving DecidableEq

def isWhite (c : CodeUnit) : Bool :=
  (9 ≤ c && c ≤ 13) || c = 32 || c = 133 || c = 160 || c = 5760 || c = 6158 ||
    (8192 ≤ c && c ≤ 8202) || c = 8232 || c = 8233 || c = 8239 || c = 8287 || c = 12288

def readUnsigned (negative : Bool) (s : JsString) : Option NumberText :=
  let sign : ℤ := if negative then -1 else 1
  if (js "Infinity").isPrefixOf s then
    if (s.drop 8).all isWhite then some (.infinity negative) else none
  else if (js "0x").isPrefixOf s || (js "0X").isPrefixOf s then
    let hs := (s.drop 2).takeWhile isHex
    if hs ≠ [] ∧ ((s.drop 2).dropWhile isHex).all isWhite then
      some (.decimal ⟨sign * readRadix 16 hs, 0⟩)
    else none
  else
    match readDecimal s with
    | some (d, r) => if r.all isWhite then some (.decimal ⟨sign * d.coeff, d.exp⟩) else none
    | none => none

def readNumberText (s : JsString) : Option NumberText :=
  match s.dropWhile isWhite with
  | [] => some (.decimal ⟨0, 0⟩)
  | c :: r =>
    if c = minus then readUnsigned true r
    else if c = plus then readUnsigned false r
    else readUnsigned false (c :: r)

def isNaN : Json → Bool
  | .null | .bool _ | .num _ => false
  | v => (readNumberText v.toText).isNone

inductive Prim
  | undefined
  | null
  | bool (b : Bool)
  | num (n : JsNumber)
  | str (s : JsString)
deriving DecidableEq

section
variable (round : Rounding)

def numberOf (s : JsString) : JsNumber :=
  match readNumberText s with
  | none => .nan
  | some (.infinity negative) => .infinite negative
  | some (.decimal d) => round d

def Prim.toNumber : Prim → JsNumber
  | .undefined => .nan
  | .null => round ⟨0, 0⟩
  | .bool b => round ⟨if b then 1 else 0, 0⟩
  | .num n => n
  | .str s => numberOf round s

def Json.prim : Json → Prim
  | .null => .null
  | .bool b => .bool b
  | .num n => .num (numberOf round n.text)
  | .str s => .str s
  | v => .str v.toText

def Decimal.scaled (d : Decimal) (e : ℤ) : ℤ := d.coeff * 10 ^ (d.exp - e).toNat

def JsNumber.eq : JsNumber → JsNumber → Bool
  | .finite a, .finite b => a.scaled (min a.exp b.exp) = b.scaled (min a.exp b.exp)
  | .infinite a, .infinite b => a = b
  | _, _ => false

def JsNumber.less : JsNumber → JsNumber → Option Bool
  | .nan, _ | _, .nan => none
  | .finite a, .finite b => some (a.scaled (min a.exp b.exp) < b.scaled (min a.exp b.exp))
  | .infinite a, .infinite b => some (a && !b)
  | .infinite a, .finite _ => some a
  | .finite _, .infinite b => some !b

def looseEq : Prim → Prim → Bool
  | .undefined, .undefined | .undefined, .null | .null, .undefined | .null, .null => true
  | .undefined, _ | .null, _ | _, .undefined | _, .null => false
  | .str a, .str b => a = b
  | a, b => (a.toNumber round).eq (b.toNumber round)

def lessThan : Prim → Prim → Option Bool
  | .str a, .str b => some (a < b)
  | a, b => (a.toNumber round).less (b.toNumber round)

inductive Rel
  | eq | ne | lt | le | gt | ge
deriving DecidableEq

def compare (op : Rel) (a b : Prim) : Bool :=
  match op with
  | .eq => looseEq round a b
  | .ne => !looseEq round a b
  | .lt => lessThan round a b = some true
  | .le => lessThan round b a = some false
  | .gt => lessThan round b a = some true
  | .ge => lessThan round a b = some false

end

def primOf (round : Rounding) : Option Json → Prim
  | none => .undefined
  | some v => v.prim round

def Json.isObject : Json → Bool
  | .arr _ | .obj _ => true
  | _ => false

/-- `a == b` for values that were read separately: no two objects are the same one. -/
def looseEqual (round : Rounding) (a b : Option Json) : Bool :=
  !(a.any Json.isObject && b.any Json.isObject) && looseEq round (primOf round a) (primOf round b)

def compareText : Rel → JsString → JsString → Bool
  | .eq, a, b => a = b
  | .ne, a, b => a ≠ b
  | .lt, a, b => a < b
  | .le, a, b => a ≤ b
  | .gt, a, b => b < a
  | .ge, a, b => b ≤ a

theorem compare_str (round : Rounding) (op : Rel) (a b : JsString) :
    compare round op (.str a) (.str b) = compareText op a b := by
  cases op with
  | eq | ne | lt | gt => simp [compare, compareText, looseEq, lessThan]
  | le | ge => simp [compare, compareText, lessThan, List.not_lt]

theorem readExponent_of_isExponent {s : JsString} (h : isExponent s = true) :
    ∃ e, readExponent s = some (e, []) := by
  cases s with
  | nil => exact ⟨0, rfl⟩
  | cons c s =>
    simp only [isExponent, Bool.and_eq_true, Bool.or_eq_true, decide_eq_true_eq,
      Bool.not_eq_true', List.isEmpty_eq_false_iff] at h
    obtain ⟨⟨hc, hdigits⟩, hne⟩ := h
    obtain ⟨htake, hdrop⟩ :=
      takeWhile_append_stop (r := []) (List.all_eq_true.mp hdigits) (by simp)
    rw [List.append_nil] at htake hdrop
    simp only [readExponent, if_pos hc, htake, hdrop, if_neg hne]
    exact ⟨_, rfl⟩

theorem isExponent_of_isFraction {s : JsString} (h : isFraction s = true) :
    isExponent (readFraction s).2 = true := by
  cases s with
  | nil => rfl
  | cons c s =>
    simp only [isFraction] at h
    simp only [readFraction]
    split_ifs at h ⊢ with hc
    · exact ((Bool.and_eq_true _ _).mp h).2
    · exact h

section
variable {s : JsString} (h : isUnsigned s = true)
include h

theorem unsigned_parts : ((s.takeWhile isDigit).head? ≠ some zero ∨ (s.takeWhile isDigit).length = 1) ∧
    s.takeWhile isDigit ≠ [] ∧ isFraction (s.dropWhile isDigit) = true := by
  simp only [isUnsigned, Bool.and_eq_true, Bool.or_eq_true, bne_iff_ne, ne_eq, decide_eq_true_eq,
    Bool.not_eq_true', List.isEmpty_eq_false_iff] at h
  exact ⟨h.1.1, h.1.2, h.2⟩

theorem unsigned_digit : ∃ c r, s = c :: r ∧ isDigit c = true := by
  obtain ⟨-, hne, -⟩ := unsigned_parts h
  cases s with
  | nil => exact absurd rfl hne
  | cons c r =>
    refine ⟨c, r, rfl, ?_⟩
    by_contra hc
    exact hne (by simp [hc])

theorem readDecimal_of_isUnsigned : ∃ d, readDecimal s = some (d, []) := by
  obtain ⟨-, hne, hfrac⟩ := unsigned_parts h
  obtain ⟨e, he⟩ := readExponent_of_isExponent (isExponent_of_isFraction hfrac)
  have hdigits : s.takeWhile isDigit ++ (readFraction (s.dropWhile isDigit)).1 ≠ [] :=
    List.append_ne_nil_of_left_ne_nil hne _
  simp only [readDecimal, if_neg hdigits, he]
  exact ⟨_, rfl⟩

theorem not_hex_of_isUnsigned : (s.dropWhile isDigit).head? ≠ some 120 ∧
    (s.dropWhile isDigit).head? ≠ some 88 := by
  obtain ⟨-, -, hfrac⟩ := unsigned_parts h
  cases hr : s.dropWhile isDigit with
  | nil => simp
  | cons c r =>
    rw [hr] at hfrac
    constructor <;>
    · intro hc
      obtain rfl := Option.some.inj hc
      simp +decide [isFraction, isExponent] at hfrac

theorem readUnsigned_of_isUnsigned (negative : Bool) {d : Decimal} (hd : readDecimal s = some (d, [])) :
    readUnsigned negative s = some (.decimal ⟨(if negative then -1 else 1) * d.coeff, d.exp⟩) := by
  obtain ⟨hx, hX⟩ := not_hex_of_isUnsigned h
  obtain ⟨c, r, rfl, hc⟩ := unsigned_digit h
  have hinf : (js "Infinity").isPrefixOf (c :: r) = false := by
    have hne : (73 : CodeUnit) ≠ c := by rintro rfl; revert hc; decide
    simp [js, List.isPrefixOf, hne]
  have hhex : ∀ x : CodeUnit, isDigit x = false → ((c :: r).dropWhile isDigit).head? ≠ some x →
      [zero, x].isPrefixOf (c :: r) = false := by
    intro x hdigit hhead
    cases r with
    | nil => simp [List.isPrefixOf]
    | cons y r =>
      have hne : x ≠ y := by
        rintro rfl
        simp [hc, hdigit] at hhead
      simp [List.isPrefixOf, hne]
  have hlower : (js "0x").isPrefixOf (c :: r) = false := hhex 120 (by decide) hx
  have hupper : (js "0X").isPrefixOf (c :: r) = false := hhex 88 (by decide) hX
  simp [readUnsigned, hinf, hlower, hupper, hd]

end

theorem isWhite_of_digit {c : CodeUnit} (hc : isDigit c = true) : isWhite c = false := by
  simp only [isDigit, Bool.and_eq_true, decide_eq_true_eq, UInt16.le_iff_toNat_le] at hc
  simp only [isWhite, Bool.or_eq_false_iff, Bool.and_eq_false_iff, decide_eq_false_iff_not,
    UInt16.le_iff_toNat_le, ← UInt16.toNat_inj]
  simp only [zero, nine, UInt16.reduceToNat] at hc ⊢
  omega

theorem readNumberText_unsigned {s : JsString} (h : isUnsigned s = true) {d : Decimal}
    (hd : readDecimal s = some (d, [])) : readNumberText s = some (.decimal d) := by
  have hread := readUnsigned_of_isUnsigned h false hd
  obtain ⟨c, r, rfl, hc⟩ := unsigned_digit h
  have hskip : (c :: r).dropWhile isWhite = c :: r := by simp [isWhite_of_digit hc]
  have hminus : c ≠ minus := by rintro rfl; revert hc; decide
  have hplus : c ≠ plus := by rintro rfl; revert hc; decide
  simp [readNumberText, hskip, hminus, hplus, hread]

theorem readNumberText_minus {s : JsString} (h : isUnsigned s = true) {d : Decimal}
    (hd : readDecimal s = some (d, [])) :
    readNumberText (minus :: s) = some (.decimal ⟨-d.coeff, d.exp⟩) := by
  have hskip : (minus :: s).dropWhile isWhite = minus :: s := rfl
  simp [readNumberText, hskip, readUnsigned_of_isUnsigned h true hd]

theorem readDecimal_natText (n : ℕ) : readDecimal (natText n) = some (⟨n, 0⟩, []) := by
  obtain ⟨htake, hdrop⟩ := takeWhile_append_stop (r := []) (natText_isDigit n) (by simp)
  rw [List.append_nil] at htake hdrop
  simp [readDecimal, htake, hdrop, readFraction, readExponent, natText_ne_nil, readNat_natText]

theorem readNumberText_intText (n : ℤ) : readNumberText (intText n) = some (.decimal ⟨n, 0⟩) := by
  cases n with
  | ofNat n => exact readNumberText_unsigned (isUnsigned_natText n) (readDecimal_natText n)
  | negSucc n => exact readNumberText_minus (isUnsigned_natText (n + 1)) (readDecimal_natText (n + 1))

theorem prim_ofInt (round : Rounding) (n : ℤ) :
    (Json.ofInt n).prim round = .num (round ⟨n, 0⟩) := by
  have htext : (Numeral.ofInt n).text = intText n := rfl
  simp only [Json.ofInt, Json.prim, htext, numberOf, readNumberText_intText]

end Ecma
