import GlobalsJs.Ecma.Json

/-!
# Values in expressions

Property access, truth and conversion to text for the values that a program reads
from JSON. `undefined` is `none`.
-/

namespace Ecma

inductive JsError
  | syntaxError
  | referenceError (name : JsString)
  | typeError
  | error (message : JsString)
deriving DecidableEq

mutual
def Json.toText : Json → JsString
  | .null => js "null"
  | .bool b => if b then js "true" else js "false"
  | .num n => n.text
  | .str s => s
  | .arr xs => Json.joinText xs
  | .obj _ => js "[object Object]"

def Json.joinText : List Json → JsString
  | [] => []
  | [x] => if x = .null then [] else Json.toText x
  | x :: y :: xs =>
    (if x = .null then [] else Json.toText x) ++ comma :: Json.joinText (y :: xs)
end

def textOf : Option Json → JsString
  | none => js "undefined"
  | some v => v.toText

mutual
/-- A property `toString` of a JSON object is no function and hides the inherited one. -/
def Json.convertible : Json → Bool
  | .arr xs => Json.allConvertible xs
  | .obj ps => (get ps (js "toString")).isNone
  | _ => true

def Json.allConvertible : List Json → Bool
  | [] => true
  | x :: xs => Json.convertible x && Json.allConvertible xs
end

def convert : Option Json → Except JsError JsString
  | none => .ok (textOf none)
  | some v => if v.convertible then .ok v.toText else .error .typeError

def objectFunctions : List JsString :=
  ["toString", "toLocaleString", "valueOf", "hasOwnProperty", "isPrototypeOf",
    "propertyIsEnumerable", "__defineGetter__", "__lookupGetter__", "__defineSetter__",
    "__lookupSetter__"].map js

def nativeText (name : JsString) : JsString := js "function " ++ name ++ js "() { [native code] }"

def inheritedText (name : JsString) : Option JsString :=
  if name = js "constructor" then some (nativeText (js "Object"))
  else if name = js "__proto__" then some (js "[object Object]")
  else if name ∈ objectFunctions then some (nativeText name)
  else none

def member (o : Option Json) (k : JsString) : Except JsError (Option Json) :=
  match o with
  | none | some .null => .error .typeError
  | some (.obj ps) => .ok (get ps k)
  | some _ => .ok none

def Numeral.isZero (n : Numeral) : Bool :=
  (n.text.takeWhile fun c => !(c = 101 || c = 69)).all fun c => c = zero || c = minus || c = dot

def truthy : Option Json → Bool
  | none | some .null => false
  | some (.bool b) => b
  | some (.num n) => !n.isZero
  | some (.str s) => !s.isEmpty
  | some (.arr _) | some (.obj _) => true

theorem isZero_ofInt_nat (n : ℕ) : (Numeral.ofInt n).isZero = decide (n = 0) := by
  have htext : (Numeral.ofInt n).text = natText n := rfl
  by_cases hn : n = 0
  · subst hn; rfl
  obtain ⟨c, s, hcs, hc⟩ := natText_head hn
  have hdigit : isDigit c = true := natText_isDigit n c (by simp [hcs])
  have hne : ∀ d, isDigit d = false → c ≠ d := by
    rintro d hd rfl
    rw [hdigit] at hd
    cases hd
  simp [Numeral.isZero, htext, hcs, hn, hc, hne 101 (by decide), hne 69 (by decide),
    hne minus (by decide), hne dot (by decide)]

end Ecma
