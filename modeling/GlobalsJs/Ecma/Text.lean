import Mathlib.Data.Nat.Digits.Lemmas
import Mathlib.Data.List.Infix

/-!
# Text as sequences of code units

A string of the language is a finite sequence of 16-bit units, and its operators
compare strings unit by unit. Integers print in decimal. `js` writes a constant
of the source; it is meant for ASCII text only.
-/

namespace Ecma

abbrev CodeUnit := UInt16
abbrev JsString := List CodeUnit

instance : LawfulBEq JsString := inferInstance

def js (s : String) : JsString := s.toList.map fun c => c.toNat.toUInt16

abbrev newline : CodeUnit := 10
abbrev carriage : CodeUnit := 13
abbrev space : CodeUnit := 32
abbrev tab : CodeUnit := 9
abbrev quote : CodeUnit := 34
abbrev dollar : CodeUnit := 36
abbrev ampersand : CodeUnit := 38
abbrev lparen : CodeUnit := 40
abbrev rparen : CodeUnit := 41
abbrev plus : CodeUnit := 43
abbrev comma : CodeUnit := 44
abbrev minus : CodeUnit := 45
abbrev dot : CodeUnit := 46
abbrev slash : CodeUnit := 47
abbrev zero : CodeUnit := 48
abbrev nine : CodeUnit := 57
abbrev colon : CodeUnit := 58
abbrev semicolon : CodeUnit := 59
abbrev less : CodeUnit := 60
abbrev equals : CodeUnit := 61
abbrev greater : CodeUnit := 62
abbrev bang : CodeUnit := 33
abbrev lbracket : CodeUnit := 91
abbrev backslash : CodeUnit := 92
abbrev rbracket : CodeUnit := 93
abbrev underscore : CodeUnit := 95
abbrev lbrace : CodeUnit := 123
abbrev bar : CodeUnit := 124
abbrev rbrace : CodeUnit := 125

def isDigit (c : CodeUnit) : Bool := zero ≤ c && c ≤ nine
def isLetter (c : CodeUnit) : Bool := (65 ≤ c && c ≤ 90) || (97 ≤ c && c ≤ 122)
def isAlphanumeric (c : CodeUnit) : Bool := isDigit c || isLetter c

def digitValue (c : CodeUnit) : ℕ := c.toNat - 48
def digit (d : ℕ) : CodeUnit := (48 + d).toUInt16

theorem digitValue_digit {d : ℕ} (hd : d < 10) : digitValue (digit d) = d := by
  interval_cases d <;> rfl

theorem isDigit_digit {d : ℕ} (hd : d < 10) : isDigit (digit d) = true := by
  interval_cases d <;> rfl

theorem digit_eq_zero {d : ℕ} (hd : d < 10) : digit d = zero ↔ d = 0 := by
  interval_cases d <;> decide

theorem forall_mem_of_all {s : JsString} {p : CodeUnit → Prop} [DecidablePred p]
    (h : s.all (fun c => decide (p c)) = true) : ∀ c ∈ s, p c := fun c hc =>
  of_decide_eq_true (List.all_eq_true.mp h c hc)

def natText (n : ℕ) : JsString :=
  if n = 0 then [zero] else (Nat.digits 10 n).reverse.map digit

def intText : ℤ → JsString
  | .ofNat n => natText n
  | .negSucc n => minus :: natText (n + 1)

def readNat (s : JsString) : ℕ := s.foldl (fun acc c => 10 * acc + digitValue c) 0

theorem foldl_digits (ds : List ℕ) (hds : ∀ d ∈ ds, d < 10) :
    readNat (ds.reverse.map digit) = Nat.ofDigits 10 ds := by
  induction ds with
  | nil => rfl
  | cons d ds ih =>
    have hd : d < 10 := hds d (List.mem_cons_self)
    have hrest := ih fun e he => hds e (List.mem_cons_of_mem d he)
    simp only [readNat, List.reverse_cons, List.map_append, List.map_cons, List.map_nil,
      List.foldl_append, List.foldl_cons, List.foldl_nil, digitValue_digit hd] at hrest ⊢
    rw [hrest, Nat.ofDigits_cons]
    ring

theorem readNat_natText (n : ℕ) : readNat (natText n) = n := by
  unfold natText
  split_ifs with hn
  · subst hn; rfl
  · rw [foldl_digits _ fun d hd => Nat.digits_lt_base (by norm_num) hd, Nat.ofDigits_digits]

theorem natText_inj {m n : ℕ} : natText m = natText n ↔ m = n :=
  ⟨fun h => by rw [← readNat_natText m, h, readNat_natText], congrArg natText⟩

theorem natText_isDigit (n : ℕ) : ∀ c ∈ natText n, isDigit c = true := by
  intro c hc
  unfold natText at hc
  split_ifs at hc with hn
  · rw [List.mem_singleton.mp hc]; rfl
  · obtain ⟨d, hd, rfl⟩ := List.mem_map.mp hc
    exact isDigit_digit (Nat.digits_lt_base (by norm_num) (List.mem_reverse.mp hd))

theorem natText_ne_nil (n : ℕ) : natText n ≠ [] := by
  unfold natText
  split_ifs with hn
  · simp
  · simpa using Nat.digits_ne_nil_iff_ne_zero.mpr hn

theorem natText_head {n : ℕ} (hn : n ≠ 0) : ∃ c s, natText n = c :: s ∧ c ≠ zero := by
  have hne : Nat.digits 10 n ≠ [] := Nat.digits_ne_nil_iff_ne_zero.mpr hn
  obtain ⟨ds, d, hds⟩ := List.eq_nil_or_concat' (Nat.digits 10 n) |>.resolve_left hne
  have hd10 : d < 10 := Nat.digits_lt_base (b := 10) (m := n) (by norm_num) (by simp [hds])
  have hd0 : d ≠ 0 := by
    have hlast := Nat.getLast_digit_ne_zero 10 hn
    simpa [hds] using hlast
  refine ⟨digit d, ds.reverse.map digit, ?_, fun h => hd0 ((digit_eq_zero hd10).mp h)⟩
  simp [natText, hn, hds]

theorem takeWhile_append_stop {p : CodeUnit → Bool} {s r : JsString}
    (hs : ∀ c ∈ s, p c = true) (hr : ∀ c ∈ r.head?, p c = false) :
    (s ++ r).takeWhile p = s ∧ (s ++ r).dropWhile p = r := by
  have hstop : r.takeWhile p = [] ∧ r.dropWhile p = r := by
    cases r with
    | nil => exact ⟨rfl, rfl⟩
    | cons c r => simp [hr c (by simp)]
  constructor
  · rw [List.takeWhile_append_of_pos hs, hstop.1, List.append_nil]
  · rw [List.dropWhile_append_of_pos hs, hstop.2]

theorem takeWhile_append_head {p : CodeUnit → Bool} (s : JsString) {r : JsString}
    (hr : ∀ c ∈ r.head?, p c = false) :
    (s ++ r).takeWhile p = s.takeWhile p ∧ (s ++ r).dropWhile p = s.dropWhile p ++ r := by
  induction s with
  | nil => exact takeWhile_append_stop (by simp) hr
  | cons c s ih =>
    cases hc : p c with
    | true => simp [hc, ih.1, ih.2]
    | false => simp [hc]

end Ecma
