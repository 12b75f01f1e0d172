import GlobalsJs.Ecma.Eval
import Mathlib.Algebra.Order.Field.Rat

/-!
# Comparing numbers

The operators compare decimals as the rationals they stand for. A program that compares
two numerals reads back the numbers that were printed, provided that rounding does not
depend on the sign: a program negates a rounded number, and the text of a negative
number is rounded as a whole.
-/

namespace Ecma

def Decimal.value (d : Decimal) : ℚ := d.coeff * 10 ^ d.exp

theorem Decimal.scaled_eq (d : Decimal) {e : ℤ} (h : e ≤ d.exp) :
    (d.scaled e : ℚ) = d.value * 10 ^ (-e) := by
  have hten : (10 : ℚ) ≠ 0 := by norm_num
  have hexp : (10 : ℚ) ^ (d.exp - e).toNat = 10 ^ d.exp * 10 ^ (-e) := by
    rw [← zpow_natCast, Int.toNat_of_nonneg (by omega), sub_eq_add_neg, zpow_add₀ hten]
  rw [scaled, value, Int.cast_mul, Int.cast_pow, Int.cast_ofNat, hexp, mul_assoc]

theorem scale_pos (e : ℤ) : (0 : ℚ) < 10 ^ (-e) := zpow_pos (by norm_num) _

theorem JsNumber.eq_finite (a b : Decimal) :
    (JsNumber.finite a).eq (.finite b) = decide (a.value = b.value) := by
  have ha := a.scaled_eq (min_le_left a.exp b.exp)
  have hb := b.scaled_eq (min_le_right a.exp b.exp)
  rw [JsNumber.eq, decide_eq_decide, ← Int.cast_inj (α := ℚ), ha, hb]
  exact mul_left_inj' (scale_pos _).ne'

theorem JsNumber.less_finite (a b : Decimal) :
    (JsNumber.finite a).less (.finite b) = some (decide (a.value < b.value)) := by
  have ha := a.scaled_eq (min_le_left a.exp b.exp)
  have hb := b.scaled_eq (min_le_right a.exp b.exp)
  rw [JsNumber.less, Option.some_inj, decide_eq_decide, ← Int.cast_lt (R := ℚ), ha, hb]
  exact mul_lt_mul_iff_left₀ (scale_pos _)

def Rel.Holds {α : Type} [LinearOrder α] : Rel → α → α → Prop
  | .eq, a, b => a = b
  | .ne, a, b => a ≠ b
  | .lt, a, b => a < b
  | .le, a, b => a ≤ b
  | .gt, a, b => b < a
  | .ge, a, b => b ≤ a

theorem compare_finite (round : Rounding) (op : Rel) (a b : Decimal) :
    compare round op (.num (.finite a)) (.num (.finite b)) = true ↔ op.Holds a.value b.value := by
  cases op with
  | eq | ne => simp [compare, looseEq, Prim.toNumber, JsNumber.eq_finite, Rel.Holds]
  | lt | le | gt | ge => simp [compare, lessThan, Prim.toNumber, JsNumber.less_finite, Rel.Holds]

def IsInteger (round : Rounding) (v : Json) (n : ℤ) : Prop :=
  ∃ x d, v = .num x ∧ numberOf round x.text = .finite d ∧ d.value = n

variable {round : Rounding}

theorem IsInteger.unique {v : Json} {m n : ℤ} (hm : IsInteger round v m) (hn : IsInteger round v n) :
    m = n := by
  obtain ⟨x, d, rfl, hd, hvalue⟩ := hm
  obtain ⟨y, e, hy, he, hvalue'⟩ := hn
  obtain rfl := Json.num.inj hy
  obtain rfl : d = e := JsNumber.finite.inj (hd.symm.trans he)
  exact Int.cast_injective (hvalue.symm.trans hvalue')

theorem isInteger_ofInt {n : ℤ} (h : round ⟨n, 0⟩ = .finite ⟨n, 0⟩) : IsInteger round (.ofInt n) n := by
  refine ⟨.ofInt n, ⟨n, 0⟩, rfl, ?_, by simp [Decimal.value]⟩
  have htext : (Numeral.ofInt n).text = intText n := rfl
  rw [htext, numberOf, readNumberText_intText]
  exact h

theorem compare_integers {op : Rel} {x y : Numeral} {m n : ℤ} (hm : IsInteger round (.num x) m)
    (hn : IsInteger round (.num y) n) :
    compare round op (.num (numberOf round x.text)) (.num (numberOf round y.text)) = true ↔
      op.Holds m n := by
  obtain ⟨_, d, hx, hd, hvalue⟩ := hm
  obtain ⟨_, e, hy, he, hvalue'⟩ := hn
  obtain rfl := Json.num.inj hx
  obtain rfl := Json.num.inj hy
  rw [hd, he, compare_finite, hvalue, hvalue']
  cases op <;> simp [Rel.Holds]

/-- Opposite numbers are rounded to opposite numbers. -/
def Rounding.Symmetric (round : Rounding) : Prop := ∀ d, round ⟨-d.coeff, d.exp⟩ = (round d).neg

theorem read_numeralTokens {sc : Scope} (hround : sc.round.Symmetric) (n : Numeral) (us : List Token) :
    sc.readOperand (numeralTokens sc.round n.text ++ us) =
      some (.ok (.prim (.num (numberOf sc.round n.text))), us) := by
  have hnum := n.numeral
  obtain ⟨c, s, hcs⟩ := List.exists_cons_of_ne_nil n.text_ne_nil
  rw [hcs] at hnum ⊢
  simp only [isNumeral] at hnum
  rw [numeralTokens]
  split_ifs at hnum ⊢ with hc
  · subst hc
    obtain ⟨d, hd⟩ := readDecimal_of_isUnsigned hnum
    have hneg : (numberOf sc.round s).neg = numberOf sc.round (minus :: s) := by
      simp only [numberOf, readNumberText_unsigned hnum hd, readNumberText_minus hnum hd]
      exact (hround d).symm
    rw [← hneg]
    rfl
  · rfl

theorem Scope.eval_numbers {sc : Scope} (hround : sc.round.Symmetric) (op : Rel) (a b : Numeral) :
    sc.eval (a.text ++ (relText op ++ b.text)) = .ok (.bool
      (compare sc.round op (.num (numberOf sc.round a.text)) (.num (numberOf sc.round b.text)))) := by
  have hop : Scans sc.round (relText op ++ b.text) [.rel op] b.text :=
    scans_relText op (plain_head (v := .num b) (.inl ⟨b, rfl⟩))
  have hleft := scans_numeral a sc.round (stops_relText op b.text)
  have hright := scans_numeral b sc.round Stops.nil
  rw [List.append_nil] at hright
  rw [Scope.eval_of_scans ((hleft.append hop).append hright),
    Scope.runTokens_comparison _ (operand_numeralTokens a sc.round) (operand_numeralTokens b sc.round)
      (read_numeralTokens hround a) (read_numeralTokens hround b) op]
  rfl

end Ecma
