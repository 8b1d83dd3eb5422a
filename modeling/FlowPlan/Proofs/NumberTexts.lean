import FlowPlan.Proofs.ParsedLeaves
import FlowPlan.Proofs.ShortestDecimals

/-! # Texts of numbers

A decimal is read back from its positional notation as a decimal with the same
value. A number is written as its shortest decimal, which rounds to it; so it is
read back from its text.
-/

namespace FlowPlan

namespace Decimal

/-- Positional notation is read back as a decimal with the same value. -/
theorem ofText?_positional (decimal : Decimal) :
    ∃ again, ofText? decimal.positional = some again ∧ again.value = decimal.value := by
  obtain ⟨whole, fraction, text, numeral, read, length⟩ := decimal.exists_numeralText
  refine ⟨_, text ▸ ofText?_numeralText numeral, ?_⟩
  have places : (decimal.exponent.toNat : Int) + -((-decimal.exponent).toNat : Int) =
      decimal.exponent := by
    omega
  rw [read, length, value, value, Nat.cast_mul, Nat.cast_pow, mul_assoc, ← zpow_natCast,
    Nat.cast_ofNat, ← zpow_add₀ (by norm_num), places]

/-! ## Rounding decimals -/

theorem pow_le_value {decimal : Decimal} (positive : 0 < decimal.digits) :
    (10 : ℚ) ^ (decimal.exponent + width decimal.digits - 1) ≤ decimal.value := by
  have one : 1 ≤ width decimal.digits := List.length_pos_of_ne_nil Nat.toDigits_ne_nil
  have least := Binary64.pow_width_le positive
  have parts : decimal.exponent + width decimal.digits - 1 =
      ((width decimal.digits - 1 : Nat) : Int) + decimal.exponent := by
    rw [Nat.cast_sub one]
    ring
  rw [parts, zpow_add₀ (by norm_num), zpow_natCast, value]
  apply mul_le_mul_of_nonneg_right _ (by positivity)
  exact_mod_cast least

theorem value_lt_pow (decimal : Decimal) :
    decimal.value < (10 : ℚ) ^ (decimal.exponent + width decimal.digits) := by
  have greatest := Binary64.lt_pow_width decimal.digits
  rw [Int.add_comm, zpow_add₀ (by norm_num), zpow_natCast, value]
  apply mul_lt_mul_of_pos_right _ (by positivity)
  exact_mod_cast greatest

section Range

variable {decimal : Decimal} (least : (2 : ℚ) ^ (-1075 : Int) ≤ decimal.value)

include least

theorem digits_pos_of_le_value : 0 < decimal.digits := by
  rw [Nat.pos_iff_ne_zero]
  intro zero
  have none : decimal.value = 0 := by simp [value, zero]
  rw [none] at least
  exact absurd least (not_le.mpr (by positivity))

theorem le_order_of_le_value : -330 ≤ decimal.exponent + width decimal.digits := by
  by_contra less
  have order : (10 : ℚ) ^ (decimal.exponent + width decimal.digits) ≤ 10 ^ (-331 : Int) :=
    zpow_le_zpow_right₀ (by norm_num) (by omega)
  have powers : (10 : ℚ) ^ (-331 : Int) ≤ 2 ^ (-1075 : Int) := by
    have whole : 2 ^ 1075 ≤ 10 ^ 331 := by decide +kernel
    rw [zpow_neg, zpow_neg, zpow_ofNat, zpow_ofNat]
    apply inv_anti₀ (by positivity)
    exact_mod_cast whole
  exact absurd (decimal.value_lt_pow.trans_le (order.trans powers)) (not_lt.mpr least)

theorem order_le_of_value_lt (greatest : decimal.value < (2 : ℚ) ^ (1024 : Int)) :
    decimal.exponent + width decimal.digits ≤ 330 := by
  by_contra more
  have order : (10 : ℚ) ^ (330 : Int) ≤ 10 ^ (decimal.exponent + width decimal.digits - 1) :=
    zpow_le_zpow_right₀ (by norm_num) (by omega)
  have powers : (2 : ℚ) ^ (1024 : Int) ≤ 10 ^ (330 : Int) := by
    have whole : 2 ^ 1024 ≤ 10 ^ 330 := by decide +kernel
    rw [zpow_ofNat, zpow_ofNat]
    exact_mod_cast whole
  exact absurd ((powers.trans order).trans (pow_le_value (digits_pos_of_le_value least)))
    (not_le.mpr greatest)

/-- Within the range of the numbers a decimal is rounded as the quotient that it is. -/
theorem exists_toBinary64_eq (greatest : decimal.value < (2 : ℚ) ^ (1024 : Int)) :
    ∃ numerator denominator : Nat, 0 < denominator ∧
      (numerator : ℚ) / denominator = decimal.value ∧ ∀ negative,
        decimal.toBinary64 negative = .ofQuotient negative numerator denominator := by
  have positive := digits_pos_of_le_value least
  have leastOrder := le_order_of_le_value least
  have greatestOrder := order_le_of_value_lt least greatest
  have inRange : ¬ ((decide (decimal.digits = 0) ||
      decide (decimal.exponent + (width decimal.digits : Int) < -330)) = true) := by
    simp only [Bool.or_eq_true, decide_eq_true_eq]
    omega
  cases shape : decimal.exponent with
  | ofNat power =>
      refine ⟨decimal.digits * Nat.pow 10 power, 1, Nat.one_pos, ?_, fun negative => ?_⟩
      · simp [value, shape]
      · rw [toBinary64, if_neg inRange, if_neg (by omega), shape]
  | negSucc power =>
      refine ⟨decimal.digits, Nat.pow 10 (power + 1), Nat.pow_pos (by decide), ?_,
        fun negative => ?_⟩
      · simp [value, shape, zpow_negSucc, div_eq_mul_inv]
      · rw [toBinary64, if_neg inRange, if_neg (by omega), shape]

end Range

end Decimal

namespace Binary64

section Canonical

variable {mantissa : Nat} {exponent : Int} (canonical : IsCanonical mantissa exponent)
  (positive : 0 < mantissa)

include canonical positive

/-- What is rounded to a number other than zero lies in the range of the numbers. -/
theorem value_bounds_of_contains {value : ℚ}
    (contains : (neighbourhood mantissa exponent).Contains (4 * (value / 2 ^ exponent))) :
    (2 : ℚ) ^ (-1075 : Int) ≤ value ∧ value < (2 : ℚ) ^ (1024 : Int) := by
  obtain ⟨low, high, _⟩ := bounds_of_contains positive contains
  have mantissaLeast : (1 : ℚ) ≤ mantissa := by exact_mod_cast positive
  have mantissaBelow : (mantissa : ℚ) + 1 ≤ 2 ^ 53 := by
    have below := canonical.below
    have bound : mantissaBound = 2 ^ 53 := rfl
    rw [bound] at below
    exact_mod_cast below
  have scale : (0 : ℚ) < 2 ^ exponent := by positivity
  constructor
  · have half : (1 / 2 : ℚ) ≤ value / 2 ^ exponent := by linarith
    rw [le_div_iff₀ scale] at half
    have order : (2 : ℚ) ^ leastExponent ≤ 2 ^ exponent :=
      zpow_le_zpow_right₀ (by norm_num) canonical.least
    have next : (2 : ℚ) ^ leastExponent = 2 * 2 ^ (-1075 : Int) := by
      rw [← zpow_one_add₀ (by norm_num)]
      rfl
    linarith
  · have below : value / 2 ^ exponent < 2 ^ (53 : Int) := by
      rw [zpow_ofNat]
      linarith
    rw [div_lt_iff₀ scale] at below
    have order : (2 : ℚ) ^ exponent ≤ 2 ^ greatestExponent :=
      zpow_le_zpow_right₀ (by norm_num) canonical.greatest
    have top : (2 : ℚ) ^ (1024 : Int) = 2 ^ (53 : Int) * 2 ^ greatestExponent := by
      rw [← zpow_add₀ (by norm_num)]
      rfl
    rw [top]
    exact below.trans_le (mul_le_mul_of_nonneg_left order (by positivity))

/-- A decimal in the neighbourhood of a number is rounded to it. -/
theorem toBinary64_of_contains {decimal : Decimal}
    (contains : (neighbourhood mantissa exponent).Contains (4 * (decimal.value / 2 ^ exponent)))
    (negative : Bool) : decimal.toBinary64 negative = .finite negative mantissa exponent := by
  obtain ⟨least, greatest⟩ := value_bounds_of_contains canonical positive contains
  obtain ⟨numerator, denominator, denominatorPositive, equal, rounds⟩ :=
    Decimal.exists_toBinary64_eq least greatest
  rw [rounds]
  apply ofQuotient_of_contains canonical positive denominatorPositive
  rw [equal]
  exact contains

end Canonical

theorem readSign_signed {first : Char} (isDigit : first.isDigit = true) (negative : Bool)
    (rest : Text) :
    Decimal.readSign (signed negative (first :: rest)) = (negative, first :: rest) := by
  cases negative with
  | true => rfl
  | false =>
      rw [signed, if_neg (by decide), Decimal.readSign]
      · intro _ minus
        cases minus
        exact absurd isDigit (by decide)
      · intro _ plus
        cases plus
        exact absurd isDigit (by decide)

/-- A number other than zero is read back from its text. -/
theorem ofText?_plain {mantissa : Nat} {exponent : Int} (canonical : IsCanonical mantissa exponent)
    (positive : 0 < mantissa) (negative : Bool) :
    ofText? (plain (.finite negative mantissa exponent)) =
      some (.finite negative mantissa exponent) := by
  obtain ⟨first, rest, shown, digit⟩ := (shortest .up mantissa exponent).exists_positional_eq
  obtain ⟨decimal, read, sameValue⟩ := (shortest .up mantissa exponent).ofText?_positional
  rw [shown] at read
  have contains : (neighbourhood mantissa exponent).Contains _ :=
    contains_shortest .up positive canonical.below
  rw [← sameValue] at contains
  rw [ofText?, plain, shown, readSign_signed digit]
  dsimp only
  rw [read]
  dsimp only
  rw [toBinary64_of_contains canonical positive contains]

/-- Every number that is read has its mantissa and exponent in no other way. -/
theorem isCanonical_of_ofText? {text : Text} {negative : Bool} {mantissa : Nat} {exponent : Int}
    (read : ofText? text = some (.finite negative mantissa exponent)) :
    IsCanonical mantissa exponent := by
  rw [ofText?] at read
  dsimp only at read
  split at read
  · rename_i decimal _
    injection read with rounded
    rw [Decimal.toBinary64] at rounded
    split at rounded
    · cases rounded
      have zero : ofQuotient false 0 1 = .zero false := rfl
      exact isCanonical_of_ofQuotient Nat.one_pos zero
    · split at rounded
      · cases rounded
      · split at rounded
        · exact isCanonical_of_ofQuotient Nat.one_pos rounded
        · exact isCanonical_of_ofQuotient (Nat.pow_pos (by decide)) rounded
  · rw [ofWord?] at read
    split at read
    · cases read
    · split at read
      · cases read
      · cases read

end Binary64

/-! ## Literals -/

namespace Literal

/-- The text of the literal is a literal, unlike `inf` and `NaN`. -/
def isLegible : Literal → Bool
  | .number (.infinite negative) => negative
  | .number .undefined => false
  | _ => true

theorem ofText?_numeral {first : Char} (numeral : first.isDigit = true ∨ first = '-')
    (rest : Text) :
    ofText? (first :: rest) = (Binary64.ofText? (first :: rest)).map .number := by
  have other : ∀ word ∈ [['n', 'u', 'l', 'l'], Condition.trueText, Condition.falseText],
      first :: rest ≠ word := by
    rintro word mem rfl
    revert numeral
    simp only [List.mem_cons, Condition.trueText, Condition.falseText, List.cons.injEq,
      List.not_mem_nil, or_false] at mem
    obtain ⟨rfl, _⟩ | ⟨rfl, _⟩ | ⟨rfl, _⟩ := mem <;> decide
  have unquoted : first ≠ '\'' := by
    rintro rfl
    revert numeral
    decide
  rw [ofText?.eq_def, if_neg (other _ (by simp)), if_neg (other _ (by simp)),
    if_neg (other _ (by simp))]
  dsimp only
  rw [if_neg unquoted, if_pos]
  simpa using .inl numeral

theorem exists_ofText?_of_isRead {value : Binary64} (isRead : IsRead (.number value)) :
    ∃ text, Binary64.ofText? text = some value := by
  obtain ⟨text, read⟩ := isRead
  refine ⟨text, ?_⟩
  rw [ofText?.eq_def] at read
  split at read
  · cases read
  split at read
  · cases read
  split at read
  · cases read
  split at read
  · cases read
  split at read
  · simp at read
  split at read
  · simpa using read
  · cases read

/-- A number that is read as a literal is read so from its own text. -/
theorem ofText?_plain {value : Binary64} (isRead : IsRead (.number value))
    (some : value.isZero = false) (legible : isLegible (.number value) = true) :
    ofText? value.plain = Option.some (.number value) := by
  cases value with
  | undefined => cases legible
  | infinite negative =>
      cases negative with
      | false => cases legible
      | true => rfl
  | finite negative mantissa exponent =>
      obtain ⟨text, read⟩ := exists_ofText?_of_isRead isRead
      have canonical := Binary64.isCanonical_of_ofText? read
      have positive : 0 < mantissa := by
        simpa [Binary64.isZero, Nat.pos_iff_ne_zero] using some
      have again := Binary64.ofText?_plain canonical positive negative
      obtain ⟨first, rest, shown, start⟩ := Binary64.exists_plain_eq negative mantissa exponent
      rw [shown] at again ⊢
      rw [ofText?_numeral start, again, Option.map_some]

/-- A legible literal is found again with the same text. -/
theorem exists_ofText?_render {literal : Literal} (isRead : literal.IsRead)
    (legible : literal.isLegible = true) :
    ∃ again, ofText? literal.render = some again ∧ again.render = literal.render := by
  cases literal with
  | string | boolean | null => exact ⟨_, ofText?_render trivial, rfl⟩
  | number value =>
      cases zero : value.isZero with
      | true =>
          refine ⟨.number (.zero false), ?_, ?_⟩
          · rw [render, if_pos zero]
            rfl
          · rw [render, render, if_pos zero]
            rfl
      | false =>
          refine ⟨.number value, ?_, rfl⟩
          rw [render, zero, if_neg Bool.false_ne_true]
          exact ofText?_plain isRead zero legible

end Literal

end FlowPlan
