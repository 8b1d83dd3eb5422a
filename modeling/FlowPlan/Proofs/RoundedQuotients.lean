import Mathlib.Algebra.Order.Field.Power
import Mathlib.Data.Rat.Cast.Order
import Mathlib.Tactic.FieldSimp
import Mathlib.Tactic.Linarith
import Mathlib.Tactic.NormNum
import Mathlib.Tactic.Positivity
import Mathlib.Tactic.Ring
import FlowPlan.Number.Shortest

/-! # Rounded quotients

A quotient is rounded to the number in whose neighbourhood it lies. Everything is
measured in rationals: a neighbourhood counts quarters of the last place of the
mantissa, and the exponent at which a quotient is rounded is the one for which
its mantissa is full, if the range allows it.
-/

namespace FlowPlan

namespace Binary64

/-! ## Rounding to integers -/

/-- A quotient lies between the neighbouring halves, and on a half only if the integer is even. -/
theorem roundQuotient_eq {units unit rounded : Nat} (positive : 0 < unit)
    (low : (rounded : ℚ) - 1 / 2 ≤ (units : ℚ) / unit)
    (high : (units : ℚ) / unit ≤ rounded + 1 / 2)
    (tie : (units : ℚ) / unit = rounded - 1 / 2 ∨ (units : ℚ) / unit = rounded + 1 / 2 →
      rounded % 2 = 0) :
    roundQuotient units unit = rounded := by
  have unitPositive : (0 : ℚ) < unit := by exact_mod_cast positive
  have whole : (units : ℚ) / unit = (units / unit : Nat) + (units % unit : Nat) / (unit : ℚ) := by
    have parts : (unit : ℚ) * (units / unit : Nat) + (units % unit : Nat) = units := by
      exact_mod_cast Nat.div_add_mod units unit
    rw [eq_comm, eq_div_iff unitPositive.ne', add_mul, div_mul_cancel₀ _ unitPositive.ne', mul_comm]
    exact parts
  have restNonnegative : 0 ≤ ((units % unit : Nat) : ℚ) / unit := by positivity
  have restBelow : ((units % unit : Nat) : ℚ) / unit < 1 := by
    rw [div_lt_one unitPositive]
    exact_mod_cast Nat.mod_lt units positive
  have above : unit < 2 * (units % unit) ↔ 1 / 2 < ((units % unit : Nat) : ℚ) / unit := by
    rw [lt_div_iff₀ unitPositive, ← Nat.cast_lt (α := ℚ)]
    push_cast
    constructor <;> intro <;> linarith
  have half : unit = 2 * (units % unit) ↔ 1 / 2 = ((units % unit : Nat) : ℚ) / unit := by
    rw [eq_div_iff unitPositive.ne', ← Nat.cast_inj (R := ℚ)]
    push_cast
    constructor <;> intro <;> linarith
  rw [whole] at low high tie
  rw [roundQuotient]
  simp only [Bool.or_eq_true, Bool.and_eq_true, decide_eq_true_eq, above, half]
  generalize ((units % unit : Nat) : ℚ) / unit = rest at *
  generalize units / unit = quotient at *
  have notAbove : rounded < quotient + 2 := by
    have : (rounded : ℚ) < quotient + 2 := by linarith
    exact_mod_cast this
  have notBelow : quotient < rounded + 1 := by
    have : (quotient : ℚ) < rounded + 1 := by linarith
    exact_mod_cast this
  obtain rfl | rfl : rounded = quotient ∨ rounded = quotient + 1 := by omega
  · rw [if_neg]
    rintro (more | ⟨equal, odd⟩)
    · linarith
    · have even := tie (.inr (by linarith))
      omega
  · push_cast at low high tie
    rw [if_pos]
    obtain more | equal : 1 / 2 < rest ∨ 1 / 2 = rest := lt_or_eq_of_le (by linarith)
    · exact .inl more
    · have even := tie (.inl (by linarith))
      exact .inr ⟨equal, by omega⟩

/-! ## The exponent of a quotient -/

theorem scaled_positive (numerator : Nat) {denominator : Nat} (positive : 0 < denominator)
    (exponent : Int) : 0 < (scaled numerator denominator exponent).2 := by
  cases exponent with
  | ofNat shift => exact Nat.mul_pos positive (Nat.pow_pos (by decide))
  | negSucc shift => exact positive

/-- Scaling divides by the power of two. -/
theorem scaled_div (numerator denominator : Nat) (exponent : Int) :
    ((scaled numerator denominator exponent).1 : ℚ) / (scaled numerator denominator exponent).2 =
      (numerator : ℚ) / denominator / 2 ^ exponent := by
  cases exponent with
  | ofNat shift =>
      simp only [scaled, Nat.pow_eq, Int.ofNat_eq_natCast, zpow_natCast]
      push_cast
      rw [div_div]
  | negSucc shift =>
      simp only [scaled, Nat.pow_eq, zpow_negSucc]
      push_cast
      rw [div_inv_eq_mul, div_mul_eq_mul_div]

/-- In units of the power of two the value is below the bound of mantissas, and at least half of it
if the exponent is not the least. -/
structure IsExponent (value : ℚ) (exponent : Int) : Prop where
  least : leastExponent ≤ exponent
  below : value / 2 ^ exponent < 2 ^ 53
  full : 2 ^ 52 ≤ value / 2 ^ exponent ∨ exponent = leastExponent

theorem IsExponent.unique {value : ℚ} {exponent other : Int} (isExponent : IsExponent value exponent)
    (otherIsExponent : IsExponent value other) : exponent = other := by
  have notLess : ∀ {lower upper : Int}, IsExponent value lower → IsExponent value upper →
      ¬ lower < upper := by
    intro lower upper lowerIs upperIs less
    have doubled : (2 : ℚ) * 2 ^ lower ≤ 2 ^ upper := by
      rw [← zpow_one_add₀ (by norm_num)]
      exact zpow_le_zpow_right₀ (by norm_num) (by omega)
    cases upperIs.full with
    | inl full =>
        have below := lowerIs.below
        rw [le_div_iff₀ (by positivity)] at full
        rw [div_lt_iff₀ (by positivity)] at below
        linarith
    | inr equal =>
        have := lowerIs.least
        omega
  have := notLess isExponent otherIsExponent
  have := notLess otherIsExponent isExponent
  omega

section RoundingExponent

variable {numerator denominator : Nat} (numeratorPositive : 0 < numerator)
  (positive : 0 < denominator)

include positive

theorem div_lt_of_log2 : (numerator : ℚ) / denominator <
    2 ^ ((numerator.log2 : Int) + 1 - denominator.log2) := by
  have denominatorPositive : (0 : ℚ) < denominator := by exact_mod_cast positive
  have above : (numerator : ℚ) < 2 ^ ((numerator.log2 : Int) + 1) := by
    exact_mod_cast Nat.lt_log2_self
  have below : (2 : ℚ) ^ (denominator.log2 : Int) ≤ denominator := by
    exact_mod_cast Nat.log2_self_le positive.ne'
  rw [div_lt_iff₀ denominatorPositive]
  calc (numerator : ℚ) < 2 ^ ((numerator.log2 : Int) + 1) := above
    _ = 2 ^ ((numerator.log2 : Int) + 1 - denominator.log2) * 2 ^ (denominator.log2 : Int) := by
      rw [← zpow_add₀ (by norm_num), Int.sub_add_cancel]
    _ ≤ 2 ^ ((numerator.log2 : Int) + 1 - denominator.log2) * denominator :=
      mul_le_mul_of_nonneg_left below (by positivity)

include numeratorPositive

theorem le_div_of_log2 : (2 : ℚ) ^ ((numerator.log2 : Int) - denominator.log2 - 1) ≤
    (numerator : ℚ) / denominator := by
  have denominatorPositive : (0 : ℚ) < denominator := by exact_mod_cast positive
  have below : (2 : ℚ) ^ (numerator.log2 : Int) ≤ numerator := by
    exact_mod_cast Nat.log2_self_le numeratorPositive.ne'
  have above : (denominator : ℚ) ≤ 2 ^ ((denominator.log2 : Int) + 1) := by
    exact_mod_cast Nat.lt_log2_self.le
  rw [le_div_iff₀ denominatorPositive]
  calc (2 : ℚ) ^ ((numerator.log2 : Int) - denominator.log2 - 1) * denominator
      ≤ 2 ^ ((numerator.log2 : Int) - denominator.log2 - 1) * 2 ^ ((denominator.log2 : Int) + 1) :=
        mul_le_mul_of_nonneg_left above (by positivity)
    _ = 2 ^ (numerator.log2 : Int) := by
      rw [← zpow_add₀ (by norm_num)]
      congr 1
      omega
    _ ≤ numerator := below

omit numeratorPositive in
/-- Whether the mantissa would not be full. -/
theorem div_scaled_lt_iff (exponent : Int) :
    2 * ((scaled numerator denominator exponent).1 / (scaled numerator denominator exponent).2) <
        mantissaBound ↔
      (numerator : ℚ) / denominator / 2 ^ exponent < 2 ^ 52 := by
  have unitPositive := scaled_positive numerator positive exponent
  have unitPositive' : (0 : ℚ) < (scaled numerator denominator exponent).2 := by
    exact_mod_cast unitPositive
  have bound : mantissaBound = 2 * 2 ^ 52 := rfl
  rw [bound, Nat.mul_lt_mul_left (by norm_num), Nat.div_lt_iff_lt_mul unitPositive, ← scaled_div,
    div_lt_iff₀ unitPositive']
  norm_cast

theorem isExponent_roundingExponent :
    IsExponent ((numerator : ℚ) / denominator) (roundingExponent numerator denominator) := by
  have above : (numerator : ℚ) / denominator < _ := div_lt_of_log2 positive
  have below := le_div_of_log2 numeratorPositive positive
  have mono : ∀ {lower upper : Int}, lower ≤ upper → (2 : ℚ) ^ lower ≤ 2 ^ upper :=
    fun order => zpow_le_zpow_right₀ (by norm_num) order
  have power : ∀ (size : Nat) (exponent : Int),
      (2 : ℚ) ^ size * 2 ^ exponent = 2 ^ ((size : Int) + exponent) := by
    intro size exponent
    rw [zpow_add₀ (by norm_num), zpow_natCast]
  rw [roundingExponent]
  generalize estimated : (numerator.log2 : Int) - denominator.log2 - 52 = estimate
  dsimp only
  split
  · rename_i notFull
    rw [div_scaled_lt_iff positive, div_lt_iff₀ (by positivity), power] at notFull
    refine ⟨le_max_right _ _, ?_, ?_⟩
    · rw [div_lt_iff₀ (by positivity), power]
      exact notFull.trans_le (mono (by omega))
    · by_cases least : estimate ≤ leastExponent
      · exact .inr (by omega)
      · rw [le_div_iff₀ (by positivity), power]
        exact .inl ((mono (by omega)).trans below)
  · rename_i full
    rw [div_scaled_lt_iff positive, not_lt] at full
    refine ⟨le_max_right _ _, ?_, .inl full⟩
    rw [div_lt_iff₀ (by positivity), power]
    exact above.trans_le (mono (by omega))

end RoundingExponent

/-! ## Neighbourhoods -/

/-- The mantissa and the exponent of a number: the mantissa is full, or the exponent the least. -/
structure IsCanonical (mantissa : Nat) (exponent : Int) : Prop where
  below : mantissa < mantissaBound
  least : leastExponent ≤ exponent
  greatest : exponent ≤ greatestExponent
  full : mantissaBound ≤ 2 * mantissa ∨ exponent = leastExponent

/-- The rationals in the neighbourhood, counted in its quarters. -/
def Neighbourhood.Contains (hood : Neighbourhood) (quarters : ℚ) : Prop :=
  (hood.least < quarters ∧ quarters < hood.greatest) ∨
    (hood.closed = true ∧ (quarters = hood.least ∨ quarters = hood.greatest))

section Neighbourhood

variable {mantissa : Nat} {exponent : Int} (positive : 0 < mantissa) {units : ℚ}

include positive

theorem cast_least_neighbourhood : ((neighbourhood mantissa exponent).least : ℚ) =
    if 2 * mantissa = mantissaBound ∧ leastExponent < exponent then 4 * (mantissa : ℚ) - 1
    else 4 * mantissa - 2 := by
  simp only [neighbourhood, Bool.and_eq_true, decide_eq_true_eq]
  split
  · rw [Nat.cast_sub (by omega)]
    push_cast
    ring
  · rw [Nat.cast_sub (by omega)]
    push_cast
    ring

omit positive in
theorem cast_greatest_neighbourhood :
    ((neighbourhood mantissa exponent).greatest : ℚ) = 4 * mantissa + 2 := by
  simp [neighbourhood]

/-- A neighbourhood reaches half a unit up and down, and less far down at a power of two. Its ends
belong to it only if the mantissa is even. -/
theorem bounds_of_contains (contains : (neighbourhood mantissa exponent).Contains (4 * units)) :
    (mantissa : ℚ) - 1 / 2 ≤ units ∧ units ≤ mantissa + 1 / 2 ∧
      (units = mantissa - 1 / 2 ∨ units = mantissa + 1 / 2 → mantissa % 2 = 0) ∧
        (2 * mantissa = mantissaBound → leastExponent < exponent → (mantissa : ℚ) - 1 / 4 ≤ units) := by
  have closed : (neighbourhood mantissa exponent).closed = true ↔ mantissa % 2 = 0 := by
    simp [neighbourhood]
  rw [Neighbourhood.Contains, cast_least_neighbourhood positive, cast_greatest_neighbourhood,
    closed] at contains
  split at contains
  · rename_i narrow
    obtain ⟨low, high⟩ | ⟨even, equal | equal⟩ := contains
    · have even : mantissa % 2 = 0 := by
        have bound : mantissaBound = 2 * (2 * 2 ^ 51) := rfl
        omega
      exact ⟨by linarith, by linarith, fun _ => even, fun _ _ => by linarith⟩
    · exact ⟨by linarith, by linarith, fun _ => even, fun _ _ => by linarith⟩
    · exact ⟨by linarith, by linarith, fun _ => even, fun _ _ => by linarith⟩
  · rename_i wide
    obtain ⟨low, high⟩ | ⟨even, equal | equal⟩ := contains
    · refine ⟨by linarith, by linarith, ?_, fun bound more => absurd ⟨bound, more⟩ wide⟩
      rintro (equal | equal) <;> linarith
    · exact ⟨by linarith, by linarith, fun _ => even, fun bound more => absurd ⟨bound, more⟩ wide⟩
    · exact ⟨by linarith, by linarith, fun _ => even, fun bound more => absurd ⟨bound, more⟩ wide⟩

end Neighbourhood

/-! ## Rounding to numbers -/

section OfQuotient

variable {mantissa numerator denominator : Nat} {exponent : Int}

/-- Rounding at a known exponent. -/
theorem ofQuotient_of_isExponent (rounded : Nat) (negative : Bool)
    (numeratorPositive : 0 < numerator) (positive : 0 < denominator)
    (isExponent : IsExponent ((numerator : ℚ) / denominator) exponent)
    (low : (rounded : ℚ) - 1 / 2 ≤ (numerator : ℚ) / denominator / 2 ^ exponent)
    (high : (numerator : ℚ) / denominator / 2 ^ exponent ≤ rounded + 1 / 2)
    (tie : (numerator : ℚ) / denominator / 2 ^ exponent = rounded - 1 / 2 ∨
      (numerator : ℚ) / denominator / 2 ^ exponent = rounded + 1 / 2 → rounded % 2 = 0) :
    ofQuotient negative numerator denominator =
      if rounded < mantissaBound then
        if greatestExponent < exponent then .infinite negative
        else .finite negative rounded exponent
      else if greatestExponent < exponent + 1 then .infinite negative
      else .finite negative (mantissaBound / 2) (exponent + 1) := by
  have found : roundingExponent numerator denominator = exponent :=
    (isExponent_roundingExponent numeratorPositive positive).unique isExponent
  have unitPositive := scaled_positive numerator positive exponent
  rw [← scaled_div] at low high tie
  have nearest := roundQuotient_eq unitPositive low high tie
  rw [ofQuotient, if_neg numeratorPositive.ne']
  simp only [found, nearest]
  split <;> rfl

/-- A quotient in the neighbourhood of a number is rounded to it. -/
theorem ofQuotient_of_contains (canonical : IsCanonical mantissa exponent)
    (mantissaPositive : 0 < mantissa) (positive : 0 < denominator)
    (contains : (neighbourhood mantissa exponent).Contains
      (4 * ((numerator : ℚ) / denominator / 2 ^ exponent))) (negative : Bool) :
    ofQuotient negative numerator denominator = .finite negative mantissa exponent := by
  obtain ⟨low, high, tie, narrow⟩ := bounds_of_contains mantissaPositive contains
  have bound : mantissaBound = 2 ^ 53 := rfl
  have mantissaLeast : (1 : ℚ) ≤ mantissa := by exact_mod_cast mantissaPositive
  have mantissaBelow : (mantissa : ℚ) + 1 ≤ 2 ^ 53 := by
    have := canonical.below
    rw [bound] at this
    exact_mod_cast this
  have numeratorPositive : 0 < numerator := by
    rw [Nat.pos_iff_ne_zero]
    rintro rfl
    norm_num at low
    linarith
  by_cases full : (2 : ℚ) ^ 52 ≤ (numerator : ℚ) / denominator / 2 ^ exponent ∨
      exponent = leastExponent
  · rw [ofQuotient_of_isExponent mantissa negative numeratorPositive positive
      ⟨canonical.least, by linarith, full⟩ low high tie, if_pos canonical.below,
      if_neg (not_lt.mpr canonical.greatest)]
  · -- Below a power of two the quotient is rounded up to it, in units of half the size.
    rw [not_or, not_le] at full
    obtain ⟨under, notLeast⟩ := full
    have more : leastExponent < exponent := lt_of_le_of_ne canonical.least (Ne.symm notLeast)
    have isBound : mantissa = 2 ^ 52 := by
      have least : 2 ^ 52 ≤ mantissa := by
        have := canonical.full.resolve_right notLeast
        omega
      have greatest : (mantissa : ℚ) < 2 ^ 52 + 1 := by linarith
      have : mantissa < 2 ^ 52 + 1 := by exact_mod_cast greatest
      omega
    have close := narrow (by rw [isBound, bound]; norm_num) more
    rw [isBound] at close
    push_cast at close
    have halved : (numerator : ℚ) / denominator / 2 ^ (exponent - 1) =
        2 * ((numerator : ℚ) / denominator / 2 ^ exponent) := by
      rw [zpow_sub_one₀ (by norm_num)]
      field_simp
    have isExponent : IsExponent ((numerator : ℚ) / denominator) (exponent - 1) := by
      refine ⟨by omega, ?_, .inl ?_⟩ <;> rw [halved] <;> linarith
    rw [ofQuotient_of_isExponent (2 ^ 53) negative numeratorPositive positive isExponent
      (by rw [halved]; push_cast; linarith) (by rw [halved]; push_cast; linarith)
      (fun _ => by norm_num), if_neg (by rw [bound]; norm_num), Int.sub_add_cancel,
      if_neg (not_lt.mpr canonical.greatest), isBound, bound]
    norm_num

theorem roundQuotient_bounds (units unit : Nat) :
    units / unit ≤ roundQuotient units unit ∧ roundQuotient units unit ≤ units / unit + 1 := by
  rw [roundQuotient]
  split <;> omega

/-- Rounding gives the mantissa and the exponent that the number has in no other way. -/
theorem isCanonical_of_ofQuotient {negative found : Bool} (positive : 0 < denominator)
    (rounds : ofQuotient negative numerator denominator = .finite found mantissa exponent) :
    IsCanonical mantissa exponent := by
  have bound : mantissaBound = 2 ^ 53 := rfl
  by_cases zero : numerator = 0
  · rw [ofQuotient, if_pos zero] at rounds
    cases rounds
    exact ⟨by rw [bound]; norm_num, le_refl _, by decide, .inr rfl⟩
  · rw [ofQuotient, if_neg zero] at rounds
    obtain ⟨least, below, full⟩ :=
      isExponent_roundingExponent (Nat.pos_of_ne_zero zero) positive
    generalize roundingExponent numerator denominator = found at *
    have unitPositive := scaled_positive numerator positive found
    have unitPositive' : (0 : ℚ) < (scaled numerator denominator found).2 := by
      exact_mod_cast unitPositive
    rw [← scaled_div] at below full
    dsimp only at rounds
    generalize (scaled numerator denominator found).1 = units at *
    generalize (scaled numerator denominator found).2 = unit at *
    have bounds := roundQuotient_bounds units unit
    have quotientBelow : units / unit < 2 ^ 53 := by
      rw [Nat.div_lt_iff_lt_mul unitPositive]
      rw [div_lt_iff₀ unitPositive'] at below
      exact_mod_cast below
    have quotientFull : 2 ^ 52 ≤ units / unit ∨ found = leastExponent := by
      refine full.imp_left fun full => ?_
      rw [Nat.le_div_iff_mul_le unitPositive]
      rw [le_div_iff₀ unitPositive'] at full
      exact_mod_cast full
    by_cases fits : roundQuotient units unit < mantissaBound
    · simp only [fits, if_true] at rounds
      split at rounds
      · cases rounds
      · rename_i inRange
        cases rounds
        refine ⟨fits, least, not_lt.mp inRange, quotientFull.imp_left fun full => ?_⟩
        rw [bound]
        omega
    · simp only [fits, if_false] at rounds
      split at rounds
      · cases rounds
      · rename_i inRange
        cases rounds
        exact ⟨by rw [bound]; norm_num, by omega, not_lt.mp inRange, .inl (by rw [bound]; norm_num)⟩

end OfQuotient

end Binary64

end FlowPlan
