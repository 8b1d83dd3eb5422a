import Mathlib.Tactic.SplitIfs
import FlowPlan.Proofs.RoundedQuotients

/-! # Shortest decimals

The shortest decimal of a number lies in the neighbourhood of the number, so it
rounds to it. A grid of decimals whose unit is small against the last place of
the mantissa has one in the neighbourhood, and the seventeenth decimal place is
that small.
-/

namespace FlowPlan

namespace Decimal

/-- The number that a decimal stands for. -/
def value (decimal : Decimal) : ℚ := decimal.digits * 10 ^ decimal.exponent

theorem value_trimZeros (decimal : Decimal) : decimal.trimZeros.value = decimal.value := by
  fun_induction trimZeros decimal with
  | case1 decimal trailing induction =>
      have parts : (decimal.digits : ℚ) = 10 * (decimal.digits / 10 : Nat) := by
        exact_mod_cast (Nat.mul_div_cancel' (Nat.dvd_of_mod_eq_zero trailing.2)).symm
      rw [induction, value, value, parts, zpow_add_one₀ (by norm_num)]
      ring
  | case2 => rfl

end Decimal

namespace Binary64

/-! ## Grids -/

/-- A power as a quotient of natural numbers: what it multiplies by, and what it divides by. -/
def wholePower (base : Nat) : Int → Nat
  | .ofNat power => Nat.pow base power
  | .negSucc _ => 1

def powerUnder (base : Nat) : Int → Nat
  | .ofNat _ => 1
  | .negSucc power => Nat.pow base (power + 1)

theorem wholePower_div_powerUnder (base : Nat) (exponent : Int) :
    (wholePower base exponent : ℚ) / powerUnder base exponent = (base : ℚ) ^ exponent := by
  cases exponent with
  | ofNat power => simp [wholePower, powerUnder]
  | negSucc power => simp [wholePower, powerUnder, zpow_negSucc]

theorem wholePower_pos {base : Nat} (positive : 0 < base) (exponent : Int) :
    0 < wholePower base exponent := by
  cases exponent with
  | ofNat power => exact Nat.pow_pos positive
  | negSucc power => exact Nat.one_pos

theorem powerUnder_pos {base : Nat} (positive : 0 < base) (exponent : Int) :
    0 < powerUnder base exponent := by
  cases exponent with
  | ofNat power => exact Nat.one_pos
  | negSucc power => exact Nat.pow_pos positive

/-- The unit of a grid of decimals and the quarter of the last place, in a common unit. -/
def gridUnit (exponent place : Int) : Nat := wholePower 10 place * powerUnder 2 (exponent - 2)

def gridQuarter (exponent place : Int) : Nat := wholePower 2 (exponent - 2) * powerUnder 10 place

theorem gridUnit_pos (exponent place : Int) : 0 < gridUnit exponent place :=
  Nat.mul_pos (wholePower_pos (by decide) place) (powerUnder_pos (by decide) _)

theorem gridQuarter_pos (exponent place : Int) : 0 < gridQuarter exponent place :=
  Nat.mul_pos (wholePower_pos (by decide) _) (powerUnder_pos (by decide) place)

theorem quarters_eq (exponent place : Int) (digits : Nat) :
    4 * ((digits : ℚ) * 10 ^ place / 2 ^ exponent) =
      (digits * gridUnit exponent place : Nat) / (gridQuarter exponent place : ℚ) := by
  have ten := wholePower_div_powerUnder 10 place
  have two := wholePower_div_powerUnder 2 (exponent - 2)
  have under : (powerUnder 10 place : ℚ) ≠ 0 := by
    exact_mod_cast (powerUnder_pos (by decide) place).ne'
  have under' : (powerUnder 2 (exponent - 2) : ℚ) ≠ 0 := by
    exact_mod_cast (powerUnder_pos (by decide) _).ne'
  have whole : (wholePower 2 (exponent - 2) : ℚ) ≠ 0 := by
    exact_mod_cast (wholePower_pos (by decide) _).ne'
  have quartered : (2 : ℚ) ^ exponent = 4 * 2 ^ (exponent - 2) := by
    rw [zpow_sub₀ (by norm_num)]
    norm_num
    ring
  push_cast at ten two
  rw [quartered, ← ten, ← two, gridUnit, gridQuarter]
  push_cast
  field_simp

namespace Neighbourhood

/-- Whether a decimal with unit `10 ^ place` lies in the neighbourhood. -/
def admits (hood : Neighbourhood) (exponent place : Int) (digits : Nat) : Bool :=
  let value := digits * gridUnit exponent place
  let least := hood.least * wholePower 2 (exponent - 2) * powerUnder 10 place
  let greatest := hood.greatest * wholePower 2 (exponent - 2) * powerUnder 10 place
  (least < value && value < greatest) || (hood.closed && (value = least || value = greatest))

/-- The greatest count of units not above the number. -/
def digitsBelow (hood : Neighbourhood) (exponent place : Int) : Nat :=
  hood.centre * wholePower 2 (exponent - 2) * powerUnder 10 place / gridUnit exponent place

variable (hood : Neighbourhood) (exponent place : Int)

theorem digitsBelow_le :
    4 * ((hood.digitsBelow exponent place : ℚ) * 10 ^ place / 2 ^ exponent) ≤ hood.centre := by
  have positive : (0 : ℚ) < gridQuarter exponent place := by
    exact_mod_cast gridQuarter_pos exponent place
  rw [quarters_eq, div_le_iff₀ positive, digitsBelow, gridQuarter, Nat.mul_assoc]
  exact_mod_cast Nat.div_mul_le_self _ _

theorem lt_digitsBelow_add_one :
    hood.centre < 4 * ((hood.digitsBelow exponent place + 1 : Nat) * 10 ^ place / 2 ^ exponent : ℚ) := by
  have positive : (0 : ℚ) < gridQuarter exponent place := by
    exact_mod_cast gridQuarter_pos exponent place
  rw [quarters_eq, lt_div_iff₀ positive, digitsBelow, gridQuarter, Nat.mul_assoc]
  exact_mod_cast (Nat.div_lt_iff_lt_mul (gridUnit_pos exponent place)).mp (Nat.lt_succ_self _)

variable {hood exponent place}

theorem admits_iff {digits : Nat} : hood.admits exponent place digits = true ↔
    hood.Contains (4 * ((digits : ℚ) * 10 ^ place / 2 ^ exponent)) := by
  have positive : (0 : ℚ) < gridQuarter exponent place := by
    exact_mod_cast gridQuarter_pos exponent place
  rw [quarters_eq, Contains, lt_div_iff₀ positive, div_lt_iff₀ positive, div_eq_iff positive.ne',
    div_eq_iff positive.ne']
  norm_cast
  simp [admits, gridQuarter, Nat.mul_assoc]

end Neighbourhood

section Grid

variable {rule : TieRule} {hood : Neighbourhood} {exponent place : Int} {decimal : Decimal}

theorem nearestOnGrid?_eq (rule : TieRule) (hood : Neighbourhood) (exponent place : Int) :
    nearestOnGrid? rule hood exponent place =
      let below := hood.digitsBelow exponent place
      let centre := hood.centre * wholePower 2 (exponent - 2) * powerUnder 10 place
      let distanceBelow := centre - below * gridUnit exponent place
      let distanceAbove := (below + 1) * gridUnit exponent place - centre
      match hood.admits exponent place below, hood.admits exponent place (below + 1) with
      | false, false => none
      | true, false => some ⟨below, place⟩
      | false, true => some ⟨below + 1, place⟩
      | true, true =>
        if distanceBelow < distanceAbove then some ⟨below, place⟩
        else if distanceAbove < distanceBelow then some ⟨below + 1, place⟩
        else match rule with
          | .up => some ⟨below + 1, place⟩
          | .even => some ⟨if below % 2 = 0 then below else below + 1, place⟩ :=
  rfl

/-- A grid gives a decimal in the neighbourhood, unless neither decimal around the number is. -/
theorem nearestOnGrid?_cases (rule : TieRule) (hood : Neighbourhood) (exponent place : Int) :
    (∃ digits, nearestOnGrid? rule hood exponent place = some ⟨digits, place⟩ ∧
      hood.admits exponent place digits = true) ∨
    (nearestOnGrid? rule hood exponent place = none ∧
      hood.admits exponent place (hood.digitsBelow exponent place) = false ∧
        hood.admits exponent place (hood.digitsBelow exponent place + 1) = false) := by
  rw [nearestOnGrid?_eq]
  dsimp only
  generalize hood.digitsBelow exponent place = digits
  cases below : hood.admits exponent place digits with
  | false =>
      cases above : hood.admits exponent place (digits + 1) with
      | false => exact .inr ⟨rfl, rfl, rfl⟩
      | true => exact .inl ⟨_, rfl, above⟩
  | true =>
      left
      cases above : hood.admits exponent place (digits + 1) with
      | false => exact ⟨_, rfl, below⟩
      | true =>
          dsimp only
          split_ifs with nearerBelow nearerAbove even
          · exact ⟨_, rfl, below⟩
          · exact ⟨_, rfl, above⟩
          · cases rule with
            | up => exact ⟨_, rfl, above⟩
            | even => exact ⟨_, rfl, below⟩
          · cases rule with
            | up => exact ⟨_, rfl, above⟩
            | even => exact ⟨_, rfl, above⟩

/-- What a grid gives lies in the neighbourhood. -/
theorem contains_of_nearestOnGrid?
    (found : nearestOnGrid? rule hood exponent place = some decimal) :
    hood.Contains (4 * (decimal.value / 2 ^ exponent)) := by
  obtain ⟨digits, hit, admitted⟩ | ⟨missed, _⟩ := nearestOnGrid?_cases rule hood exponent place
  · rw [hit] at found
    cases found
    exact Neighbourhood.admits_iff.mp admitted
  · rw [missed] at found
    cases found

/-- One of the two decimals around the number is in its neighbourhood if they are close. -/
theorem exists_nearestOnGrid? (rule : TieRule) {mantissa : Nat} (positive : 0 < mantissa)
    (below : mantissa < mantissaBound)
    (close : (10 : ℚ) ^ place / 2 ^ exponent * 10 ^ 16 ≤ mantissa) :
    ∃ decimal, nearestOnGrid? rule (neighbourhood mantissa exponent) exponent place =
      some decimal := by
  obtain ⟨digits, hit, _⟩ | ⟨_, notBelow, notAbove⟩ :=
    nearestOnGrid?_cases rule (neighbourhood mantissa exponent) exponent place
  · exact ⟨_, hit⟩
  exfalso
  rw [← Bool.not_eq_true, Neighbourhood.admits_iff, Neighbourhood.Contains, not_or, not_and, not_lt,
    cast_least_neighbourhood positive, cast_greatest_neighbourhood] at notBelow notAbove
  have under := (neighbourhood mantissa exponent).digitsBelow_le exponent place
  have beyond := (neighbourhood mantissa exponent).lt_digitsBelow_add_one exponent place
  have centre : ((neighbourhood mantissa exponent).centre : ℚ) = 4 * mantissa := by
    simp [neighbourhood]
  rw [centre] at under beyond
  generalize (neighbourhood mantissa exponent).digitsBelow exponent place = digits at *
  have next : 4 * ((digits + 1 : Nat) * (10 : ℚ) ^ place / 2 ^ exponent) =
      4 * (digits * 10 ^ place / 2 ^ exponent) + 4 * (10 ^ place / 2 ^ exponent) := by
    push_cast
    ring
  rw [next] at notAbove beyond
  generalize 4 * ((digits : ℚ) * 10 ^ place / 2 ^ exponent) = quarters at *
  generalize (10 : ℚ) ^ place / 2 ^ exponent = unit at *
  have bound : mantissaBound = 2 ^ 53 := rfl
  have less : (mantissa : ℚ) < 2 ^ 53 := by
    rw [bound] at below
    exact_mod_cast below
  split at notBelow
  · rename_i narrow
    rw [if_pos narrow] at notAbove
    have isBound : (mantissa : ℚ) = 2 ^ 52 := by
      have : mantissa = 2 ^ 52 := by omega
      exact_mod_cast this
    by_cases low : 4 * (mantissa : ℚ) - 1 < quarters
    · linarith [notBelow.1 low]
    · linarith [notAbove.1 (by linarith)]
  · rename_i wide
    rw [if_neg wide] at notAbove
    by_cases low : 4 * (mantissa : ℚ) - 2 < quarters
    · linarith [notBelow.1 low]
    · linarith [notAbove.1 (by linarith)]

end Grid

/-! ## Searching the grids -/

section FirstHit

variable {rule : TieRule} {hood : Neighbourhood} {exponent place : Int} {decimal : Decimal}

theorem contains_of_firstHit? {attempts : Nat}
    (found : firstHit? rule hood exponent attempts place = some decimal) :
    hood.Contains (4 * (decimal.value / 2 ^ exponent)) := by
  induction attempts generalizing place with
  | zero => cases found
  | succ attempts induction =>
      rw [firstHit?] at found
      split at found
      · rename_i nearest
        cases found
        exact contains_of_nearestOnGrid? nearest
      · exact induction found

theorem exists_firstHit? (attempts : Nat) {more : Nat} (less : more < attempts)
    (nearest : nearestOnGrid? rule hood exponent (place - more) = some decimal) :
    ∃ first, firstHit? rule hood exponent attempts place = some first := by
  induction attempts generalizing place more with
  | zero => exact absurd less (Nat.not_lt_zero more)
  | succ attempts induction =>
      rw [firstHit?]
      split
      · exact ⟨_, rfl⟩
      · rename_i missed
        cases more with
        | zero =>
            rw [Nat.cast_zero, Int.sub_zero, missed] at nearest
            cases nearest
        | succ more =>
            apply induction (Nat.lt_of_succ_lt_succ less)
            rw [← nearest]
            congr 1
            push_cast
            ring

end FirstHit

/-! ## The shortest decimal -/

theorem pow_width_le {value : Nat} (positive : 0 < value) :
    10 ^ (Decimal.width value - 1) ≤ value := by
  by_cases single : Decimal.width value ≤ 1
  · rw [Nat.sub_eq_zero_of_le single]
    exact positive
  · have longer : ¬ Decimal.width value ≤ Decimal.width value - 1 := by omega
    rw [Decimal.width, Nat.length_toDigits_le_iff (by decide) (by rw [← Decimal.width]; omega)] at longer
    exact Nat.le_of_not_lt longer

theorem lt_pow_width (value : Nat) : value < 10 ^ Decimal.width value := by
  have nonempty := List.length_pos_of_ne_nil (Nat.toDigits_ne_nil (n := value) (b := 10))
  exact (Nat.length_toDigits_le_iff (by decide) nonempty).mp (Nat.le_refl _)

/-- The leading digit stands for no more than the number. -/
theorem pow_decade_le {numerator denominator : Nat} (numeratorPositive : 0 < numerator)
    (positive : 0 < denominator) :
    (10 : ℚ) ^ decade numerator denominator ≤ (numerator : ℚ) / denominator := by
  have denominatorPositive : (0 : ℚ) < denominator := by exact_mod_cast positive
  rw [le_div_iff₀ denominatorPositive, decade]
  dsimp only
  split_ifs with less equal
  · have least := pow_width_le (Nat.div_pos less positive)
    rw [Nat.le_div_iff_mul_le positive] at least
    have one : 1 ≤ Decimal.width (numerator / denominator) :=
      List.length_pos_of_ne_nil Nat.toDigits_ne_nil
    rw [← Nat.cast_one, ← Nat.cast_sub one, zpow_natCast]
    exact_mod_cast least
  · rw [show (1 : Int) - Decimal.width (denominator / numerator) =
      -((Decimal.width (denominator / numerator) - 1 : Nat) : Int) by
        have one : 1 ≤ Decimal.width (denominator / numerator) :=
          List.length_pos_of_ne_nil Nat.toDigits_ne_nil
        omega, zpow_neg, zpow_natCast, inv_mul_le_iff₀ (by positivity), mul_comm]
    exact_mod_cast equal.ge
  · have greatest := lt_pow_width (denominator / numerator)
    rw [Nat.div_lt_iff_lt_mul numeratorPositive] at greatest
    rw [zpow_neg, zpow_natCast, inv_mul_le_iff₀ (by positivity)]
    exact_mod_cast greatest.le

theorem magnitude_pos (mantissa : Nat) (exponent : Int) : 0 < (magnitude mantissa exponent).2 := by
  cases exponent with
  | ofNat shift => exact Nat.one_pos
  | negSucc shift => exact Nat.pow_pos (by decide)

theorem magnitude_div (mantissa : Nat) (exponent : Int) :
    ((magnitude mantissa exponent).1 : ℚ) / (magnitude mantissa exponent).2 =
      mantissa * 2 ^ exponent := by
  cases exponent with
  | ofNat shift => simp [magnitude]
  | negSucc shift => simp [magnitude, zpow_negSucc, div_eq_mul_inv]

/-- The shortest decimal lies in the neighbourhood. -/
theorem contains_shortest (rule : TieRule) {mantissa : Nat} {exponent : Int}
    (positive : 0 < mantissa) (below : mantissa < mantissaBound) :
    (neighbourhood mantissa exponent).Contains
      (4 * ((shortest rule mantissa exponent).value / 2 ^ exponent)) := by
  rw [shortest, if_neg positive.ne']
  dsimp only
  rw [Decimal.value_trimZeros]
  have numeratorPositive : 0 < (magnitude mantissa exponent).1 := by
    cases exponent with
    | ofNat shift => exact Nat.mul_pos positive (Nat.pow_pos (by decide))
    | negSucc shift => exact positive
  have least := pow_decade_le numeratorPositive (magnitude_pos mantissa exponent)
  rw [magnitude_div] at least
  generalize decade _ _ = place at *
  have close : (10 : ℚ) ^ (place - (16 : Nat)) / 2 ^ exponent * 10 ^ 16 ≤ mantissa := by
    rw [zpow_sub₀ (by norm_num), zpow_natCast, div_right_comm, div_mul_cancel₀ _ (by norm_num),
      div_le_iff₀ (by positivity)]
    exact least
  obtain ⟨nearest, grid⟩ := exists_nearestOnGrid? rule positive below close
  obtain ⟨first, found⟩ := exists_firstHit? 17 (by decide) grid
  rw [found, Option.getD_some]
  exact contains_of_firstHit? found

end Binary64

end FlowPlan
