import Mathlib.Algebra.Group.Nat.Defs
import Mathlib.Data.List.TakeWhile
import FlowPlan.Number.Shortest
import FlowPlan.Proofs.PlainText

/-! # Numerals

Positional notation writes a decimal as digits, perhaps with a point among them,
and reading such a numeral gives the digits and their count behind the point.
-/

namespace FlowPlan

namespace Decimal

/-- Digits with a point in front of the fraction, if there is one. -/
def numeralText (whole fraction : Text) : Text :=
  whole ++ if fraction = [] then [] else '.' :: fraction

/-- A digit comes first, and all characters but the point are digits. -/
structure IsNumeral (whole fraction : Text) : Prop where
  nonempty : whole ≠ []
  whole : ∀ c ∈ whole, c.isDigit = true
  fraction : ∀ c ∈ fraction, c.isDigit = true

theorem readDigits_append (value : Nat) (front back : Text) :
    readDigits value (front ++ back) = readDigits (readDigits value front) back :=
  List.foldl_append

theorem readDigits_zeros (value count : Nat) :
    readDigits value (zeros count) = value * 10 ^ count := by
  rw [Nat.mul_comm]
  exact Nat.ofDigitChars_replicate_zero

theorem readDigits_digitText (decimal : Decimal) : readDigits 0 decimal.digitText = decimal.digits :=
  Nat.ofDigitChars_ten_toDigits

theorem isDigit_of_mem_digitText (decimal : Decimal) :
    ∀ c ∈ decimal.digitText, c.isDigit = true := fun _ mem =>
  Nat.isDigit_of_mem_toDigits (by decide) (by decide) mem

theorem isDigit_of_mem_zeros (count : Nat) : ∀ c ∈ zeros count, c.isDigit = true := by
  intro c mem
  rw [List.eq_of_mem_replicate mem]
  decide

variable {whole fraction : Text}

theorem ofText?_numeralText (numeral : IsNumeral whole fraction) :
    ofText? (numeralText whole fraction) =
      some ⟨readDigits 0 (whole ++ fraction), -(fraction.length : Int)⟩ := by
  have notDigit : Char.isDigit '.' = false := by decide
  rw [numeralText, ofText?, List.takeWhile_append_of_pos numeral.whole,
    List.dropWhile_append_of_pos numeral.whole]
  by_cases none : fraction = []
  · simp [none, numeral.nonempty, readExponent?, readDigits]
  · have allDigits := List.takeWhile_eq_self_iff.mpr numeral.fraction
    have noRest := List.dropWhile_eq_nil_iff.mpr numeral.fraction
    simp [none, notDigit, allDigits, noRest, numeral.nonempty, readExponent?, readDigits_append]

/-- Positional notation is a numeral for the decimal. -/
theorem exists_numeralText (decimal : Decimal) : ∃ whole fraction,
    decimal.positional = numeralText whole fraction ∧ IsNumeral whole fraction ∧
      readDigits 0 (whole ++ fraction) = decimal.digits * 10 ^ decimal.exponent.toNat ∧
        fraction.length = (-decimal.exponent).toNat := by
  have nonempty : decimal.digitText ≠ [] := Nat.toDigits_ne_nil
  have allDigits := decimal.isDigit_of_mem_digitText
  have read := decimal.readDigits_digitText
  rw [positional]
  generalize decimal.digitText = digits at *
  obtain ⟨number, exponent⟩ := decimal
  cases exponent with
  | ofNat count =>
      by_cases zero : number = 0
      · refine ⟨digits, [], (if_pos zero).trans (List.append_nil digits).symm,
          ⟨nonempty, allDigits, by simp⟩, ?_, by simp⟩
        rw [List.append_nil, read]
        simp [zero]
      · refine ⟨digits ++ zeros count, [], (if_neg zero).trans (List.append_nil _).symm,
          ⟨?_, ?_, by simp⟩, ?_, by simp⟩
        · exact List.append_ne_nil_of_left_ne_nil nonempty _
        · exact List.forall_mem_append.mpr ⟨allDigits, isDigit_of_mem_zeros count⟩
        · rw [List.append_nil, readDigits_append, read, readDigits_zeros]
          rfl
  | negSucc places =>
      by_cases short : places + 1 < digits.length
      · have wholeLength : (digits.take (digits.length - (places + 1))).length =
            digits.length - (places + 1) := by
          rw [List.length_take]
          omega
        have fractionLength : (digits.drop (digits.length - (places + 1))).length = places + 1 := by
          rw [List.length_drop]
          omega
        refine ⟨digits.take (digits.length - (places + 1)),
          digits.drop (digits.length - (places + 1)), ?_, ⟨?_, ?_, ?_⟩, ?_, fractionLength⟩
        · rw [numeralText, if_neg (List.ne_nil_of_length_pos (by omega))]
          exact if_pos short
        · exact List.ne_nil_of_length_pos (by omega)
        · exact fun c mem => allDigits c (List.mem_of_mem_take mem)
        · exact fun c mem => allDigits c (List.mem_of_mem_drop mem)
        · rw [List.take_append_drop, read]
          exact (Nat.mul_one number).symm
      · have fractionLength : (zeros (places + 1 - digits.length) ++ digits).length =
            places + 1 := by
          rw [List.length_append, zeros, List.length_replicate]
          omega
        refine ⟨['0'], zeros (places + 1 - digits.length) ++ digits, ?_,
          ⟨by decide, by decide, ?_⟩, ?_, fractionLength⟩
        · rw [numeralText, if_neg (List.ne_nil_of_length_pos (by omega))]
          exact if_neg short
        · exact List.forall_mem_append.mpr ⟨isDigit_of_mem_zeros _, allDigits⟩
        · have zero : readDigits 0 ['0'] = 0 := rfl
          rw [readDigits_append, zero, readDigits_append, readDigits_zeros, Nat.zero_mul, read]
          exact (Nat.mul_one number).symm

end Decimal

/-! ## Characters -/

/-- The characters of numbers in positional notation and of the words for those that have none. -/
def Text.isNumeralChar (c : Char) : Bool :=
  c.isDigit || ['.', '-', 'i', 'n', 'f', 'N', 'a'].contains c

theorem Text.isDottedChar_of_isNumeralChar {c : Char} (numeral : isNumeralChar c = true) :
    isDottedChar c = true := by
  rw [isNumeralChar, Bool.or_eq_true] at numeral
  cases numeral with
  | inl digit => simp [isDottedChar, isNameChar, isWordChar, Char.isAlphanum, digit]
  | inr other =>
      revert c
      simp only [List.contains_iff_mem]
      decide

theorem Decimal.exists_positional_eq (decimal : Decimal) :
    ∃ first rest, decimal.positional = first :: rest ∧ first.isDigit = true := by
  obtain ⟨whole, fraction, text, numeral, _⟩ := decimal.exists_numeralText
  obtain ⟨first, more, rfl⟩ := List.exists_cons_of_ne_nil numeral.nonempty
  exact ⟨first, _, text, numeral.whole first List.mem_cons_self⟩

theorem Decimal.isNumeralChar_of_mem_positional {decimal : Decimal} :
    ∀ c ∈ decimal.positional, Text.isNumeralChar c = true := by
  obtain ⟨whole, fraction, text, numeral, _⟩ := decimal.exists_numeralText
  have digit : ∀ c : Char, c.isDigit = true → Text.isNumeralChar c = true := by
    intro c isDigit
    rw [Text.isNumeralChar, isDigit, Bool.true_or]
  rw [text, numeralText, List.forall_mem_append]
  refine ⟨fun c mem => digit c (numeral.whole c mem), ?_⟩
  split
  · simp
  · exact List.forall_mem_cons.mpr ⟨by decide, fun c mem => digit c (numeral.fraction c mem)⟩

namespace Binary64

theorem isNumeralChar_of_mem_signed {negative : Bool} {size : Text}
    (numeral : ∀ c ∈ size, Text.isNumeralChar c = true) :
    ∀ c ∈ signed negative size, Text.isNumeralChar c = true := by
  cases negative with
  | false => exact numeral
  | true => exact List.forall_mem_cons.mpr ⟨by decide, numeral⟩

theorem isNumeralChar_of_mem_plain {value : Binary64} :
    ∀ c ∈ value.plain, Text.isNumeralChar c = true := by
  cases value with
  | finite negative mantissa exponent =>
      exact isNumeralChar_of_mem_signed Decimal.isNumeralChar_of_mem_positional
  | infinite negative => exact isNumeralChar_of_mem_signed (by decide)
  | undefined => decide

/-- The text of a finite number begins with a digit or a minus sign. -/
theorem exists_plain_eq (negative : Bool) (mantissa : Nat) (exponent : Int) : ∃ first rest,
    plain (.finite negative mantissa exponent) = first :: rest ∧
      (first.isDigit = true ∨ first = '-') := by
  obtain ⟨first, rest, text, digit⟩ := (shortest .up mantissa exponent).exists_positional_eq
  cases negative with
  | false => exact ⟨first, rest, text, .inl digit⟩
  | true => exact ⟨'-', _, rfl, .inr rfl⟩

theorem plain_ne_nil (value : Binary64) : value.plain ≠ [] := by
  cases value with
  | finite negative mantissa exponent =>
      obtain ⟨first, rest, shown, _⟩ := exists_plain_eq negative mantissa exponent
      exact shown ▸ List.cons_ne_nil first rest
  | infinite negative => cases negative <;> decide
  | undefined => decide

end Binary64

end FlowPlan
