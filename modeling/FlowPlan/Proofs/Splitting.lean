import FlowPlan.Proofs.ChainText

/-! # Splitting texts

Texts without a fault stand behind one another and in parentheses without one.
A text that is put together from pieces and tokens is split into these pieces
again, where no piece shows the token outside quotes and parentheses.
-/

namespace FlowPlan

namespace Nesting

/-! ## Faults of texts put together -/

theorem fault?_append_raised {nesting : Nesting} {front : Text}
    (faultless : nesting.fault? front = none) {levels : Int} (nonnegative : 0 ≤ levels)
    (back : Text) :
    (nesting.raised levels).fault? (front ++ back) = (Nesting.mk false levels).fault? back := by
  induction front generalizing nesting with
  | nil =>
      have state := behind_raised_of_fault? faultless levels
      rw [behind_nil] at state
      rw [List.nil_append, state]
  | cons head tail induction =>
      rw [fault?] at faultless
      split at faultless
      · cases faultless
      · rename_i notBelow
        have above : ¬ ((nesting.after head).raised levels).depth < 0 := by
          show ¬ (nesting.after head).depth + levels < 0
          omega
        rw [List.cons_append, fault?, after_raised, if_neg above, induction faultless]

theorem fault?_append {front : Text} (faultless : top.fault? front = none) (back : Text) :
    top.fault? (front ++ back) = top.fault? back :=
  fault?_append_raised faultless (Int.le_refl 0) back

theorem fault?_eq_none_of_append {front back : Text} (frontFaultless : top.fault? front = none)
    (backFaultless : top.fault? back = none) : top.fault? (front ++ back) = none := by
  rw [fault?_append frontFaultless, backFaultless]

theorem fault?_of_isInert {text : Text} (inert : ∀ c ∈ text, IsInert c) :
    top.fault? text = none := by
  induction text with
  | nil => rfl
  | cons head tail induction =>
      rw [fault?, after_of_isInert (inert head List.mem_cons_self)]
      exact induction fun c mem => inert c (List.mem_cons_of_mem head mem)

theorem fault?_parenthesized {text : Text} (faultless : top.fault? text = none) :
    top.fault? ('(' :: (text ++ [')'])) = none := by
  have positive : (0 : Int) ≤ 1 := by decide
  have inside := fault?_append_raised faultless positive [')']
  have opened : top.fault? ('(' :: (text ++ [')'])) = (top.raised 1).fault? (text ++ [')']) := rfl
  rw [opened, inside]
  rfl

theorem fault?_doubleQuotes (content back : Text) :
    (Nesting.mk true 0).fault? (Text.doubleQuotes content ++ back) =
      (Nesting.mk true 0).fault? back := by
  fun_induction Text.doubleQuotes content with
  | case1 => rfl
  | case2 tail induction => exact induction
  | case3 head tail other induction =>
      rw [List.cons_append, fault?, after_inside_quotes other]
      exact induction

theorem fault?_quote (content : Text) : top.fault? (Text.quote content) = none :=
  fault?_doubleQuotes content ['\'']

/-! ## Parentheses -/

/-- Whoever reads a faultless text inside one parenthesis closes it at the next character. -/
theorem closeAt?_append {nesting : Nesting} {text : Text} (faultless : nesting.fault? text = none)
    (nonnegative : 0 ≤ nesting.depth) (back : Text) :
    (nesting.raised 1).closeAt? (text ++ ')' :: back) = some (text, back) := by
  induction text generalizing nesting with
  | nil =>
      have state := behind_raised_of_fault? faultless 1
      rw [behind_nil] at state
      rw [state]
      rfl
  | cons head tail induction =>
      rw [fault?] at faultless
      split at faultless
      · cases faultless
      · have inside : ¬ ((nesting.after head).raised 1).depth = 0 := by
          show ¬ (nesting.after head).depth + 1 = 0
          omega
        rw [List.cons_append, closeAt?, after_raised, if_neg inside,
          induction faultless (by omega)]
        rfl

end Nesting

theorem Text.unwrap?_parenthesized {text : Text} (faultless : Nesting.top.fault? text = none) :
    unwrap? ('(' :: (text ++ [')'])) = some text := by
  have closed := Nesting.closeAt?_append faultless (Int.le_refl 0) []
  have opened : Nesting.top.raised 1 = ⟨false, 1⟩ := rfl
  rw [opened] at closed
  simp only [unwrap?, closed]

theorem Text.unwrap?_eq_none {text : Text} (start : text.head? ≠ some '(') :
    unwrap? text = none := by
  cases text with
  | nil => rfl
  | cons head tail =>
      rw [unwrap?]
      rintro rest equal
      exact absurd (congrArg List.head? equal) start

/-! ## Tokens -/

namespace Nesting

theorem admits_of_isInert {nesting : Nesting} {c other : Char} (admitted : nesting.admits c = true)
    (inert : IsInert other) : nesting.admits other = true := by
  simp only [admits, Bool.and_eq_true, decide_eq_true_eq] at admitted ⊢
  exact ⟨⟨⟨admitted.1.1.1, inert.1⟩, inert.2.1⟩, inert.2.2⟩

/-- A token of two characters does not occur where its second one does not stand outside. -/
theorem cutAt?_eq_none_of_second {first second : Char} (inert : IsInert first)
    (inert' : IsInert second) {nesting : Nesting} {text : Text}
    (passes : Passes second nesting text) : cutAt? [first, second] nesting text = none := by
  induction text generalizing nesting with
  | nil => rfl
  | cons head tail induction =>
      have noToken : ¬ (nesting.admits head &&
          [first, second].isPrefixOf (head :: tail)) = true := by
        intro found
        rcases Bool.and_eq_true_iff.mp found with ⟨admitted, starts⟩
        cases tail with
        | nil => simp [List.isPrefixOf] at starts
        | cons next rest =>
            have same : first = head ∧ second = next := by
              simpa [List.isPrefixOf] using starts
            rcases same with ⟨rfl, rfl⟩
            have nextPasses := passes.2.1
            rw [after_of_isInert inert] at nextPasses
            exact nextPasses (admits_of_isInert admitted inert') rfl
      rw [cutAt?, if_neg noToken, induction passes.2, Option.map_none]

/-- The character stands nowhere outside quotes and parentheses, and the text is balanced. A token
that begins with the character cuts such a text off as it is. -/
structure Hides (first : Char) (text : Text) : Prop where
  balanced : Balanced text
  passes : Passes first .top text

namespace Hides

variable {first : Char}

theorem append {front back : Text} (frontHides : Hides first front) (backHides : Hides first back) :
    Hides first (front ++ back) where
  balanced := frontHides.balanced.append backHides.balanced
  passes := by
    rw [passes_append, frontHides.balanced.behind_top]
    exact ⟨frontHides.passes, backHides.passes⟩

theorem of_forall {text : Text} (inert : ∀ c ∈ text, IsInert c) (absent : first ∉ text) :
    Hides first text where
  balanced := .of_isInert inert
  passes := passes_of_not_mem absent .top

theorem parenthesized {text : Text} (balanced : Balanced text) :
    Hides first ('(' :: (text ++ [')'])) where
  balanced := balanced.parenthesized
  passes := passes_parenthesized balanced first (Int.le_refl 0)

theorem quote (content : Text) : Hides first (Text.quote content) where
  balanced := .quote content
  passes := passes_quote content first 0

theorem of_isDottedChar {text : Text} (dotted : ∀ c ∈ text, Text.isDottedChar c = true)
    (other : Text.isDottedChar first = false) : Hides first text :=
  of_forall (fun c mem => Text.isInert_of_isDottedChar (dotted c mem))
    fun mem => Text.ne_of_isDottedChar (dotted first mem) other rfl

end Hides

theorem cutAt?_of_hides {first : Char} {more front : Text} (admitted : top.admits first = true)
    (hides : Hides first front) (back : Text) :
    cutAt? (first :: more) top (front ++ first :: more ++ back) = some (front, back) := by
  rw [List.append_assoc, cutAt?_append hides.passes, hides.balanced.behind_top,
    cutAt?_token admitted, Option.map_some, List.append_nil]

theorem splitAround_of_hides {first : Char} {more text : Text} (hides : Hides first text) :
    Text.splitAround (first :: more) text = [text] := by
  rw [Text.splitAround]
  split
  · rfl
  · rename_i cut
    rw [cutAt?_eq_none hides.passes] at cut
    cases cut

theorem splitAround_append {first : Char} {more front : Text}
    (admitted : top.admits first = true) (hides : Hides first front) (back : Text) :
    Text.splitAround (first :: more) (front ++ first :: more ++ back) =
      front :: Text.splitAround (first :: more) back := by
  have cut : cutAt? (first :: more) top (front ++ first :: more ++ back) = some (front, back) :=
    cutAt?_of_hides admitted hides back
  rw [Text.splitAround]
  split
  · rename_i none
    rw [cut] at none
    cases none
  · rename_i found
    rw [cut] at found
    cases found
    rfl

theorem splitAround_ne_nil (token text : Text) : Text.splitAround token text ≠ [] := by
  rw [Text.splitAround]
  split <;> exact List.cons_ne_nil _ _

end Nesting

end FlowPlan
