import FlowPlan.Proofs.PlainText

/-! # Spacing

A gap consists of blanks, a tight text neither begins nor ends with one. A trim
takes the gaps off around a tight text and nothing else.
-/

namespace FlowPlan.Text

def IsGap (text : Text) : Prop := ∀ c ∈ text, isBlank c = true

structure IsTight (text : Text) : Prop where
  starts : ∃ c ∈ text.head?, isBlank c = false
  stops : ∃ c ∈ text.getLast?, isBlank c = false

/-- A text begins as its front does. -/
theorem exists_head?_append {property : Char → Prop} {front : Text}
    (starts : ∃ c ∈ front.head?, property c) (back : Text) :
    ∃ c ∈ (front ++ back).head?, property c := by
  rcases starts with ⟨c, isFirst, known⟩
  exact ⟨c, by simp_all [List.head?_append], known⟩

theorem isInert_of_isBlank {c : Char} (blank : isBlank c = true) : Nesting.IsInert c := by
  refine ⟨?_, ?_, ?_⟩ <;> rintro rfl <;> revert blank <;> decide

/-! ## Gaps -/

namespace IsGap

variable {gap other : Text}

theorem nil : IsGap [] := by
  intro c mem
  cases mem

theorem blank : IsGap [' '] := by
  intro c mem
  cases List.mem_singleton.mp mem
  decide

theorem isInert (isGap : IsGap gap) : ∀ c ∈ gap, Nesting.IsInert c :=
  fun c mem => isInert_of_isBlank (isGap c mem)

/-- What holds of blanks and of a token holds of the token with blanks around it. -/
theorem forall_mem_spaced {token : Text} {property : Char → Prop} (beforeGap : IsGap gap)
    (afterGap : IsGap other) (blanks : ∀ c, isBlank c = true → property c)
    (tokens : ∀ c ∈ token, property c) : ∀ c ∈ gap ++ token ++ other, property c := by
  intro c mem
  rcases List.mem_append.mp mem with mem | inAfter
  · exact (List.mem_append.mp mem).elim (fun inBefore => blanks c (beforeGap c inBefore)) (tokens c)
  · exact blanks c (afterGap c inAfter)

/-- Names and operators have no blanks. -/
theorem not_mem (isGap : IsGap gap) {c : Char} (solid : isBlank c = false) : c ∉ gap := by
  intro mem
  rw [isGap c mem] at solid
  cases solid

end IsGap

theorem dropWhile_isBlank_of_isGap {gap : Text} (isGap : IsGap gap) :
    gap.dropWhile isBlank = [] := by
  rw [← List.append_nil gap, List.dropWhile_append_of_pos isGap]
  rfl

theorem trimEnd_append_gap {gap : Text} (isGap : IsGap gap) (text : Text) :
    trimEnd (text ++ gap) = trimEnd text := by
  have reversed : ∀ c ∈ gap.reverse, isBlank c = true :=
    fun c mem => isGap c (List.mem_reverse.mp mem)
  rw [trimEnd, List.reverse_append, List.dropWhile_append_of_pos reversed, trimEnd]

theorem trim_append_gap {gap : Text} (isGap : IsGap gap) (text : Text) :
    trim (text ++ gap) = trim text := by
  rw [trim, trimStart, List.dropWhile_append]
  split
  · rename_i allBlank
    rw [dropWhile_isBlank_of_isGap isGap, trim, trimStart, List.isEmpty_iff.mp allBlank]
  · exact trimEnd_append_gap isGap _

theorem trim_gap_append {gap : Text} (isGap : IsGap gap) (text : Text) :
    trim (gap ++ text) = trim text := by
  rw [trim, trimStart, List.dropWhile_append_of_pos isGap, trim, trimStart]

/-! ## Tight texts -/

namespace IsTight

variable {text : Text}

theorem ne_nil (tight : IsTight text) : text ≠ [] := by
  rintro rfl
  rcases tight.starts with ⟨c, mem, _⟩
  cases mem

theorem trim_eq (tight : IsTight text) : trim text = text := by
  rcases tight.starts with ⟨first, isFirst, firstSolid⟩
  rcases tight.stops with ⟨last, isLast, lastSolid⟩
  have unstarted : trimStart text = text := by
    cases text with
    | nil => rfl
    | cons head tail =>
        cases isFirst
        rw [trimStart, List.dropWhile_cons_of_neg (by simp [firstSolid])]
  rw [trim, unstarted, trimEnd]
  rw [List.getLast?_eq_head?_reverse] at isLast
  cases reversed : text.reverse with
  | nil =>
      rw [List.reverse_eq_nil_iff] at reversed
      rw [reversed]
      rfl
  | cons head tail =>
      rw [reversed] at isLast
      cases isLast
      rw [List.dropWhile_cons_of_neg (by simp [lastSolid]), ← reversed, List.reverse_reverse]

theorem of_forall (some : text ≠ []) (solid : ∀ c ∈ text, isBlank c = false) : IsTight text where
  starts := ⟨text.head some, List.head_mem_head? some, solid _ (List.head_mem some)⟩
  stops := ⟨text.getLast some, List.getLast_mem_getLast? some, solid _ (List.getLast_mem some)⟩

theorem of_isDottedName (name : IsDottedName text) : IsTight text :=
  of_forall name.1 fun c mem => isBlank_of_isDottedChar (name.2 c mem)

theorem append {front back : Text} (frontTight : IsTight front) (middle : Text)
    (backTight : IsTight back) : IsTight (front ++ middle ++ back) where
  starts := by
    rw [List.append_assoc]
    exact exists_head?_append frontTight.starts _
  stops := by
    rcases backTight.stops with ⟨c, isLast, solid⟩
    exact ⟨c, by simp_all [List.getLast?_append], solid⟩

theorem quote (content : Text) : IsTight (Text.quote content) :=
  IsTight.append (of_forall (List.cons_ne_nil '\'' []) (by decide)) (doubleQuotes content)
    (of_forall (List.cons_ne_nil '\'' []) (by decide))

theorem trim_surrounded {before after : Text} (tight : IsTight text) (beforeGap : IsGap before)
    (afterGap : IsGap after) : trim (before ++ text ++ after) = text := by
  rw [trim_append_gap afterGap, trim_gap_append beforeGap, tight.trim_eq]

end IsTight

end FlowPlan.Text
