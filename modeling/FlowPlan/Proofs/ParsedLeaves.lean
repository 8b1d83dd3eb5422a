import FlowPlan.Proofs.Involution
import FlowPlan.Proofs.JoinedPieces
import FlowPlan.Proofs.VaryingOperands

/-! # Leaves that are read

A leaf shows where it comes from: the name of a comparison and every opaque text
are operands themselves, and the arguments of a call have no comma outside
quotes and parentheses. So a leaf stands in a chain as it is, and its text is
again one that is neither in parentheses nor negated.
-/

namespace FlowPlan

open Text (IsGap IsTight IsDottedName IsIdentifier IsOperand IsUndivided IsSeparator)
open Nesting (Hides IsInert)

theorem Text.unwrap?_append_render (front : Text) (literal : Literal) :
    unwrap? (front ++ literal.render) = none := by
  rw [← Option.not_isSome_iff_eq_none, Option.isSome_iff_exists]
  rintro ⟨inner, unwrapped⟩
  obtain ⟨rest, opened, closed⟩ := exists_of_unwrap? unwrapped
  obtain ⟨c, separates, rfl⟩ := Nesting.eq_append_of_closeAt? (by decide) closed
  have last : (front ++ literal.render).getLast? = some c := by
    rw [opened, List.append_nil, ← List.cons_append, List.getLast?_concat]
  rw [List.getLast?_append_of_ne_nil _ literal.isTight_render.ne_nil] at last
  exact literal.not_isSeparator_of_mem_getLast? c last separates

/-! ## Operands -/

namespace Text

theorem isOperand_of_isPhrase {text : Text} (phrase : Condition.IsPhrase .negation text) :
    IsOperand text where
  faultless := phrase.faultless
  trimmed := phrase.tight.trim_eq
  uncut connective := by
    rw [IsUncut, Connective.token_eq]
    apply Nesting.cutAt?_eq_none (phrase.passes connective.mark _)
    cases connective <;> decide

theorem isOperand_parenthesized {text : Text} (faultless : Nesting.top.fault? text = none) :
    IsOperand ('(' :: (text ++ [')'])) :=
  isOperand_of_isPhrase (.parenthesized faultless)

theorem isOperand_mark {text : Text} (isOperand : IsOperand text) : IsOperand ('!' :: text) where
  faultless := isOperand.faultless
  trimmed := by
    by_cases nonempty : text = []
    · rw [nonempty]
      decide
    · have mark : IsTight ['!'] := .of_forall (List.cons_ne_nil '!' []) (by decide)
      have tight := isTight_of_trim_eq isOperand.trimmed nonempty
      exact (mark.append [] tight).trim_eq
  uncut connective := by
    have uncut := isOperand.uncut connective
    have passes : Nesting.Passes connective.mark .top ['!'] := by
      apply Nesting.passes_of_not_mem
      cases connective <;> decide
    rw [IsUncut, Connective.token_eq] at uncut ⊢
    have cut : Nesting.cutAt? [connective.mark, connective.mark] .top (['!'] ++ text) = _ :=
      Nesting.cutAt?_append passes
    have behindMark : Nesting.top.behind ['!'] = .top := rfl
    rw [behindMark, uncut] at cut
    exact cut

theorem isOperand_comparison {left : Text} (isOperand : IsOperand left) (nonempty : left ≠ [])
    (comparator : Comparator) (right : Literal) :
    IsOperand (left ++ ([' '] ++ comparator.token ++ [' ']) ++ right.render) where
  faultless := Nesting.fault?_eq_none_of_append (Nesting.fault?_eq_none_of_append
    isOperand.faultless (Nesting.fault?_spaced IsGap.blank IsGap.blank
      Comparator.isInert_of_mem_token)) right.fault?_render
  trimmed := ((isTight_of_trim_eq isOperand.trimmed nonempty).append _ right.isTight_render).trim_eq
  uncut connective := by
    have apart : ∀ c ∈ ([' '] ++ comparator.token ++ [' '] ++ right.render).head?,
        c ∉ connective.token.tail := by
      cases connective <;> simp [Connective.token]
    have solid : isBlank connective.mark = false := by
      cases connective <;> decide
    have absent : connective.mark ∉ comparator.token := by
      cases connective <;> cases comparator <;> decide
    have notDotted : isDottedChar connective.mark = false := by
      cases connective <;> decide
    have hides : Hides connective.mark ([' '] ++ comparator.token ++ [' '] ++ right.render) :=
      (Hides.spaced IsGap.blank IsGap.blank Comparator.isInert_of_mem_token solid absent).append
        (right.hides_render notDotted)
    rw [IsUncut, List.append_assoc,
      Nesting.cutAt?_append_of_uncut (isOperand.uncut connective) apart,
      Nesting.behind_of_fault? isOperand.faultless, Connective.token_eq,
      Nesting.cutAt?_eq_none hides.passes, Option.map_none]

/-- What stands on the two sides of a token in an operand. -/
theorem IsOperand.of_cutAt? {token text front back : Text} (isOperand : IsOperand text)
    (mark : IsMark token) (cut : Nesting.cutAt? token .top text = some (front, back)) :
    IsOperand (trim front) ∧ IsOperand (trim back) := by
  have faultless := Nesting.fault?_of_cutAt? mark.nonempty mark.inert isOperand.faultless cut
  have uncut : ∀ connective, IsUncut connective front ∧ IsUncut connective back := by
    intro connective
    have whole := isOperand.uncut connective
    rw [IsUncut, Nesting.eq_append_of_cutAt? mark.nonempty cut, List.append_assoc] at whole
    have parts := Nesting.cutAt?_of_append whole
    have rest := (Nesting.cutAt?_of_append parts.2).2
    rw [Nesting.behind_of_cutAt? cut, Nesting.behind_of_isInert mark.inert] at rest
    exact ⟨parts.1, rest⟩
  exact ⟨⟨Nesting.fault?_trim faultless.1, trim_trim front,
      fun connective => Nesting.cutAt?_trim (uncut connective).1⟩,
    ⟨Nesting.fault?_trim faultless.2, trim_trim back,
      fun connective => Nesting.cutAt?_trim (uncut connective).2⟩⟩

end Text

theorem Comparator.isMark_token (comparator : Comparator) : Text.IsMark comparator.token where
  nonempty := by
    obtain ⟨first, more, token⟩ := comparator.exists_token_eq_cons
    exact token ▸ List.cons_ne_nil first more
  inert := isInert_of_mem_token
  solid _ mem := isBlank_of_mem_characters (mem_characters_of_mem_token mem)

/-! ## Leaves -/

/-- Some text is read as the literal. -/
def Literal.IsRead (literal : Literal) : Prop := ∃ text, ofText? text = some literal

namespace Condition

variable {σ : Type} [Keyed σ]

theorem cutAt?_of_findComparator? {text front back : Text} {comparator : Comparator}
    (found : findComparator? text = some (front, comparator, back)) :
    Nesting.cutAt? comparator.token .top text = some (front, back) := by
  obtain ⟨_, _, mapped⟩ := List.exists_of_findSome?_eq_some found
  obtain ⟨_, cut, equal⟩ := Option.map_eq_some_iff.mp mapped
  cases equal
  exact cut

/-- A leaf as a text in the scope can be read as it. -/
def IsParsedLeaf (scope : StepScope σ) : Condition σ → Prop
  | .comparison left _ right _ => left ≠ [] ∧ IsOperand left ∧ right.IsRead
  | .call name arguments _ =>
    IsIdentifier name ∧ arguments ≠ [[]] ∧ ∀ argument ∈ arguments, IsUndivided [','] argument
  | .raw text _ =>
    IsOperand text ∧ Text.unwrap? text = none ∧ negatedPart? text = none ∧
      ∃ sources, leaf scope text = .raw text sources
  | _ => False

variable {scope : StepScope σ} {text : Text} {condition : Condition σ}

theorem isParsedLeaf_of_comparison? (isOperand : IsOperand text)
    (found : comparison? scope text = some condition) : IsParsedLeaf scope condition := by
  rw [comparison?] at found
  split at found
  · cases found
  · rename_i front comparator back sought
    have sides := isOperand.of_cutAt? comparator.isMark_token (cutAt?_of_findComparator? sought)
    dsimp only at found
    split at found
    · cases found
    · rename_i present
      simp only [Bool.or_eq_true, not_or, List.isEmpty_iff] at present
      split at found
      · rename_i literal read
        cases found
        exact ⟨present.1, sides.1, _, read⟩
      · obtain ⟨literal, read, rfl⟩ := Option.map_eq_some_iff.mp found
        exact ⟨present.2, sides.2, _, read⟩

theorem isParsedLeaf_of_call? (found : call? scope text = some condition) :
    IsParsedLeaf scope condition := by
  rw [call?] at found
  dsimp only at found
  split at found
  · cases found
  · rename_i proper
    obtain ⟨inner, unwrapped, rfl⟩ := Option.map_eq_some_iff.mp found
    simp only [Bool.or_eq_true, Bool.not_eq_true', not_or, Bool.not_eq_false,
      List.isEmpty_iff] at proper
    have faultless := Nesting.fault?_trim (Text.faultless_of_unwrap? unwrapped)
    refine ⟨⟨proper.1, List.all_eq_true.mp proper.2⟩, ?_⟩
    split
    · simp
    · rename_i present
      rw [List.isEmpty_iff] at present
      constructor
      · -- One argument alone is the whole of what is in the parentheses.
        intro blank
        cases cut : Nesting.cutAt? [','] .top (Text.trim inner) with
        | none =>
            rw [Text.splitAround_of_none cut] at blank
            simp [present] at blank
        | some parts =>
            rw [Text.splitAround_of_some cut] at blank
            have more := congrArg List.length blank
            simp [Nesting.splitAround_ne_nil] at more
      · intro argument mem
        obtain ⟨piece, pieceMem, rfl⟩ := List.mem_map.mp mem
        exact Text.isUndivided_of_mem_splitAround Text.isMark_comma faultless pieceMem

theorem isParsedLeaf_leaf (isOperand : IsOperand text) (bare : Text.unwrap? text = none)
    (unmarked : negatedPart? text = none) : IsParsedLeaf scope (leaf scope text) := by
  cases compared : comparison? scope text with
  | some condition =>
      rw [leaf, compared]
      exact isParsedLeaf_of_comparison? isOperand compared
  | none =>
      cases called : call? scope text with
      | some condition =>
          rw [leaf, compared, called]
          exact isParsedLeaf_of_call? called
      | none =>
          have opaqueText : leaf scope text = .raw text (Text.sources scope text) := by
            rw [leaf, compared, called]
            rfl
          rw [opaqueText]
          exact ⟨isOperand, bare, unmarked, _, opaqueText⟩

theorem isParsedLeaf_booleanText (value : Bool) (sources : List (Source σ)) :
    IsParsedLeaf scope (.raw (booleanText value) sources) := by
  have isName := isDottedName_booleanText value
  have derived : Derives scope .negation (booleanText value) _ := .name isName
  refine ⟨Text.isOperand_of_isPhrase (.name isName), ?_, ?_,
    Text.sources scope (booleanText value), ?_⟩
  · cases value <;> rfl
  · cases value <;> rfl
  · rw [← ofOperand_eq_leaf (startsName isName)]
    exact (reads_of_derives derived).2

/-- All leaves of a condition that is read from a text are as texts are read. -/
theorem overParsedLeaves_of_parse (parsed : parse scope text = .ok condition) :
    condition.Over (IsParsedLeaf scope) := by
  refine among_of_parse (closed_over isParsedLeaf_booleanText).join ?_ ?_ parsed
  · intro found
    exact over_negate (fun _ _ _ _ _ parsedLeaf => parsedLeaf)
      (fun _ value sources _ => isParsedLeaf_booleanText value sources)
  · intro part isOperand bare unmarked
    have parsedLeaf : IsParsedLeaf scope (leaf scope part) :=
      isParsedLeaf_leaf isOperand bare unmarked
    cases shape : leaf scope part <;> rw [shape] at parsedLeaf
    · exact over_comparison.mpr parsedLeaf
    · exact over_call.mpr parsedLeaf
    · exact parsedLeaf.elim
    · exact parsedLeaf.elim
    · exact over_raw.mpr parsedLeaf

end Condition

end FlowPlan
