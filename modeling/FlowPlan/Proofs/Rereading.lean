import FlowPlan.Proofs.SettledTexts

/-! # Reading rendered conditions again

The text of a condition that was read is split into the texts of its operands
again, and every operand is read as before: parentheses and negations are taken
off, and each leaf is read from its own text. So the condition that is found has
the same chains, associated to the left, over leaves that may differ.
-/

namespace FlowPlan

open Text (IsGap IsTight IsOperand IsUndivided)

/-! ## Texts behind a mark -/

namespace Text

theorem trim_append_of_isTight {back : Text} (tight : IsTight back) (front : Text) :
    trim (front ++ back) = trimStart front ++ back := by
  have backStarts : trimStart back = back := by
    obtain ⟨first, isFirst, solid⟩ := tight.starts
    cases back with
    | nil => rfl
    | cons head tail =>
        cases isFirst
        rw [trimStart, List.dropWhile_cons_of_neg (by simp [solid])]
  have started : trimStart (front ++ back) = trimStart front ++ back := by
    rw [trimStart, List.dropWhile_append]
    split
    · rename_i allBlank
      rw [← trimStart, backStarts, trimStart, List.isEmpty_iff.mp allBlank, List.nil_append]
    · rfl
  have ended : ∀ text : Text, trimEnd (text ++ back) = text ++ back := by
    intro text
    obtain ⟨last, isLast, solid⟩ := tight.stops
    rw [List.getLast?_eq_head?_reverse] at isLast
    obtain ⟨more, reversed⟩ : ∃ more, back.reverse = last :: more :=
      List.head?_eq_some_iff.mp isLast
    rw [trimEnd, List.reverse_append, reversed, List.cons_append,
      List.dropWhile_cons_of_neg (by simp [solid]), ← List.cons_append, ← reversed,
      ← List.reverse_append, List.reverse_reverse]
  rw [trim, started, ended]

end Text

namespace Condition

/-- A comparison is never read as a negation, even if its left side begins with the mark of one. -/
theorem negatedPart?_comparison {left : Text} (faultless : Nesting.top.fault? left = none)
    (comparator : Comparator) (right : Literal) :
    negatedPart? (left ++ ([' '] ++ comparator.token ++ [' ']) ++ right.render) = none := by
  cases negated : negatedPart? (left ++ ([' '] ++ comparator.token ++ [' ']) ++ right.render) with
  | none => rfl
  | some part =>
      obtain ⟨rest, opened, rfl, -, whole⟩ := exists_of_negatedPart? negated
      obtain ⟨more, rfl, split⟩ : ∃ more, left = '!' :: more ∧
          rest = more ++ ([' '] ++ comparator.token ++ [' ']) ++ right.render := by
        cases left with
        | nil => simp at opened
        | cons head more =>
            rw [List.cons_append, List.cons_append] at opened
            obtain ⟨rfl, rfl⟩ := List.cons.inj opened
            exact ⟨more, rfl, rfl⟩
      cases whole with
      | inl unwrapped =>
          rw [split, Text.trim_append_of_isTight right.isTight_render, Text.unwrap?_append_render]
            at unwrapped
          cases unwrapped
      | inr noComparator =>
          have outside : Nesting.top.behind (more ++ [' ']) = .top := by
            have ended : Nesting.top.behind ('!' :: more) = .top :=
              Nesting.behind_of_fault? faultless
            rw [Nesting.behind_append]
            exact (Nesting.behind_of_isInert IsGap.blank.isInert _).trans ended
          have shape : rest = (more ++ [' ']) ++ (comparator.token ++ ([' '] ++ right.render)) := by
            simp only [split, List.append_assoc]
          have uncut := comparator.isMark_token.cutAt?_of_trim
            (findComparator?_eq_none_iff.mp noComparator comparator)
          rw [shape] at uncut
          have absent := (Nesting.cutAt?_of_append uncut).2
          rw [outside, comparator.isMark_token.cutAt?_self] at absent
          cases absent

/-- Behind the mark of a negation stands what the negation applies to. -/
theorem negatedPart?_mark_of_trim {text : Text} (trimmed : Text.trim text = text)
    (start : text.head? ≠ some '=')
    (whole : (Text.unwrap? text).isSome = true ∨ findComparator? text = none) :
    negatedPart? ('!' :: text) = some text := by
  cases whole with
  | inl wrapped => simp [negatedPart?, trimmed, start, wrapped]
  | inr noComparator => simp [negatedPart?, trimmed, start, noComparator]

theorem negatedPart?_of_equal {text : Text} (trimmed : Text.trim text = text)
    (start : text.head? = some '=') : negatedPart? ('!' :: text) = none := by
  simp [negatedPart?, trimmed, start]

/-! ## Shapes of conditions -/

section Shapes

variable {σ : Type} {condition : Condition σ}

theorem IsLeaf.leftAssociated_eq (isLeaf : condition.IsLeaf) :
    condition.leftAssociated = condition := by
  cases condition with
  | comparison | call | raw => rfl
  | joined => exact isLeaf.elim
  | negated => exact isLeaf.elim

theorem operands_of_isSingle (single : condition.IsSingle) (connective : Connective) :
    condition.operands connective = [condition] := by
  cases condition with
  | joined found left right => exact absurd rfl (single found left right)
  | comparison | call | negated | raw => rfl

theorem isSingle_negate (positive : ∀ inner, condition ≠ .negated inner) :
    condition.negate.IsSingle := by
  intro connective left right
  rcases negate_cases condition with same | turned | ⟨_, _, _, _, _, _, turned⟩ |
    ⟨_, _, _, _, turned⟩
  · exact absurd same (positive _)
  · simp [turned]
  · simp [turned]
  · simp [turned]

theorem Varies.negate (varies : condition.Varies) (positive : ∀ inner, condition ≠ .negated inner) :
    condition.negate.Varies := by
  cases condition with
  | comparison left comparator right sources =>
      cases comparator <;> exact ⟨rfl, rfl⟩
  | call | joined => exact ⟨rfl, rfl⟩
  | negated inner => exact absurd rfl (positive inner)
  | raw text sources =>
      rw [Condition.negate, varies.1, varies.2]
      exact ⟨rfl, rfl⟩

theorem TakesNegation.varies (takes : condition.TakesNegation) : condition.Varies := by
  cases condition with
  | raw text sources => exact ⟨decide_eq_false takes.1, decide_eq_false takes.2⟩
  | comparison | call | joined | negated => exact ⟨rfl, rfl⟩

theorem TakesNegation.ne_negated (takes : condition.TakesNegation) (inner : Condition σ) :
    condition ≠ .negated inner := by
  rintro rfl
  exact takes

theorem Varies.leftAssociated (varies : condition.Varies) : condition.leftAssociated.Varies := by
  cases condition with
  | joined connective left right => exact not_constant_attach connective _ _
  | comparison | call | raw | negated => exact varies

/-- Negating does not touch the chains inside. -/
theorem leftAssociated_negate (condition : Condition σ) :
    condition.negate.leftAssociated = condition.leftAssociated.negate := by
  cases condition with
  | comparison left comparator right sources => cases comparator <;> rfl
  | call | negated => rfl
  | joined connective left right =>
      obtain ⟨front, back, equal⟩ :=
        exists_joined_of_attach connective left.leftAssociated right.leftAssociated
      have whole : (joined connective left right).leftAssociated = .joined connective front back :=
        equal
      show Condition.negated (joined connective left right).leftAssociated = _
      rw [whole]
      rfl
  | raw text sources =>
      have same : (raw text sources).leftAssociated = .raw text sources := rfl
      rw [same, negate]
      split
      · rfl
      · split <;> rfl

end Shapes

variable {σ : Type} [Keyed σ]

/-! ## Chains -/

section Chains

variable {connective : Connective} {condition start : Condition σ}

theorem join_leftAssociated (startVaries : start.Varies) (varies : condition.Varies)
    (other : ∀ left right, condition ≠ .joined connective left right) :
    connective.join start condition.leftAssociated =
      attach connective start condition.leftAssociated := by
  rw [attach_of_ne start (ne_joined_leftAssociated other),
    join_eq_joined connective startVaries varies.leftAssociated]

theorem foldl_join_leftAssociated
    (vary : ∀ operand ∈ condition.operands connective, operand.Varies)
    (startVaries : start.Varies) :
    ((condition.operands connective).map leftAssociated).foldl connective.join start =
      attach connective start condition.leftAssociated := by
  induction condition generalizing start with
  | joined found left right leftInduction rightInduction =>
      by_cases same : found = connective
      · subst same
        rw [operands, if_pos rfl] at vary ⊢
        have first := leftInduction (fun operand mem => vary operand (by simp [mem])) startVaries
        have middle := not_constant_attach found start left.leftAssociated
        have second := rightInduction (fun operand mem => vary operand (by simp [mem])) middle
        rw [List.map_append, List.foldl_append, first, second, leftAssociated, attach_attach]
      · rw [operands, if_neg same] at vary ⊢
        exact join_leftAssociated startVaries (vary _ List.mem_cons_self) (by simp [same])
  | comparison | call | negated | raw =>
      exact join_leftAssociated startVaries (vary _ List.mem_cons_self) (by simp)

/-- Joining the operands of a chain from left to right associates it to the left. -/
theorem joinAll_leftAssociated
    (vary : ∀ operand ∈ condition.operands connective, operand.Varies) :
    connective.joinAll ((condition.operands connective).map leftAssociated) =
      some condition.leftAssociated := by
  have alone : ∀ single : Condition σ, connective.joinAll [single] = some single := by
    cases connective <;> exact fun _ => rfl
  induction condition with
  | joined found left right leftInduction _ =>
      by_cases same : found = connective
      · subst same
        rw [operands, if_pos rfl] at vary ⊢
        have leftJoined := leftInduction fun operand mem => vary operand (by simp [mem])
        have leftVaries : left.leftAssociated.Varies := by
          cases left with
          | joined other _ _ => exact not_constant_attach other _ _
          | comparison | call | raw | negated =>
              exact Varies.leftAssociated (vary _ (by simp [operands]))
        obtain ⟨first, more, listed⟩ :=
          List.exists_cons_of_ne_nil (Conjunction.operands_ne_nil found left)
        rw [listed, List.map_cons, joinAll_cons] at leftJoined
        rw [listed, List.cons_append, List.map_cons, joinAll_cons, List.map_append,
          List.foldl_append, Option.some.inj leftJoined,
          foldl_join_leftAssociated (fun operand mem => vary operand (by simp [mem])) leftVaries,
          leftAssociated]
      · rw [operands, if_neg same]
        exact alone _
  | comparison | call | negated | raw => exact alone _

end Chains

/-! ## Reading operands -/

variable {scope : StepScope σ} {text : Text} {condition base : Condition σ}

theorem ofChain_of_isUndivided {connective : Connective} (read : Text → Condition σ)
    (undivided : IsUndivided connective.token text) : ofChain connective read text = read text := by
  rw [ofChain, Text.splitAround_of_none undivided.uncut, List.map_singleton, undivided.trimmed]
  cases connective <;> rfl

theorem ofChain_of_pieces {connective : Connective} (read : Text → Condition σ)
    {pieces : List Text} {whole : Condition σ}
    (found : (Text.splitAround connective.token text).map Text.trim = pieces)
    (joined : connective.joinAll (pieces.map read) = some whole) :
    ofChain connective read text = whole := by
  rw [← found, List.map_map] at joined
  show (connective.joinAll ((Text.splitAround connective.token text).map (read ∘ Text.trim))).getD _ =
    whole
  rw [joined, Option.getD_some]

theorem ofExpression_of_isOperand (isOperand : IsOperand text) :
    ofExpression scope text = ofOperand scope text := by
  rw [ofExpression_eq, ofRank_chain, ofChain_of_isUndivided _ (isOperand.isUndivided .or)]
  exact ofChain_of_isUndivided _ (isOperand.isUndivided .and)

theorem ofRank_of_isOperand (connective : Connective) (isOperand : IsOperand text) :
    ofRank scope connective.operandRank text = ofOperand scope text := by
  cases connective with
  | and => rfl
  | or => exact ofChain_of_isUndivided _ (isOperand.isUndivided .and)

theorem ofOperand_parenthesized {wrap : Bool} (faultless : Nesting.top.fault? text = none)
    (bare : wrap = false → IsOperand text) :
    ofOperand scope (parenthesized wrap text) = ofExpression scope (Text.trim text) := by
  cases wrap with
  | true => exact ofOperand_of_unwrap? (Text.unwrap?_parenthesized faultless)
  | false =>
      rw [(bare rfl).trimmed, ofExpression_of_isOperand (bare rfl)]
      rfl

/-- The text of a leaf is read as a leaf. -/
theorem ofOperand_leaf (parsedLeaf : IsParsedLeaf scope condition) :
    ofOperand scope condition.render = leaf scope condition.render := by
  cases condition with
  | comparison left comparator right sources =>
      rw [render_comparison]
      exact ofOperand_of_none (Text.unwrap?_append_render _ right)
        (negatedPart?_comparison parsedLeaf.2.1.faultless comparator right)
  | call name arguments sources =>
      apply ofOperand_eq_leaf
      have starts := startsName parsedLeaf.1.isDottedName
      rw [render, List.append_assoc]
      exact Text.exists_head?_append starts _
  | raw => exact ofOperand_of_none parsedLeaf.2.1 parsedLeaf.2.2.1
  | joined => exact parsedLeaf.elim
  | negated => exact parsedLeaf.elim

namespace IsSettled

theorem ofOperand_operandText {connective : Connective} (settled : IsSettled scope condition)
    (other : ∀ left right, condition ≠ .joined connective left right) :
    ofOperand scope (condition.operandText connective) =
      ofExpression scope (Text.trim condition.render) :=
  ofOperand_parenthesized settled.faultless_render fun bare =>
    settled.isOperand_render (isSingle_of_wrapsUnder other bare)

/-- What is printed behind the mark of a negation is read by itself, unless it begins with an equals
sign. -/
theorem negatedPart?_negationText (settled : IsSettled scope (.negated base))
    (start : base.negationText.head? ≠ some '=') :
    negatedPart? ('!' :: base.negationText) = some base.negationText := by
  apply negatedPart?_mark_of_trim settled.isOperand_negationText.trimmed start
  have faultless := settled.inner.faultless_render
  cases base with
  | comparison => exact .inl (Option.isSome_iff_exists.mpr ⟨_, Text.unwrap?_parenthesized faultless⟩)
  | joined => exact .inl (Option.isSome_iff_exists.mpr ⟨_, Text.unwrap?_parenthesized faultless⟩)
  | negated => exact settled.worked.1.elim
  | call name arguments sources =>
      have phrase := isPhrase_call (over_call.mp settled.inner.leaves)
      have shown : (call name arguments sources).negationText =
          (call name arguments sources).render := rfl
      rw [shown]
      exact .inr (findComparator?_eq_none (phrase.passes '=' (by decide))
        (phrase.passes '<' (by decide)) (phrase.passes '>' (by decide)))
  | raw text sources =>
      by_cases wraps : (raw text sources).wrapsUnderNegation = true
      · rw [negationText, wraps]
        exact .inl (Option.isSome_iff_exists.mpr ⟨_, Text.unwrap?_parenthesized faultless⟩)
      · rw [Bool.not_eq_true] at wraps
        rw [negationText, wraps]
        refine .inr (findComparator?_eq_none_iff.mpr fun comparator => ?_)
        simp only [wrapsUnderNegation, operatorTokens, List.any_cons, List.any_nil, Bool.or_false,
          Bool.or_eq_false_iff] at wraps
        obtain ⟨-, -, equal, notEqual, less, greater⟩ := wraps
        have absent := Text.not_mem_of_contains less
        have absent' := Text.not_mem_of_contains greater
        cases comparator with
        | equal => exact Text.cutAt?_of_contains equal .top
        | notEqual => exact Text.cutAt?_of_contains notEqual .top
        | less | lessOrEqual =>
            exact Nesting.cutAt?_eq_none (Nesting.passes_of_not_mem absent .top)
        | greater | greaterOrEqual =>
            exact Nesting.cutAt?_eq_none (Nesting.passes_of_not_mem absent' .top)

theorem ofOperand_negated (settled : IsSettled scope (.negated base)) :
    ofOperand scope (negated base).render =
      if base.negationText.head? = some '=' then leaf scope (negated base).render
      else (ofExpression scope (Text.trim base.render)).negate := by
  have bare : Text.unwrap? ('!' :: base.negationText) = none := Text.unwrap?_eq_none (by simp)
  split
  · rename_i start
    exact ofOperand_of_none bare
      (negatedPart?_of_equal settled.isOperand_negationText.trimmed start)
  · rename_i start
    refine (ofOperand_of_negatedPart? bare (settled.negatedPart?_negationText start)).trans ?_
    rw [negationText, ofOperand_parenthesized settled.inner.faultless_render]
    intro shown
    have isOperand := settled.isOperand_negationText
    rwa [negationText, shown] at isOperand

end IsSettled

/-! ## The condition that is read again -/

/-- The condition over the leaves that the texts of the leaves are read as. A negation in front of
an equals sign is read together with it. -/
def reread (scope : StepScope σ) : Condition σ → Condition σ
  | .joined connective left right => .joined connective (left.reread scope) (right.reread scope)
  | .negated inner =>
    if inner.negationText.head? = some '=' then leaf scope (negated inner).render
    else (inner.reread scope).negate
  | found => leaf scope found.render

theorem reread_of_isLeaf (isLeaf : condition.IsLeaf) :
    condition.reread scope = leaf scope condition.render := by
  cases condition with
  | comparison | call | raw => rfl
  | joined => exact isLeaf.elim
  | negated => exact isLeaf.elim

theorem leaf_cases (isOperand : IsOperand text) :
    (leaf scope text).IsLeaf ∧
      ((leaf scope text).Varies ∨ ∃ sources, leaf scope text = .raw text sources) := by
  have closes := Text.ClosesQuotes.of_balanced
    (Nesting.balanced_of_fault?_eq_none isOperand.faultless)
  obtain ⟨_, _, _, _, shape⟩ | ⟨_, _, _, _, shape⟩ | shape := leaf_shape σ closes
  · rw [shape]
    exact ⟨trivial, .inl ⟨rfl, rfl⟩⟩
  · rw [shape]
    exact ⟨trivial, .inl ⟨rfl, rfl⟩⟩
  · rw [shape]
    exact ⟨trivial, .inr ⟨_, rfl⟩⟩

/-- A leaf whose text is no constant does not turn into one. -/
theorem varies_leaf (isOperand : IsOperand text) (notTrue : text ≠ trueText)
    (notFalse : text ≠ falseText) : (leaf scope text).Varies := by
  obtain ⟨-, cases⟩ : (leaf scope text).IsLeaf ∧ _ := leaf_cases isOperand
  obtain varies | ⟨sources, shape⟩ := cases
  · exact varies
  · rw [shape]
    simp [Varies, isTrue, isFalse, isOperand.trimmed, notTrue, notFalse]

theorem varies_leaf_of_mem (isOperand : IsOperand text) {c : Char} (mem : c ∈ text)
    (notTrue : c ∉ trueText) (notFalse : c ∉ falseText) : (leaf scope text).Varies :=
  varies_leaf isOperand (fun equal => notTrue (equal ▸ mem)) fun equal => notFalse (equal ▸ mem)

theorem varies_leaf_of_isParsedLeaf (parsedLeaf : IsParsedLeaf scope condition)
    (varies : condition.Varies) : (leaf scope condition.render).Varies := by
  have isOperand := IsSettled.isOperand_leaf parsedLeaf
  cases condition with
  | comparison left comparator right sources =>
      have mem : ' ' ∈ (comparison left comparator right sources).render := by simp [render]
      exact varies_leaf_of_mem isOperand mem (by decide) (by decide)
  | call name arguments sources =>
      have mem : '(' ∈ (call name arguments sources).render := by simp [render]
      exact varies_leaf_of_mem isOperand mem (by decide) (by decide)
  | raw text sources =>
      obtain ⟨_, _, _, _, shape⟩ := parsedLeaf
      rw [render, shape]
      exact varies
  | joined => exact parsedLeaf.elim
  | negated => exact parsedLeaf.elim

namespace IsSettled

theorem reread_ne_negated (settled : IsSettled scope base)
    (positive : ∀ inner, base ≠ .negated inner) (inner : Condition σ) :
    base.reread scope ≠ .negated inner := by
  cases base using inductionOnLeaves with
  | leaf found isLeaf =>
      rw [reread_of_isLeaf isLeaf]
      exact (leaf_cases (settled.isOperand_render isLeaf.isSingle)).1.ne_negated inner
  | negated other => exact absurd rfl (positive other)
  | joined => simp [reread]

theorem isSingle_reread (settled : IsSettled scope condition) (single : condition.IsSingle) :
    (condition.reread scope).IsSingle := by
  cases condition using inductionOnLeaves with
  | leaf found isLeaf =>
      rw [reread_of_isLeaf isLeaf]
      exact (leaf_cases (settled.isOperand_render single)).1.isSingle
  | negated inner =>
      rw [reread]
      split
      · exact (leaf_cases (Text.isOperand_mark settled.isOperand_negationText)).1.isSingle
      · exact isSingle_negate (settled.inner.reread_ne_negated settled.worked.1.ne_negated)
  | joined connective left right => exact absurd rfl (single connective left right)

theorem varies_reread (settled : IsSettled scope condition) (varies : condition.Varies) :
    (condition.reread scope).Varies := by
  induction condition using inductionOnLeaves with
  | leaf found isLeaf =>
      rw [reread_of_isLeaf isLeaf]
      exact varies_leaf_of_isParsedLeaf (settled.parsedLeaf isLeaf) varies
  | negated inner induction =>
      rw [reread]
      split
      · exact varies_leaf_of_mem (Text.isOperand_mark settled.isOperand_negationText)
          List.mem_cons_self (by decide) (by decide)
      · exact (induction settled.inner settled.worked.1.varies).negate
          (settled.inner.reread_ne_negated settled.worked.1.ne_negated)
  | joined connective left right => exact varies_joined connective _ _

theorem operands_reread (connective : Connective) (settled : IsSettled scope condition) :
    (condition.reread scope).operands connective =
      (condition.operands connective).map (reread scope) := by
  have alone : ∀ {found : Condition σ}, IsSettled scope found → found.IsSingle →
      (found.reread scope).operands connective =
        (found.operands connective).map (reread scope) := by
    intro found foundSettled single
    rw [operands_of_isSingle single, operands_of_isSingle (foundSettled.isSingle_reread single),
      List.map_singleton]
  induction condition using inductionOnLeaves with
  | leaf found isLeaf => exact alone settled isLeaf.isSingle
  | negated inner => exact alone settled (by simp [IsSingle])
  | joined found left right leftInduction rightInduction =>
      rw [reread, operands, operands]
      split
      · rw [leftInduction settled.left, rightInduction settled.right, List.map_append]
      · rfl

/-! ## Reading the whole text -/

/-- The text of a chain is read operand by operand. -/
theorem ofExpression_joined {connective : Connective} {first second : Condition σ}
    (settled : IsSettled scope (.joined connective first second)) :
    ofExpression scope (Text.trim (joined connective first second).render) =
      ofChain connective (ofRank scope connective.operandRank)
        (Text.trim (joined connective first second).render) := by
  rw [ofExpression_eq]
  cases connective with
  | or => rfl
  | and =>
      have undivided : IsUndivided Connective.or.token
          (Text.trim (joined .and first second).render) := {
        faultless := Nesting.fault?_trim settled.faultless_render
        trimmed := Text.trim_trim _
        uncut := Nesting.cutAt?_trim (settled.isUncut_render (by decide)) }
      exact ofChain_of_isUndivided (ofChain .and (ofOperand scope)) undivided

/-- Reading the text of a settled condition finds the condition over the leaves that are read again,
with its chains associated to the left. -/
theorem ofExpression_render (settled : IsSettled scope condition) :
    ofExpression scope (Text.trim condition.render) =
      (condition.reread scope).leftAssociated := by
  induction size : sizeOf condition using Nat.strong_induction_on generalizing condition with
  | _ size induction =>
      subst size
      cases condition using inductionOnLeaves with
      | leaf found isLeaf =>
          have isOperand := settled.isOperand_render isLeaf.isSingle
          rw [isOperand.trimmed, ofExpression_of_isOperand isOperand,
            ofOperand_leaf (settled.parsedLeaf isLeaf), reread_of_isLeaf isLeaf,
            (leaf_cases isOperand).1.leftAssociated_eq]
      | negated inner =>
          have isOperand := settled.isOperand_render (by simp [IsSingle])
          have smaller : sizeOf inner < sizeOf (negated inner) := by
            simp only [negated.sizeOf_spec]
            omega
          rw [isOperand.trimmed, ofExpression_of_isOperand isOperand, settled.ofOperand_negated,
            reread]
          split
          · exact ((leaf_cases isOperand).1.leftAssociated_eq).symm
          · rw [induction _ smaller settled.inner rfl, leftAssociated_negate]
      | joined connective left right =>
          rw [settled.ofExpression_joined]
          apply ofChain_of_pieces _ settled.map_trim_splitAround
          have read : ((joined connective left right).operands connective).map (fun operand =>
              ofRank scope connective.operandRank (operand.operandText connective)) =
                ((joined connective left right).operands connective).map fun operand =>
                  (operand.reread scope).leftAssociated := by
            apply List.map_congr_left
            intro operand mem
            have operandSettled := settled.of_mem_operands mem
            have other := ne_joined_of_mem_operands mem
            rw [ofRank_of_isOperand connective (operandSettled.isOperand_operandText other),
              operandSettled.ofOperand_operandText other,
              induction _ (sizeOf_lt_of_mem_operands mem) operandSettled rfl]
          have vary : ∀ operand ∈ ((joined connective left right).reread scope).operands connective,
              operand.Varies := by
            rw [settled.operands_reread connective]
            intro operand mem
            obtain ⟨found, foundMem, rfl⟩ := List.mem_map.mp mem
            exact (settled.of_mem_operands foundMem).varies_reread
              (varies_of_mem_operands (varies_joined connective left right) settled.vary foundMem)
          have joined := joinAll_leftAssociated vary
          rw [settled.operands_reread connective, List.map_map] at joined
          rw [List.map_map]
          exact (congrArg connective.joinAll read).trans joined

end IsSettled

end Condition

end FlowPlan
