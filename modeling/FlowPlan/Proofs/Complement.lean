import FlowPlan.Proofs.ChainText

/-! # Complements of plain conditions

Complements are found by text: a mark in front of the text of a condition
stands for its negation. In front of a chain the mark belongs to the first
operand alone, so such a text is no exact opposite. For a disjunction the two
still cover all cases, and an operand of a term is no conjunction. All other
complements are opposites.
-/

namespace FlowPlan

open Nesting (Passes Balanced)

theorem Literal.eq_of_sameValue {left right : Literal} (plain : left.IsPlain)
    (same : left.sameValue right = true) : left = right := by
  cases left with
  | number => cases plain
  | string content =>
      cases right with
      | string content' => exact congrArg string (of_decide_eq_true same)
      | _ => cases same
  | boolean value =>
      cases right with
      | boolean value' => exact congrArg boolean (of_decide_eq_true same)
      | _ => cases same
  | null =>
      cases right with
      | null => rfl
      | _ => cases same

namespace Condition

/-- Truth values of leaf texts in which an inequality is the opposite of the equality and the
constants have their own value. -/
structure Coherent (truth : Text → Prop) : Prop where
  trueHolds : truth trueText
  falseFails : ¬ truth falseText
  opposite : ∀ left right, Text.IsDottedName left → Literal.IsPlain right →
    (truth (left ++ ' ' :: Comparator.notEqual.token ++ ' ' :: right.render) ↔
      ¬ truth (left ++ ' ' :: Comparator.equal.token ++ ' ' :: right.render))

/-- Everything holds but `false` and texts that show an equality. -/
def NothingEqual (text : Text) : Prop :=
  text ≠ falseText ∧ text.find? (fun c => c = '=' || c = '!') ≠ some '='

instance : DecidablePred NothingEqual := fun text =>
  inferInstanceAs (Decidable (text ≠ falseText ∧
    text.find? (fun c => c = '=' || c = '!') ≠ some '='))

theorem coherent_nothingEqual : Coherent NothingEqual where
  trueHolds := by decide
  falseFails := by decide
  opposite left right leftName plain := by
    have unmarked : left.find? (fun c => c = '=' || c = '!') = none := by
      rw [List.find?_eq_none]
      intro c mem marked
      have dotted := leftName.2 c mem
      rcases (by simpa using marked : c = '=' ∨ c = '!') with rfl | rfl
      · cases dotted
      · cases dotted
    have notFalse : '!' ∉ falseText := by decide
    constructor
    · intro _ equality
      apply equality.2
      simp [List.find?_append, unmarked, Comparator.token]
    · intro _
      constructor
      · intro equal
        apply notFalse
        rw [← equal]
        simp [Comparator.token]
      · simp [List.find?_append, unmarked, Comparator.token]

variable {σ : Type} {truth : Text → Prop}

theorem respects_of_coherent (coherent : Coherent truth) :
    Respects (HoldsBy truth : Condition σ → Prop) :=
  respects_holdsBy coherent.trueHolds coherent.falseFails

theorem holdsBy_leaf {leaf : Condition σ} (plain : leaf.IsPlainLeaf) :
    leaf.HoldsBy truth ↔ truth leaf.render := by
  cases leaf with
  | comparison | call => exact Iff.rfl
  | raw text sources => rw [HoldsBy, Text.trim_of_isDottedName plain, render]
  | joined => cases plain
  | negated => cases plain

/-- Among plain conditions, texts decide. -/
theorem textDecides_holdsBy (truth : Text → Prop) :
    TextDecides (HoldsBy truth : Condition σ → Prop) IsPlain := by
  apply textDecides_plain (respectsConnectives_holdsBy truth)
  intro left right leftPlain rightPlain equal
  rw [holdsBy_leaf leftPlain, holdsBy_leaf rightPlain, equal]

/-! ## Marked texts -/

theorem render_ne_parenthesized {condition : Condition σ} (plain : condition.IsPlain) {text : Text}
    (balanced : Balanced text) : condition.render ≠ parenthesized true text := by
  intro equal
  cases condition with
  | joined connective left right =>
      apply cutAt?_render_joined plain
      rw [equal, Connective.token_eq]
      exact Nesting.cutAt?_eq_none ((Uncut.parenthesized balanced).passes connective)
  | negated inner => cases (List.cons.inj equal).1
  | comparison | call | raw =>
      have leafPlain := plain _ List.mem_cons_self
      have notOpen : Text.isDottedChar '(' = false := by decide
      apply leaf_head_ne leafPlain notOpen
      rw [equal]
      rfl

theorem passes_mark {connective : Connective} {text : Text}
    (passes : Passes connective.mark .top text) : Passes connective.mark .top ('!' :: text) := by
  refine ⟨fun _ => ?_, passes⟩
  cases connective <;> decide

theorem eq_mark_of_isNegationText {text base : Text} (negation : isNegationText text base = true) :
    text = '!' :: base ∨ text = '!' :: parenthesized true base := by
  unfold isNegationText at negation
  split at negation
  · rcases Bool.or_eq_true_iff.mp negation with bare | wrapped
    · exact Or.inl (congrArg _ (of_decide_eq_true bare))
    · exact Or.inr (congrArg _ (of_decide_eq_true wrapped))
  · cases negation

theorem joinWith_cons_head (separator : Text) (c : Char) (piece : Text) (rest : List Text) :
    c :: Text.joinWith separator (piece :: rest) =
      Text.joinWith separator ((c :: piece) :: rest) := by
  cases rest <;> rfl

/-- The connective joins the whole condition. -/
def IsChain (connective : Connective) (condition : Condition σ) : Prop :=
  ∃ left right, condition = joined connective left right

/-- The chain whose text follows a mark is a chain of the same connective. -/
theorem isChain_of_marked {connective : Connective} {left right other : Condition σ}
    (plain : (joined connective left right).IsPlain) (otherPlain : other.IsPlain)
    (equal : (joined connective left right).render = '!' :: other.render) :
    other.IsChain connective := by
  apply Classical.byContradiction
  intro none
  have passes : Passes connective.mark .top other.render :=
    passes_render otherPlain fun first second same => none ⟨first, second, same⟩
  apply cutAt?_render_joined plain
  rw [equal, Connective.token_eq]
  exact Nesting.cutAt?_eq_none (passes_mark passes)

theorem joined_ne_marked_parenthesized {connective : Connective} {left right : Condition σ}
    (plain : (joined connective left right).IsPlain) {text : Text} (balanced : Balanced text) :
    (joined connective left right).render ≠ '!' :: parenthesized true text := by
  intro equal
  apply cutAt?_render_joined plain
  rw [equal, Connective.token_eq]
  exact Nesting.cutAt?_eq_none (passes_mark ((Uncut.parenthesized balanced).passes connective))

theorem eq_of_parenthesized_eq_marked {wrap : Bool} {text rest : Text}
    (equal : parenthesized wrap text = '!' :: rest) : text = '!' :: rest := by
  cases wrap with
  | true => cases (List.cons.inj equal).1
  | false => exact equal

/-- If an operand shows the text of another one behind a mark, it is the negation of that one. -/
theorem exists_negated_of_marked_operand {connective : Connective} {operand other : Condition σ}
    (plain : operand.IsPlain) (unjoined : ∀ left right, operand ≠ joined connective left right)
    (otherPlain : other.IsPlain)
    (otherUnjoined : ∀ left right, other ≠ joined connective left right)
    (equal : operandText connective operand = '!' :: operandText connective other) :
    ∃ inner, operand = negated inner ∧ inner.render = other.render := by
  have marked := eq_of_parenthesized_eq_marked equal
  cases operand with
  | joined found left right =>
      have different : found ≠ connective := fun same => unjoined left right (by rw [same])
      rw [operandText, wrapsUnder_joined different] at equal
      cases (List.cons.inj equal).1
  | negated inner =>
      have innerPlain : inner.IsPlain := over_negated.mp plain
      refine ⟨inner, rfl, ?_⟩
      exact eq_of_parenthesized_eq (negated_head?_ne innerPlain)
        (operand_head?_ne otherPlain otherUnjoined) (List.cons.inj marked).2
  | comparison | call | raw =>
      have leafPlain := plain _ List.mem_cons_self
      have notMark : Text.isDottedChar '!' = false := by decide
      apply absurd _ (leaf_head_ne leafPlain notMark)
      rw [marked]
      rfl

theorem isPiece_marked {connective : Connective} {piece : Text}
    (whole : IsPiece connective piece) : IsPiece connective ('!' :: piece) := by
  have mark : Balanced ['!'] := Balanced.of_isInert (by simp [Nesting.IsInert])
  exact ⟨mark.append whole.1, passes_mark whole.2⟩

/-- The first condition shows the second one behind a mark, and both are chains. -/
structure Marks (connective : Connective) (condition other : Condition σ) : Prop where
  chain : condition.IsChain connective
  otherChain : other.IsChain connective
  text : condition.render = '!' :: other.render

/-- A mark in front of a chain stands in front of its first operand. -/
theorem Marks.operandTexts {connective : Connective} {condition other : Condition σ}
    (marks : Marks connective condition other) (plain : condition.IsPlain)
    (otherPlain : other.IsPlain) {operand found : Condition σ} {rest foundRest : List (Condition σ)}
    (listed : condition.operands connective = operand :: rest)
    (otherListed : other.operands connective = found :: foundRest) :
    operandText connective operand = '!' :: operandText connective found ∧
      rest.map (operandText connective) = foundRest.map (operandText connective) := by
  rcases marks with ⟨⟨left, right, rfl⟩, ⟨left', right', rfl⟩, equal⟩
  have pieces := isPiece_of_mem_map connective plain
  have otherPieces := isPiece_of_mem_map connective otherPlain
  rw [listed, List.map_cons] at pieces
  rw [otherListed, List.map_cons] at otherPieces
  rw [render_joined, render_joined, listed, otherListed, List.map_cons, List.map_cons,
    joinWith_cons_head] at equal
  have markedPieces : ∀ piece ∈ ('!' :: operandText connective found) ::
      foundRest.map (operandText connective), IsPiece connective piece := by
    intro piece mem
    rcases List.mem_cons.mp mem with rfl | later
    · exact isPiece_marked (otherPieces _ List.mem_cons_self)
    · exact otherPieces piece (List.mem_cons_of_mem _ later)
  exact List.cons.inj (joinWith_injective (List.cons_ne_nil _ _) (List.cons_ne_nil _ _) pieces
    markedPieces equal)

/-! ## Opposites -/

theorem negated_iff_of_sameText {inner other : Condition σ} (plain : inner.IsPlain)
    (otherPlain : other.IsPlain) (equal : inner.render = other.render) :
    (negated inner).HoldsBy truth ↔ ¬ other.HoldsBy truth :=
  not_congr (textDecides_holdsBy truth inner other plain otherPlain equal)

theorem opposite_of_negates {condition other : Condition σ} (plain : condition.IsPlain)
    (otherPlain : other.IsPlain) (negation : negates condition other = true) :
    condition.HoldsBy truth ↔ ¬ other.HoldsBy truth := by
  cases condition with
  | negated inner =>
      exact negated_iff_of_sameText (over_negated.mp plain) otherPlain (of_decide_eq_true negation)
  | _ => cases negation

theorem forall₂_of_operandTexts_eq {connective : Connective} {condition other : Condition σ}
    (plain : condition.IsPlain) (otherPlain : other.IsPlain) (truth : Text → Prop)
    {members others : List (Condition σ)} (included : members ⊆ condition.operands connective)
    (otherIncluded : others ⊆ other.operands connective)
    (texts : members.map (operandText connective) = others.map (operandText connective)) :
    List.Forall₂ (fun member same => member.HoldsBy truth ↔ same.HoldsBy truth) members others := by
  induction members generalizing others with
  | nil =>
      rw [List.map_eq_nil_iff.mp texts.symm]
      exact .nil
  | cons head tail induction =>
      cases others with
      | nil => cases texts
      | cons first rest =>
          rcases List.cons.inj texts with ⟨sameHead, sameTail⟩
          rcases List.cons_subset.mp included with ⟨headMem, tailIncluded⟩
          rcases List.cons_subset.mp otherIncluded with ⟨firstMem, restIncluded⟩
          refine .cons ?_ (induction tailIncluded restIncluded sameTail)
          exact textDecides_holdsBy truth head first
            ((splits_over _).of_mem_operands connective plain headMem)
            ((splits_over _).of_mem_operands connective otherPlain firstMem)
            (render_eq_of_operandText_eq plain otherPlain headMem firstMem sameHead)

/-- The mark turns the first operand of a chain round and leaves the others as they are. -/
theorem Marks.exists_heads {connective : Connective} {condition other : Condition σ}
    (marks : Marks connective condition other) (plain : condition.IsPlain)
    (otherPlain : other.IsPlain) (truth : Text → Prop) :
    ∃ operand rest found foundRest, condition.operands connective = operand :: rest ∧
      other.operands connective = found :: foundRest ∧
      (operand.HoldsBy truth ↔ ¬ found.HoldsBy truth) ∧
      List.Forall₂ (fun member same => member.HoldsBy truth ↔ same.HoldsBy truth) rest
        foundRest := by
  rcases List.exists_cons_of_ne_nil (Conjunction.operands_ne_nil connective condition) with
    ⟨operand, rest, listed⟩
  rcases List.exists_cons_of_ne_nil (Conjunction.operands_ne_nil connective other) with
    ⟨found, foundRest, otherListed⟩
  rcases marks.operandTexts plain otherPlain listed otherListed with ⟨heads, tails⟩
  rcases List.cons_subset.mp (listed ▸ List.Subset.refl _ :
    operand :: rest ⊆ condition.operands connective) with ⟨operandMem, restIncluded⟩
  rcases List.cons_subset.mp (otherListed ▸ List.Subset.refl _ :
    found :: foundRest ⊆ other.operands connective) with ⟨foundMem, foundIncluded⟩
  have operandPlain : operand.IsPlain :=
    (splits_over _).of_mem_operands connective plain operandMem
  have foundPlain : found.IsPlain :=
    (splits_over _).of_mem_operands connective otherPlain foundMem
  refine ⟨operand, rest, found, foundRest, listed, otherListed, ?_,
    forall₂_of_operandTexts_eq plain otherPlain truth restIncluded foundIncluded tails⟩
  rcases exists_negated_of_marked_operand operandPlain (ne_joined_of_mem_operands operandMem)
    foundPlain (ne_joined_of_mem_operands foundMem) heads with ⟨inner, rfl, same⟩
  exact negated_iff_of_sameText (over_negated.mp operandPlain) foundPlain same

theorem marks_of_isNegationText {connective : Connective} {condition other : Condition σ}
    (plain : condition.IsPlain) (otherPlain : other.IsPlain) (chain : condition.IsChain connective)
    (negation : isNegationText condition.render other.render = true) :
    Marks connective condition other := by
  rcases chain with ⟨left, right, rfl⟩
  rcases eq_mark_of_isNegationText negation with equal | equal
  · exact ⟨⟨left, right, rfl⟩, isChain_of_marked plain otherPlain equal, equal⟩
  · exact absurd equal (joined_ne_marked_parenthesized plain (balanced_render otherPlain))

theorem opposite_or_marks_of_isNegationText {condition other : Condition σ}
    (plain : condition.IsPlain) (otherPlain : other.IsPlain)
    (negation : isNegationText condition.render other.render = true) :
    (condition.HoldsBy truth ↔ ¬ other.HoldsBy truth) ∨
      ∃ connective, Marks connective condition other := by
  cases condition with
  | comparison | call | raw =>
      have leafPlain := plain _ List.mem_cons_self
      have notMark : Text.isDottedChar '!' = false := by decide
      apply absurd _ (leaf_head_ne leafPlain notMark)
      rcases eq_mark_of_isNegationText negation with equal | equal <;> rw [equal] <;> rfl
  | negated inner =>
      have innerPlain : inner.IsPlain := over_negated.mp plain
      refine .inl (negated_iff_of_sameText innerPlain otherPlain ?_)
      rcases eq_mark_of_isNegationText negation with equal | equal
      · have same := (List.cons.inj equal).2
        cases wrapped : inner.wrapsUnderNegation with
        | true =>
            rw [wrapped] at same
            exact absurd same.symm (render_ne_parenthesized otherPlain (balanced_render innerPlain))
        | false =>
            rw [wrapped] at same
            exact same
      · have neverBare : true = false → other.render.head? ≠ some '(' := fun never => nomatch never
        exact eq_of_parenthesized_eq (negated_head?_ne innerPlain) neverBare (List.cons.inj equal).2
  | joined connective left right =>
      exact .inr ⟨connective, marks_of_isNegationText plain otherPlain ⟨left, right, rfl⟩ negation⟩

/-! ## Complements -/

/-- An inequality is the opposite of the equality. -/
def TurnsEquality (truth : Text → Prop) : Prop :=
  ∀ left right, Text.IsDottedName left → Literal.IsPlain right →
    (truth (left ++ ' ' :: Comparator.notEqual.token ++ ' ' :: right.render) ↔
      ¬ truth (left ++ ' ' :: Comparator.equal.token ++ ' ' :: right.render))

section Complements

variable (turns : TurnsEquality truth)

include turns

theorem opposite_of_comparisons {left left' : Text} {comparator comparator' : Comparator}
    {right right' : Literal} {sources sources' : List (Source σ)}
    (plain : (comparison left comparator right sources).IsPlainLeaf)
    (complement : (comparison left comparator right sources).isComplementOf
      (comparison left' comparator' right' sources') = true) :
    (comparison left comparator right sources).HoldsBy truth ↔
      ¬ (comparison left' comparator' right' sources').HoldsBy truth := by
  rw [isComplementOf, Bool.and_eq_true, Bool.and_eq_true, decide_eq_true_eq,
    decide_eq_true_eq] at complement
  rcases complement with ⟨⟨rfl, sameValue⟩, opposite⟩
  cases Literal.eq_of_sameValue plain.2 sameValue
  have apart := turns left right plain.1 plain.2
  cases comparator with
  | equal =>
      cases opposite
      exact iff_not_comm.mp apart
  | notEqual =>
      cases opposite
      exact apart
  | _ => cases opposite

/-- Plain conditions that count as complements are opposites, unless a mark in front of a chain is
taken for the negation of the chain. -/
theorem opposite_or_marks {condition other : Condition σ} (plain : condition.IsPlain)
    (otherPlain : other.IsPlain) (complement : condition.isComplementOf other = true) :
    (condition.HoldsBy truth ↔ ¬ other.HoldsBy truth) ∨
      ∃ connective, Marks connective condition other ∨ Marks connective other condition := by
  by_cases comparisons : ∃ left comparator right sources left' comparator' right' sources',
      condition = comparison left comparator right sources ∧
        other = comparison left' comparator' right' sources'
  · rcases comparisons with ⟨_, _, _, _, _, _, _, _, rfl, rfl⟩
    exact .inl (opposite_of_comparisons turns (over_comparison.mp plain) complement)
  · have texts : (negates condition other || negates other condition ||
        isNegationText condition.render other.render ||
          isNegationText other.render condition.render) = true := by
      unfold isComplementOf at complement
      split at complement
      · exact absurd ⟨_, _, _, _, _, _, _, _, rfl, rfl⟩ comparisons
      · exact complement
    rw [Bool.or_eq_true, Bool.or_eq_true, Bool.or_eq_true] at texts
    rcases texts with ((forward | backward) | forward) | backward
    · exact .inl (opposite_of_negates plain otherPlain forward)
    · exact .inl (iff_not_comm.mp (opposite_of_negates otherPlain plain backward))
    · exact (opposite_or_marks_of_isNegationText plain otherPlain forward).imp_right
        fun ⟨connective, marks⟩ => ⟨connective, .inl marks⟩
    · rcases opposite_or_marks_of_isNegationText otherPlain plain backward with
        opposite | ⟨connective, marks⟩
      · exact .inl (iff_not_comm.mp opposite)
      · exact .inr ⟨connective, .inr marks⟩

end Complements

/-! ## Complements cover -/

/-- Of two disjunctions with the first alternatives turned round, one holds. -/
theorem Marks.holds_or {condition other : Condition σ} (marks : Marks .or condition other)
    (plain : condition.IsPlain) (otherPlain : other.IsPlain) (truth : Text → Prop) :
    condition.HoldsBy truth ∨ other.HoldsBy truth := by
  rcases marks.exists_heads plain otherPlain truth with
    ⟨operand, rest, found, foundRest, listed, otherListed, heads, _⟩
  have connectives : RespectsConnectives (HoldsBy truth : Condition σ → Prop) :=
    respectsConnectives_holdsBy truth
  rw [holds_iff_disjuncts connectives condition, holds_iff_disjuncts connectives other, disjuncts,
    disjuncts, listed, otherListed]
  by_cases stands : found.HoldsBy truth
  · exact .inr ⟨found, List.mem_cons_self, stands⟩
  · exact .inl ⟨operand, List.mem_cons_self, heads.mpr stands⟩

/-- Unless both are conjunctions, plain conditions that count as complements never both fail. -/
theorem holds_or_of_isComplementOf (turns : TurnsEquality truth) {condition other : Condition σ}
    (plain : condition.IsPlain) (otherPlain : other.IsPlain)
    (apart : ∀ left right, condition ≠ joined .and left right)
    (complement : condition.isComplementOf other = true) :
    condition.HoldsBy truth ∨ other.HoldsBy truth := by
  rcases opposite_or_marks turns plain otherPlain complement with
    opposite | ⟨_ | _, marks | marks⟩
  · by_cases stands : other.HoldsBy truth
    · exact .inr stands
    · exact .inl (opposite.mpr stands)
  · rcases marks.chain with ⟨left, right, isChain⟩
    exact absurd isChain (apart left right)
  · rcases marks.otherChain with ⟨left, right, isChain⟩
    exact absurd isChain (apart left right)
  · exact marks.holds_or plain otherPlain truth
  · exact (marks.holds_or otherPlain plain truth).symm

theorem complementsCover_holdsBy (turns : TurnsEquality truth) :
    ComplementsCover (HoldsBy truth : Condition σ → Prop) IsPlain := by
  intro operand condition operandPlain conditionPlain flat complement
  exact holds_or_of_isComplementOf turns operandPlain conditionPlain (ne_joined_of_operands_eq flat)
    complement

end Condition

end FlowPlan
