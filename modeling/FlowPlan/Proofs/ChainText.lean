import FlowPlan.Proofs.PlainText

/-! # Texts of chains

The text of a chain is cut at its connective into the texts of its operands,
and at no other place. So plain conditions with one text are chains of the same
operands, negations of the same condition or leaves of the same text, and they
hold together.
-/

namespace FlowPlan

open Nesting (Passes Balanced)

/-- The connective between two operands. -/
def Connective.separator (connective : Connective) : Text := ' ' :: (connective.token ++ [' '])

/-! ## Cutting joined pieces -/

section Pieces

variable {connective : Connective}

/-- A piece that stands between connectives is cut off as it is. -/
def IsPiece (connective : Connective) (piece : Text) : Prop :=
  Balanced piece ∧ Passes connective.mark .top piece

theorem cutAt?_piece {piece : Text} (whole : IsPiece connective piece) (back : Text) :
    Nesting.cutAt? connective.token .top (piece ++ connective.separator ++ back) =
      some (piece ++ [' '], ' ' :: back) := by
  have blankPasses : Passes connective.mark .top [' '] := by
    apply Nesting.passes_of_not_mem
    cases connective <;> simp [Connective.mark]
  have front : Passes connective.mark .top (piece ++ [' ']) := by
    rw [Nesting.passes_append, whole.1.behind_top]
    exact ⟨whole.2, blankPasses⟩
  have behindFront : Nesting.top.behind (piece ++ [' ']) = .top := by
    rw [Nesting.behind_append, whole.1.behind_top]
    rfl
  have shape : piece ++ connective.separator ++ back =
      (piece ++ [' ']) ++ (connective.mark :: [connective.mark] ++ ' ' :: back) := by
    simp [Connective.separator, Connective.token_eq]
  rw [shape, Connective.token_eq, Nesting.cutAt?_append front, behindFront,
    Nesting.cutAt?_token connective.admits_mark]
  simp

theorem joinWith_cons_ne_nil {separator piece : Text} {rest : List Text} (more : rest ≠ []) :
    Text.joinWith separator (piece :: rest) =
      piece ++ separator ++ Text.joinWith separator rest := by
  cases rest with
  | nil => exact absurd rfl more
  | cons next later => rfl

theorem joinWith_append {separator : Text} {front back : List Text} (frontSome : front ≠ [])
    (backSome : back ≠ []) :
    Text.joinWith separator (front ++ back) =
      Text.joinWith separator front ++ separator ++ Text.joinWith separator back := by
  induction front with
  | nil => exact absurd rfl frontSome
  | cons piece rest induction =>
      cases rest with
      | nil => exact joinWith_cons_ne_nil backSome
      | cons next later =>
          have moreSome : next :: later ≠ [] := List.cons_ne_nil next later
          have bothSome : next :: later ++ back ≠ [] := List.cons_ne_nil next (later ++ back)
          rw [List.cons_append, joinWith_cons_ne_nil bothSome, joinWith_cons_ne_nil moreSome,
            induction moreSome]
          simp only [List.append_assoc]

theorem cutAt?_joinWith_ne_none {piece : Text} {rest : List Text}
    (whole : IsPiece connective piece) (more : rest ≠ []) :
    Nesting.cutAt? connective.token .top
      (Text.joinWith connective.separator (piece :: rest)) ≠ none := by
  rw [joinWith_cons_ne_nil more, cutAt?_piece whole]
  exact Option.some_ne_none _

theorem cutAt?_piece_eq_none {piece : Text} (whole : IsPiece connective piece) :
    Nesting.cutAt? connective.token .top piece = none := by
  rw [Connective.token_eq]
  exact Nesting.cutAt?_eq_none whole.2

/-- The joined text determines the pieces. -/
theorem joinWith_injective {left right : List Text} (leftSome : left ≠ []) (rightSome : right ≠ [])
    (leftWhole : ∀ piece ∈ left, IsPiece connective piece)
    (rightWhole : ∀ piece ∈ right, IsPiece connective piece)
    (equal : Text.joinWith connective.separator left = Text.joinWith connective.separator right) :
    left = right := by
  induction left generalizing right with
  | nil => exact absurd rfl leftSome
  | cons leftPiece leftRest induction =>
      cases right with
      | nil => exact absurd rfl rightSome
      | cons rightPiece rightRest =>
          have leftHead := leftWhole leftPiece List.mem_cons_self
          have rightHead := rightWhole rightPiece List.mem_cons_self
          by_cases leftMore : leftRest = []
          · by_cases rightMore : rightRest = []
            · cases leftMore
              cases rightMore
              exact congrArg (fun piece => [piece]) equal
            · have cut := cutAt?_joinWith_ne_none rightHead rightMore
              cases leftMore
              rw [← equal] at cut
              exact absurd (cutAt?_piece_eq_none leftHead) cut
          · by_cases rightMore : rightRest = []
            · have cut := cutAt?_joinWith_ne_none leftHead leftMore
              cases rightMore
              rw [equal] at cut
              exact absurd (cutAt?_piece_eq_none rightHead) cut
            · have cuts := congrArg (Nesting.cutAt? connective.token .top) equal
              rw [joinWith_cons_ne_nil leftMore, joinWith_cons_ne_nil rightMore,
                cutAt?_piece leftHead, cutAt?_piece rightHead] at cuts
              have parts := Prod.mk.inj (Option.some.inj cuts)
              have sameHead : leftPiece = rightPiece := List.append_cancel_right parts.1
              have sameRest : leftRest = rightRest := induction leftMore rightMore
                (fun piece mem => leftWhole piece (List.mem_cons_of_mem leftPiece mem))
                (fun piece mem => rightWhole piece (List.mem_cons_of_mem rightPiece mem))
                (List.cons.inj parts.2).2
              rw [sameHead, sameRest]

end Pieces

namespace Condition

variable {σ : Type}

/-! ## Operands of chains -/

/-- The text of an operand in a chain of the connective. -/
def operandText (connective : Connective) (condition : Condition σ) : Text :=
  parenthesized (condition.wrapsUnder connective) condition.render

theorem ne_joined_of_operands_eq {connective : Connective} {condition : Condition σ}
    (alone : condition.operands connective = [condition]) (left right : Condition σ) :
    condition ≠ .joined connective left right := by
  rintro rfl
  have lengths := congrArg List.length alone
  rw [operands, if_pos rfl, List.length_append] at lengths
  have leftSome := List.length_pos_iff.mpr (Conjunction.operands_ne_nil connective left)
  have rightSome := List.length_pos_iff.mpr (Conjunction.operands_ne_nil connective right)
  simp only [List.length_singleton] at lengths
  omega

theorem ne_joined_of_mem_operands {connective : Connective} {condition operand : Condition σ}
    (mem : operand ∈ condition.operands connective) (left right : Condition σ) :
    operand ≠ .joined connective left right :=
  ne_joined_of_operands_eq (Conjunction.operands_of_mem_operands mem) left right

theorem joinWith_operands (connective : Connective) (condition : Condition σ) :
    Text.joinWith connective.separator
      ((condition.operands connective).map (operandText connective)) =
        condition.operandText connective := by
  induction condition with
  | joined found left right leftInduction rightInduction =>
      by_cases same : found = connective
      · have leftSome : (left.operands connective).map (operandText connective) ≠ [] :=
          mt List.map_eq_nil_iff.mp (Conjunction.operands_ne_nil connective left)
        have rightSome : (right.operands connective).map (operandText connective) ≠ [] :=
          mt List.map_eq_nil_iff.mp (Conjunction.operands_ne_nil connective right)
        rw [operands, if_pos same, List.map_append, joinWith_append leftSome rightSome,
          leftInduction, rightInduction]
        simp [operandText, wrapsUnder, render, same, parenthesized, Connective.separator]
      · rw [operands, if_neg same]
        rfl
  | _ => rfl

theorem render_joined (connective : Connective) (left right : Condition σ) :
    (joined connective left right).render = Text.joinWith connective.separator
      (((joined connective left right).operands connective).map (operandText connective)) := by
  rw [joinWith_operands]
  simp [operandText, wrapsUnder, parenthesized]

theorem balanced_parenthesized {text : Text} (balanced : Balanced text) (wrap : Bool) :
    Balanced (parenthesized wrap text) := by
  cases wrap with
  | true => exact balanced.parenthesized
  | false => exact balanced

theorem balanced_render {condition : Condition σ} (plain : condition.IsPlain) :
    Balanced condition.render := by
  induction condition with
  | joined connective left right leftInduction rightInduction =>
      have parts := over_joined.mp plain
      have separated : Balanced connective.separator := by
        apply Balanced.of_isInert
        cases connective <;> simp [Connective.separator, Connective.token, Nesting.IsInert]
      have whole := ((balanced_parenthesized (leftInduction parts.1)
        (left.wrapsUnder connective)).append separated).append
          (balanced_parenthesized (rightInduction parts.2) (right.wrapsUnder connective))
      simpa [render, Connective.separator] using whole
  | negated inner induction =>
      have mark : Balanced ['!'] := Balanced.of_isInert (by simp [Nesting.IsInert])
      exact mark.append (balanced_parenthesized (induction plain) inner.wrapsUnderNegation)
  | comparison => exact (uncut_leaf (over_comparison.mp plain)).balanced
  | call => exact (uncut_leaf (over_call.mp plain)).balanced
  | raw => exact (uncut_leaf (over_raw.mp plain)).balanced

theorem passes_parenthesized_of_imp {text : Text} (balanced : Balanced text)
    {connective : Connective} {wrap : Bool}
    (bare : wrap = false → Passes connective.mark .top text) :
    Passes connective.mark .top (parenthesized wrap text) := by
  cases wrap with
  | true => exact (Uncut.parenthesized balanced).passes connective
  | false => exact bare rfl

theorem wrapsUnder_joined {connective found : Connective} (different : found ≠ connective)
    (left right : Condition σ) : (joined found left right).wrapsUnder connective = true := by
  simp [wrapsUnder, different]

/-- A connective shows only in chains of its own: operands that are chains of another one stand in
parentheses. -/
theorem passes_render {connective : Connective} {condition : Condition σ}
    (plain : condition.IsPlain)
    (other : ∀ left right, condition ≠ .joined connective left right) :
    Passes connective.mark .top condition.render := by
  induction condition with
  | joined found left right leftInduction rightInduction =>
      have parts := over_joined.mp plain
      have different : found ≠ connective := fun same => other left right (by rw [same])
      have operandPasses : ∀ operand : Condition σ, operand.IsPlain →
          ((∀ first second, operand ≠ .joined connective first second) →
            Passes connective.mark .top operand.render) →
          IsPiece connective (operandText found operand) := by
        intro operand operandPlain induction
        have balanced := balanced_render operandPlain
        refine ⟨balanced_parenthesized balanced _, passes_parenthesized_of_imp balanced ?_⟩
        intro bare
        apply induction
        rintro first second rfl
        rw [wrapsUnder_joined (Ne.symm different)] at bare
        cases bare
      have leftPiece := operandPasses left parts.1 (leftInduction parts.1)
      have rightPiece := operandPasses right parts.2 (rightInduction parts.2)
      have separatorPasses : Passes connective.mark .top found.separator := by
        apply Nesting.passes_of_not_mem
        cases connective <;> cases found <;>
          simp_all [Connective.separator, Connective.token, Connective.mark]
      have separated : Nesting.top.behind found.separator = .top := by
        cases found <;> rfl
      have whole : Passes connective.mark .top
          (operandText found left ++ found.separator ++ operandText found right) := by
        rw [Nesting.passes_append, Nesting.passes_append, Nesting.behind_append,
          leftPiece.1.behind_top, separated]
        exact ⟨⟨leftPiece.2, separatorPasses⟩, rightPiece.2⟩
      simpa [operandText, render, Connective.separator] using whole
  | negated inner induction =>
      have notMark : '!' ≠ connective.mark := by
        cases connective <;> decide
      have innerPlain : inner.IsPlain := over_negated.mp plain
      refine ⟨fun _ => notMark, passes_parenthesized_of_imp (balanced_render innerPlain) ?_⟩
      intro bare
      apply induction innerPlain
      rintro left right rfl
      cases bare
  | comparison => exact (uncut_leaf (over_comparison.mp plain)).passes connective
  | call => exact (uncut_leaf (over_call.mp plain)).passes connective
  | raw => exact (uncut_leaf (over_raw.mp plain)).passes connective

/-! ## Conditions with one text -/

theorem isPiece_operandText {connective : Connective} {condition operand : Condition σ}
    (plain : condition.IsPlain) (mem : operand ∈ condition.operands connective) :
    IsPiece connective (operandText connective operand) := by
  have operandPlain : operand.IsPlain := (splits_over _).of_mem_operands connective plain mem
  have balanced := balanced_render operandPlain
  refine ⟨balanced_parenthesized balanced _, passes_parenthesized_of_imp balanced ?_⟩
  exact fun _ => passes_render operandPlain (ne_joined_of_mem_operands mem)

theorem isPiece_of_mem_map (connective : Connective) {condition : Condition σ}
    (plain : condition.IsPlain) :
    ∀ piece ∈ (condition.operands connective).map (operandText connective),
      IsPiece connective piece := by
  intro piece mem
  rcases List.mem_map.mp mem with ⟨operand, operandMem, rfl⟩
  exact isPiece_operandText plain operandMem

/-- The connective shows in the text of a chain. -/
theorem cutAt?_render_joined {connective : Connective} {left right : Condition σ}
    (plain : (joined connective left right).IsPlain) :
    Nesting.cutAt? connective.token .top (joined connective left right).render ≠ none := by
  rcases List.exists_cons_of_ne_nil (Conjunction.operands_ne_nil connective left) with
    ⟨first, more, listed⟩
  have whole : (joined connective left right).operands connective =
      first :: (more ++ right.operands connective) := by
    rw [operands, if_pos rfl, listed, List.cons_append]
  have firstMem : first ∈ (joined connective left right).operands connective := by
    rw [whole]
    exact List.mem_cons_self
  have restSome : more ++ right.operands connective ≠ [] :=
    List.append_ne_nil_of_right_ne_nil more (Conjunction.operands_ne_nil connective right)
  rw [render_joined, whole, List.map_cons]
  exact cutAt?_joinWith_ne_none (isPiece_operandText plain firstMem)
    (mt List.map_eq_nil_iff.mp restSome)

theorem exists_joined_of_sameText {connective : Connective} {left right other : Condition σ}
    (plain : (joined connective left right).IsPlain) (otherPlain : other.IsPlain)
    (equal : (joined connective left right).render = other.render) :
    ∃ first second, other = joined connective first second := by
  apply Classical.byContradiction
  intro none
  have passes : Passes connective.mark .top other.render :=
    passes_render otherPlain fun first second same => none ⟨first, second, same⟩
  apply cutAt?_render_joined plain
  rw [equal, Connective.token_eq]
  exact Nesting.cutAt?_eq_none passes

theorem head?_render_ne {condition : Condition σ} (plain : condition.IsPlain)
    (unjoined : ∀ connective left right, condition ≠ joined connective left right) :
    condition.render.head? ≠ some '(' := by
  cases condition with
  | joined connective left right => exact absurd rfl (unjoined connective left right)
  | negated inner => simp [render]
  | comparison => exact leaf_head_ne (over_comparison.mp plain) (by decide)
  | call => exact leaf_head_ne (over_call.mp plain) (by decide)
  | raw => exact leaf_head_ne (over_raw.mp plain) (by decide)

/-- Parentheses can be told from a text that does not open with one. -/
theorem eq_of_parenthesized_eq {wrap wrap' : Bool} {text text' : Text}
    (bare : wrap = false → text.head? ≠ some '(') (bare' : wrap' = false → text'.head? ≠ some '(')
    (equal : parenthesized wrap text = parenthesized wrap' text') : text = text' := by
  cases wrap with
  | true =>
      cases wrap' with
      | true =>
          have inner : text ++ [')'] = text' ++ [')'] := (List.cons.inj equal).2
          exact List.append_cancel_right inner
      | false =>
          have opens : text'.head? = some '(' := by
            rw [show text' = '(' :: text ++ [')'] from equal.symm]
            rfl
          exact absurd opens (bare' rfl)
  | false =>
      cases wrap' with
      | true =>
          have opens : text.head? = some '(' := by
            rw [show text = '(' :: text' ++ [')'] from equal]
            rfl
          exact absurd opens (bare rfl)
      | false => exact equal

theorem operand_head?_ne {connective : Connective} {operand : Condition σ}
    (plain : operand.IsPlain) (other : ∀ left right, operand ≠ joined connective left right)
    (bare : operand.wrapsUnder connective = false) : operand.render.head? ≠ some '(' := by
  apply head?_render_ne plain
  rintro found left right rfl
  by_cases same : found = connective
  · exact other left right (by rw [same])
  · rw [wrapsUnder_joined same] at bare
    cases bare

theorem negated_head?_ne {inner : Condition σ} (plain : inner.IsPlain)
    (bare : inner.wrapsUnderNegation = false) : inner.render.head? ≠ some '(' := by
  apply head?_render_ne plain
  rintro connective left right rfl
  cases bare

theorem render_eq_of_operandText_eq {connective : Connective}
    {condition other operand found : Condition σ} (plain : condition.IsPlain)
    (otherPlain : other.IsPlain) (mem : operand ∈ condition.operands connective)
    (foundMem : found ∈ other.operands connective)
    (same : operandText connective operand = operandText connective found) :
    operand.render = found.render :=
  eq_of_parenthesized_eq
    (operand_head?_ne ((splits_over _).of_mem_operands connective plain mem)
      (ne_joined_of_mem_operands mem))
    (operand_head?_ne ((splits_over _).of_mem_operands connective otherPlain foundMem)
      (ne_joined_of_mem_operands foundMem)) same

theorem exists_sameText_operand {connective : Connective}
    {first second first' second' : Condition σ}
    (plain : (joined connective first second).IsPlain)
    (plain' : (joined connective first' second').IsPlain)
    (equal : (joined connective first second).render = (joined connective first' second').render)
    {operand : Condition σ} (mem : operand ∈ (joined connective first second).operands connective) :
    ∃ other ∈ (joined connective first' second').operands connective,
      operand.render = other.render := by
  rw [render_joined, render_joined] at equal
  have texts := joinWith_injective
    (mt List.map_eq_nil_iff.mp (Conjunction.operands_ne_nil connective _))
    (mt List.map_eq_nil_iff.mp (Conjunction.operands_ne_nil connective _))
    (isPiece_of_mem_map connective plain) (isPiece_of_mem_map connective plain') equal
  have inTexts := texts ▸ List.mem_map_of_mem mem
  rcases List.mem_map.mp inTexts with ⟨other, otherMem, same⟩
  exact ⟨other, otherMem, render_eq_of_operandText_eq plain plain' mem otherMem same.symm⟩

/-! ## Equal texts, equal truth -/

theorem sizeOf_le_of_mem_operands {connective : Connective} {condition operand : Condition σ}
    (mem : operand ∈ condition.operands connective) : sizeOf operand ≤ sizeOf condition := by
  induction condition with
  | joined found left right leftInduction rightInduction =>
      rw [operands] at mem
      split at mem
      · rcases List.mem_append.mp mem with mem | mem
        · have := leftInduction mem
          simp only [joined.sizeOf_spec]
          omega
        · have := rightInduction mem
          simp only [joined.sizeOf_spec]
          omega
      · exact List.mem_singleton.mp mem ▸ Nat.le_refl _
  | _ => exact List.mem_singleton.mp mem ▸ Nat.le_refl _

theorem sizeOf_lt_of_mem_operands {connective : Connective} {left right operand : Condition σ}
    (mem : operand ∈ (joined connective left right).operands connective) :
    sizeOf operand < sizeOf (joined connective left right) := by
  rw [operands, if_pos rfl] at mem
  rcases List.mem_append.mp mem with mem | mem
  · have := sizeOf_le_of_mem_operands mem
    simp only [joined.sizeOf_spec]
    omega
  · have := sizeOf_le_of_mem_operands mem
    simp only [joined.sizeOf_spec]
    omega

theorem isPlain_of_isPlainLeaf {leaf : Condition σ} (plain : leaf.IsPlainLeaf) : leaf.IsPlain := by
  cases leaf with
  | comparison => exact over_comparison.mpr plain
  | call => exact over_call.mpr plain
  | raw => exact over_raw.mpr plain
  | joined => cases plain
  | negated => cases plain

theorem isPlainLeaf_of_sameText {leaf other : Condition σ} (plain : leaf.IsPlainLeaf)
    (otherPlain : other.IsPlain) (equal : leaf.render = other.render) : other.IsPlainLeaf := by
  cases other with
  | comparison | call | raw => exact otherPlain _ List.mem_cons_self
  | joined connective left right =>
      rcases exists_joined_of_sameText otherPlain (isPlain_of_isPlainLeaf plain) equal.symm with
        ⟨_, _, rfl⟩
      cases plain
  | negated inner =>
      have marked : leaf.render.head? = some '!' := by
        rw [equal]
        rfl
      exact absurd marked (leaf_head_ne plain (by decide))

theorem exists_negated_of_sameText {inner other : Condition σ} (plain : inner.IsPlain)
    (otherPlain : other.IsPlain) (equal : (negated inner).render = other.render) :
    ∃ inner', other = negated inner' ∧ inner.render = inner'.render := by
  have marked : other.render.head? = some '!' := by
    rw [← equal]
    rfl
  cases other with
  | comparison | call | raw =>
      have leafPlain := otherPlain _ List.mem_cons_self
      exact absurd marked (leaf_head_ne leafPlain (by decide))
  | joined connective left right =>
      have negatedPlain : (negated inner).IsPlain := over_negated.mpr plain
      rcases exists_joined_of_sameText otherPlain negatedPlain equal.symm with ⟨_, _, same⟩
      cases same
  | negated inner' =>
      have innerPlain' : inner'.IsPlain := over_negated.mp otherPlain
      refine ⟨inner', rfl, ?_⟩
      exact eq_of_parenthesized_eq (negated_head?_ne plain) (negated_head?_ne innerPlain')
        (List.cons.inj equal).2

section Truth

variable {holds : Condition σ → Prop} (respects : RespectsConnectives holds)

include respects

theorem holds_congr_operands {connective : Connective} {condition other : Condition σ}
    (forward : ∀ operand ∈ condition.operands connective,
      ∃ found ∈ other.operands connective, (holds operand ↔ holds found))
    (backward : ∀ operand ∈ other.operands connective,
      ∃ found ∈ condition.operands connective, (holds found ↔ holds operand)) :
    holds condition ↔ holds other := by
  cases connective with
  | and =>
      rw [holds_iff_conjuncts respects condition, holds_iff_conjuncts respects other]
      constructor
      · intro all operand mem
        rcases backward operand mem with ⟨found, foundMem, same⟩
        exact same.mp (all found foundMem)
      · intro all operand mem
        rcases forward operand mem with ⟨found, foundMem, same⟩
        exact same.mpr (all found foundMem)
  | or =>
      rw [holds_iff_disjuncts respects condition, holds_iff_disjuncts respects other]
      constructor
      · rintro ⟨operand, mem, stands⟩
        rcases forward operand mem with ⟨found, foundMem, same⟩
        exact ⟨found, foundMem, same.mp stands⟩
      · rintro ⟨operand, mem, stands⟩
        rcases backward operand mem with ⟨found, foundMem, same⟩
        exact ⟨found, foundMem, same.mpr stands⟩

/-- The induction is on the size of the first condition, since the operands of a chain lie at any
depth of it. -/
theorem textDecides_plain (leafTexts : TextDecides holds IsPlainLeaf) :
    TextDecides holds IsPlain := by
  intro condition other plain otherPlain equal
  induction size : sizeOf condition using Nat.strongRecOn generalizing condition other with
  | ind bound induction =>
      cases condition with
      | comparison | call | raw =>
          have leafPlain := plain _ List.mem_cons_self
          have otherLeaf := isPlainLeaf_of_sameText leafPlain otherPlain equal
          exact leafTexts _ other leafPlain otherLeaf equal
      | negated inner =>
          have innerPlain : inner.IsPlain := over_negated.mp plain
          rcases exists_negated_of_sameText innerPlain otherPlain equal with ⟨inner', rfl, same⟩
          have smaller : sizeOf inner < bound := by
            rw [← size, negated.sizeOf_spec]
            omega
          rw [respects.negated_iff, respects.negated_iff]
          exact not_congr
            (induction _ smaller inner inner' innerPlain (over_negated.mp otherPlain) same rfl)
      | joined connective left right =>
          rcases exists_joined_of_sameText plain otherPlain equal with ⟨left', right', rfl⟩
          have agree : ∀ operand ∈ (joined connective left right).operands connective,
              ∀ found ∈ (joined connective left' right').operands connective,
                operand.render = found.render → (holds operand ↔ holds found) := by
            intro operand mem found foundMem same
            have smaller := size ▸ sizeOf_lt_of_mem_operands mem
            exact induction _ smaller operand found
              ((splits_over _).of_mem_operands connective plain mem)
              ((splits_over _).of_mem_operands connective otherPlain foundMem) same rfl
          apply holds_congr_operands respects
          · intro operand mem
            rcases exists_sameText_operand plain otherPlain equal mem with ⟨found, foundMem, same⟩
            exact ⟨found, foundMem, agree operand mem found foundMem same⟩
          · intro operand mem
            rcases exists_sameText_operand otherPlain plain equal.symm mem with
              ⟨found, foundMem, same⟩
            exact ⟨found, foundMem, agree found foundMem operand mem same.symm⟩

end Truth

end Condition

end FlowPlan
