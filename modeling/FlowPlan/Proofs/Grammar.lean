import FlowPlan.Proofs.Operands

/-! # The grammar of expressions

An expression is a chain of `||` over chains of `&&` over operands. `Derives`
says which texts are expressions and which condition each of them stands for:
the connectives and the negation are applied to the leaves from left to right,
and a leaf reads what its text refers to. Blanks may stand around every token.
What is in quotes or parentheses does not show in a part of an expression, nor
does an operator that binds looser than the part.
-/

namespace FlowPlan

open Text (IsGap IsTight IsDottedName IsIdentifier IsArgument Lists)
open Nesting (Hides IsInert Passes)

/-- The parts of an expression, from those that bind loosest. -/
inductive Rank where
  | chain (connective : Connective)
  | operand
  | negation

/-- The characters that do not show in a part of the rank, outside quotes and parentheses. -/
def Rank.hidden : Rank → List Char
  | .chain .or => []
  | .chain .and => ['|']
  | .operand => ['|', '&']
  | .negation => ['|', '&', '=', '<', '>']

theorem Rank.isBlank_of_mem_hidden {rank : Rank} {c : Char} (mem : c ∈ rank.hidden) :
    Text.isBlank c = false := by
  revert c
  rcases rank with (_ | _) | _ | _ <;> decide

theorem Rank.isDottedChar_of_mem_hidden {rank : Rank} {c : Char} (mem : c ∈ rank.hidden) :
    Text.isDottedChar c = false := by
  revert c
  rcases rank with (_ | _) | _ | _ <;> decide

namespace Connective

/-- What a chain of the connective is made of. -/
def operandRank : Connective → Rank
  | .or => .chain .and
  | .and => .operand

theorem isInert_of_mem_token {connective : Connective} : ∀ c ∈ connective.token, IsInert c := by
  cases connective <;> simp [token, IsInert]

theorem not_mem_token_of_mem_hidden {connective : Connective} {c : Char}
    (mem : c ∈ (Rank.chain connective).hidden) : c ∉ connective.token := by
  revert c
  cases connective <;> decide

theorem mem_hidden_operandRank {connective : Connective} {c : Char}
    (mem : c ∈ (Rank.chain connective).hidden) : c ∈ connective.operandRank.hidden := by
  revert c
  cases connective <;> decide

variable {σ : Type} [Keyed σ]

def join (connective : Connective) (left right : Condition σ) : Condition σ :=
  match connective with
  | .and => left.conj right
  | .or => left.disj right

/-- The conditions joined from left to right, if there are any. -/
def joinAll (connective : Connective) : List (Condition σ) → Option (Condition σ) :=
  match connective with
  | .and => Condition.allOf
  | .or => Condition.anyOf

end Connective

namespace Condition

variable {σ : Type} [Keyed σ]

/-- The text is a part of an expression of the given rank and stands for the condition. -/
inductive Derives (scope : StepScope σ) : Rank → Text → Condition σ → Prop
  | alone {connective : Connective} {text : Text} {condition : Condition σ}
      (derived : Derives scope connective.operandRank text condition) :
      Derives scope (.chain connective) text condition
  | joined {connective : Connective} {front back before after : Text} {left right : Condition σ}
      (frontDerived : Derives scope (.chain connective) front left)
      (beforeGap : IsGap before) (afterGap : IsGap after)
      (backDerived : Derives scope connective.operandRank back right) :
      Derives scope (.chain connective) (front ++ (before ++ connective.token ++ after) ++ back)
        (connective.join left right)
  | comparison {left before after text : Text} {comparator : Comparator} {right : Literal}
      (name : IsDottedName left) (beforeGap : IsGap before) (afterGap : IsGap after)
      (plain : right.IsPlain)
      (written : text = left ++ (before ++ comparator.token ++ after) ++ right.render) :
      Derives scope .operand text (.comparison left comparator right (Text.sources scope text))
  | bare {text : Text} {condition : Condition σ} (derived : Derives scope .negation text condition) :
      Derives scope .operand text condition
  | negated {gap text : Text} {condition : Condition σ} (isGap : IsGap gap)
      (derived : Derives scope .negation text condition) :
      Derives scope .negation ('!' :: (gap ++ text)) condition.negate
  | parenthesized {before text after : Text} {condition : Condition σ} (beforeGap : IsGap before)
      (afterGap : IsGap after) (derived : Derives scope (.chain .or) text condition) :
      Derives scope .negation ('(' :: (before ++ text ++ after ++ [')'])) condition
  | call {name before listed after text : Text} {arguments : List Text}
      (identifier : IsIdentifier name) (beforeGap : IsGap before) (afterGap : IsGap after)
      (lists : Lists [','] arguments listed) (proper : ∀ argument ∈ arguments, IsArgument argument)
      (written : text = name ++ '(' :: (before ++ listed ++ after ++ [')'])) :
      Derives scope .negation text (.call name arguments (Text.sources scope text))
  | name {text : Text} (isName : IsDottedName text) :
      Derives scope .negation text (.raw text (Text.sources scope text))

/-! ## Phrases -/

/-- The text begins with the character of a name. -/
def StartsName (text : Text) : Prop := ∃ c ∈ text.head?, Text.isDottedChar c = true

theorem StartsName.head?_ne {text : Text} (starts : StartsName text) {c : Char}
    (notDotted : Text.isDottedChar c = false) : text.head? ≠ some c := by
  rcases starts with ⟨first, isFirst, dotted⟩
  rw [isFirst]
  exact fun equal => Text.ne_of_isDottedChar dotted notDotted (Option.some.inj equal)

theorem startsName {name : Text} (isName : IsDottedName name) : StartsName name :=
  ⟨name.head isName.1, List.head_mem_head? isName.1, isName.2 _ (List.head_mem isName.1)⟩

/-- What the text of a part looks like from outside. -/
structure IsPhrase (rank : Rank) (text : Text) : Prop where
  opens : ∃ c ∈ text.head?, c = '!' ∨ c = '(' ∨ Text.isDottedChar c = true
  tight : IsTight text
  faultless : Nesting.top.fault? text = none
  passes : ∀ c ∈ rank.hidden, Passes c .top text

namespace IsPhrase

variable {rank : Rank} {text : Text}

theorem hides (phrase : IsPhrase rank text) {c : Char} (mem : c ∈ rank.hidden) : Hides c text where
  balanced := Nesting.balanced_of_fault?_eq_none phrase.faultless
  passes := phrase.passes c mem

theorem mono {looser : Rank} (phrase : IsPhrase rank text)
    (fewer : ∀ c ∈ looser.hidden, c ∈ rank.hidden) : IsPhrase looser text where
  opens := phrase.opens
  tight := phrase.tight
  faultless := phrase.faultless
  passes c mem := phrase.passes c (fewer c mem)

theorem head?_ne (phrase : IsPhrase rank text) {c : Char} (notMark : c ≠ '!')
    (notParenthesis : c ≠ '(') (notDotted : Text.isDottedChar c = false) :
    text.head? ≠ some c := by
  rcases phrase.opens with ⟨first, isFirst, rfl | rfl | dotted⟩
  · rw [isFirst]
    exact fun equal => notMark (Option.some.inj equal).symm
  · rw [isFirst]
    exact fun equal => notParenthesis (Option.some.inj equal).symm
  · rw [isFirst]
    exact fun equal => Text.ne_of_isDottedChar dotted notDotted (Option.some.inj equal)

theorem opens_of_startsName {text : Text} (starts : StartsName text) :
    ∃ c ∈ text.head?, c = '!' ∨ c = '(' ∨ Text.isDottedChar c = true := by
  rcases starts with ⟨c, isFirst, dotted⟩
  exact ⟨c, isFirst, .inr (.inr dotted)⟩

theorem joined {connective : Connective} {front back before after : Text}
    (frontPhrase : IsPhrase (.chain connective) front) (beforeGap : IsGap before)
    (afterGap : IsGap after) (backPhrase : IsPhrase connective.operandRank back) :
    IsPhrase (.chain connective) (front ++ (before ++ connective.token ++ after) ++ back) where
  opens := by
    rw [List.append_assoc]
    exact Text.exists_head?_append frontPhrase.opens _
  tight := frontPhrase.tight.append _ backPhrase.tight
  faultless := Nesting.fault?_eq_none_of_append (Nesting.fault?_eq_none_of_append
    frontPhrase.faultless (Nesting.fault?_spaced beforeGap afterGap
      Connective.isInert_of_mem_token)) backPhrase.faultless
  passes c mem := by
    have middle : Hides c (before ++ connective.token ++ after) :=
      .spaced beforeGap afterGap Connective.isInert_of_mem_token (Rank.isBlank_of_mem_hidden mem)
        (Connective.not_mem_token_of_mem_hidden mem)
    exact (((frontPhrase.hides mem).append middle).append
      (backPhrase.hides (Connective.mem_hidden_operandRank mem))).passes

theorem comparison {left before after : Text} {comparator : Comparator} {right : Literal}
    (name : IsDottedName left) (beforeGap : IsGap before) (afterGap : IsGap after) :
    IsPhrase .operand (left ++ (before ++ comparator.token ++ after) ++ right.render) where
  opens := by
    rw [List.append_assoc]
    exact opens_of_startsName (Text.exists_head?_append (startsName name) _)
  tight := (IsTight.of_isDottedName name).append _ right.isTight_render
  faultless := Nesting.fault?_eq_none_of_append (Nesting.fault?_eq_none_of_append
    (Nesting.fault?_of_isInert fun c mem => Text.isInert_of_isDottedChar (name.2 c mem))
      (Nesting.fault?_spaced beforeGap afterGap Comparator.isInert_of_mem_token))
        right.fault?_render
  passes c mem := by
    have notDotted := Rank.isDottedChar_of_mem_hidden mem
    have absent : c ∉ comparator.token := by
      revert c
      cases comparator <;> decide
    have middle : Hides c (before ++ comparator.token ++ after) :=
      .spaced beforeGap afterGap Comparator.isInert_of_mem_token (Rank.isBlank_of_mem_hidden mem)
        absent
    exact (((Hides.of_isDottedChar name.2 notDotted).append middle).append
      (right.hides_render notDotted)).passes

theorem negated {gap text : Text} (isGap : IsGap gap) (phrase : IsPhrase .negation text) :
    IsPhrase .negation ('!' :: (gap ++ text)) where
  opens := ⟨'!', rfl, .inl rfl⟩
  tight := by
    have mark : IsTight ['!'] := .of_forall (List.cons_ne_nil '!' []) (by decide)
    exact mark.append gap phrase.tight
  faultless := by
    have mark : Nesting.top.fault? ('!' :: gap) = none := Nesting.fault?_of_isInert
      (List.forall_mem_cons.mpr ⟨by simp [IsInert], isGap.isInert⟩)
    exact Nesting.fault?_eq_none_of_append mark phrase.faultless
  passes c mem := by
    have mark : Hides c ('!' :: gap) := by
      refine .of_forall (List.forall_mem_cons.mpr ⟨by simp [IsInert], isGap.isInert⟩) ?_
      rw [List.mem_cons, not_or]
      refine ⟨?_, isGap.not_mem (Rank.isBlank_of_mem_hidden mem)⟩
      rintro rfl
      revert mem
      decide
    exact (mark.append (phrase.hides mem)).passes

theorem parenthesized {text : Text} (faultless : Nesting.top.fault? text = none) :
    IsPhrase .negation ('(' :: (text ++ [')'])) where
  opens := ⟨'(', rfl, .inr (.inl rfl)⟩
  tight := by
    have opening : IsTight ['('] := .of_forall (List.cons_ne_nil '(' []) (by decide)
    have closing : IsTight [')'] := .of_forall (List.cons_ne_nil ')' []) (by decide)
    exact opening.append text closing
  faultless := Nesting.fault?_parenthesized faultless
  passes _ _ := (Hides.parenthesized (Nesting.balanced_of_fault?_eq_none faultless)).passes

theorem name {text : Text} (isName : IsDottedName text) : IsPhrase .negation text where
  opens := opens_of_startsName (startsName isName)
  tight := .of_isDottedName isName
  faultless := Nesting.fault?_of_isInert fun c mem => Text.isInert_of_isDottedChar (isName.2 c mem)
  passes _ mem :=
    (Hides.of_isDottedChar isName.2 (Rank.isDottedChar_of_mem_hidden mem)).passes

theorem call {name inside : Text} (identifier : IsIdentifier name)
    (faultless : Nesting.top.fault? inside = none) :
    IsPhrase .negation (name ++ '(' :: (inside ++ [')'])) where
  opens := opens_of_startsName (Text.exists_head?_append (startsName identifier.isDottedName) _)
  tight := by
    have closing : IsTight [')'] := .of_forall (List.cons_ne_nil ')' []) (by decide)
    have whole := (IsTight.of_isDottedName identifier.isDottedName).append ('(' :: inside) closing
    rwa [List.append_assoc, List.cons_append] at whole
  faultless := Nesting.fault?_eq_none_of_append (IsPhrase.name identifier.isDottedName).faultless
    (IsPhrase.parenthesized faultless).faultless
  passes _ mem := ((IsPhrase.name identifier.isDottedName).hides mem |>.append
    ((IsPhrase.parenthesized faultless).hides mem)).passes

end IsPhrase

end Condition

end FlowPlan
