import FlowPlan.Proofs.Reading

/-! # Reading rendered conditions

The text of a condition is one of the grammar: parentheses stand exactly where
an operand would otherwise fall apart or lose its negation. It stands for the
same condition with its chains associated to the left, so that one is what
reading the text finds.
-/

namespace FlowPlan

open Text (IsGap IsDottedName IsIdentifier IsArgument Lists)

namespace Condition

variable {σ : Type}

/-! ## Association -/

/-- Puts the operands of a chain one after another behind `left`. -/
def attach (connective : Connective) (left : Condition σ) : Condition σ → Condition σ
  | .joined found first second =>
    if found = connective then .joined connective (attach connective left first) second
    else .joined connective left (.joined found first second)
  | right => .joined connective left right

/-- The condition in which every chain is associated to the left. -/
def leftAssociated : Condition σ → Condition σ
  | .joined connective left right => attach connective left.leftAssociated right.leftAssociated
  | .negated inner => .negated inner.leftAssociated
  | leaf => leaf

theorem attach_of_ne {connective : Connective} {right : Condition σ} (left : Condition σ)
    (other : ∀ first second, right ≠ .joined connective first second) :
    attach connective left right = .joined connective left right := by
  cases right with
  | joined found first second =>
      have different : found ≠ connective := fun same => other first second (by rw [same])
      rw [attach, if_neg different]
  | comparison | call | raw | negated => rfl

theorem exists_joined_of_attach (connective : Connective) (left right : Condition σ) :
    ∃ first second, attach connective left right = .joined connective first second := by
  cases right with
  | joined found first second =>
      rw [attach]
      split
      · exact ⟨_, _, rfl⟩
      · exact ⟨_, _, rfl⟩
  | comparison | call | raw | negated => exact ⟨_, _, rfl⟩

theorem attach_attach (connective : Connective) (left middle right : Condition σ) :
    attach connective left (attach connective middle right) =
      attach connective (attach connective left middle) right := by
  induction right with
  | joined found first second firstInduction _ =>
      by_cases same : found = connective
      · rw [attach, if_pos same, attach, if_pos rfl, firstInduction, attach, if_pos same]
      · rw [attach, if_neg same, attach, if_pos rfl, attach, if_neg same]
  | comparison | call | raw | negated => simp [attach]

theorem ne_joined_leftAssociated {connective : Connective} {condition : Condition σ}
    (other : ∀ first second, condition ≠ .joined connective first second)
    (first second : Condition σ) : condition.leftAssociated ≠ .joined connective first second := by
  cases condition with
  | joined found left right =>
      rw [leftAssociated]
      rcases exists_joined_of_attach found left.leftAssociated right.leftAssociated with
        ⟨front, back, equal⟩
      rw [equal]
      rintro ⟨⟩
      exact other left right rfl
  | comparison | call | raw | negated => rw [leftAssociated] <;> simp

/-! ## The text of a reassociated condition -/

theorem render_joined_eq (connective : Connective) (left right : Condition σ) :
    (joined connective left right).render =
      left.operandText connective ++ connective.separator ++ right.operandText connective := by
  simp [render, operandText, Connective.separator]

theorem operandText_joined (connective : Connective) (left right : Condition σ) :
    (joined connective left right).operandText connective =
      (joined connective left right).render := by
  simp [operandText, wrapsUnder, parenthesized]

theorem render_attach (connective : Connective) (left right : Condition σ) :
    (attach connective left right).render =
      left.operandText connective ++ connective.separator ++ right.operandText connective := by
  induction right with
  | joined found first second firstInduction _ =>
      by_cases same : found = connective
      · subst same
        rcases exists_joined_of_attach found left first with ⟨front, back, equal⟩
        rw [attach, if_pos rfl, render_joined_eq, equal, operandText_joined, ← equal,
          firstInduction, operandText_joined, render_joined_eq]
        simp only [List.append_assoc]
      · rw [attach, if_neg same, render_joined_eq]
  | comparison | call | raw | negated => exact render_joined_eq connective left _

theorem wrapsUnder_leftAssociated (connective : Connective) (condition : Condition σ) :
    condition.leftAssociated.wrapsUnder connective = condition.wrapsUnder connective := by
  cases condition with
  | joined found left right =>
      rw [leftAssociated]
      rcases exists_joined_of_attach found left.leftAssociated right.leftAssociated with
        ⟨front, back, equal⟩
      rw [equal]
      rfl
  | comparison | call | raw | negated => rfl

theorem wrapsUnderNegation_leftAssociated (condition : Condition σ) :
    condition.leftAssociated.wrapsUnderNegation = condition.wrapsUnderNegation := by
  cases condition with
  | joined found left right =>
      rw [leftAssociated]
      rcases exists_joined_of_attach found left.leftAssociated right.leftAssociated with
        ⟨front, back, equal⟩
      rw [equal]
      rfl
  | comparison | call | raw | negated => rfl

theorem render_leftAssociated (condition : Condition σ) :
    condition.leftAssociated.render = condition.render := by
  induction condition with
  | joined connective left right leftInduction rightInduction =>
      rw [leftAssociated, render_attach, render_joined_eq, operandText, operandText, leftInduction,
        rightInduction, wrapsUnder_leftAssociated, wrapsUnder_leftAssociated]
      rfl
  | negated inner induction =>
      rw [leftAssociated, render, induction, wrapsUnderNegation_leftAssociated, render]
  | comparison | call | raw => rfl

theorem render_comparison (left : Text) (comparator : Comparator) (right : Literal)
    (sources : List (Source σ)) :
    (comparison left comparator right sources).render =
      left ++ ([' '] ++ comparator.token ++ [' ']) ++ right.render := by
  simp [render]

/-- Nothing is negated twice. -/
theorem negate_negated_ne (inner : Condition σ) :
    (negated inner).negate ≠ .negated (.negated inner) := by
  intro equal
  have sizes := congrArg sizeOf equal
  simp only [negate, negated.sizeOf_spec] at sizes
  omega

theorem negate_leftAssociated {condition : Condition σ}
    (turned : condition.negate = .negated condition) :
    condition.leftAssociated.negate = .negated condition.leftAssociated := by
  cases condition with
  | joined connective left right =>
      rw [leftAssociated]
      rcases exists_joined_of_attach connective left.leftAssociated right.leftAssociated with
        ⟨front, back, equal⟩
      rw [equal]
      rfl
  | negated inner => exact absurd turned (negate_negated_ne inner)
  | comparison | call | raw => exact turned

theorem not_constant_attach (connective : Connective) (left right : Condition σ) :
    (attach connective left right).isTrue = false ∧
      (attach connective left right).isFalse = false := by
  rcases exists_joined_of_attach connective left right with ⟨first, second, equal⟩
  rw [equal]
  exact ⟨rfl, rfl⟩

/-! ## Conditions built from leaves -/

variable [Keyed σ]

/-- A leaf that reading its text finds again, with what the scope knows of it. -/
def IsReadable (scope : StepScope σ) : Condition σ → Prop
  | .comparison left comparator right sources =>
    IsDottedName left ∧ right.IsPlain ∧
      sources = Text.sources scope (comparison left comparator right sources).render
  | .call name arguments sources =>
    IsIdentifier name ∧ (∀ argument ∈ arguments, IsArgument argument) ∧
      sources = Text.sources scope (call name arguments sources).render
  | .raw text sources =>
    IsDottedName text ∧ text ≠ trueText ∧ text ≠ falseText ∧ sources = Text.sources scope text
  | _ => False

/-- Put together from readable leaves by `&&`, `||` and `!`. -/
inductive Built (scope : StepScope σ) : Condition σ → Prop
  | leaf {leaf : Condition σ} (readable : IsReadable scope leaf) : Built scope leaf
  | conj {left right : Condition σ} (leftBuilt : Built scope left) (rightBuilt : Built scope right) :
      Built scope (left.conj right)
  | disj {left right : Condition σ} (leftBuilt : Built scope left) (rightBuilt : Built scope right) :
      Built scope (left.disj right)
  | negate {condition : Condition σ} (built : Built scope condition) :
      Built scope condition.negate

/-- A condition that is put together so: a negation stands only in front of what has no shorter
opposite. -/
def IsNormal (scope : StepScope σ) : Condition σ → Prop
  | .joined _ left right => IsNormal scope left ∧ IsNormal scope right
  | .negated inner => IsNormal scope inner ∧ inner.negate = .negated inner
  | leaf => IsReadable scope leaf

theorem not_constant_of_isNormal {scope : StepScope σ} {condition : Condition σ}
    (normal : IsNormal scope condition) : condition.isTrue = false ∧ condition.isFalse = false := by
  cases condition with
  | raw text sources =>
      rcases normal with ⟨name, notTrue, notFalse, _⟩
      simp [isTrue, isFalse, Text.trim_of_isDottedName name, notTrue, notFalse]
  | comparison | call | joined | negated => exact ⟨rfl, rfl⟩

theorem not_constant_leftAssociated {scope : StepScope σ} {condition : Condition σ}
    (normal : IsNormal scope condition) :
    condition.leftAssociated.isTrue = false ∧ condition.leftAssociated.isFalse = false := by
  cases condition with
  | joined connective left right => exact not_constant_attach connective _ _
  | negated => exact ⟨rfl, rfl⟩
  | comparison | call | raw => exact not_constant_of_isNormal normal

theorem join_eq_joined (connective : Connective) {left right : Condition σ}
    (leftVaries : left.isTrue = false ∧ left.isFalse = false)
    (rightVaries : right.isTrue = false ∧ right.isFalse = false) :
    connective.join left right = .joined connective left right := by
  cases connective <;>
    simp [Connective.join, conj, disj, leftVaries.1, leftVaries.2, rightVaries.1, rightVaries.2]

theorem isNormal_negate {scope : StepScope σ} {condition : Condition σ}
    (normal : IsNormal scope condition) : IsNormal scope condition.negate := by
  cases condition with
  | comparison left comparator right sources =>
      cases opposite : comparator.opposite? with
      | none =>
          have turned : (comparison left comparator right sources).negate =
              .negated (.comparison left comparator right sources) := by
            rw [negate, opposite]
          rw [turned]
          exact ⟨normal, turned⟩
      | some other =>
          rcases normal with ⟨name, plain, reads⟩
          rw [negate, opposite]
          refine ⟨name, plain, reads.trans ?_⟩
          rw [render_comparison, render_comparison,
            sources_comparison scope name IsGap.blank IsGap.blank,
            sources_comparison scope name IsGap.blank IsGap.blank]
  | negated inner => exact normal.1
  | raw text sources =>
      have varies := not_constant_of_isNormal normal
      have turned : (raw text sources).negate = .negated (.raw text sources) := by
        simp [negate, varies.1, varies.2]
      rw [turned]
      exact ⟨normal, turned⟩
  | call | joined => exact ⟨normal, rfl⟩

theorem Built.isNormal {scope : StepScope σ} {condition : Condition σ}
    (built : Built scope condition) : IsNormal scope condition := by
  induction built with
  | @leaf leaf readable =>
      cases leaf with
      | comparison | call | raw => exact readable
      | joined | negated => cases readable
  | conj _ _ leftNormal rightNormal =>
      have whole := join_eq_joined .and (not_constant_of_isNormal leftNormal)
        (not_constant_of_isNormal rightNormal)
      exact Eq.mpr (congrArg (IsNormal scope) whole) ⟨leftNormal, rightNormal⟩
  | disj _ _ leftNormal rightNormal =>
      have whole := join_eq_joined .or (not_constant_of_isNormal leftNormal)
        (not_constant_of_isNormal rightNormal)
      exact Eq.mpr (congrArg (IsNormal scope) whole) ⟨leftNormal, rightNormal⟩
  | negate _ normal => exact isNormal_negate normal

/-! ## The derivation of a text -/

/-- How tightly the text of the condition binds. -/
def rank : Condition σ → Rank
  | .joined connective _ _ => .chain connective
  | .comparison .. => .operand
  | _ => .negation

variable {scope : StepScope σ}

namespace Derives

variable {text : Text} {condition : Condition σ}

theorem operandRank_of_operand (connective : Connective)
    (derived : Derives scope .operand text condition) :
    Derives scope connective.operandRank text condition := by
  cases connective with
  | and => exact derived
  | or => exact .alone derived

theorem expression {rank : Rank} (derived : Derives scope rank text condition) :
    Derives scope (.chain .or) text condition := by
  cases rank with
  | chain connective =>
      cases connective with
      | or => exact derived
      | and => exact .alone derived
  | operand => exact .alone (.alone derived)
  | negation => exact .alone (.alone (.bare derived))

theorem inParentheses {rank : Rank} (derived : Derives scope rank text condition) :
    Derives scope .negation (Condition.parenthesized true text) condition := by
  have whole := Derives.parenthesized IsGap.nil IsGap.nil derived.expression
  rwa [List.nil_append, List.append_nil] at whole

end Derives

theorem contains_eq_false_of_not_mem {first : Char} {more text : Text} (absent : first ∉ text) :
    Text.contains (first :: more) text = false := by
  induction text with
  | nil => rfl
  | cons head tail induction =>
      rw [List.mem_cons, not_or] at absent
      simp [Text.contains, List.isPrefixOf, absent.1, induction absent.2]

/-- An operand that is no chain of the connective itself. -/
theorem derives_operandText {connective : Connective} {condition : Condition σ}
    (normal : IsNormal scope condition)
    (other : ∀ left right, condition ≠ .joined connective left right)
    (derived : Derives scope condition.rank condition.render condition.leftAssociated) :
    Derives scope connective.operandRank (condition.operandText connective)
      condition.leftAssociated := by
  cases condition with
  | joined found left right =>
      have different : found ≠ connective := fun same => other left right (by rw [same])
      rw [operandText, wrapsUnder_joined different]
      exact .operandRank_of_operand connective (.bare derived.inParentheses)
  | comparison => exact .operandRank_of_operand connective derived
  | call | negated => exact .operandRank_of_operand connective (.bare derived)
  | raw text sources =>
      have bare : (raw text sources).wrapsUnder connective = false := by
        rw [wrapsUnder, Connective.token_eq]
        exact contains_eq_false_of_not_mem fun mem =>
          connective.other.mark_ne_of_isDottedChar (normal.1.2 _ mem) rfl
      rw [operandText, bare]
      exact .operandRank_of_operand connective (.bare derived)

/-- What a negation stands in front of. -/
theorem derives_negatedText {condition : Condition σ} (normal : IsNormal scope condition)
    (turned : condition.negate = .negated condition)
    (derived : Derives scope condition.rank condition.render condition.leftAssociated) :
    Derives scope .negation (parenthesized condition.wrapsUnderNegation condition.render)
      condition.leftAssociated := by
  cases condition with
  | joined | comparison => exact derived.inParentheses
  | call => exact derived
  | negated inner => exact absurd turned (negate_negated_ne inner)
  | raw text sources =>
      have bare : (raw text sources).wrapsUnderNegation = false := by
        have absent : ∀ c, Text.isDottedChar c = false → c ∉ text := fun c outside mem =>
          Text.ne_of_isDottedChar (normal.1.2 c mem) outside rfl
        simp [wrapsUnderNegation, operatorTokens, contains_eq_false_of_not_mem,
          absent '&' (by decide), absent '|' (by decide), absent '=' (by decide),
          absent '!' (by decide), absent '<' (by decide), absent '>' (by decide)]
      rw [bare]
      exact derived

theorem derives_chain_operandText (connective : Connective) {condition : Condition σ}
    (normal : IsNormal scope condition)
    (derived : Derives scope condition.rank condition.render condition.leftAssociated) :
    Derives scope (.chain connective) (condition.operandText connective)
      condition.leftAssociated := by
  by_cases chain : ∃ left right, condition = .joined connective left right
  · rcases chain with ⟨left, right, rfl⟩
    rw [operandText_joined]
    exact derived
  · exact .alone (derives_operandText normal
      (fun left right equal => chain ⟨left, right, equal⟩) derived)

theorem lists_joinWith (arguments : List Text) :
    Lists [','] arguments (Text.joinWith [',', ' '] arguments) := by
  fun_induction Text.joinWith [',', ' '] arguments with
  | case1 => exact .none
  | case2 argument => exact .single argument
  | case3 argument next rest induction => exact .more argument IsGap.nil IsGap.blank induction

theorem derives_attach_operand {connective : Connective} {condition : Condition σ}
    (normal : IsNormal scope condition)
    (other : ∀ left right, condition ≠ .joined connective left right)
    (derived : Derives scope condition.rank condition.render condition.leftAssociated)
    {front : Text} {left : Condition σ} (frontDerived : Derives scope (.chain connective) front left)
    (varies : left.isTrue = false ∧ left.isFalse = false) :
    Derives scope (.chain connective)
      (front ++ connective.separator ++ condition.operandText connective)
      (attach connective left condition.leftAssociated) := by
  have rightVaries := not_constant_leftAssociated normal
  rw [attach_of_ne left (ne_joined_leftAssociated other),
    ← join_eq_joined connective varies rightVaries]
  exact .joined frontDerived IsGap.blank IsGap.blank (derives_operandText normal other derived)

/-- The text of a condition alone, and behind a chain. -/
theorem derives_render {condition : Condition σ} (normal : IsNormal scope condition) :
    Derives scope condition.rank condition.render condition.leftAssociated ∧
    ∀ (connective : Connective) (front : Text) (left : Condition σ),
      Derives scope (.chain connective) front left →
      left.isTrue = false ∧ left.isFalse = false →
      Derives scope (.chain connective)
        (front ++ connective.separator ++ condition.operandText connective)
        (attach connective left condition.leftAssociated) := by
  induction condition with
  | joined found left right leftInduction rightInduction =>
      have leftDerived := leftInduction normal.1
      have rightDerived := rightInduction normal.2
      have alone := derives_chain_operandText found normal.1 leftDerived.1
      have whole : Derives scope (.chain found) (joined found left right).render
          (joined found left right).leftAssociated := by
        rw [render_joined_eq]
        exact rightDerived.2 found _ _ alone (not_constant_leftAssociated normal.1)
      refine ⟨whole, ?_⟩
      intro connective front start frontDerived varies
      by_cases same : found = connective
      · subst same
        have first := leftDerived.2 found front start frontDerived varies
        have both := rightDerived.2 found _ _ first (not_constant_attach found start _)
        rw [operandText_joined, render_joined_eq, leftAssociated, attach_attach]
        simpa only [List.append_assoc] using both
      · exact derives_attach_operand normal (by rintro first second ⟨⟩; exact same rfl) whole
          frontDerived varies
  | comparison left comparator right sources =>
      have derived : Derives scope .operand (comparison left comparator right sources).render
          (.comparison left comparator right
            (Text.sources scope (comparison left comparator right sources).render)) :=
        .comparison normal.1 IsGap.blank IsGap.blank normal.2.1
          (render_comparison left comparator right sources)
      rw [← normal.2.2] at derived
      exact ⟨derived, fun _ _ _ => derives_attach_operand normal (by simp) derived⟩
  | call name arguments sources =>
      have derived : Derives scope .negation (call name arguments sources).render
          (.call name arguments (Text.sources scope (call name arguments sources).render)) :=
        .call normal.1 IsGap.nil IsGap.nil (lists_joinWith arguments) normal.2.1 (by simp [render])
      rw [← normal.2.2] at derived
      exact ⟨derived, fun _ _ _ => derives_attach_operand normal (by simp) derived⟩
  | raw text sources =>
      have derived : Derives scope .negation text (.raw text (Text.sources scope text)) :=
        .name normal.1
      rw [← normal.2.2.2] at derived
      exact ⟨derived, fun _ _ _ => derives_attach_operand normal (by simp) derived⟩
  | negated inner induction =>
      have innerDerived := derives_negatedText normal.1 normal.2 (induction normal.1).1
      have derived : Derives scope .negation (negated inner).render
          inner.leftAssociated.negate := .negated IsGap.nil innerDerived
      rw [negate_leftAssociated normal.2] at derived
      exact ⟨derived, fun _ _ _ => derives_attach_operand normal (by simp) derived⟩

/-! ## Reading back -/

/-- Reading the text of a condition finds the condition again, up to the association of its chains;
so the text is the same again, and conditions with one text differ in nothing else. -/
theorem parse_render {condition : Condition σ} (built : Built scope condition) :
    parse scope condition.render = .ok condition.leftAssociated ∧
      condition.leftAssociated.render = condition.render ∧
      ∀ other, Built scope other → other.render = condition.render →
        other.leftAssociated = condition.leftAssociated := by
  have reads : ∀ found : Condition σ, Built scope found →
      parse scope found.render = .ok found.leftAssociated := by
    intro found foundBuilt
    have shows : Text.Shows found.render ([] ++ found.render ++ []) := .plain IsGap.nil IsGap.nil
    rw [List.nil_append, List.append_nil] at shows
    rcases reads_of_derives (derives_render foundBuilt.isNormal).1.expression with ⟨phrase, read⟩
    exact parse_of_reads phrase read shows
  refine ⟨reads condition built, render_leftAssociated condition, ?_⟩
  intro other otherBuilt same
  have both := reads other otherBuilt
  rw [same, reads condition built] at both
  exact (Except.ok.inj both).symm

theorem parse_render_nested_chain :
    parse (StepScope.none : StepScope Step) "a && b && (c || !d)".toList =
      .ok (.joined .and (.joined .and (.raw ['a'] []) (.raw ['b'] []))
        (.joined .or (.raw ['c'] []) (.negated (.raw ['d'] [])))) := by
  let scope : StepScope Step := .none
  have name : ∀ c, Text.isWordChar c = true → Built scope (.raw [c] []) := by
    intro c word
    have absent : '.' ∉ [c] := by
      rw [List.mem_singleton]
      rintro rfl
      revert word
      decide
    have reads : [] = Text.sources scope [c] := by
      rw [Text.sources, Text.references_eq_nil_of_not_mem absent]
      rfl
    have isName : IsDottedName [c] := ⟨List.cons_ne_nil c [],
      List.forall_mem_singleton.mpr (Text.isDottedChar_of_isWordChar word)⟩
    exact .leaf ⟨isName, by simp [trueText], by simp [falseText], reads⟩
  exact (parse_render (.conj (name 'a' rfl) (.conj (name 'b' rfl)
    (.disj (name 'c' rfl) (.negate (name 'd' rfl)))))).1

end Condition

end FlowPlan
