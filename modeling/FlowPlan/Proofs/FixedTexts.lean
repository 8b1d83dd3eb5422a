import FlowPlan.Proofs.NumberTexts
import FlowPlan.Proofs.Rereading

/-! # Texts that reading keeps

Reading the text of a condition again gives the same text if every comparison in
it is found again: all other leaves are, and parentheses stand where they stood
before. A comparison is found again if its own comparator is the first one in
its text and its literal is not one of the two numbers whose text is no literal.
-/

namespace FlowPlan

open Text (IsGap IsOperand)

namespace Condition

variable {σ : Type}

/-- The one condition is printed as the other, alone and in any place. -/
structure PrintsLike (again condition : Condition σ) : Prop where
  render : again.render = condition.render
  operand : ∀ connective, again.wrapsUnder connective = condition.wrapsUnder connective
  negation : condition.TakesNegation →
    again.TakesNegation ∧ again.wrapsUnderNegation = condition.wrapsUnderNegation

namespace PrintsLike

variable {again condition left right left' right' : Condition σ}

theorem operandText (prints : PrintsLike again condition) (connective : Connective) :
    again.operandText connective = condition.operandText connective := by
  rw [Condition.operandText, Condition.operandText, prints.render, prints.operand]

theorem joined (connective : Connective) (leftPrints : PrintsLike left' left)
    (rightPrints : PrintsLike right' right) :
    PrintsLike (.joined connective left' right') (.joined connective left right) where
  render := by
    rw [render_joined_eq, render_joined_eq, leftPrints.operandText, rightPrints.operandText]
  operand _ := rfl
  negation _ := ⟨trivial, rfl⟩

theorem negate (takes : condition.TakesNegation) (prints : PrintsLike again condition) :
    PrintsLike again.negate (.negated condition) := by
  obtain ⟨againTakes, wraps⟩ := prints.negation takes
  rw [takesNegation_iff.mp againTakes]
  exact {
    render := by rw [Condition.render, Condition.render, wraps, prints.render]
    operand := fun _ => rfl
    negation := False.elim }

theorem raw (text : Text) (sources sources' : List (Source σ)) :
    PrintsLike (.raw text sources) (.raw text sources') where
  render := rfl
  operand _ := rfl
  negation takes := ⟨takes, rfl⟩

end PrintsLike

variable [Keyed σ] {scope : StepScope σ} {text : Text} {condition base : Condition σ}

/-- A comparison is found again in its text, with a literal that is printed the same. -/
def IsFoundAgain (scope : StepScope σ) : Condition σ → Prop
  | .comparison left comparator right sources =>
    ∃ again found, leaf scope (comparison left comparator right sources).render =
      .comparison left comparator again found ∧ again.render = right.render
  | _ => True

/-! ## Leaves -/

/-- The arguments of a call are found again between its parentheses. -/
theorem leaf_call {name : Text} {arguments : List Text} {sources : List (Source σ)}
    (parsedLeaf : IsParsedLeaf scope (.call name arguments sources)) :
    leaf scope (call name arguments sources).render = .call name arguments
      (arguments.foldl (fun sum argument => Sources.union sum (Text.sources scope argument)) []) := by
  have phrase := IsSettled.isPhrase_call parsedLeaf
  have inside := IsSettled.faultless_arguments parsedLeaf
  obtain ⟨identifier, notBlank, undivided⟩ := parsedLeaf
  have noComparison := comparison?_eq_none scope (phrase.passes '=' (by decide))
    (phrase.passes '<' (by decide)) (phrase.passes '>' (by decide))
  have shown : (call name arguments sources).render =
      name ++ '(' :: (Text.joinWith [',', ' '] arguments ++ [')']) := by
    simp [render]
  have absent : '(' ∉ name := fun mem => absurd (identifier.2 _ mem) (by decide)
  obtain ⟨taken, dropped⟩ := Text.takeWhile_ne_append absent
    (Text.joinWith [',', ' '] arguments ++ [')'])
  have proper : ¬ (name.isEmpty || !name.all Text.isWordChar) = true := by
    have word : name.all Text.isWordChar = true := List.all_eq_true.mpr identifier.2
    simp [identifier.1, word]
  have found : (if (Text.trim (Text.joinWith [',', ' '] arguments)).isEmpty then []
      else (Text.splitAround [','] (Text.trim (Text.joinWith [',', ' '] arguments))).map Text.trim) =
        arguments := by
    by_cases some : arguments = []
    · rw [some]
      rfl
    · have split := Text.map_trim_splitAround_arguments some undivided
      split
      · rename_i blank
        rw [List.isEmpty_iff.mp blank, Text.splitAround_of_none rfl] at split
        exact absurd split.symm notBlank
      · exact split
  rw [leaf, noComparison, Option.none_or, shown, call?, taken, dropped,
    Text.unwrap?_parenthesized inside]
  dsimp only
  rw [if_neg proper, Option.map_some, found, Option.getD_some]

theorem printsLike_leaf (parsedLeaf : IsParsedLeaf scope condition)
    (foundAgain : IsFoundAgain scope condition) :
    PrintsLike (leaf scope condition.render) condition := by
  cases condition with
  | comparison left comparator right sources =>
      obtain ⟨again, found, shape, same⟩ := foundAgain
      rw [shape]
      exact {
        render := by rw [render, render, same]
        operand := fun _ => rfl
        negation := fun takes => ⟨takes, rfl⟩ }
  | call name arguments sources =>
      rw [leaf_call parsedLeaf]
      exact { render := rfl, operand := fun _ => rfl, negation := fun _ => ⟨trivial, rfl⟩ }
  | raw text sources =>
      obtain ⟨_, _, _, found, shape⟩ := parsedLeaf
      rw [render, shape]
      exact .raw text found sources
  | joined => exact parsedLeaf.elim
  | negated => exact parsedLeaf.elim

/-! ## Negations in front of an equals sign -/

/-- Only an opaque text is printed behind the mark of a negation so that an equals sign follows. -/
theorem exists_raw_of_negationText (settled : IsSettled scope (.negated base))
    (start : base.negationText.head? = some '=') :
    ∃ text sources, base = .raw text sources ∧
      (raw text sources : Condition σ).wrapsUnderNegation = false := by
  cases base with
  | comparison => simp [negationText, wrapsUnderNegation, parenthesized] at start
  | joined => simp [negationText, wrapsUnderNegation, parenthesized] at start
  | negated => exact settled.worked.1.elim
  | call name arguments sources =>
      obtain ⟨identifier, _⟩ := settled.inner.parsedLeaf trivial
      have starts := startsName identifier.isDottedName
      have shown : (call name arguments sources).negationText.head? = name.head? := by
        obtain ⟨first, more, rfl⟩ := List.exists_cons_of_ne_nil identifier.1
        rfl
      exact absurd (shown.symm.trans start) (starts.head?_ne (by decide))
  | raw text sources =>
      cases wraps : (raw text sources).wrapsUnderNegation with
      | true => simp [negationText, wraps, parenthesized] at start
      | false => exact ⟨text, sources, rfl, wraps⟩

/-- Nothing stands in front of the `!=` that such a text begins with, so it is no comparison. -/
theorem leaf_mark {sources : List (Source σ)}
    (bare : (raw text sources).wrapsUnderNegation = false) (start : text.head? = some '=') :
    leaf scope ('!' :: text) = .raw ('!' :: text) (Text.sources scope ('!' :: text)) := by
  obtain ⟨more, rfl⟩ := List.head?_eq_some_iff.mp start
  have noEqual : Text.contains ['=', '='] ('=' :: more) = false := by
    simp only [wrapsUnderNegation, operatorTokens, List.any_cons, Bool.or_eq_false_iff] at bare
    exact bare.2.2.1
  have equal : Nesting.cutAt? Comparator.equal.token .top ('!' :: '=' :: more) = none := by
    have later : Nesting.cutAt? ['=', '='] .top ('=' :: more) = none :=
      Text.cutAt?_of_contains noEqual .top
    have here : (Comparator.equal.token).isPrefixOf ('!' :: '=' :: more) = false := by
      simp [Comparator.token, List.isPrefixOf]
    have behindMark : Nesting.top.after '!' = .top := rfl
    rw [Nesting.cutAt?, here, Bool.and_false, if_neg Bool.false_ne_true, behindMark,
      Comparator.token, later, Option.map_none]
  have notEqual : Nesting.cutAt? Comparator.notEqual.token .top ('!' :: '=' :: more) =
      some ([], more) :=
    Comparator.notEqual.isMark_token.cutAt?_self more
  have sought : findComparator? ('!' :: '=' :: more) = some ([], .notEqual, more) := by
    apply findComparator?_of_cutAt? [.equal] _ rfl _ notEqual
    intro other mem
    exact List.mem_singleton.mp mem ▸ equal
  have noComparison : comparison? scope ('!' :: '=' :: more) = none := by
    rw [comparison?, sought]
    rfl
  have noCall : call? scope ('!' :: '=' :: more) = none := by
    have noWord : Text.isWordChar '!' = false := by decide
    rw [call?]
    exact if_pos (by simp [noWord])
  rw [leaf, noComparison, noCall]
  rfl

/-! ## Comparisons -/

/-- The comparator that is printed is the one that is found, and the literal is printed as one. -/
def IsLegible : Condition σ → Prop
  | .comparison left comparator right sources =>
    findComparator? (comparison left comparator right sources).render =
      some (left ++ [' '], comparator, ' ' :: right.render) ∧ right.isLegible = true
  | _ => True

/-- The comparators that a text is searched for before the given one. -/
def soughtBefore (comparator : Comparator) : List Comparator :=
  searchOrder.takeWhile (· ≠ comparator)

theorem findComparator?_eq_some_iff {text front back : Text} {comparator : Comparator} :
    findComparator? text = some (front, comparator, back) ↔
      Nesting.cutAt? comparator.token .top text = some (front, back) ∧
        ∀ other ∈ soughtBefore comparator, Nesting.cutAt? other.token .top text = none := by
  constructor
  · intro found
    refine ⟨cutAt?_of_findComparator? found, ?_⟩
    obtain ⟨earlier, member, later, listed, chosen, absent⟩ := List.findSome?_eq_some_iff.mp found
    obtain ⟨_, _, equal⟩ := Option.map_eq_some_iff.mp chosen
    cases equal
    have once : (earlier ++ comparator :: later).Nodup := listed ▸ by decide
    have others : ∀ other ∈ earlier, other ≠ comparator := fun other mem same =>
      (List.nodup_append.mp once).2.2 other mem comparator List.mem_cons_self same
    have isBefore : soughtBefore comparator = earlier := by
      rw [soughtBefore, listed, List.takeWhile_append_of_pos (by simpa using others)]
      simp
    exact fun other mem => Option.map_eq_none_iff.mp (absent other (isBefore ▸ mem))
  · rintro ⟨cut, absent⟩
    refine findComparator?_of_cutAt? (soughtBefore comparator)
      (searchOrder.dropWhile (· ≠ comparator)).tail ?_ absent cut
    cases comparator <;> rfl

omit [Keyed σ] in
/-- A comparison is legible if its left side shows neither its comparator nor one that is sought
before it. -/
theorem isLegible_of_uncut {left : Text} {comparator : Comparator} {right : Literal}
    (outside : Nesting.top.behind left = .top)
    (uncut : ∀ other ∈ comparator :: soughtBefore comparator,
      Nesting.cutAt? other.token .top left = none)
    (legible : right.isLegible = true) (sources : List (Source σ)) :
    IsLegible (.comparison left comparator right sources) := by
  refine ⟨?_, legible⟩
  have blank : ∀ c ∈ Comparator.characters, Nesting.Hides c [' '] := fun c mem =>
    .of_forall IsGap.blank.isInert (IsGap.blank.not_mem (Comparator.isBlank_of_mem_characters mem))
  have behind : ∀ c ∈ Comparator.characters, Nesting.Hides c (' ' :: right.render) :=
    fun c mem => (blank c mem).append
      (right.hides_render (Comparator.isDottedChar_of_mem_characters mem))
  obtain ⟨here, absent⟩ :=
    findComparator?_eq_some_iff.mp (findComparator?_token comparator blank behind)
  have shown : (comparison left comparator right sources).render =
      left ++ ([' '] ++ comparator.token ++ ' ' :: right.render) := by
    simp [render]
  -- No token grows together across the blank.
  have whole : ∀ other ∈ comparator :: soughtBefore comparator,
      Nesting.cutAt? other.token .top (comparison left comparator right sources).render =
        (Nesting.cutAt? other.token .top
          ([' '] ++ comparator.token ++ ' ' :: right.render)).map fun cut =>
            (left ++ cut.1, cut.2) := by
    intro other mem
    have apart : ∀ c ∈ ([' '] ++ comparator.token ++ ' ' :: right.render).head?,
        c ∉ other.token.tail := by
      cases other <;> simp [Comparator.token]
    rw [shown, Nesting.cutAt?_append_of_uncut (uncut other mem) apart, outside]
  refine findComparator?_eq_some_iff.mpr ⟨?_, fun other mem => ?_⟩
  · rw [whole comparator List.mem_cons_self, here]
    rfl
  · rw [whole other (List.mem_cons_of_mem comparator mem), absent other mem, Option.map_none]

omit [Keyed σ] in
/-- A comparison that is read with its literal on the right is legible, whatever else its left side
shows, as `a < b == 'c'` does: what was found first comes first again. -/
theorem isLegible_of_unmirrored {text front back : Text} {comparator : Comparator}
    (found : findComparator? text = some (front, comparator, back)) {right : Literal}
    (legible : right.isLegible = true) (sources : List (Source σ)) :
    IsLegible (.comparison (Text.trim front) comparator right sources) := by
  obtain ⟨cut, absent⟩ := findComparator?_eq_some_iff.mp found
  have outside : Nesting.top.behind (Text.trim front) = .top := by
    have ended := Nesting.behind_of_cutAt? cut
    obtain ⟨before, after, beforeGap, afterGap, whole⟩ := Text.exists_gaps_around_trim front
    rwa [whole, Nesting.behind_append, Nesting.behind_append,
      Nesting.behind_of_isInert beforeGap.isInert, Nesting.behind_of_isInert afterGap.isInert]
      at ended
  refine isLegible_of_uncut outside (fun other mem => Nesting.cutAt?_trim ?_) legible sources
  cases List.mem_cons.mp mem with
  | inl same => exact same ▸ Nesting.cutAt?_front cut
  | inr before =>
      have sought := absent other before
      rw [Nesting.eq_append_of_cutAt? comparator.isMark_token.nonempty cut,
        List.append_assoc] at sought
      exact (Nesting.cutAt?_of_append sought).1

theorem IsLegible.isFoundAgain (legible : condition.IsLegible)
    (parsedLeaf : IsParsedLeaf scope condition) : IsFoundAgain scope condition := by
  cases condition with
  | comparison left comparator right sources =>
      obtain ⟨found, legibleLiteral⟩ := legible
      obtain ⟨nonempty, isOperand, isRead⟩ := parsedLeaf
      obtain ⟨again, read, same⟩ := right.exists_ofText?_render isRead legibleLiteral
      have leftText : Text.trim (left ++ [' ']) = left := by
        rw [Text.trim_append_gap IsGap.blank, isOperand.trimmed]
      have rightText : Text.trim (' ' :: right.render) = right.render :=
        (Text.trim_gap_append IsGap.blank _).trans right.isTight_render.trim_eq
      have sought : comparison? scope (comparison left comparator right sources).render =
          some (.comparison left comparator again (Text.sources scope left)) := by
        rw [comparison?, found]
        dsimp only
        rw [leftText, rightText, if_neg (by simp [nonempty, right.isTight_render.ne_nil]), read]
      refine ⟨again, Text.sources scope left, ?_, same⟩
      rw [leaf, sought]
      rfl
  | call | joined | negated | raw => trivial

/-! ## Whole conditions -/

/-- A condition is printed as before when its text is read again. -/
theorem IsSettled.printsLike_reread (settled : IsSettled scope condition)
    (foundAgain : condition.Over (IsFoundAgain scope)) :
    PrintsLike (condition.reread scope) condition := by
  induction condition using inductionOnLeaves with
  | leaf found isLeaf =>
      rw [reread_of_isLeaf isLeaf]
      exact printsLike_leaf (settled.parsedLeaf isLeaf) ((over_of_isLeaf isLeaf).mp foundAgain)
  | negated inner induction =>
      rw [reread]
      split
      · rename_i start
        obtain ⟨text, sources, rfl, bare⟩ := exists_raw_of_negationText settled start
        have shown : (negated (raw text sources)).render = '!' :: text := by
          rw [render, bare]
          rfl
        rw [negationText, bare] at start
        rw [shown, leaf_mark bare start]
        refine { render := shown.symm, operand := ?_, negation := False.elim }
        intro connective
        simp only [wrapsUnderNegation, operatorTokens, List.any_cons, Bool.or_eq_false_iff] at bare
        cases connective with
        | and =>
            simpa [wrapsUnder, Connective.other, Connective.token, Text.contains, List.isPrefixOf]
              using bare.2.1
        | or =>
            simpa [wrapsUnder, Connective.other, Connective.token, Text.contains, List.isPrefixOf]
              using bare.1
      · exact (induction settled.inner (over_negated.mp foundAgain)).negate settled.worked.1
  | joined connective left right leftInduction rightInduction =>
      obtain ⟨leftFound, rightFound⟩ := over_joined.mp foundAgain
      exact (leftInduction settled.left leftFound).joined connective
        (rightInduction settled.right rightFound)

/-- The text of a condition that was read is read again, unless it is empty or looks marked as an
expression. The text stays as it is then if the comparisons in it are legible. -/
theorem rendered_text_is_fixed (parsed : parse scope text = .ok condition)
    (nonempty : condition.render ≠ [])
    (unmarked : Text.expressionBody condition.render = Text.trim condition.render) :
    ∃ again, parse scope condition.render = .ok again ∧
      (condition.Over IsLegible → again.render = condition.render) := by
  have settled := IsSettled.of_parse parsed
  refine ⟨(condition.reread scope).leftAssociated, ?_, fun legible => ?_⟩
  · rw [parse_eq_ok_iff, unmarked]
    exact ⟨settled.trim_render_ne_nil nonempty, Nesting.fault?_trim settled.faultless_render,
      settled.ofExpression_render⟩
  · rw [render_leftAssociated]
    exact (settled.printsLike_reread fun leaf mem =>
      (legible leaf mem).isFoundAgain (settled.leaves leaf mem)).render

end Condition

namespace Sample

open Condition

/-- One and a half. -/
def threeHalves : Binary64 := .finite false 6755399441055744 (-52)

def isEarly : Condition Step := .comparison ['x'] .less (.number threeHalves) []

def isEarlyAndNeeded : Condition Step := .joined .and isEarly (.raw ['y'] [])

theorem leaf_isEarly : leaf .none "x < 1.50".toList = isEarly := by
  have read : Literal.ofText? "1.50".toList = some (.number threeHalves) := by
    have number : Binary64.ofText? "1.50".toList = some threeHalves := by decide +kernel
    exact (Literal.ofText?_numeral (.inl (by decide)) _).trans (congrArg _ number)
  have sought : findComparator? "x < 1.50".toList =
      some (['x', ' '], .less, " 1.50".toList) := rfl
  have left : Text.trim ['x', ' '] = ['x'] := rfl
  have right : Text.trim " 1.50".toList = "1.50".toList := rfl
  have compared : comparison? .none "x < 1.50".toList = some isEarly := by
    rw [comparison?, sought]
    dsimp only
    rw [left, right, if_neg (by decide), read, Text.sources_eq_nil_of_not_mem _ (by decide)]
    rfl
  rw [leaf, compared]
  rfl

theorem parse_isEarlyAndNeeded :
    parse .none "x < 1.50 && y".toList = .ok isEarlyAndNeeded := by
  have early : ofOperand .none "x < 1.50".toList = isEarly :=
    (ofOperand_eq_leaf ⟨'x', rfl, by decide⟩).trans leaf_isEarly
  have needed : ofOperand .none ['y'] = (.raw ['y'] [] : Condition Step) := by
    rw [ofOperand_eq_leaf ⟨'y', rfl, by decide⟩]
    exact congrArg (Condition.raw ['y']) (Text.sources_eq_nil_of_not_mem _ (by decide))
  have factors : (Text.splitAround Connective.and.token "x < 1.50 && y".toList).map Text.trim =
      ["x < 1.50".toList, ['y']] := by
    have cut : Nesting.cutAt? Connective.and.token .top "x < 1.50 && y".toList =
        some ("x < 1.50 ".toList, [' ', 'y']) := rfl
    rw [Text.splitAround_of_some cut, Text.splitAround_of_none rfl]
    rfl
  have read : ofChain .and (ofOperand .none) "x < 1.50 && y".toList = isEarlyAndNeeded := by
    apply ofChain_of_pieces _ factors
    rw [List.map_cons, List.map_singleton, early, needed]
    rfl
  have body : Text.expressionBody "x < 1.50 && y".toList = "x < 1.50 && y".toList := rfl
  have alternatives : (Text.splitAround Connective.or.token "x < 1.50 && y".toList).map Text.trim =
      ["x < 1.50 && y".toList] := by
    rw [Text.splitAround_of_none rfl]
    rfl
  rw [parse_eq_ok_iff, body, ofExpression_eq]
  refine ⟨by decide, rfl, ofChain_of_pieces _ alternatives ?_⟩
  rw [List.map_singleton, read]
  rfl

theorem rendered_text_is_fixed_isEarlyAndNeeded :
    isEarlyAndNeeded.render = "x < 1.5 && y".toList ∧
      ∃ again : Condition Step, parse .none isEarlyAndNeeded.render = .ok again ∧
        again.render = isEarlyAndNeeded.render := by
  have text : isEarlyAndNeeded.render = "x < 1.5 && y".toList := by decide +kernel
  have unmarked : Text.expressionBody isEarlyAndNeeded.render =
      Text.trim isEarlyAndNeeded.render := by
    rw [text]
    rfl
  have found : findComparator? "x < 1.50".toList = some (['x', ' '], .less, " 1.50".toList) := rfl
  have legible : isEarly.IsLegible := isLegible_of_unmirrored found rfl []
  obtain ⟨again, read, fixed⟩ :=
    rendered_text_is_fixed parse_isEarlyAndNeeded (by rw [text]; decide) unmarked
  exact ⟨text, again, read, fixed (over_joined.mpr ⟨over_comparison.mpr legible,
    over_raw.mpr trivial⟩)⟩

/-- An equality whose left side is an equality again. -/
def chained (left : Text) (right : Bool) : Condition Step :=
  .comparison left .equal (.boolean right) []

theorem parse_chained (text front back : Text) {right : Bool} (isOperand : Text.IsOperand text)
    (starts : StartsName text) (unmarked : Text.expressionBody text = text)
    (found : findComparator? text = some (front, .equal, back))
    (present : Text.trim front ≠ [] ∧ Text.trim back ≠ [])
    (mirrored : Literal.ofText? (Text.trim back) = none)
    (read : Literal.ofText? (Text.trim front) = some (.boolean right))
    (absent : '.' ∉ Text.trim back) :
    parse .none text = .ok (chained (Text.trim back) right) := by
  have compared : comparison? .none text = some (chained (Text.trim back) right) := by
    rw [comparison?, found]
    dsimp only
    rw [if_neg (by simp [present]), mirrored]
    dsimp only
    rw [read, Text.sources_eq_nil_of_not_mem _ absent]
    rfl
  have nonempty : text ≠ [] := by
    obtain ⟨c, first, _⟩ := starts
    rintro rfl
    cases first
  rw [parse_eq_ok_iff, unmarked, ofExpression_of_isOperand isOperand, ofOperand_eq_leaf starts, leaf,
    compared]
  exact ⟨nonempty, isOperand.faultless, rfl⟩

/-- `true == false == x` is mirrored twice: read again, `false == x == true` becomes
`x == true == false`. -/
theorem mirrored_text_changes :
    parse .none "true == false == x".toList = .ok (chained "false == x".toList true) ∧
      (chained "false == x".toList true).render = "false == x == true".toList ∧
        parse .none "false == x == true".toList = .ok (chained "x == true".toList false) ∧
          (chained "x == true".toList false).render ≠ "false == x == true".toList := by
  refine ⟨?_, rfl, ?_, by decide⟩
  · exact parse_chained _ "true ".toList " false == x".toList
      ⟨rfl, rfl, fun connective => by cases connective <;> rfl⟩
      ⟨'t', rfl, by decide⟩ rfl rfl (by decide) rfl rfl (by decide)
  · exact parse_chained _ "false ".toList " x == true".toList
      ⟨rfl, rfl, fun connective => by cases connective <;> rfl⟩
      ⟨'f', rfl, by decide⟩ rfl rfl (by decide) rfl rfl (by decide)

end Sample

end FlowPlan
