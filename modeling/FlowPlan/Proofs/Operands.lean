import FlowPlan.Condition.Parser
import FlowPlan.Proofs.LiteralTexts

/-! # Reading single operands

How the comparisons, calls and names are found in their texts: a comparator is
searched for one after the other, and only the one that is written stands
outside the quotes of the literal.
-/

namespace FlowPlan

open Text (IsGap IsTight IsDottedName IsSeparator ClosesQuotes Lists)
open Nesting (Hides IsInert Passes)

/-! ## Literals -/

namespace Text

theorem undoubleQuotes?_doubleQuotes (content : Text) :
    undoubleQuotes? (doubleQuotes content) = some content := by
  fun_induction doubleQuotes content with
  | case1 => rfl
  | case2 tail induction => rw [undoubleQuotes?, induction, Option.map_some]
  | case3 head tail other induction =>
      rw [undoubleQuotes?.eq_3]
      · rw [if_neg other, induction, Option.map_some]
      · rintro rest rfl
        exact absurd rfl other

theorem dropStart?_append_self (start rest : Text) :
    dropStart? start (start ++ rest) = some rest := by
  induction start with
  | nil => rfl
  | cons head tail induction => rw [List.cons_append, dropStart?, if_pos rfl, induction]

theorem dropEnding?_append_self (front ending : Text) :
    dropEnding? ending (front ++ ending) = some front := by
  rw [dropEnding?, List.reverse_append, dropStart?_append_self, Option.map_some,
    List.reverse_reverse]

theorem unquote?_quote (content : Text) : unquote? (quote content) = some content := by
  have inner : quotedInner? (quote content) = some (doubleQuotes content) :=
    dropEnding?_append_self (doubleQuotes content) ['\'']
  rw [unquote?, inner, Option.bind_some, undoubleQuotes?_doubleQuotes]

end Text

namespace Literal

theorem ofText?_render {literal : Literal} (plain : literal.IsPlain) :
    ofText? literal.render = some literal := by
  cases literal with
  | string content =>
      have other : ∀ word : Text, word.head? ≠ some '\'' → Text.quote content ≠ word := by
        rintro word start rfl
        exact start rfl
      rw [render, ofText?.eq_def, if_neg (other ['n', 'u', 'l', 'l'] (by decide)),
        if_neg (other Condition.trueText (by decide)),
        if_neg (other Condition.falseText (by decide))]
      exact congrArg (Option.map Literal.string) (Text.unquote?_quote content)
  | number => cases plain
  | boolean value => cases value <;> rfl
  | null => rfl

end Literal

/-! ## Comparators -/

/-- The characters of the comparators. -/
def Comparator.characters : List Char := ['=', '!', '<', '>']

namespace Comparator

theorem isSeparator_of_mem_token {comparator : Comparator} :
    ∀ c ∈ comparator.token, IsSeparator c := by
  cases comparator <;> simp [token, IsSeparator] <;> decide

theorem isInert_of_mem_token {comparator : Comparator} : ∀ c ∈ comparator.token, IsInert c := by
  cases comparator <;> simp [token, IsInert]

theorem token_shape (comparator : Comparator) :
    (∃ first, comparator.token = [first]) ∨ ∃ first, comparator.token = [first, '='] := by
  cases comparator with
  | less => exact .inl ⟨'<', rfl⟩
  | greater => exact .inl ⟨'>', rfl⟩
  | equal => exact .inr ⟨'=', rfl⟩
  | notEqual => exact .inr ⟨'!', rfl⟩
  | lessOrEqual => exact .inr ⟨'<', rfl⟩
  | greaterOrEqual => exact .inr ⟨'>', rfl⟩

theorem exists_token_eq_cons (comparator : Comparator) :
    ∃ first more, comparator.token = first :: more := by
  rcases comparator.token_shape with ⟨first, token⟩ | ⟨first, token⟩
  · exact ⟨first, [], token⟩
  · exact ⟨first, ['='], token⟩

theorem mem_characters_of_mem_token {comparator : Comparator} {c : Char}
    (mem : c ∈ comparator.token) : c ∈ characters := by
  revert c
  cases comparator <;> decide

theorem isDottedChar_of_mem_characters {c : Char} (mem : c ∈ characters) :
    Text.isDottedChar c = false := by
  revert c
  decide

theorem isBlank_of_mem_characters {c : Char} (mem : c ∈ characters) : Text.isBlank c = false := by
  revert c
  decide

end Comparator

namespace Nesting

/-- A comparator is not there if one of its characters is not. -/
theorem cutAt?_comparator_eq_none {comparator : Comparator} {c : Char} (mem : c ∈ comparator.token)
    {text : Text} (passes : Passes c .top text) :
    cutAt? comparator.token .top text = none := by
  rcases comparator.token_shape with ⟨first, token⟩ | ⟨first, token⟩
  · rw [token, List.mem_singleton] at mem
    rw [token]
    exact cutAt?_eq_none (mem ▸ passes)
  · have inert : IsInert first := Comparator.isInert_of_mem_token first (token ▸ List.mem_cons_self)
    have inert' : IsInert '=' := by simp [IsInert]
    rw [token, List.mem_cons, List.mem_singleton] at mem
    rw [token]
    rcases mem with rfl | rfl
    · exact cutAt?_eq_none passes
    · exact cutAt?_eq_none_of_second inert inert' passes

/-- Between two texts without it an equals sign stands alone, so there is no `==`. -/
theorem cutAt?_equal_eq_none {front back : Text} {c : Char} (inert : IsInert c) (other : c ≠ '=')
    (frontHides : Hides '=' front) (backHides : Hides '=' back) :
    cutAt? ['=', '='] top (front ++ [c, '='] ++ back) = none := by
  have notDouble : (['=', '='] : Text).isPrefixOf ('=' :: back) = false := by
    cases back with
    | nil => rfl
    | cons head tail =>
        have different : head ≠ '=' := by
          intro equal
          exact backHides.passes.1 (by rw [equal]; rfl) equal
        simp [List.isPrefixOf, Ne.symm different]
  have notHere : (['=', '='] : Text).isPrefixOf (c :: '=' :: back) = false := by
    simp [List.isPrefixOf, Ne.symm other]
  have behindSign : top.after '=' = top := rfl
  rw [List.append_assoc, cutAt?_append frontHides.passes, frontHides.balanced.behind_top,
    List.cons_append, List.cons_append, List.nil_append, cutAt?, notHere, Bool.and_false,
    if_neg Bool.false_ne_true, after_of_isInert inert, cutAt?, notDouble, Bool.and_false,
    if_neg Bool.false_ne_true, behindSign, cutAt?_eq_none backHides.passes]
  rfl

end Nesting

namespace Condition

theorem findComparator?_eq_none_iff {text : Text} :
    findComparator? text = none ↔
      ∀ comparator : Comparator, Nesting.cutAt? comparator.token .top text = none := by
  rw [findComparator?, List.findSome?_eq_none_iff]
  constructor
  · intro absent comparator
    have listed : comparator ∈ searchOrder := by
      cases comparator <;> decide
    exact Option.map_eq_none_iff.mp (absent comparator listed)
  · intro absent comparator _
    rw [absent comparator, Option.map_none]

theorem findComparator?_eq_none {text : Text} (equals : Passes '=' .top text)
    (less : Passes '<' .top text) (greater : Passes '>' .top text) :
    findComparator? text = none := by
  rw [findComparator?_eq_none_iff]
  intro comparator
  have inert : IsInert '!' := by simp [IsInert]
  have inert' : IsInert '=' := by simp [IsInert]
  cases comparator with
  | equal => exact Nesting.cutAt?_eq_none equals
  | notEqual => exact Nesting.cutAt?_eq_none_of_second inert inert' equals
  | less | lessOrEqual => exact Nesting.cutAt?_eq_none less
  | greater | greaterOrEqual => exact Nesting.cutAt?_eq_none greater

theorem findComparator?_of_cutAt? {text front back : Text} {comparator : Comparator}
    (earlier later : List Comparator) (listed : searchOrder = earlier ++ comparator :: later)
    (absent : ∀ other ∈ earlier, Nesting.cutAt? other.token .top text = none)
    (cut : Nesting.cutAt? comparator.token .top text = some (front, back)) :
    findComparator? text = some (front, comparator, back) := by
  rw [findComparator?, listed, List.findSome?_append, List.findSome?_eq_none_iff.mpr,
    Option.none_or, List.findSome?_cons, cut]
  · rfl
  · intro other mem
    rw [absent other mem, Option.map_none]

theorem cutAt?_token {front back : Text} (comparator : Comparator)
    (frontHides : ∀ c ∈ Comparator.characters, Hides c front) :
    Nesting.cutAt? comparator.token .top (front ++ comparator.token ++ back) =
      some (front, back) := by
  rcases comparator.exists_token_eq_cons with ⟨first, more, token⟩
  have starts : first ∈ comparator.token := token ▸ List.mem_cons_self
  have mem := Comparator.mem_characters_of_mem_token starts
  have admitted : ∀ c ∈ Comparator.characters, Nesting.top.admits c = true := by decide
  rw [token]
  exact Nesting.cutAt?_of_hides (admitted first mem) (frontHides first mem) back

/-- The comparator that is written is found, since those searched for before it do not occur. -/
theorem findComparator?_token {front back : Text} (comparator : Comparator)
    (frontHides : ∀ c ∈ Comparator.characters, Hides c front)
    (backHides : ∀ c ∈ Comparator.characters, Hides c back) :
    findComparator? (front ++ comparator.token ++ back) = some (front, comparator, back) := by
  have cut : Nesting.cutAt? comparator.token .top (front ++ comparator.token ++ back) =
      some (front, back) := cutAt?_token comparator frontHides
  have without : ∀ (other : Comparator) (c : Char), c ∈ other.token → c ∉ comparator.token →
      Nesting.cutAt? other.token .top (front ++ comparator.token ++ back) = none := by
    intro other c mem absent
    have known := Comparator.mem_characters_of_mem_token mem
    have middle : Hides c comparator.token := .of_forall Comparator.isInert_of_mem_token absent
    exact Nesting.cutAt?_comparator_eq_none mem
      (((frontHides c known).append middle).append (backHides c known)).passes
  have noEqual : ∀ c, IsInert c → c ≠ '=' → comparator.token = [c, '='] →
      Nesting.cutAt? Comparator.equal.token .top (front ++ comparator.token ++ back) = none := by
    intro c inert other token
    rw [token]
    exact Nesting.cutAt?_equal_eq_none inert other (frontHides '=' (by decide))
      (backHides '=' (by decide))
  cases comparator with
  | equal => exact findComparator?_of_cutAt? [] _ rfl (by simp) cut
  | notEqual =>
      refine findComparator?_of_cutAt? [.equal] _ rfl ?_ cut
      intro other mem
      cases List.mem_singleton.mp mem
      exact noEqual '!' (by simp [IsInert]) (by decide) rfl
  | lessOrEqual =>
      refine findComparator?_of_cutAt? [.equal, .notEqual] _ rfl ?_ cut
      intro other mem
      simp only [List.mem_cons, List.not_mem_nil, or_false] at mem
      rcases mem with rfl | rfl
      · exact noEqual '<' (by simp [IsInert]) (by decide) rfl
      · exact without .notEqual '!' (by decide) (by decide)
  | greaterOrEqual =>
      refine findComparator?_of_cutAt? [.equal, .notEqual, .lessOrEqual] _ rfl ?_ cut
      intro other mem
      simp only [List.mem_cons, List.not_mem_nil, or_false] at mem
      rcases mem with rfl | rfl | rfl
      · exact noEqual '>' (by simp [IsInert]) (by decide) rfl
      · exact without .notEqual '!' (by decide) (by decide)
      · exact without .lessOrEqual '<' (by decide) (by decide)
  | less =>
      refine findComparator?_of_cutAt? [.equal, .notEqual, .lessOrEqual, .greaterOrEqual] _ rfl ?_ cut
      intro other mem
      simp only [List.mem_cons, List.not_mem_nil, or_false] at mem
      rcases mem with rfl | rfl | rfl | rfl
      · exact without .equal '=' (by decide) (by decide)
      · exact without .notEqual '!' (by decide) (by decide)
      · exact without .lessOrEqual '=' (by decide) (by decide)
      · exact without .greaterOrEqual '>' (by decide) (by decide)
  | greater =>
      refine findComparator?_of_cutAt?
        [.equal, .notEqual, .lessOrEqual, .greaterOrEqual, .less] _ rfl ?_ cut
      intro other mem
      simp only [List.mem_cons, List.not_mem_nil, or_false] at mem
      rcases mem with rfl | rfl | rfl | rfl | rfl
      · exact without .equal '=' (by decide) (by decide)
      · exact without .notEqual '!' (by decide) (by decide)
      · exact without .lessOrEqual '<' (by decide) (by decide)
      · exact without .greaterOrEqual '=' (by decide) (by decide)
      · exact without .less '<' (by decide) (by decide)

/-! ## Comparisons -/

variable {σ : Type} [Keyed σ] (scope : StepScope σ)

theorem comparison?_eq_none {text : Text} (equals : Passes '=' .top text)
    (less : Passes '<' .top text) (greater : Passes '>' .top text) :
    comparison? scope text = none := by
  rw [comparison?, findComparator?_eq_none equals less greater]

section Comparison

variable {left before after : Text} {right : Literal} (name : IsDottedName left)
  (beforeGap : IsGap before) (afterGap : IsGap after) (comparator : Comparator)

include name beforeGap afterGap

/-- A comparison reads what its name reads. -/
theorem sources_comparison :
    Text.sources scope (left ++ (before ++ comparator.token ++ after) ++ right.render) =
      Text.sources scope left := by
  have closes : ClosesQuotes left := .of_not_mem fun mem =>
    Text.ne_of_isDottedChar (name.2 _ mem) (by decide) rfl
  have present : before ++ comparator.token ++ after ≠ [] := by
    rcases comparator.exists_token_eq_cons with ⟨first, more, token⟩
    simp [token]
  have separators : ∀ c ∈ before ++ comparator.token ++ after, IsSeparator c :=
    beforeGap.forall_mem_spaced afterGap (fun _ => Text.isSeparator_of_isBlank)
      Comparator.isSeparator_of_mem_token
  apply Text.sources_congr
  rw [Text.references_append closes present separators, right.references_eq_nil,
    List.append_nil]

theorem comparison?_of_token (plain : right.IsPlain) :
    comparison? scope (left ++ (before ++ comparator.token ++ after) ++ right.render) =
      some (.comparison left comparator right (Text.sources scope left)) := by
  have frontHides : ∀ c ∈ Comparator.characters, Hides c (left ++ before) := fun c mem =>
    (Hides.of_isDottedChar name.2 (Comparator.isDottedChar_of_mem_characters mem)).append
      (.of_forall beforeGap.isInert
        (beforeGap.not_mem (Comparator.isBlank_of_mem_characters mem)))
  have backHides : ∀ c ∈ Comparator.characters, Hides c (after ++ right.render) := fun c mem =>
    (Hides.of_forall afterGap.isInert
      (afterGap.not_mem (Comparator.isBlank_of_mem_characters mem))).append
        (right.hides_render (Comparator.isDottedChar_of_mem_characters mem))
  have shape : left ++ (before ++ comparator.token ++ after) ++ right.render =
      (left ++ before) ++ comparator.token ++ (after ++ right.render) := by
    simp only [List.append_assoc]
  have leftTrimmed : Text.trim (left ++ before) = left := by
    rw [Text.trim_append_gap beforeGap, Text.trim_of_isDottedName name]
  have rightTight := right.isTight_render
  have rightTrimmed : Text.trim (after ++ right.render) = right.render := by
    rw [Text.trim_gap_append afterGap, rightTight.trim_eq]
  have present : (left.isEmpty || right.render.isEmpty) = false := by
    simp [List.isEmpty_eq_false_iff, name.1, rightTight.ne_nil]
  simp only [comparison?, shape, findComparator?_token comparator frontHides backHides, leftTrimmed,
    rightTrimmed, present, Literal.ofText?_render plain]
  rfl

end Comparison

end Condition

/-! ## Calls -/

namespace Text

/-- An argument of a call is not blank, its quotes and parentheses match, and no comma stands
outside of them. -/
structure IsArgument (text : Text) : Prop where
  tight : IsTight text
  faultless : Nesting.top.fault? text = none
  noComma : Passes ',' .top text

theorem IsArgument.hides {text : Text} (argument : IsArgument text) : Hides ',' text where
  balanced := Nesting.balanced_of_fault?_eq_none argument.faultless
  passes := argument.noComma

theorem IsArgument.closesQuotes {text : Text} (argument : IsArgument text) : ClosesQuotes text :=
  .of_balanced argument.hides.balanced

def IsIdentifier (text : Text) : Prop := text ≠ [] ∧ ∀ c ∈ text, isWordChar c = true

theorem IsIdentifier.isDottedName {text : Text} (identifier : IsIdentifier text) :
    IsDottedName text :=
  ⟨identifier.1, fun c mem => isDottedChar_of_isWordChar (identifier.2 c mem)⟩

theorem takeWhile_ne_append {stop : Char} {front : Text} (absent : stop ∉ front) (back : Text) :
    (front ++ stop :: back).takeWhile (· ≠ stop) = front ∧
      (front ++ stop :: back).dropWhile (· ≠ stop) = stop :: back := by
  have passes : ∀ c ∈ front, decide (c ≠ stop) = true := by
    intro c mem
    exact decide_eq_true fun equal => absent (equal ▸ mem)
  rw [List.takeWhile_append_of_pos passes, List.dropWhile_append_of_pos passes]
  simp

end Text

namespace Condition

variable {σ : Type} [Keyed σ] (scope : StepScope σ)

section Call

variable {name : Text} {arguments : List Text} {listed before after : Text}
  (identifier : Text.IsIdentifier name) (lists : Lists [','] arguments listed)
  (proper : ∀ argument ∈ arguments, Text.IsArgument argument) (beforeGap : IsGap before)
  (afterGap : IsGap after)

include lists proper

theorem fault?_listed : Nesting.top.fault? listed = none :=
  lists.fault?_eq_none (by simp [IsInert]) fun argument mem => (proper argument mem).faultless

include beforeGap afterGap

theorem fault?_arguments : Nesting.top.fault? (before ++ listed ++ after) = none :=
  Nesting.fault?_eq_none_of_append (Nesting.fault?_eq_none_of_append
    (Nesting.fault?_of_isInert beforeGap.isInert) (fault?_listed lists proper))
      (Nesting.fault?_of_isInert afterGap.isInert)

/-- The arguments are found again between the parentheses. -/
theorem arguments_eq :
    (if (Text.trim (before ++ listed ++ after)).isEmpty then []
      else (Text.splitAround [','] (Text.trim (before ++ listed ++ after))).map Text.trim) =
        arguments := by
  by_cases some : arguments = []
  · cases some
    cases lists
    rw [List.append_nil, Text.trim_append_gap afterGap, ← List.append_nil before,
      Text.trim_gap_append beforeGap]
    rfl
  · have tight := lists.isTight some fun argument mem => (proper argument mem).tight
    have found := lists.map_trim_splitAround some rfl (by decide)
      (fun argument mem => (proper argument mem).tight)
      (fun argument mem => (proper argument mem).hides) IsGap.nil
    have present : listed.isEmpty = false := List.isEmpty_eq_false_iff.mpr tight.ne_nil
    rw [tight.trim_surrounded beforeGap afterGap, present, if_neg Bool.false_ne_true]
    exact found

include identifier

/-- A call reads what its arguments read. -/
theorem sources_call :
    Text.sources scope (name ++ '(' :: (before ++ listed ++ after ++ [')'])) =
      arguments.foldl (fun sum argument => Sources.union sum (Text.sources scope argument)) [] := by
  have nameCloses : ClosesQuotes name := .of_not_mem fun mem =>
    Text.ne_of_isDottedChar (identifier.isDottedName.2 _ mem) (by decide) rfl
  have nameReads : Text.references name = [] := Text.references_eq_nil_of_not_mem fun mem =>
    absurd (identifier.2 _ mem) (by decide)
  have listedReads := lists.references_eq (List.cons_ne_nil ',' [])
    (List.forall_mem_singleton.mpr ⟨by decide, by decide⟩)
    fun argument mem => (proper argument mem).closesQuotes
  have opening : ∀ c ∈ '(' :: before, IsSeparator c :=
    List.forall_mem_cons.mpr ⟨⟨by decide, by decide⟩,
      fun c mem => Text.isSeparator_of_isBlank (beforeGap c mem)⟩
  have closing : ∀ c ∈ after ++ [')'], IsSeparator c := by
    intro c mem
    rcases List.mem_append.mp mem with inAfter | isLast
    · exact Text.isSeparator_of_isBlank (afterGap c inAfter)
    · cases List.mem_singleton.mp isLast
      exact ⟨by decide, by decide⟩
  have shape : name ++ '(' :: (before ++ listed ++ after ++ [')']) =
      name ++ '(' :: before ++ (listed ++ (after ++ [')'])) := by
    simp only [List.append_assoc, List.cons_append]
  rw [shape, Text.foldl_union_sources, Text.sources,
    Text.references_append nameCloses (List.cons_ne_nil '(' before) opening, nameReads,
    List.nil_append, Text.references_append_separators listed closing, listedReads]

theorem call?_of_lists :
    call? scope (name ++ '(' :: (before ++ listed ++ after ++ [')'])) =
      some (.call name arguments
        (Text.sources scope (name ++ '(' :: (before ++ listed ++ after ++ [')'])))) := by
  have noParenthesis : '(' ∉ name := fun mem =>
    Text.ne_of_isDottedChar (identifier.isDottedName.2 _ mem) (by decide) rfl
  have parts := Text.takeWhile_ne_append noParenthesis (before ++ listed ++ after ++ [')'])
  have inner := Text.unwrap?_parenthesized (fault?_arguments lists proper beforeGap afterGap)
  have words : (name.isEmpty || !name.all Text.isWordChar) = false := by
    simpa [identifier.1] using identifier.2
  simp only [call?, parts.1, parts.2, words, inner, Bool.false_eq_true, if_false, Option.map_some,
    arguments_eq lists proper beforeGap afterGap,
    sources_call scope identifier lists proper beforeGap afterGap]

end Call

end Condition

end FlowPlan
