import FlowPlan.Proofs.ParsedLeaves

/-! # Quoted literals

A string has one text as a literal, and no other text is read as that string. A
text is never divided inside such a literal: whatever is found outside quotes
and parentheses is found in front of it or behind it, where it would be found
without the literal.
-/

namespace FlowPlan

namespace Text

/-! ## Doubled quotes -/

theorem doubleQuotes_eq_flatMap (content : Text) :
    doubleQuotes content = content.flatMap fun c => if c = '\'' then ['\'', '\''] else [c] := by
  fun_induction doubleQuotes content with
  | case1 => rfl
  | case2 tail induction => rw [induction, List.flatMap_cons, if_pos rfl]; rfl
  | case3 head tail other induction => rw [induction, List.flatMap_cons, if_neg other]; rfl

theorem doubleQuotes_of_undoubleQuotes? {text content : Text}
    (read : undoubleQuotes? text = some content) : doubleQuotes content = text := by
  fun_induction undoubleQuotes? text generalizing content with
  | case1 =>
      cases read
      rfl
  | case2 tail induction =>
      obtain ⟨rest, restRead, rfl⟩ := Option.map_eq_some_iff.mp read
      rw [doubleQuotes, induction restRead]
  | case3 tail => cases read
  | case4 head tail apart other induction =>
      obtain ⟨rest, restRead, rfl⟩ := Option.map_eq_some_iff.mp read
      rw [doubleQuotes, induction restRead]
      exact other

/-- A text is read as the string that it is the literal of. -/
theorem unquote?_eq_some_iff {text content : Text} :
    unquote? text = some content ↔ text = quote content := by
  constructor
  · intro read
    obtain ⟨inner, isInner, innerRead⟩ := Option.bind_eq_some_iff.mp read
    obtain ⟨rest, opened, closed⟩ := Option.bind_eq_some_iff.mp isInner
    rw [eq_append_of_dropStart? opened, eq_append_of_dropEnding? closed,
      ← doubleQuotes_of_undoubleQuotes? innerRead]
    rfl
  · intro isQuote
    rw [isQuote, unquote?_quote]

end Text

/-- No text but its own is read as a string. -/
theorem Literal.ofText?_eq_string_iff {text content : Text} :
    ofText? text = some (.string content) ↔ text = Text.quote content := by
  constructor
  · intro read
    rw [ofText?.eq_def] at read
    split at read
    · cases read
    split at read
    · cases read
    split at read
    · cases read
    split at read
    · cases read
    split at read
    · obtain ⟨again, unquoted, same⟩ := Option.map_eq_some_iff.mp read
      cases same
      exact Text.unquote?_eq_some_iff.mp unquoted
    split at read
    · obtain ⟨_, _, isNumber⟩ := Option.map_eq_some_iff.mp read
      cases isNumber
    · cases read
  · intro isQuote
    have plain : (Literal.string content).IsPlain := trivial
    rw [isQuote]
    exact ofText?_render plain

/-! ## Texts around a literal -/

namespace Nesting

variable {nesting : Nesting} {token front back : Text}

theorem behind_quote_of_unquoted (unquoted : nesting.quoted = false) (content : Text) :
    nesting.behind (Text.quote content) = nesting := by
  obtain ⟨quoted, depth⟩ := nesting
  cases unquoted
  exact behind_quote content depth

/-- A cut is made in front of the literal if there is one, and else behind it. -/
theorem cutAt?_around_quote (nonempty : token ≠ []) (inert : ∀ c ∈ token, IsInert c)
    (unquoted : (nesting.behind front).quoted = false) (content back : Text) :
    cutAt? token nesting (front ++ Text.quote content ++ back) =
      ((cutAt? token nesting front).map fun cut =>
        (cut.1, cut.2 ++ Text.quote content ++ back)).or
      ((cutAt? token (nesting.behind front) back).map fun cut =>
        (front ++ Text.quote content ++ cut.1, cut.2)) := by
  cases inFront : cutAt? token nesting front with
  | some cut =>
      rw [Option.map_some, Option.some_or, List.append_assoc, List.append_assoc]
      exact cutAt?_append_of_some nonempty inFront _
  | none =>
      obtain ⟨first, more, rfl⟩ := List.exists_cons_of_ne_nil nonempty
      -- No token begins in front of the literal and goes on into it.
      have apart : ∀ c ∈ (Text.quote content ++ back).head?, c ∉ (first :: more).tail := by
        intro c isFirst mem
        cases isFirst
        exact (inert _ (List.mem_of_mem_tail mem)).1 rfl
      have passes : Passes first (nesting.behind front) (Text.quote content) := by
        generalize nesting.behind front = here at unquoted
        obtain ⟨quoted, depth⟩ := here
        cases unquoted
        exact passes_quote content first depth
      rw [Option.map_none, Option.none_or, List.append_assoc, cutAt?_append_of_uncut inFront apart,
        cutAt?_append passes, behind_quote_of_unquoted unquoted, Option.map_map]
      simp [Function.comp_def]

end Nesting

namespace Text

variable {token front : Text}

/-- The last piece in front of the literal and the first one behind it are one piece with it. -/
theorem splitAround_around_quote (nonempty : token ≠ []) (inert : ∀ c ∈ token, Nesting.IsInert c)
    (outside : Nesting.top.behind front = .top) (content back : Text) :
    ∃ before last first after, splitAround token front = before ++ [last] ∧
      splitAround token back = first :: after ∧
      splitAround token (front ++ quote content ++ back) =
        before ++ (last ++ quote content ++ first) :: after := by
  have unquoted {text : Text} (outside : Nesting.top.behind text = .top) :
      (Nesting.top.behind text).quoted = false := congrArg Nesting.quoted outside
  fun_induction splitAround token front with
  | case1 front uncut =>
      have cut := Nesting.cutAt?_around_quote nonempty inert (unquoted outside) content back
      rw [uncut, outside, Option.map_none, Option.none_or] at cut
      cases behind : Nesting.cutAt? token .top back with
      | none =>
          rw [behind, Option.map_none] at cut
          exact ⟨[], front, back, [], rfl, splitAround_of_none behind, splitAround_of_none cut⟩
      | some parts =>
          rw [behind, Option.map_some] at cut
          exact ⟨[], front, parts.1, splitAround token parts.2, rfl, splitAround_of_some behind,
            splitAround_of_some cut⟩
  | case2 front piece rest found induction =>
      have cut := Nesting.cutAt?_around_quote nonempty inert (unquoted outside) content back
      rw [found, Option.map_some, Option.some_or] at cut
      -- The scan is outside behind the cut, so the literal is outside in the rest as well.
      have restOutside : Nesting.top.behind rest = .top := by
        rw [Nesting.eq_append_of_cutAt? nonempty found, Nesting.behind_append,
          Nesting.behind_append, Nesting.behind_of_cutAt? found,
          Nesting.behind_of_isInert inert] at outside
        exact outside
      obtain ⟨before, last, first, after, ofRest, ofBack, ofWhole⟩ := induction restOutside
      refine ⟨piece :: before, last, first, after, by rw [ofRest, List.cons_append], ofBack, ?_⟩
      rw [splitAround_of_some cut, ofWhole, List.cons_append]

end Text

/-! ## Tokens -/

/-- What texts of conditions are divided at: the commas between arguments, the connectives and the
comparators. -/
def Condition.separatingTokens : List Text :=
  [[','], Connective.and.token, Connective.or.token] ++ Condition.searchOrder.map Comparator.token

theorem Condition.isMark_of_mem_separatingTokens {token : Text}
    (isToken : token ∈ separatingTokens) : Text.IsMark token := by
  rw [separatingTokens, List.mem_append] at isToken
  cases isToken with
  | inl other =>
      simp only [List.mem_cons, List.not_mem_nil, or_false] at other
      obtain rfl | rfl | rfl := other
      · exact Text.isMark_comma
      · exact Connective.and.isMark_token
      · exact Connective.or.isMark_token
  | inr ofComparator =>
      obtain ⟨comparator, _, rfl⟩ := List.mem_map.mp ofComparator
      exact comparator.isMark_token

namespace Literal

/-- A string is written in quotes, with every quote of it doubled, and no other text is read as it.
Behind the literal a scan is where it was in front of it. Where it stands outside quotes and
parentheses no token divides it: the first token of a text is found in the part in front of the
literal or in the part behind it, and splitting leaves the literal whole in one of the pieces,
between the last piece of the one part and the first piece of the other. -/
theorem string_read_exactly_and_kept_whole (content : Text) :
    (string content).render =
      '\'' :: content.flatMap (fun c => if c = '\'' then ['\'', '\''] else [c]) ++ ['\''] ∧
    (∀ text, ofText? text = some (string content) ↔ text = (string content).render) ∧
    (∀ nesting : Nesting, nesting.quoted = false →
      nesting.behind (string content).render = nesting) ∧
    ∀ token ∈ Condition.separatingTokens, ∀ front, Nesting.top.behind front = .top → ∀ back,
      Nesting.cutAt? token .top (front ++ (string content).render ++ back) =
        ((Nesting.cutAt? token .top front).map fun cut =>
          (cut.1, cut.2 ++ (string content).render ++ back)).or
        ((Nesting.cutAt? token .top back).map fun cut =>
          (front ++ (string content).render ++ cut.1, cut.2)) ∧
      ∃ before last first after, Text.splitAround token front = before ++ [last] ∧
        Text.splitAround token back = first :: after ∧
        Text.splitAround token (front ++ (string content).render ++ back) =
          before ++ (last ++ (string content).render ++ first) :: after := by
  have isQuote : (string content).render = Text.quote content := rfl
  rw [isQuote]
  refine ⟨?_, fun text => ofText?_eq_string_iff,
    fun nesting unquoted => Nesting.behind_quote_of_unquoted unquoted content, ?_⟩
  · rw [Text.quote, Text.doubleQuotes_eq_flatMap]
  · intro token isToken front outside back
    have mark := Condition.isMark_of_mem_separatingTokens isToken
    have unquoted : (Nesting.top.behind front).quoted = false := congrArg Nesting.quoted outside
    have cut := Nesting.cutAt?_around_quote mark.nonempty mark.inert unquoted content back
    rw [outside] at cut
    exact ⟨cut, Text.splitAround_around_quote mark.nonempty mark.inert outside content back⟩

theorem quoted_token_kept_whole :
    let literal := (string ['\'', '&', '&']).render
    ['&', '&'] ∈ Condition.separatingTokens ∧ Nesting.top.behind ['a', '='] = .top ∧
      Nesting.cutAt? ['&', '&'] .top (['a', '='] ++ literal ++ ['&', '&', 'b']) =
        some (['a', '='] ++ literal, ['b']) := by
  have isToken : ['&', '&'] ∈ Condition.separatingTokens := by decide
  have outside : Nesting.top.behind ['a', '='] = .top := rfl
  have whole := string_read_exactly_and_kept_whole ['\'', '&', '&']
  exact ⟨isToken, outside, (whole.2.2.2 _ isToken _ outside ['&', '&', 'b']).1.trans rfl⟩

end Literal

end FlowPlan
