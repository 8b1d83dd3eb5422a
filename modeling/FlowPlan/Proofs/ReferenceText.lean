import FlowPlan.Proofs.SourceOrder
import FlowPlan.Proofs.Spacing

/-! # References of texts put together

A separator, which belongs to no name and is no quote, ends every reference in
front of it. So a text that is put together from parts with separators between
them has the references of its parts, and what it reads is the union of what
they read.
-/

namespace FlowPlan

theorem Nesting.quoted_after (nesting : Nesting) (c : Char) :
    (nesting.after c).quoted = if c = '\'' then !nesting.quoted else nesting.quoted := by
  rw [after]
  split
  · rfl
  · split
    · rfl
    · split
      · rfl
      · split <;> rfl

namespace Text

/-- No name goes on across such a character, and no string begins or ends with it. -/
def IsSeparator (c : Char) : Prop := c ≠ '\'' ∧ isDottedChar c = false

instance (c : Char) : Decidable (IsSeparator c) :=
  inferInstanceAs (Decidable (c ≠ '\'' ∧ isDottedChar c = false))

/-- Whether a string is open behind the text. -/
def quotedBehind (quoted : Bool) : Text → Bool
  | [] => quoted
  | head :: tail => quotedBehind (if head = '\'' then !quoted else quoted) tail

/-- Every string that opens in the text also ends in it. -/
def ClosesQuotes (text : Text) : Prop := quotedBehind false text = false

theorem quotedBehind_append (quoted : Bool) (front back : Text) :
    quotedBehind quoted (front ++ back) = quotedBehind (quotedBehind quoted front) back := by
  induction front generalizing quoted with
  | nil => rfl
  | cons head tail induction => exact induction _

theorem quotedBehind_of_not_mem {text : Text} (absent : '\'' ∉ text) (quoted : Bool) :
    quotedBehind quoted text = quoted := by
  induction text with
  | nil => rfl
  | cons head tail induction =>
      rw [List.mem_cons, not_or] at absent
      rw [quotedBehind, if_neg (Ne.symm absent.1)]
      exact induction absent.2

theorem quoted_behind (nesting : Nesting) (text : Text) :
    (nesting.behind text).quoted = quotedBehind nesting.quoted text := by
  induction text generalizing nesting with
  | nil => rfl
  | cons head tail induction =>
      rw [Nesting.behind_cons, induction, Nesting.quoted_after, quotedBehind]

namespace ClosesQuotes

theorem nil : ClosesQuotes [] := rfl

theorem append {front back : Text} (frontCloses : ClosesQuotes front)
    (backCloses : ClosesQuotes back) : ClosesQuotes (front ++ back) := by
  rw [ClosesQuotes, quotedBehind_append, frontCloses]
  exact backCloses

theorem of_not_mem {text : Text} (absent : '\'' ∉ text) : ClosesQuotes text :=
  quotedBehind_of_not_mem absent false

theorem of_balanced {text : Text} (balanced : Nesting.Balanced text) : ClosesQuotes text := by
  have quoted := quoted_behind .top text
  rw [balanced.behind_top] at quoted
  exact quoted.symm

end ClosesQuotes

theorem isSeparator_of_isBlank {c : Char} (blank : isBlank c = true) : IsSeparator c := by
  refine ⟨?_, ?_⟩
  · rintro rfl
    revert blank
    decide
  · cases dotted : isDottedChar c with
    | false => rfl
    | true =>
        rw [isBlank_of_isDottedChar dotted] at blank
        cases blank

end Text

open Text (IsSeparator ClosesQuotes IsGap quotedBehind)

namespace Reference

/-! ## References in front of a separator -/

section Separator

variable {c : Char} (separates : IsSeparator c) (back : Text)

include separates

theorem isNameChar_eq_false : Text.isNameChar c = false := by
  have notDotted := separates.2
  rw [Text.isDottedChar, Bool.or_eq_false_iff] at notDotted
  exact notDotted.1

theorem endsName_eq_true : endsName c = true := by
  have notDotted := separates.2
  rw [Text.isDottedChar, Text.isNameChar, Bool.or_assoc, Bool.or_eq_false_iff,
    Bool.or_eq_false_iff] at notDotted
  rw [endsName, notDotted.1, notDotted.2.2]
  rfl

theorem takeWhile_isNameChar_append (front : Text) :
    (front ++ c :: back).takeWhile Text.isNameChar = front.takeWhile Text.isNameChar := by
  induction front with
  | nil => simp [isNameChar_eq_false separates]
  | cons head tail induction => simp only [List.cons_append, List.takeWhile_cons, induction]

theorem dropWhile_isNameChar_append (front : Text) :
    (front ++ c :: back).dropWhile Text.isNameChar =
      front.dropWhile Text.isNameChar ++ c :: back := by
  induction front with
  | nil => simp [isNameChar_eq_false separates]
  | cons head tail induction =>
      simp only [List.cons_append, List.dropWhile_cons, induction]
      split <;> rfl

theorem dropStart?_append {start : Text} (dotted : ∀ expected ∈ start,
    Text.isDottedChar expected = true) (front : Text) :
    Text.dropStart? start (front ++ c :: back) =
      (Text.dropStart? start front).map (· ++ c :: back) := by
  induction start generalizing front with
  | nil => rfl
  | cons expected more induction =>
      have other : expected ≠ c :=
        Text.ne_of_isDottedChar (dotted expected List.mem_cons_self) separates.2
      cases front with
      | nil => simp only [List.nil_append, Text.dropStart?, if_neg other, Option.map_none]
      | cons head tail =>
          have later := induction (fun next mem => dotted next (List.mem_cons_of_mem expected mem))
          rw [List.cons_append, Text.dropStart?, Text.dropStart?, later]
          split <;> rfl

theorem withRoot?_append (root : ReferenceRoot) (front : Text) :
    withRoot? root (front ++ c :: back) =
      (withRoot? root front).map fun found => (found.1, found.2 ++ c :: back) := by
  have dotted : ∀ expected ∈ root.opening, Text.isDottedChar expected = true := by
    cases root <;> decide
  rw [withRoot?, withRoot?, dropStart?_append separates back dotted]
  cases Text.dropStart? root.opening front with
  | none => rfl
  | some rest =>
      simp only [Option.map_some, takeWhile_isNameChar_append separates,
        dropWhile_isNameChar_append separates]
      split <;> rfl

theorem atStart?_append (front : Text) :
    atStart? (front ++ c :: back) =
      (atStart? front).map fun found => (found.1, found.2 ++ c :: back) := by
  rw [atStart?, atStart?, withRoot?_append separates, withRoot?_append separates]
  cases withRoot? .steps front <;> rfl

end Separator

/-- Both roots end in these characters. -/
def openingEnd : Text := ['s', '.']

theorem exists_eq_append_of_atStart? {text rest : Text} {reference : Reference}
    (found : atStart? text = some (reference, rest)) :
    ∃ front : Text, text = front ++ rest ∧ (∀ c ∈ openingEnd, c ∈ front) ∧ '\'' ∉ front := by
  have rooted : ∃ root, withRoot? root text = some (reference, rest) := by
    rcases Option.or_eq_some_iff.mp found with found | ⟨_, found⟩
    · exact ⟨.steps, found⟩
    · exact ⟨.needs, found⟩
  rcases rooted with ⟨root, found⟩
  rw [withRoot?] at found
  split at found
  · cases found
  · rename_i behind dropped
    dsimp only at found
    split at found
    · cases found
    · cases found
      refine ⟨root.opening ++ behind.takeWhile Text.isNameChar, ?_, ?_, ?_⟩
      · rw [List.append_assoc, List.takeWhile_append_dropWhile]
        exact Text.eq_append_of_dropStart? dropped
      · have opens : ∀ c ∈ openingEnd, c ∈ root.opening := by
          cases root <;> decide
        exact fun c mem => List.mem_append_left _ (opens c mem)
      · intro mem
        rcases List.mem_append.mp mem with inOpening | inName
        · cases root <;> revert inOpening <;> decide
        · have nameChars : (behind.takeWhile Text.isNameChar).all Text.isNameChar = true :=
            List.all_takeWhile
          exact absurd (List.all_eq_true.mp nameChars '\'' inName) (by decide)

/-! ## The scan -/

theorem scan_quote (quoted boundary : Bool) (tail : Text) :
    scan quoted boundary ('\'' :: tail) = scan (!quoted) true tail := by
  rw [scan, if_pos rfl]

theorem scan_hidden {quoted boundary : Bool} {head : Char} (notQuote : head ≠ '\'')
    (hidden : (quoted || !boundary) = true) (tail : Text) :
    scan quoted boundary (head :: tail) = scan quoted (endsName head) tail := by
  rw [scan, if_neg notQuote, if_pos hidden]

theorem scan_of_none {head : Char} {tail : Text} (notQuote : head ≠ '\'')
    (none : atStart? (head :: tail) = none) :
    scan false true (head :: tail) = scan false (endsName head) tail := by
  rw [scan, if_neg notQuote, if_neg (by decide)]
  split
  · rename_i found
    rw [none] at found
    cases found
  · rfl

theorem scan_of_some {head : Char} {tail rest : Text} {reference : Reference}
    (notQuote : head ≠ '\'') (some : atStart? (head :: tail) = some (reference, rest)) :
    scan false true (head :: tail) = reference :: scan false false rest := by
  rw [scan, if_neg notQuote, if_neg (by decide)]
  split
  · rename_i found
    rw [some] at found
    cases found
    rfl
  · rename_i none
    rw [some] at none
    cases none

theorem eq_of_not_hidden {quoted boundary : Bool} (shown : ¬ (quoted || !boundary) = true) :
    quoted = false ∧ boundary = true := by
  cases quoted <;> cases boundary <;> simp at shown ⊢

theorem scan_separator {c : Char} (separates : IsSeparator c) (quoted boundary : Bool)
    (back : Text) : scan quoted boundary (c :: back) = scan quoted true back := by
  by_cases hidden : (quoted || !boundary) = true
  · rw [scan_hidden separates.1 hidden, endsName_eq_true separates]
  · rcases eq_of_not_hidden hidden with ⟨rfl, rfl⟩
    have none : atStart? (c :: back) = none := atStart?_append separates back []
    rw [scan_of_none separates.1 none, endsName_eq_true separates]

theorem scan_append {c : Char} (separates : IsSeparator c) (back : Text) (quoted boundary : Bool)
    (front : Text) :
    scan quoted boundary (front ++ c :: back) =
      scan quoted boundary front ++ scan (quotedBehind quoted front) true back := by
  induction quoted, boundary, front using scan.induct with
  | case1 quoted boundary =>
      rw [List.nil_append, scan_separator separates, scan, List.nil_append, quotedBehind]
  | case2 quoted boundary tail induction =>
      rw [List.cons_append, scan_quote, scan_quote, induction, quotedBehind, if_pos rfl]
  | case3 quoted boundary head tail notQuote hidden induction =>
      rw [List.cons_append, scan_hidden notQuote hidden, scan_hidden notQuote hidden, induction,
        quotedBehind, if_neg notQuote]
  | case4 quoted boundary head tail notQuote shown reference rest found induction =>
      rcases eq_of_not_hidden shown with ⟨rfl, rfl⟩
      rcases exists_eq_append_of_atStart? found with ⟨name, whole, _, noQuote⟩
      have longer : atStart? (head :: (tail ++ c :: back)) = some (reference, rest ++ c :: back) := by
        rw [← List.cons_append, atStart?_append separates, found, Option.map_some]
      rw [List.cons_append, scan_of_some notQuote longer, scan_of_some notQuote found, induction,
        List.cons_append, whole, Text.quotedBehind_append, Text.quotedBehind_of_not_mem noQuote]
  | case5 quoted boundary head tail notQuote shown none induction =>
      rcases eq_of_not_hidden shown with ⟨rfl, rfl⟩
      have longer : atStart? (head :: (tail ++ c :: back)) = .none := by
        rw [← List.cons_append, atStart?_append separates, none, Option.map_none]
      rw [List.cons_append, scan_of_none notQuote longer, scan_of_none notQuote none, induction,
        quotedBehind, if_neg notQuote]

/-- Without the end of a root there is no reference. -/
theorem scan_eq_nil_of_not_mem {text : Text} {c : Char} (ends : c ∈ openingEnd)
    (absent : c ∉ text) (quoted boundary : Bool) : scan quoted boundary text = [] := by
  induction quoted, boundary, text using scan.induct with
  | case1 quoted boundary => rw [scan]
  | case2 quoted boundary tail induction =>
      rw [scan_quote, induction (mt (List.mem_cons_of_mem _) absent)]
  | case3 quoted boundary head tail notQuote hidden induction =>
      rw [scan_hidden notQuote hidden, induction (mt (List.mem_cons_of_mem _) absent)]
  | case4 quoted boundary head tail notQuote shown reference rest found induction =>
      rcases exists_eq_append_of_atStart? found with ⟨name, whole, opened, _⟩
      rw [whole] at absent
      exact absurd (List.mem_append_left rest (opened c ends)) absent
  | case5 quoted boundary head tail notQuote shown none induction =>
      rcases eq_of_not_hidden shown with ⟨rfl, rfl⟩
      rw [scan_of_none notQuote none, induction (mt (List.mem_cons_of_mem _) absent)]

/-- Nothing in a string counts. -/
theorem scan_doubleQuotes (content : Text) (boundary : Bool) (back : Text) :
    scan true boundary (Text.doubleQuotes content ++ '\'' :: back) = scan false true back := by
  fun_induction Text.doubleQuotes content generalizing boundary with
  | case1 => exact scan_quote true boundary back
  | case2 tail induction =>
      rw [List.cons_append, List.cons_append, scan_quote, scan_quote]
      exact induction true
  | case3 head tail other induction =>
      rw [List.cons_append, scan_hidden other rfl, induction]

end Reference

namespace Text

/-! ## References of a whole -/

theorem references_eq_nil_of_not_mem {text : Text} (absent : '.' ∉ text) : references text = [] :=
  Reference.scan_eq_nil_of_not_mem (by decide) absent false true

theorem references_quote (content : Text) : references (quote content) = [] := by
  rw [references, quote, List.cons_append, Reference.scan_quote]
  exact (Reference.scan_doubleQuotes content true []).trans (by rw [Reference.scan])

/-- Separators in front of a text have no references. -/
theorem references_separators_append {separators : Text}
    (separate : ∀ c ∈ separators, IsSeparator c) (back : Text) :
    references (separators ++ back) = references back := by
  induction separators with
  | nil => rfl
  | cons head tail induction =>
      rw [references, List.cons_append,
        Reference.scan_separator (separate head List.mem_cons_self)]
      exact induction fun c mem => separate c (List.mem_cons_of_mem head mem)

theorem references_append {front separators : Text} (closes : ClosesQuotes front)
    (some : separators ≠ []) (separate : ∀ c ∈ separators, IsSeparator c) (back : Text) :
    references (front ++ separators ++ back) = references front ++ references back := by
  cases separators with
  | nil => exact absurd rfl some
  | cons head tail =>
      rw [List.append_assoc, List.cons_append, references,
        Reference.scan_append (separate head List.mem_cons_self) (tail ++ back), closes]
      exact congrArg (references front ++ ·)
        (references_separators_append (fun c mem => separate c (List.mem_cons_of_mem head mem)) back)

/-- The same behind a text, even inside a string that does not end. -/
theorem references_append_separators (front : Text) {separators : Text}
    (separate : ∀ c ∈ separators, IsSeparator c) :
    references (front ++ separators) = references front := by
  cases separators with
  | nil => rw [List.append_nil]
  | cons head tail =>
      have noPoint : '.' ∉ tail := by
        intro mem
        cases (separate '.' (List.mem_cons_of_mem head mem)).2
      rw [references, Reference.scan_append (separate head List.mem_cons_self),
        Reference.scan_eq_nil_of_not_mem (by decide) noPoint, List.append_nil, references]

/-! ## Sources of a whole -/

variable {σ : Type} [Keyed σ]

theorem sources_congr (scope : StepScope σ) {text other : Text}
    (same : references text = references other) : sources scope text = sources scope other := by
  rw [sources, sources, same]

theorem sources_eq_nil_of_not_mem (scope : StepScope σ) {text : Text} (absent : '.' ∉ text) :
    sources scope text = [] := by
  rw [sources, references_eq_nil_of_not_mem absent]
  rfl

theorem foldl_union_sources (scope : StepScope σ) (texts : List Text) :
    texts.foldl (fun sum text => Sources.union sum (sources scope text)) [] =
      Sources.ofList ((texts.flatMap references).filterMap (Reference.source? scope)) := by
  have run : ∀ members : List (Source σ),
      texts.foldl (fun sum text => Sources.union sum (sources scope text))
          (Sources.ofList members) =
        Sources.ofList
          (members ++ (texts.flatMap references).filterMap (Reference.source? scope)) := by
    induction texts with
    | nil =>
        intro members
        rw [List.foldl_nil, List.flatMap_nil, List.filterMap_nil, List.append_nil]
    | cons head tail induction =>
        intro members
        rw [List.foldl_cons, sources, Sources.union_ofList, induction, List.flatMap_cons,
          List.filterMap_append, List.append_assoc]
  exact run []

end Text

end FlowPlan
