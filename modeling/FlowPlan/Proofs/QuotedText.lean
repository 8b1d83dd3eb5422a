import FlowPlan.Condition.Parser
import FlowPlan.Proofs.ReferenceText

/-! # Parts of a text

A text is cut up at separators and outside quotes only. So if every string of
the text ends in it, every string of a part ends in the part, and no part has a
reference that the text does not have.
-/

namespace FlowPlan

open Text (ClosesQuotes IsGap IsSeparator quotedBehind)

namespace Text

/-! ## Gaps at the ends -/

theorem isGap_takeWhile (text : Text) : IsGap (text.takeWhile isBlank) :=
  List.all_eq_true.mp List.all_takeWhile

theorem exists_gaps_around_trim (text : Text) :
    ∃ before after, IsGap before ∧ IsGap after ∧ text = before ++ trim text ++ after := by
  let rest := trimStart text
  let after := (rest.reverse.takeWhile isBlank).reverse
  have afterGap : IsGap after :=
    fun c mem => isGap_takeWhile rest.reverse c (List.mem_reverse.mp mem)
  have ended : trimEnd rest ++ after = rest := by
    rw [trimEnd, ← List.reverse_append, List.takeWhile_append_dropWhile, List.reverse_reverse]
  refine ⟨text.takeWhile isBlank, after, isGap_takeWhile text, afterGap, ?_⟩
  rw [List.append_assoc, trim, ended]
  exact List.takeWhile_append_dropWhile.symm

namespace ClosesQuotes

theorem of_isGap {gap : Text} (isGap : IsGap gap) : ClosesQuotes gap :=
  of_not_mem (isGap.not_mem (by decide))

/-- What stands behind a text that ends all its strings, does so if the whole does. -/
theorem of_append_right {front back : Text} (frontCloses : ClosesQuotes front)
    (closes : ClosesQuotes (front ++ back)) : ClosesQuotes back := by
  rwa [ClosesQuotes, quotedBehind_append, frontCloses] at closes

theorem of_append_left {front back : Text} (quiet : '\'' ∉ back)
    (closes : ClosesQuotes (front ++ back)) : ClosesQuotes front := by
  rwa [ClosesQuotes, quotedBehind_append, quotedBehind_of_not_mem quiet] at closes

theorem of_isSeparator {separators : Text} (separate : ∀ c ∈ separators, IsSeparator c) :
    ClosesQuotes separators :=
  of_not_mem fun mem => (separate _ mem).1 rfl

theorem trim {text : Text} (closes : ClosesQuotes text) : ClosesQuotes (Text.trim text) := by
  rcases exists_gaps_around_trim text with ⟨before, after, beforeGap, afterGap, whole⟩
  rw [whole, List.append_assoc] at closes
  exact of_append_left (afterGap.not_mem (by decide)) (of_append_right (of_isGap beforeGap) closes)

end ClosesQuotes

theorem references_trim (text : Text) : references (trim text) = references text := by
  rcases exists_gaps_around_trim text with ⟨before, after, beforeGap, afterGap, whole⟩
  have separate : ∀ {gap : Text}, IsGap gap → ∀ c ∈ gap, IsSeparator c :=
    fun isGap c mem => isSeparator_of_isBlank (isGap c mem)
  conv_rhs => rw [whole]
  rw [references_append_separators _ (separate afterGap),
    references_separators_append (separate beforeGap)]

/-- Every string of the part ends in it, and the whole has all its references. -/
structure IsPartOf (part whole : Text) : Prop where
  closes : ClosesQuotes part
  references : references part ⊆ references whole

namespace IsPartOf

theorem refl {text : Text} (closes : ClosesQuotes text) : IsPartOf text text :=
  ⟨closes, List.Subset.refl _⟩

theorem trans {part middle whole : Text} (inner : part.IsPartOf middle)
    (outer : middle.IsPartOf whole) : part.IsPartOf whole :=
  ⟨inner.closes, List.Subset.trans inner.references outer.references⟩

theorem trim {part whole : Text} (isPart : part.IsPartOf whole) :
    (Text.trim part).IsPartOf whole :=
  ⟨isPart.closes.trim, references_trim part ▸ isPart.references⟩

/-- The two sides of separators outside quotes. -/
theorem of_append {front separators back : Text} (closes : ClosesQuotes (front ++ separators ++ back))
    (frontCloses : ClosesQuotes front) (nonempty : separators ≠ [])
    (separate : ∀ c ∈ separators, IsSeparator c) :
    front.IsPartOf (front ++ separators ++ back) ∧ back.IsPartOf (front ++ separators ++ back) := by
  have references := references_append frontCloses nonempty separate back
  refine ⟨⟨frontCloses, ?_⟩, ⟨?_, ?_⟩⟩
  · rw [references]
    exact List.subset_append_left _ _
  · exact ClosesQuotes.of_append_right (frontCloses.append (.of_isSeparator separate)) closes
  · rw [references]
    exact List.subset_append_right _ _

end IsPartOf

end Text

/-! ## Cuts -/

namespace Nesting

variable {nesting : Nesting} {token text front back : Text}

theorem quotedBehind_of_cutAt? (cut : cutAt? token nesting text = some (front, back)) :
    quotedBehind nesting.quoted front = false := by
  induction text generalizing nesting front with
  | nil => cases cut
  | cons head tail induction =>
      rw [cutAt?] at cut
      split at cut
      · rename_i found
        cases cut
        have admitted := (Bool.and_eq_true_iff.mp found).1
        simp only [admits, Bool.and_eq_true, Bool.not_eq_true'] at admitted
        exact admitted.1.1.1.1
      · rcases Option.map_eq_some_iff.mp cut with ⟨⟨before, behind⟩, later, equal⟩
        cases equal
        rw [quotedBehind, ← quoted_after]
        exact induction later

theorem eq_append_of_cutAt? (nonempty : token ≠ [])
    (cut : cutAt? token nesting text = some (front, back)) : text = front ++ token ++ back := by
  induction text generalizing nesting front with
  | nil => cases cut
  | cons head tail induction =>
      rw [cutAt?] at cut
      split at cut
      · rename_i found
        cases cut
        rcases List.isPrefixOf_iff_prefix.mp (Bool.and_eq_true_iff.mp found).2 with ⟨rest, whole⟩
        rcases List.exists_cons_of_ne_nil nonempty with ⟨first, more, rfl⟩
        cases whole
        simp
      · rcases Option.map_eq_some_iff.mp cut with ⟨⟨before, behind⟩, later, equal⟩
        cases equal
        rw [induction later]
        rfl

theorem isPartOf_of_cutAt? (nonempty : token ≠ []) (separate : ∀ c ∈ token, IsSeparator c)
    (closes : ClosesQuotes text) (cut : cutAt? token .top text = some (front, back)) :
    front.IsPartOf text ∧ back.IsPartOf text := by
  have frontCloses : ClosesQuotes front := quotedBehind_of_cutAt? cut
  rw [eq_append_of_cutAt? nonempty cut] at closes ⊢
  exact Text.IsPartOf.of_append closes frontCloses nonempty separate

/-- A parenthesis that closes the outermost one stands outside quotes. -/
theorem quotedBehind_of_closeAt? (opened : nesting.depth ≠ 0)
    (closed : nesting.closeAt? text = some (front, back)) :
    quotedBehind nesting.quoted front = false := by
  induction text generalizing nesting front with
  | nil => cases closed
  | cons head tail induction =>
      rw [closeAt?] at closed
      split at closed
      · rename_i zero
        cases closed
        rw [quotedBehind]
        by_contra quoted
        rw [Bool.not_eq_false] at quoted
        have kept : (nesting.after head).depth = nesting.depth := by
          rw [after]
          split <;> rfl
        exact opened (kept.symm.trans zero)
      · rename_i deeper
        rcases Option.map_eq_some_iff.mp closed with ⟨⟨before, behind⟩, later, equal⟩
        cases equal
        rw [quotedBehind, ← quoted_after]
        exact induction deeper later

theorem isSeparator_of_depth_after {c : Char}
    (changed : (nesting.after c).depth ≠ nesting.depth) : IsSeparator c := by
  rw [after] at changed
  split at changed
  · exact absurd rfl changed
  · split at changed
    · exact absurd rfl changed
    · split at changed
      · rename_i opening
        exact opening ▸ by decide
      · split at changed
        · rename_i closing
          exact closing ▸ by decide
        · exact absurd rfl changed

theorem eq_append_of_closeAt? (opened : nesting.depth ≠ 0)
    (closed : nesting.closeAt? text = some (front, back)) :
    ∃ c, IsSeparator c ∧ text = front ++ [c] ++ back := by
  induction text generalizing nesting front with
  | nil => cases closed
  | cons head tail induction =>
      rw [closeAt?] at closed
      split at closed
      · rename_i zero
        cases closed
        exact ⟨head, isSeparator_of_depth_after fun kept => opened (kept.symm.trans zero), rfl⟩
      · rename_i deeper
        rcases Option.map_eq_some_iff.mp closed with ⟨⟨before, behind⟩, later, equal⟩
        cases equal
        rcases induction deeper later with ⟨c, separates, whole⟩
        exact ⟨c, separates, congrArg (head :: ·) whole⟩

end Nesting

namespace Text

theorem isPartOf_of_mem_splitAround {token text piece : Text} (nonempty : token ≠ [])
    (separate : ∀ c ∈ token, IsSeparator c) (closes : ClosesQuotes text)
    (mem : piece ∈ splitAround token text) : piece.IsPartOf text := by
  fun_induction splitAround token text with
  | case1 text none =>
      cases List.mem_singleton.mp mem
      exact .refl closes
  | case2 text front back cut induction =>
      have parts := Nesting.isPartOf_of_cutAt? nonempty separate closes cut
      rcases List.mem_cons.mp mem with rfl | later
      · exact parts.1
      · exact (induction parts.2.closes later).trans parts.2

theorem isPartOf_of_unwrap? {text inner : Text} (unwrapped : unwrap? text = some inner) :
    inner.IsPartOf text := by
  rw [unwrap?.eq_def] at unwrapped
  split at unwrapped
  · split at unwrapped
    · rename_i closed
      cases unwrapped
      rcases Nesting.eq_append_of_closeAt? (by decide) closed with ⟨c, separates, rfl⟩
      have opening : ∀ c ∈ ['('], IsSeparator c := by decide
      have closing : ∀ other ∈ [c], IsSeparator other := List.forall_mem_singleton.mpr separates
      have same : references ('(' :: (inner ++ [c] ++ [])) = references inner := by
        rw [List.append_nil]
        exact (references_separators_append opening (inner ++ [c])).trans
          (references_append_separators inner closing)
      exact ⟨Nesting.quotedBehind_of_closeAt? (by decide) closed, same ▸ List.Subset.refl _⟩
    · cases unwrapped
  · cases unwrapped

theorem eq_append_of_dropEnding? {ending text rest : Text}
    (dropped : dropEnding? ending text = some rest) : text = rest ++ ending := by
  rcases Option.map_eq_some_iff.mp dropped with ⟨reversed, found, rfl⟩
  rw [← List.reverse_inj, List.reverse_append, List.reverse_reverse]
  exact eq_append_of_dropStart? found

/-- The marks of an expression hide and add no reference. -/
theorem references_expressionBody (text : Text) :
    references (expressionBody text) = references text := by
  have opening : ∀ c ∈ ['$', '\x7b', '\x7b'], IsSeparator c := by decide
  have closing : ∀ c ∈ ['\x7d', '\x7d'], IsSeparator c := by decide
  rw [expressionBody, ← references_trim text]
  split
  · rename_i body found
    rcases Option.bind_eq_some_iff.mp found with ⟨rest, opened, closed⟩
    rw [references_trim, eq_append_of_dropStart? opened, references_separators_append opening,
      eq_append_of_dropEnding? closed, references_append_separators body closing]
  · rfl

end Text

namespace Condition

variable {text : Text}

theorem isPartOf_of_findComparator? {front back : Text} {comparator : Comparator}
    (closes : ClosesQuotes text) (found : findComparator? text = some (front, comparator, back)) :
    front.IsPartOf text ∧ back.IsPartOf text := by
  rcases List.exists_of_findSome?_eq_some found with ⟨_, _, mapped⟩
  rcases Option.map_eq_some_iff.mp mapped with ⟨⟨before, behind⟩, cut, equal⟩
  cases equal
  exact Nesting.isPartOf_of_cutAt? (by cases comparator <;> decide)
    (by cases comparator <;> decide) closes cut

/-- What a call has in parentheses behind its name. -/
theorem isPartOf_of_arguments {inner : Text}
    (proper : ∀ c ∈ text.takeWhile (· ≠ '('), Text.isWordChar c = true)
    (unwrapped : Text.unwrap? (text.dropWhile (· ≠ '(')) = some inner) : inner.IsPartOf text := by
  have isPart := Text.isPartOf_of_unwrap? unwrapped
  have nameCloses : ClosesQuotes (text.takeWhile (· ≠ '(')) :=
    .of_not_mem fun mem => absurd (proper _ mem) (by decide)
  have bracket : ∀ c ∈ ['('], IsSeparator c := by decide
  refine ⟨isPart.closes, List.Subset.trans isPart.references ?_⟩
  cases opened : text.dropWhile (· ≠ '(') with
  | nil =>
      rw [opened] at unwrapped
      cases unwrapped
  | cons head rest =>
      have stopped := List.head?_dropWhile_not (fun c => decide (c ≠ '(')) text
      rw [opened] at stopped
      have isBracket : head = '(' := by simpa using stopped
      subst isBracket
      have whole : text = text.takeWhile (· ≠ '(') ++ ['('] ++ rest := by
        rw [List.append_assoc, List.singleton_append, ← opened, List.takeWhile_append_dropWhile]
      have behind : Text.references ('(' :: rest) = Text.references rest :=
        Text.references_separators_append bracket rest
      have references := Text.references_append nameCloses (List.cons_ne_nil _ _) bracket rest
      rw [behind]
      rw [← whole] at references
      rw [references]
      exact List.subset_append_right _ _

theorem isPartOf_of_negatedPart? {part : Text} (closes : ClosesQuotes text)
    (negated : negatedPart? text = some part) : part.IsPartOf text := by
  rw [negatedPart?.eq_def] at negated
  split at negated
  · rename_i rest
    dsimp only at negated
    split at negated
    · cases negated
      have mark : ∀ c ∈ ['!'], IsSeparator c := by decide
      have whole : ClosesQuotes ([] ++ ['!'] ++ rest) := closes
      exact (Text.IsPartOf.of_append whole .nil (List.cons_ne_nil _ _) mark).2.trim
    · cases negated
  · cases negated

end Condition

end FlowPlan
