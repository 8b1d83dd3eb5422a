import FlowPlan.Proofs.OperandTexts

/-! # Joined pieces

Pieces that are joined by a token with blanks around it are found again by
splitting the text around the token, up to the blanks at their ends. A piece may
begin or end with a part of the token, as long as the whole token stands nowhere
outside quotes and parentheses: the blanks keep the parts from growing together.
-/

namespace FlowPlan

open Text (IsGap isBlank trim)

namespace Nesting

variable {nesting : Nesting} {token front back text rest : Text}

/-! ## Cuts of texts put together -/

/-- A token that begins in the front part ends there if the back part does not go on with it. -/
theorem prefix_of_prefix_append (apart : ∀ c ∈ back.head?, c ∉ token.tail) (some : front ≠ [])
    (starts : token <+: front ++ back) : token <+: front := by
  cases List.prefix_or_prefix_of_prefix starts (List.prefix_append front back) with
  | inl within => exact within
  | inr beyond =>
      obtain ⟨more, rfl⟩ := beyond
      have goesOn : more <+: back := (List.prefix_append_right_inj front).mp starts
      cases more with
      | nil => simp
      | cons c later =>
          obtain ⟨after, rfl⟩ := goesOn
          obtain ⟨first, others, rfl⟩ := List.exists_cons_of_ne_nil some
          exact absurd (by simp) (apart c rfl)

theorem cutAt?_append_of_uncut (uncut : cutAt? token nesting front = none)
    (apart : ∀ c ∈ back.head?, c ∉ token.tail) :
    cutAt? token nesting (front ++ back) =
      (cutAt? token (nesting.behind front) back).map fun cut => (front ++ cut.1, cut.2) := by
  induction front generalizing nesting with
  | nil => simp
  | cons head tail induction =>
      rw [cutAt?] at uncut
      split at uncut
      · cases uncut
      · rename_i absent
        have longer : ¬ (nesting.admits head &&
            token.isPrefixOf (head :: (tail ++ back))) = true := by
          intro found
          obtain ⟨admitted, starts⟩ := Bool.and_eq_true_iff.mp found
          apply absent
          rw [admitted, Bool.true_and, List.isPrefixOf_iff_prefix]
          exact prefix_of_prefix_append apart (List.cons_ne_nil head tail)
            (List.isPrefixOf_iff_prefix.mp starts)
        rw [List.cons_append, cutAt?, if_neg longer, induction (Option.map_eq_none_iff.mp uncut),
          Option.map_map, behind_cons]
        rfl

/-- What is found in a text is found when the text goes on. -/
theorem cutAt?_append_of_some (nonempty : token ≠ [])
    (cut : cutAt? token nesting text = some (front, rest)) (back : Text) :
    cutAt? token nesting (text ++ back) = some (front, rest ++ back) := by
  induction text generalizing nesting front with
  | nil => cases cut
  | cons head tail induction =>
      rw [cutAt?] at cut
      split at cut
      · rename_i found
        cases cut
        obtain ⟨admitted, starts⟩ := Bool.and_eq_true_iff.mp found
        have begins := List.isPrefixOf_iff_prefix.mp starts
        have fits : token.length - 1 ≤ tail.length := by
          have := begins.length_le
          simp only [List.length_cons] at this
          omega
        have starts' : token.isPrefixOf (head :: (tail ++ back)) = true :=
          List.isPrefixOf_iff_prefix.mpr (begins.trans (List.prefix_append (head :: tail) back))
        rw [List.cons_append, cutAt?, admitted, starts', Bool.and_self, if_pos rfl,
          List.drop_append_of_le_length fits]
      · rename_i absent
        obtain ⟨⟨before, after⟩, later, equal⟩ := Option.map_eq_some_iff.mp cut
        cases equal
        have longer : ¬ (nesting.admits head &&
            token.isPrefixOf (head :: (tail ++ back))) = true := by
          intro found
          obtain ⟨admitted, starts⟩ := Bool.and_eq_true_iff.mp found
          apply absent
          rw [admitted, Bool.true_and, List.isPrefixOf_iff_prefix]
          refine List.prefix_of_prefix_length_le (List.isPrefixOf_iff_prefix.mp starts)
            (List.prefix_append (head :: tail) back) ?_
          simp only [eq_append_of_cutAt? nonempty later, List.length_cons, List.length_append]
          omega
        rw [List.cons_append, cutAt?, if_neg longer, induction later, Option.map_some]

end Nesting

namespace Text

variable {token text front back gap : Text}

theorem splitAround_of_none (uncut : Nesting.cutAt? token .top text = none) :
    splitAround token text = [text] := by
  rw [splitAround]
  split
  · rfl
  · rename_i found
    rw [uncut] at found
    cases found

theorem splitAround_of_some (cut : Nesting.cutAt? token .top text = some (front, back)) :
    splitAround token text = front :: splitAround token back := by
  rw [splitAround]
  split
  · rename_i uncut
    rw [cut] at uncut
    cases uncut
  · rename_i found
    rw [cut] at found
    cases found
    rfl

namespace IsMark

variable (mark : IsMark token)

include mark

theorem cutAt?_self (back : Text) :
    Nesting.cutAt? token .top (token ++ back) = some ([], back) := by
  obtain ⟨first, more, rfl⟩ := List.exists_cons_of_ne_nil mark.nonempty
  have inert := mark.inert first List.mem_cons_self
  exact Nesting.cutAt?_token
    (by simp [Nesting.admits, Nesting.top, inert.1, inert.2.1, inert.2.2]) back

/-! ## Blanks around the text -/

theorem cutAt?_gap_append (isGap : IsGap gap) (text : Text) :
    Nesting.cutAt? token .top (gap ++ text) =
      (Nesting.cutAt? token .top text).map fun cut => (gap ++ cut.1, cut.2) := by
  obtain ⟨first, more, rfl⟩ := List.exists_cons_of_ne_nil mark.nonempty
  have passes : Nesting.Passes first .top gap :=
    Nesting.passes_of_not_mem (isGap.not_mem (mark.solid first List.mem_cons_self)) .top
  rw [Nesting.cutAt?_append passes, Nesting.behind_of_isInert isGap.isInert]

theorem not_mem_tail_of_isGap (isGap : IsGap gap) : ∀ c ∈ gap.head?, c ∉ token.tail := by
  intro c isFirst mem
  have blank := isGap c (List.mem_of_mem_head? isFirst)
  rw [mark.solid c (List.mem_of_mem_tail mem)] at blank
  cases blank

theorem cutAt?_append_gap (isGap : IsGap gap) (uncut : Nesting.cutAt? token .top text = none) :
    Nesting.cutAt? token .top (text ++ gap) = none := by
  obtain ⟨first, more, rfl⟩ := List.exists_cons_of_ne_nil mark.nonempty
  have passes : Nesting.Passes first (Nesting.top.behind text) gap :=
    Nesting.passes_of_not_mem (isGap.not_mem (mark.solid first List.mem_cons_self)) _
  rw [Nesting.cutAt?_append_of_uncut uncut (mark.not_mem_tail_of_isGap isGap),
    Nesting.cutAt?_eq_none passes, Option.map_none]

theorem cutAt?_of_trim (uncut : Nesting.cutAt? token .top (trim text) = none) :
    Nesting.cutAt? token .top text = none := by
  obtain ⟨before, after, beforeGap, afterGap, whole⟩ := exists_gaps_around_trim text
  rw [whole, List.append_assoc, mark.cutAt?_gap_append beforeGap,
    mark.cutAt?_append_gap afterGap uncut, Option.map_none]

theorem map_trim_splitAround_gap_append (isGap : IsGap gap) (text : Text) :
    (splitAround token (gap ++ text)).map trim = (splitAround token text).map trim := by
  have cut := mark.cutAt?_gap_append isGap text
  cases found : Nesting.cutAt? token .top text with
  | none =>
      rw [found, Option.map_none] at cut
      simp [splitAround_of_none found, splitAround_of_none cut, trim_gap_append isGap]
  | some parts =>
      rw [found, Option.map_some] at cut
      simp [splitAround_of_some found, splitAround_of_some cut, trim_gap_append isGap]

theorem map_trim_splitAround_append_gap (isGap : IsGap gap) (text : Text) :
    (splitAround token (text ++ gap)).map trim = (splitAround token text).map trim := by
  fun_induction splitAround token text with
  | case1 text uncut =>
      simp [splitAround_of_none (mark.cutAt?_append_gap isGap uncut), trim_append_gap isGap]
  | case2 text front back cut induction =>
      rw [splitAround_of_some (Nesting.cutAt?_append_of_some mark.nonempty cut gap),
        List.map_cons, induction, List.map_cons]

/-- Blanks at the ends of the text become blanks at the ends of the pieces. -/
theorem map_trim_splitAround_trim (text : Text) :
    (splitAround token (trim text)).map trim = (splitAround token text).map trim := by
  obtain ⟨before, after, beforeGap, afterGap, whole⟩ := exists_gaps_around_trim text
  calc (splitAround token (trim text)).map trim
      = (splitAround token (before ++ trim text)).map trim :=
        (mark.map_trim_splitAround_gap_append beforeGap (trim text)).symm
    _ = (splitAround token (before ++ trim text ++ after)).map trim :=
        (mark.map_trim_splitAround_append_gap afterGap (before ++ trim text)).symm
    _ = (splitAround token text).map trim := by rw [← whole]

/-! ## Pieces -/

section Joined

variable {before after piece : Text} {pieces : List Text} (beforeGap : IsGap before)
  (afterGap : IsGap after) (apart : ∀ c ∈ (before ++ token).head?, c ∉ token.tail)

include beforeGap apart

theorem cutAt?_undivided (undivided : IsUndivided token piece) (rest : Text) :
    Nesting.cutAt? token .top (piece ++ (before ++ token ++ after) ++ rest) =
      some (piece ++ before, after ++ rest) := by
  have goesOn : ∀ c ∈ (before ++ token ++ (after ++ rest)).head?, c ∉ token.tail := by
    have nonempty : before ++ token ≠ [] := List.append_ne_nil_of_right_ne_nil before mark.nonempty
    rwa [List.head?_append_of_ne_nil _ nonempty]
  have shape : piece ++ (before ++ token ++ after) ++ rest =
      piece ++ (before ++ token ++ (after ++ rest)) := by
    simp only [List.append_assoc]
  rw [shape, Nesting.cutAt?_append_of_uncut undivided.uncut goesOn,
    Nesting.behind_of_fault? undivided.faultless, List.append_assoc before,
    mark.cutAt?_gap_append beforeGap, mark.cutAt?_self]
  simp

include afterGap

/-- The pieces are found again behind blanks. -/
theorem map_trim_splitAround_joinWith (some : pieces ≠ [])
    (undivided : ∀ piece ∈ pieces, IsUndivided token piece) (isGap : IsGap gap) :
    (splitAround token (gap ++ joinWith (before ++ token ++ after) pieces)).map trim = pieces := by
  induction pieces generalizing gap with
  | nil => exact absurd rfl some
  | cons piece others induction =>
      have first := undivided piece List.mem_cons_self
      rw [mark.map_trim_splitAround_gap_append isGap]
      cases others with
      | nil => rw [joinWith, splitAround_of_none first.uncut, List.map_singleton, first.trimmed]
      | cons next later =>
          rw [joinWith_cons_ne_nil (List.cons_ne_nil next later),
            splitAround_of_some (mark.cutAt?_undivided beforeGap apart first _), List.map_cons,
            trim_append_gap beforeGap, first.trimmed,
            induction (List.cons_ne_nil next later)
              (fun other mem => undivided other (List.mem_cons_of_mem piece mem)) afterGap]

end Joined

end IsMark

/-- A comma separates arguments. -/
theorem isMark_comma : IsMark [','] where
  nonempty := List.cons_ne_nil ',' []
  inert := by simp [Nesting.IsInert]
  solid := by decide

/-- The arguments of a call are found again, whatever blanks are trimmed off around all of them. -/
theorem map_trim_splitAround_arguments {arguments : List Text} (some : arguments ≠ [])
    (undivided : ∀ argument ∈ arguments, IsUndivided [','] argument) :
    (splitAround [','] (trim (joinWith [',', ' '] arguments))).map trim = arguments := by
  have apart : ∀ c ∈ ([] ++ [','] : Text).head?, c ∉ ([','] : Text).tail := by simp
  rw [isMark_comma.map_trim_splitAround_trim]
  exact isMark_comma.map_trim_splitAround_joinWith IsGap.nil IsGap.blank apart some undivided
    IsGap.nil

end Text

namespace Connective

/-- The operands of a chain are found again, whatever blanks are trimmed off around the chain. -/
theorem map_trim_splitAround_chain (connective : Connective) {pieces : List Text}
    (some : pieces ≠ []) (undivided : ∀ piece ∈ pieces, Text.IsUndivided connective.token piece) :
    (Text.splitAround connective.token
      (trim (Text.joinWith connective.separator pieces))).map trim = pieces := by
  have apart : ∀ c ∈ ([' '] ++ connective.token).head?, c ∉ connective.token.tail := by
    cases connective <;> simp [Connective.token]
  rw [connective.isMark_token.map_trim_splitAround_trim]
  exact connective.isMark_token.map_trim_splitAround_joinWith IsGap.blank IsGap.blank apart some
    undivided IsGap.nil

end Connective

end FlowPlan
