import FlowPlan.Proofs.Merging
import FlowPlan.Proofs.TwoScopes

/-! # The texts of operands

A text without a fault is taken apart into texts without one, which have no
blanks at their ends. What is read as an operand shows no connective outside
quotes and parentheses besides. So to show something of every expression it is
enough to show it of the leaves of such texts, and that it outlives negations,
parentheses and chains.
-/

namespace FlowPlan

namespace Text

/-! ## Trimmed texts -/

theorem isTight_trim {text : Text} (nonempty : trim text ≠ []) : IsTight (trim text) := by
  let rest := trimStart text
  let after := (rest.reverse.takeWhile isBlank).reverse
  have whole : trim text ++ after = rest := by
    rw [trim, trimEnd, ← List.reverse_append, List.takeWhile_append_dropWhile, List.reverse_reverse]
  constructor
  · obtain ⟨first, more, equal⟩ := List.exists_cons_of_ne_nil nonempty
    have stopped := List.head?_dropWhile_not isBlank text
    have begins : (text.dropWhile isBlank).head? = some first := by
      show rest.head? = some first
      rw [← whole, equal]
      rfl
    rw [begins] at stopped
    exact ⟨first, by simp [equal], by simpa using stopped⟩
  · have stopped := List.head?_dropWhile_not isBlank rest.reverse
    have last : (rest.reverse.dropWhile isBlank).head? = (trim text).getLast? := by
      rw [List.getLast?_eq_head?_reverse, trim, trimEnd, List.reverse_reverse]
    rw [last, List.getLast?_eq_some_getLast nonempty] at stopped
    exact ⟨_, List.getLast_mem_getLast? nonempty, by simpa using stopped⟩

@[simp] theorem trim_nil : trim [] = [] := rfl

@[simp] theorem trim_trim (text : Text) : trim (trim text) = trim text := by
  by_cases blank : trim text = []
  · rw [blank, trim_nil]
  · exact (isTight_trim blank).trim_eq

theorem isTight_of_trim_eq {text : Text} (trimmed : trim text = text) (nonempty : text ≠ []) :
    IsTight text := by
  have tight : IsTight (trim text) := isTight_trim (by simpa [trimmed] using nonempty)
  rwa [trimmed] at tight

end Text

namespace Nesting

open Text (IsGap)

variable {nesting : Nesting} {token text front back : Text}

/-! ## Faults of parts -/

/-- A text without a fault ends where it began, outside all quotes and parentheses. -/
theorem behind_of_fault? (faultless : nesting.fault? text = none) : nesting.behind text = top := by
  have ended := behind_raised_of_fault? faultless 0
  rwa [raised, Int.add_zero] at ended

/-- A front part of a text without a fault has none if the scan is outside behind it. -/
theorem fault?_of_append (faultless : nesting.fault? (front ++ back) = none)
    (outside : nesting.behind front = top) : nesting.fault? front = none := by
  induction front generalizing nesting with
  | nil =>
      cases outside
      rfl
  | cons head tail induction =>
      rw [List.cons_append, fault?] at faultless
      rw [fault?]
      split at faultless
      · cases faultless
      · rename_i above
        rw [if_neg above]
        exact induction faultless outside

theorem fault?_trim (faultless : top.fault? text = none) : top.fault? (Text.trim text) = none := by
  obtain ⟨before, after, beforeGap, afterGap, whole⟩ := Text.exists_gaps_around_trim text
  rw [whole, List.append_assoc, fault?_append (fault?_of_isInert beforeGap.isInert)] at faultless
  refine fault?_of_append faultless ?_
  have ended := behind_of_fault? faultless
  rwa [behind_append, behind_of_isInert afterGap.isInert] at ended

/-- A token is found outside all quotes and parentheses. -/
theorem behind_of_cutAt? (cut : cutAt? token nesting text = some (front, back)) :
    nesting.behind front = top := by
  induction text generalizing nesting front with
  | nil => cases cut
  | cons head tail induction =>
      rw [cutAt?] at cut
      split at cut
      · rename_i found
        cases cut
        have admitted := (Bool.and_eq_true_iff.mp found).1
        obtain ⟨quoted, depth⟩ := nesting
        simp_all [admits, top]
      · obtain ⟨⟨before, after⟩, later, equal⟩ := Option.map_eq_some_iff.mp cut
        cases equal
        have ended : (nesting.after head).behind before = top := induction later
        exact ended

theorem fault?_of_cutAt? (nonempty : token ≠ []) (inert : ∀ c ∈ token, IsInert c)
    (faultless : top.fault? text = none) (cut : cutAt? token top text = some (front, back)) :
    top.fault? front = none ∧ top.fault? back = none := by
  rw [eq_append_of_cutAt? nonempty cut, List.append_assoc] at faultless
  have frontFaultless := fault?_of_append faultless (behind_of_cutAt? cut)
  rw [fault?_append frontFaultless, fault?_append (fault?_of_isInert inert)] at faultless
  exact ⟨frontFaultless, faultless⟩

/-- What stands in parentheses up to the one that closes them has no fault. -/
theorem fault?_of_closeAt? (nonnegative : 0 ≤ nesting.depth)
    (closed : (nesting.raised 1).closeAt? text = some (front, back)) :
    nesting.fault? front = none := by
  induction text generalizing nesting front with
  | nil => cases closed
  | cons head tail induction =>
      have lowered : nesting.depth - 1 ≤ (nesting.after head).depth := by
        rw [after]
        split
        · exact Int.sub_le_self _ (by decide)
        · split
          · omega
          · split
            · dsimp only
              omega
            · split
              · exact Int.le_refl _
              · omega
      rw [closeAt?, after_raised] at closed
      split at closed
      · rename_i outside
        cases closed
        have negative : (nesting.after head).depth + 1 = 0 := outside
        have surface : nesting.depth = 0 := by omega
        cases quoted : nesting.quoted with
        | false => simp [fault?, quoted, surface]
        | true =>
            have kept : (nesting.after head).depth = nesting.depth := by
              simp only [after, quoted, if_true]
              split <;> rfl
            omega
      · rename_i inside
        obtain ⟨⟨before, rest⟩, later, equal⟩ := Option.map_eq_some_iff.mp closed
        cases equal
        have deeper : ¬ (nesting.after head).depth + 1 = 0 := inside
        rw [fault?, if_neg (by omega)]
        exact induction (by omega) later

/-! ## Cuts of parts -/

/-- In front of the first place where the token is found, it is not found. -/
theorem cutAt?_front (cut : cutAt? token nesting text = some (front, back)) :
    cutAt? token nesting front = none := by
  induction text generalizing nesting front with
  | nil => cases cut
  | cons head tail induction =>
      have whole := cut
      rw [cutAt?] at cut
      split at cut
      · cases cut
        rfl
      · rename_i absent
        obtain ⟨⟨before, rest⟩, later, equal⟩ := Option.map_eq_some_iff.mp cut
        cases equal
        have shorter : ¬ (nesting.admits head && token.isPrefixOf (head :: before)) = true := by
          intro found
          obtain ⟨admitted, starts⟩ := Bool.and_eq_true_iff.mp found
          apply absent
          by_cases empty : token = []
          · simp [empty, admitted]
          · rw [eq_append_of_cutAt? empty later, admitted, Bool.true_and,
              List.isPrefixOf_iff_prefix]
            exact (List.isPrefixOf_iff_prefix.mp starts).trans ⟨token ++ back, by simp⟩
        rw [cutAt?, if_neg shorter, induction later, Option.map_none]

theorem cutAt?_of_append (uncut : cutAt? token nesting (front ++ back) = none) :
    cutAt? token nesting front = none ∧ cutAt? token (nesting.behind front) back = none := by
  induction front generalizing nesting with
  | nil => exact ⟨rfl, uncut⟩
  | cons head tail induction =>
      rw [List.cons_append, cutAt?] at uncut
      split at uncut
      · cases uncut
      · rename_i absent
        have rest := induction (Option.map_eq_none_iff.mp uncut)
        have shorter : ¬ (nesting.admits head && token.isPrefixOf (head :: tail)) = true := by
          intro found
          obtain ⟨admitted, starts⟩ := Bool.and_eq_true_iff.mp found
          apply absent
          rw [admitted, Bool.true_and, List.isPrefixOf_iff_prefix]
          exact (List.isPrefixOf_iff_prefix.mp starts).trans ⟨back, by simp⟩
        rw [cutAt?, if_neg shorter, rest.1, Option.map_none]
        exact ⟨rfl, rest.2⟩

theorem cutAt?_trim (uncut : cutAt? token top text = none) :
    cutAt? token top (Text.trim text) = none := by
  obtain ⟨before, after, beforeGap, afterGap, whole⟩ := Text.exists_gaps_around_trim text
  rw [whole, List.append_assoc] at uncut
  have behindGap := (cutAt?_of_append uncut).2
  rw [behind_of_isInert beforeGap.isInert] at behindGap
  exact (cutAt?_of_append behindGap).1

end Nesting

/-! ## Parts of texts -/

namespace Text

/-- A token that can be told from the texts around it: it has no blanks, quotes or parentheses. -/
structure IsMark (token : Text) : Prop where
  nonempty : token ≠ []
  inert : ∀ c ∈ token, Nesting.IsInert c
  solid : ∀ c ∈ token, isBlank c = false

/-- The text stands between tokens as it is: it has no fault, no blanks at its ends and does not
show the token outside quotes and parentheses. -/
structure IsUndivided (token text : Text) : Prop where
  faultless : Nesting.top.fault? text = none
  trimmed : trim text = text
  uncut : Nesting.cutAt? token .top text = none

section Pieces

variable {token text piece : Text}

theorem faultless_of_mem_splitAround (mark : IsMark token)
    (faultless : Nesting.top.fault? text = none) (mem : piece ∈ splitAround token text) :
    Nesting.top.fault? piece = none := by
  fun_induction splitAround token text with
  | case1 text none => exact List.mem_singleton.mp mem ▸ faultless
  | case2 text front back cut induction =>
      have parts := Nesting.fault?_of_cutAt? mark.nonempty mark.inert faultless cut
      cases List.mem_cons.mp mem with
      | inl first => exact first ▸ parts.1
      | inr later => exact induction parts.2 later

theorem cutAt?_of_mem_splitAround (mem : piece ∈ splitAround token text) :
    Nesting.cutAt? token .top piece = none := by
  fun_induction splitAround token text with
  | case1 text none => exact List.mem_singleton.mp mem ▸ none
  | case2 text front back cut induction =>
      cases List.mem_cons.mp mem with
      | inl first => exact first ▸ Nesting.cutAt?_front cut
      | inr later => exact induction later

theorem isUndivided_of_mem_splitAround (mark : IsMark token)
    (faultless : Nesting.top.fault? text = none) (mem : piece ∈ splitAround token text) :
    IsUndivided token (trim piece) where
  faultless := Nesting.fault?_trim (faultless_of_mem_splitAround mark faultless mem)
  trimmed := trim_trim piece
  uncut := Nesting.cutAt?_trim (cutAt?_of_mem_splitAround mem)

end Pieces

end Text

namespace Connective

theorem token_ne_nil (connective : Connective) : connective.token ≠ [] := by
  cases connective <;> decide

theorem isMark_token (connective : Connective) : Text.IsMark connective.token where
  nonempty := connective.token_ne_nil
  inert := isInert_of_mem_token
  solid := by cases connective <;> decide

end Connective

namespace Text

/-- The connective stands nowhere outside quotes and parentheses. -/
def IsUncut (connective : Connective) (text : Text) : Prop :=
  Nesting.cutAt? connective.token .top text = none

/-- An operand has no fault, no blanks at its ends and no connective outside. -/
structure IsOperand (text : Text) : Prop where
  faultless : Nesting.top.fault? text = none
  trimmed : trim text = text
  uncut : ∀ connective, IsUncut connective text

theorem IsOperand.isUndivided {text : Text} (isOperand : IsOperand text)
    (connective : Connective) : IsUndivided connective.token text where
  faultless := isOperand.faultless
  trimmed := isOperand.trimmed
  uncut := isOperand.uncut connective

section Pieces

variable {connective : Connective} {text piece : Text}

/-- What is not found in a text is not found in its pieces. -/
theorem IsUncut.of_mem_splitAround {other : Connective} (uncut : IsUncut other text)
    (mem : piece ∈ splitAround connective.token text) : IsUncut other piece := by
  fun_induction splitAround connective.token text with
  | case1 text none => exact List.mem_singleton.mp mem ▸ uncut
  | case2 text front back cut induction =>
      rw [IsUncut, Nesting.eq_append_of_cutAt? connective.token_ne_nil cut, List.append_assoc]
        at uncut
      have parts := Nesting.cutAt?_of_append uncut
      have rest := (Nesting.cutAt?_of_append parts.2).2
      rw [Nesting.behind_of_cutAt? cut,
        Nesting.behind_of_isInert Connective.isInert_of_mem_token] at rest
      cases List.mem_cons.mp mem with
      | inl first => exact first ▸ parts.1
      | inr later => exact induction rest later

/-- What stands between `&&` in what stands between `||` is an operand. -/
theorem isOperand_of_mem_splitAround {alternative factor : Text}
    (faultless : Nesting.top.fault? text = none)
    (alternativeMem : alternative ∈ splitAround Connective.or.token text)
    (factorMem : factor ∈ splitAround Connective.and.token (trim alternative)) :
    IsOperand (trim factor) where
  faultless := (isUndivided_of_mem_splitAround Connective.and.isMark_token
    (isUndivided_of_mem_splitAround Connective.or.isMark_token faultless alternativeMem).faultless
      factorMem).faultless
  trimmed := trim_trim factor
  uncut
    | .and => Nesting.cutAt?_trim (cutAt?_of_mem_splitAround factorMem)
    | .or =>
      have outer : IsUncut .or (trim alternative) :=
        Nesting.cutAt?_trim (cutAt?_of_mem_splitAround alternativeMem)
      Nesting.cutAt?_trim (outer.of_mem_splitAround factorMem)

end Pieces

theorem exists_of_unwrap? {text inner : Text} (unwrapped : unwrap? text = some inner) :
    ∃ rest, text = '(' :: rest ∧ (Nesting.top.raised 1).closeAt? rest = some (inner, []) := by
  rw [unwrap?.eq_def] at unwrapped
  split at unwrapped
  · rename_i rest
    split at unwrapped
    · rename_i closed
      cases unwrapped
      exact ⟨rest, rfl, closed⟩
    · cases unwrapped
  · cases unwrapped

theorem faultless_of_unwrap? {text inner : Text} (unwrapped : unwrap? text = some inner) :
    Nesting.top.fault? inner = none := by
  obtain ⟨rest, _, closed⟩ := exists_of_unwrap? unwrapped
  exact Nesting.fault?_of_closeAt? (Int.le_refl 0) closed

end Text

namespace Condition

open Text (IsOperand)

theorem exists_of_negatedPart? {text part : Text} (negated : negatedPart? text = some part) :
    ∃ rest, text = '!' :: rest ∧ Text.trim rest = part ∧ part.head? ≠ some '=' ∧
      ((Text.unwrap? part).isSome = true ∨ findComparator? part = none) := by
  rw [negatedPart?.eq_def] at negated
  split at negated
  · rename_i rest
    dsimp only at negated
    split at negated
    · rename_i accepted
      cases negated
      simp only [Bool.and_eq_true, decide_eq_true_eq, Bool.or_eq_true,
        Option.isNone_iff_eq_none] at accepted
      exact ⟨rest, rfl, rfl, accepted⟩
    · cases negated
  · cases negated

theorem isOperand_of_negatedPart? {text part : Text} (isOperand : IsOperand text)
    (negated : negatedPart? text = some part) : IsOperand part := by
  obtain ⟨rest, rfl, rfl, -⟩ := exists_of_negatedPart? negated
  refine ⟨Nesting.fault?_trim isOperand.faultless, Text.trim_trim rest, fun connective => ?_⟩
  have uncut : Nesting.cutAt? connective.token .top (['!'] ++ rest) = none :=
    isOperand.uncut connective
  exact Nesting.cutAt?_trim (Nesting.cutAt?_of_append uncut).2

variable {σ : Type} [Keyed σ]

/-- What is so of the leaves of all operands, and stays so under negations, in parentheses and in
chains. -/
structure Inherited (scope : StepScope σ) (motive : Text → Condition σ → Prop) : Prop where
  leaf : ∀ {text : Text}, IsOperand text → Text.unwrap? text = none → negatedPart? text = none →
    motive text (leaf scope text)
  negated : ∀ {text part : Text}, IsOperand text → negatedPart? text = some part →
    motive part (ofOperand scope part) → motive text (ofOperand scope part).negate
  unwrapped : ∀ {text inner : Text} {condition : Condition σ}, IsOperand text →
    Text.unwrap? text = some inner → motive (Text.trim inner) condition → motive text condition
  chain : ∀ {connective : Connective} {read : Text → Condition σ} {text : Text},
    Nesting.top.fault? text = none →
    (∀ piece ∈ Text.splitAround connective.token text,
      motive (Text.trim piece) (read (Text.trim piece))) →
    motive text (ofChain connective read text)

namespace Inherited

variable {scope : StepScope σ} {motive : Text → Condition σ → Prop}
  (inherited : Inherited scope motive) {text : Text}

include inherited

/-- The induction is on the length: it alone gets smaller on every way into the text. -/
theorem ofOperand (isOperand : IsOperand text) : motive text (ofOperand scope text) := by
  induction length : text.length using Nat.strong_induction_on generalizing text with
  | _ length induction =>
      subst length
      cases unwrapped : Text.unwrap? text with
      | some inner =>
          have shorter : (Text.trim inner).length < text.length :=
            Nat.lt_of_le_of_lt (Text.length_trim_le inner) (Text.length_unwrap? unwrapped)
          have faultless := Nesting.fault?_trim (Text.faultless_of_unwrap? unwrapped)
          rw [ofOperand_of_unwrap? unwrapped, ofExpression_eq]
          apply inherited.unwrapped isOperand unwrapped
          apply inherited.chain faultless
          intro alternative alternativeMem
          apply inherited.chain (Text.isUndivided_of_mem_splitAround Connective.or.isMark_token
            faultless alternativeMem).faultless
          intro factor factorMem
          have alternativeLength := Text.length_le_of_mem_splitAround alternativeMem
          have alternativeTrimmed := Text.length_trim_le alternative
          have factorLength := Text.length_le_of_mem_splitAround factorMem
          have factorTrimmed := Text.length_trim_le factor
          exact induction (Text.trim factor).length (by omega)
            (Text.isOperand_of_mem_splitAround faultless alternativeMem factorMem) rfl
      | none =>
          cases negated : negatedPart? text with
          | some part =>
              rw [ofOperand_of_negatedPart? unwrapped negated]
              exact inherited.negated isOperand negated
                (induction part.length (length_negatedPart? negated)
                  (isOperand_of_negatedPart? isOperand negated) rfl)
          | none =>
              rw [ofOperand_of_none unwrapped negated]
              exact inherited.leaf isOperand unwrapped negated

theorem ofExpression (faultless : Nesting.top.fault? text = none) :
    motive text (ofExpression scope text) := by
  rw [ofExpression_eq]
  apply inherited.chain faultless
  intro alternative alternativeMem
  apply inherited.chain (Text.isUndivided_of_mem_splitAround Connective.or.isMark_token
    faultless alternativeMem).faultless
  intro factor factorMem
  exact inherited.ofOperand
    (Text.isOperand_of_mem_splitAround faultless alternativeMem factorMem)

end Inherited

/-! ## Whole texts -/

theorem parse_eq_ok_iff {scope : StepScope σ} {text : Text} {condition : Condition σ} :
    parse scope text = .ok condition ↔ Text.expressionBody text ≠ [] ∧
      Nesting.top.fault? (Text.expressionBody text) = none ∧
      ofExpression scope (Text.expressionBody text) = condition := by
  rw [parse]
  cases Text.expressionBody text with
  | nil => simp
  | cons head tail =>
      cases Nesting.top.fault? (head :: tail) <;> simp

theorem Closed.join {among : Condition σ → Prop} (closed : Closed among) (connective : Connective)
    {left right : Condition σ} (leftMem : among left) (rightMem : among right) :
    among (connective.join left right) := by
  cases connective with
  | and => exact closed.conj leftMem rightMem
  | or => exact closed.disj leftMem rightMem

theorem joinAll_cons (connective : Connective) (head : Condition σ) (tail : List (Condition σ)) :
    connective.joinAll (head :: tail) = some (tail.foldl connective.join head) := by
  cases connective <;> rfl

section Joins

variable {scope : StepScope σ} {among : Condition σ → Prop}
  (joins : ∀ (connective : Connective) {left right : Condition σ}, among left → among right →
    among (connective.join left right))

include joins

theorem among_joinAll {connective : Connective} {conditions : List (Condition σ)}
    {whole : Condition σ} (members : ∀ condition ∈ conditions, among condition)
    (found : connective.joinAll conditions = some whole) : among whole := by
  cases conditions with
  | nil => cases connective <;> cases found
  | cons head tail =>
      rw [joinAll_cons] at found
      cases found
      exact List.foldlRecOn tail connective.join (members head List.mem_cons_self)
        fun sum sumMem next nextMem =>
          joins connective sumMem (members next (List.mem_cons_of_mem head nextMem))

theorem among_ofChain {connective : Connective} {read : Text → Condition σ} {text : Text}
    (pieces : ∀ piece ∈ Text.splitAround connective.token text, among (read (Text.trim piece))) :
    among (ofChain connective read text) := by
  have nonempty : (Text.splitAround connective.token text).map (fun part => read (Text.trim part)) ≠
      [] := mt List.map_eq_nil_iff.mp (Nesting.splitAround_ne_nil _ _)
  obtain ⟨condition, found⟩ := Option.isSome_iff_exists.mp (joinAll_isSome connective nonempty)
  rw [ofChain, found]
  exact among_joinAll joins (List.forall_mem_map.mpr pieces) found

/-- What is kept by the connectives and by negation and holds of the leaves of all operands holds of
every condition that is read. -/
theorem among_of_parse (negates : ∀ condition, among condition → among condition.negate)
    (leaves : ∀ {text : Text}, IsOperand text → Text.unwrap? text = none →
      negatedPart? text = none → among (leaf scope text))
    {text : Text} {condition : Condition σ} (parsed : parse scope text = .ok condition) :
    among condition := by
  have inherited : Inherited scope fun _ => among := {
    leaf := leaves
    negated := fun _ _ => negates _
    unwrapped := fun _ _ inside => inside
    chain := fun _ => among_ofChain joins }
  obtain ⟨_, faultless, rfl⟩ := parse_eq_ok_iff.mp parsed
  exact inherited.ofExpression faultless

end Joins

end Condition

end FlowPlan
