import FlowPlan.Proofs.Alternatives
import FlowPlan.Proofs.BareConditions
import FlowPlan.Proofs.VaryingOperands
import Mathlib.Data.List.Perm.Subperm

/-! # Terms that cover one another

Of two terms of which one covers the other only one is kept. So the operands of
no kept term are among those of another one, and the same is true of the terms
of the simplified disjunction, as long as every kept term is still one term
there. A conjunction that says the same disjunction over and over is not: it is
left with one operand, which falls apart into terms that nothing compares.
-/

namespace FlowPlan

open Conjunction (includedIn sameOperands absorbs shared only)

namespace Conjunction

variable {σ : Type}

/-- The texts of the operands. -/
def texts (term : Conjunction σ) : List Text := term.map Condition.render

theorem includedIn_iff {left right : Conjunction σ} :
    includedIn left right = true ↔ texts left ⊆ texts right := by
  simp [includedIn, holds, texts, List.subset_def]

theorem texts_sublist {left right : Conjunction σ} (sublist : left.Sublist right) :
    (texts left).Sublist (texts right) :=
  sublist.map Condition.render

theorem nodup_texts_ofOperands (operands : List (Condition σ)) :
    (texts (ofOperands operands)).Nodup := by
  have different := pairwise_distinctBy Condition.sameText operands
  rw [List.Nodup, texts, List.pairwise_map]
  exact different.imp fun other equal => by simp [Condition.sameText, equal] at other

/-- Texts of which none repeats cannot be among fewer. -/
theorem length_le_of_texts_subset {left right : Conjunction σ} (distinct : (texts left).Nodup)
    (subset : texts left ⊆ texts right) : left.length ≤ right.length := by
  simpa [texts] using (List.subperm_of_subset distinct subset).length_le

theorem texts_subset_of_length_le {left right : Conjunction σ} (distinct : (texts left).Nodup)
    (subset : texts left ⊆ texts right) (shorter : right.length ≤ left.length) :
    texts right ⊆ texts left := by
  have permuted := (List.subperm_of_subset distinct subset).perm_of_length_le (by simpa [texts] using shorter)
  exact permuted.symm.subset

end Conjunction

open Conjunction (texts)

namespace Condition

variable {σ : Type}

/-! ## Kept terms -/

theorem absorbs_eq_false_of_mem_withoutAbsorbed {terms : List (Conjunction σ)}
    {other term : Conjunction σ} (mem : term ∈ withoutAbsorbed terms) (otherMem : other ∈ terms) :
    absorbs other term = false := by
  have notAbsorbed := (List.mem_filter.mp mem).2
  rw [absorbed, Bool.not_eq_true', List.any_eq_false] at notAbsorbed
  simpa using notAbsorbed other otherMem

/-- Neither of two kept terms has all texts of the other one. -/
theorem pairwise_keptTerms {terms : List (Conjunction σ)}
    (distinct : ∀ term ∈ terms, (texts term).Nodup) :
    (keptTerms terms).Pairwise fun first second =>
      ¬ texts first ⊆ texts second ∧ ¬ texts second ⊆ texts first := by
  have different : (keptTerms terms).Pairwise fun first second =>
      sameOperands first second = false := (pairwise_distinctBy sameOperands terms).filter _
  refine different.imp_of_mem fun {first second} firstMem secondMem unlike => ?_
  have firstDistinct := distinct first (mem_of_mem_keptTerms firstMem)
  have secondDistinct := distinct second (mem_of_mem_keptTerms secondMem)
  have notAbsorbed : ∀ {one another : Conjunction σ}, one ∈ keptTerms terms →
      another ∈ keptTerms terms → texts another ⊆ texts one →
        ¬ another.length < one.length := by
    intro one another oneMem anotherMem subset shorter
    have kept := absorbs_eq_false_of_mem_withoutAbsorbed oneMem (List.mem_filter.mp anotherMem).1
    simp [absorbs, shorter, Conjunction.includedIn_iff.mpr subset] at kept
  have notSame : first.length = second.length → ¬ texts first ⊆ texts second := by
    intro equal subset
    simp [sameOperands, equal, Conjunction.includedIn_iff.mpr subset] at unlike
  constructor
  · intro subset
    have shorter := Conjunction.length_le_of_texts_subset firstDistinct subset
    have notShorter := notAbsorbed secondMem firstMem subset
    exact notSame (by omega) subset
  · intro subset
    have shorter := Conjunction.length_le_of_texts_subset secondDistinct subset
    have notShorter := notAbsorbed firstMem secondMem subset
    exact notSame (by omega)
      (Conjunction.texts_subset_of_length_le secondDistinct subset (by omega))

/-! ## Terms that stay one term -/

/-- No conjunction in the condition comes down to a single disjunction. -/
def RepeatsNoDisjunction : Condition σ → Prop
  | .joined connective left right =>
    left.RepeatsNoDisjunction ∧ right.RepeatsNoDisjunction ∧
      (connective = .and → ∀ first second,
        Conjunction.ofCondition (.joined .and left right) ≠ [.joined .or first second])
  | .negated _ => True
  | .comparison .. => True
  | .call .. => True
  | .raw .. => True

/-- Constants and repeated disjunctions occur nowhere under the connectives. -/
def IsTidy (condition : Condition σ) : Prop :=
  condition.OperandsVary ∧ condition.RepeatsNoDisjunction

theorem splits_isTidy : Splits (IsTidy : Condition σ → Prop) := by
  intro connective left right tidy
  exact ⟨⟨tidy.1.1.2, tidy.2.1⟩, tidy.1.2.2, tidy.2.2.1⟩

theorem disjuncts_eq_singleton {condition : Condition σ}
    (other : ∀ first second, condition ≠ .joined .or first second) :
    condition.disjuncts = [condition] := by
  cases condition with
  | joined connective left right =>
      cases connective with
      | and => rfl
      | or => exact absurd rfl (other left right)
  | comparison | call | negated | raw => rfl

theorem disjuncts_joined_or_ne (first second : Condition σ) :
    (joined .or first second).disjuncts ≠ [.joined .or first second] := by
  intro equal
  have firstSome := List.length_pos_of_ne_nil (Conjunction.operands_ne_nil .or first)
  have secondSome := List.length_pos_of_ne_nil (Conjunction.operands_ne_nil .or second)
  have lengths := congrArg List.length equal
  simp only [disjuncts, operands, if_true, List.length_append, List.length_singleton] at lengths
  omega

/-- Only a conjunction has operands other than itself. -/
theorem disjuncts_eq_of_conjuncts_ne {condition : Condition σ}
    (several : condition.conjuncts ≠ [condition]) : condition.disjuncts = [condition] := by
  refine disjuncts_eq_singleton fun first second equal => several ?_
  rw [equal]
  rfl

/-- A term of which each operand varies and is no conjunction, no two operands have one text, and a
single operand is no disjunction. -/
structure IsProper (term : Conjunction σ) : Prop where
  formed : Conjunction.Formed IsTidy term
  vary : ∀ operand ∈ term, operand.Varies
  distinct : (texts term).Nodup
  lone : ∀ single, term = [single] → single.disjuncts = [single]

theorem isProper_ofCondition {condition : Condition σ} (tidy : condition.IsTidy)
    (varies : condition.Varies) (single : condition.disjuncts = [condition]) :
    IsProper (Conjunction.ofCondition condition) where
  formed := Conjunction.formed_ofCondition splits_isTidy tidy
  vary _ mem := varies_of_mem_operands varies tidy.1 (mem_of_mem_distinctBy mem)
  distinct := Conjunction.nodup_texts_ofOperands _
  lone operand equal := by
    cases condition with
    | joined connective left right =>
        cases connective with
        | and =>
            refine disjuncts_eq_singleton fun first second isOr => ?_
            exact tidy.2.2.2 rfl first second (isOr ▸ equal)
        | or => exact absurd single (disjuncts_joined_or_ne left right)
    | comparison | call | negated | raw =>
        cases equal
        exact single

theorem isProper_replacement {left right : Conjunction σ} (proper : IsProper left)
    (overlap : shared left right ≠ []) :
    ∀ term ∈ replacement (shared left right), IsProper term := by
  have part : ∀ operand ∈ shared left right, operand ∈ left :=
    fun operand mem => (List.mem_filter.mp mem).1
  intro term mem
  have formed := Conjunction.formed_replacement splits_isTidy proper.formed overlap term mem
  unfold replacement at mem
  split at mem
  · rename_i single equal
    have singleMem : single ∈ left := part single (by simp [equal])
    obtain ⟨alternative, alternativeMem, rfl⟩ := List.mem_map.mp mem
    have tidy := splits_isTidy.of_mem_operands .or (proper.formed.among single singleMem)
      alternativeMem
    have varies := varies_of_mem_operands (proper.vary single singleMem)
      (proper.formed.among single singleMem).1 alternativeMem
    exact isProper_ofCondition tidy varies (Conjunction.operands_of_mem_operands alternativeMem)
  · rename_i several
    cases List.mem_singleton.mp mem
    exact {
      formed := formed
      vary := fun operand mem => proper.vary operand (part operand mem)
      distinct := proper.distinct.sublist (Conjunction.texts_sublist List.filter_sublist)
      lone := fun single equal => absurd equal (several single) }

theorem isProper_terms? {alternatives : List (Condition σ)}
    (tidy : ∀ alternative ∈ alternatives, alternative.IsTidy) {terms : List (Conjunction σ)}
    (found : terms? alternatives = some terms) : ∀ term ∈ terms, IsProper term := by
  intro term mem
  obtain ⟨alternative, alternativeMem, operand, operandMem, notFalse, rfl⟩ :=
    (mem_terms? found).mp mem
  have notTrue : operand.isTrue = false := by
    unfold terms? at found
    dsimp only at found
    split at found
    · cases found
    · rename_i noneTrue
      rw [Bool.not_eq_true, List.any_eq_false] at noneTrue
      simpa using noneTrue operand (List.mem_flatMap.mpr ⟨alternative, alternativeMem, operandMem⟩)
  exact isProper_ofCondition
    (splits_isTidy.of_mem_operands .or (tidy alternative alternativeMem) operandMem)
    ⟨notTrue, notFalse⟩ (Conjunction.operands_of_mem_operands operandMem)

variable [Keyed σ]

theorem isProper_mergeComplements {terms merged : List (Conjunction σ)}
    (proper : ∀ term ∈ terms, IsProper term) (found : mergeComplements terms = some merged) :
    ∀ term ∈ merged, IsProper term := by
  fun_induction mergeComplements terms with
  | case1 terms => exact Option.some.inj found ▸ proper
  | case2 => cases found
  | case3 terms pair cut both overlap induction =>
      cases (whole_of_findPair? cut).2
      refine induction (fun term mem => ?_) found
      simp only [List.mem_append] at mem
      obtain ((before | replaced) | between) | after := mem
      · exact proper term (by simp [Pair.whole, before])
      · exact isProper_replacement (proper pair.first (by simp [Pair.whole]))
          (by simpa using overlap) term replaced
      · exact proper term (by simp [Pair.whole, between])
      · exact proper term (by simp [Pair.whole, after])

/-! ## Terms of the result -/

/-- A proper term becomes a condition that is one term with the same operands. -/
theorem IsProper.allOf {term : Conjunction σ} (proper : IsProper term) {all : Condition σ}
    (found : allOf term = some all) :
    all.Varies ∧ all.conjuncts = term ∧ all.disjuncts = [all] := by
  have joined := operands_joinAll .and proper.vary found
  have conjuncts : all.conjuncts = term := by
    have flat : term.flatMap (operands .and) = term.flatMap fun operand => [operand] :=
      List.flatMap_congr fun operand mem => proper.formed.flat operand mem
    rw [Condition.conjuncts, joined.2, flat, List.flatMap_singleton']
  refine ⟨joined.1, conjuncts, ?_⟩
  by_cases lone : term = [all]
  · exact proper.lone all lone
  · exact disjuncts_eq_of_conjuncts_ne (conjuncts ▸ lone)

/-- The terms of the simplified disjunction, where no factor is taken out. -/
theorem disjuncts_anyOf {terms : List (Conjunction σ)} (proper : ∀ term ∈ terms, IsProper term)
    {result : Condition σ} (found : anyOf (terms.filterMap Condition.allOf) = some result) :
    result.disjuncts = terms.filterMap Condition.allOf := by
  have parts : ∀ all ∈ terms.filterMap Condition.allOf, all.Varies ∧ all.disjuncts = [all] := by
    intro all mem
    obtain ⟨term, termMem, equal⟩ := List.mem_filterMap.mp mem
    have properAll := (proper term termMem).allOf equal
    exact ⟨properAll.1, properAll.2.2⟩
  have joined := operands_joinAll .or (fun all mem => (parts all mem).1) found
  have single : (terms.filterMap Condition.allOf).flatMap (operands .or) =
      (terms.filterMap Condition.allOf).flatMap fun all => [all] :=
    List.flatMap_congr fun all mem => (parts all mem).2
  rw [disjuncts, joined.2, single, List.flatMap_singleton']

theorem disjuncts_joinAll_remainders {terms : List (Conjunction σ)}
    (proper : ∀ term ∈ terms, IsProper term)
    (apart : terms.Pairwise fun first second =>
      ¬ texts first ⊆ texts second ∧ ¬ texts second ⊆ texts first)
    (several : ∀ single, terms ≠ [single]) {result : Condition σ}
    (found : factored? terms = some result) : result.disjuncts = [result] := by
  have sublist : ∀ term : Conjunction σ, ∀ operand ∈ only term (commonFactors terms),
      operand ∈ term := fun term operand mem => (List.mem_filter.mp mem).1
  obtain ⟨factor, factorFound, rest⟩ := Option.bind_eq_some_iff.mp found
  have factorVaries : factor.Varies := by
    refine (operands_joinAll .and (fun operand mem => ?_) factorFound).1
    obtain ⟨term, termMem, operandMem⟩ := (commonFactors_spec mem).1
    exact (proper term termMem).vary operand operandMem
  split at rest
  · rename_i remainders mapped
    obtain ⟨sum, sumFound, rfl⟩ := Option.map_eq_some_iff.mp rest
    have sumVaries : sum.Varies := by
      refine (operands_joinAll .or (fun remainder mem => ?_) sumFound).1
      obtain ⟨term, termMem, equal⟩ := exists_member_of_mapM mapped mem
      exact (operands_joinAll .and (fun operand operandMem =>
        (proper term termMem).vary operand (sublist term operand operandMem)) equal).1
    have whole : factor.conj sum = .joined .and factor sum :=
      join_eq_joined .and factorVaries sumVaries
    rw [whole]
    rfl
  · -- A term of which nothing remains has no texts but those that all terms share.
    rename_i failed
    obtain ⟨term, termMem, nothing⟩ := exists_none_of_mapM_eq_none failed
    have covered : ∀ other ∈ terms, texts term ⊆ texts other := by
      intro other otherMem
      rw [← Conjunction.includedIn_iff]
      refine List.all_eq_true.mpr fun operand mem => ?_
      cases kept : Conjunction.holds (commonFactors terms) operand.render with
      | true =>
          obtain ⟨shown, shownMem, equal⟩ := Conjunction.holds_eq_true_iff.mp kept
          rw [← equal]
          exact (commonFactors_spec shownMem).2 other otherMem
      | false =>
          have remains : operand ∈ only term (commonFactors terms) :=
            List.mem_filter.mpr ⟨mem, by simp [kept]⟩
          rw [eq_nil_of_allOf_eq_none nothing] at remains
          cases remains
    cases terms with
    | nil => cases termMem
    | cons first others =>
        cases others with
        | nil => exact absurd rfl (several first)
        | cons second others =>
            have firstApart := (List.pairwise_cons.mp apart).1
            cases List.mem_cons.mp termMem with
            | inl equal =>
                exact absurd (covered second (by simp)) (equal ▸ (firstApart second (by simp)).1)
            | inr later => exact absurd (covered first (by simp)) (firstApart term later).2

/-- Neither of the conditions has all conjuncts of the other one, going by their texts. -/
def AreApart (first second : Condition σ) : Prop :=
  ¬ texts first.conjuncts ⊆ texts second.conjuncts ∧
    ¬ texts second.conjuncts ⊆ texts first.conjuncts

theorem pairwise_areApart_ofTerms {terms : List (Conjunction σ)}
    (proper : ∀ term ∈ terms, IsProper term) {result : Condition σ}
    (found : ofTerms terms = some result) : result.disjuncts.Pairwise AreApart := by
  have keptProper : ∀ term ∈ keptTerms terms, IsProper term :=
    fun term mem => proper term (mem_of_mem_keptTerms mem)
  have apart := pairwise_keptTerms fun term mem => (proper term mem).distinct
  have kept : withoutAbsorbed (distinctBy sameOperands terms) = keptTerms terms := rfl
  rw [ofTerms, kept] at found
  split at found
  · rename_i single equal
    rw [((keptProper single (by simp [equal])).allOf found).2.2]
    exact List.pairwise_singleton _ _
  · rename_i several
    rcases Option.or_eq_some_iff.mp found with factored | ⟨_, any⟩
    · rw [disjuncts_joinAll_remainders keptProper apart several factored]
      exact List.pairwise_singleton _ _
    · rw [disjuncts_anyOf keptProper any, List.pairwise_filterMap]
      refine apart.imp_of_mem fun {first second} firstMem secondMem unlike => ?_
      intro all allFound other otherFound
      rw [AreApart, ((keptProper first firstMem).allOf allFound).2.1,
        ((keptProper second secondMem).allOf otherFound).2.1]
      exact unlike

/-- If the alternatives have no constant under a connective and say no disjunction over and over,
no term of their simplified disjunction has all conjuncts of another term. -/
theorem simplified_terms_are_apart {alternatives : List (Condition σ)} {result : Condition σ}
    (vary : ∀ alternative ∈ alternatives, alternative.OperandsVary)
    (repeats : ∀ alternative ∈ alternatives, alternative.RepeatsNoDisjunction)
    (different : ∃ first ∈ alternatives, ∃ second ∈ alternatives, first.render ≠ second.render)
    (found : simplifyAny alternatives = some result) :
    result.disjuncts.Pairwise AreApart := by
  have tidy : ∀ alternative ∈ distinctByText alternatives, alternative.IsTidy :=
    fun alternative mem => ⟨vary alternative (mem_of_mem_distinctBy mem),
      repeats alternative (mem_of_mem_distinctBy mem)⟩
  rcases simplifyAny_cases alternatives with
    ⟨_, ends⟩ | ⟨single, unique, ends⟩ | ⟨_, ends⟩ | ⟨_, ends⟩ | ⟨terms, termsFound, _, ends⟩
  · simp [ends] at found
  · obtain ⟨first, firstMem, second, secondMem, unlike⟩ := different
    have only : ∀ alternative ∈ alternatives, alternative.render = single.render := by
      intro alternative mem
      have kept : ∃ other ∈ distinctByText alternatives, other.render = alternative.render :=
        exists_mem_distinctBy (fun {left right} same equal =>
          (of_decide_eq_true same).trans equal) mem rfl
      obtain ⟨other, otherMem, equal⟩ := kept
      rw [unique] at otherMem
      rw [← equal, List.mem_singleton.mp otherMem]
    exact absurd ((only first firstMem).trans (only second secondMem).symm) unlike
  · simp [ends] at found
  · cases ends.symm.trans found
    exact List.pairwise_singleton _ _
  · obtain ⟨merged, mergedFound, rest⟩ := Option.bind_eq_some_iff.mp (ends.symm.trans found)
    exact pairwise_areApart_ofTerms
      (isProper_mergeComplements (isProper_terms? tidy termsFound) mergedFound) rest

end Condition

namespace Sample

open Condition (simplifyAny AreApart)

def wantsX : Condition Step := .raw ['x'] []

def wantsY : Condition Step := .raw ['y'] []

/-- The second alternative covers the first one. -/
def overlapping : List (Condition Step) := [.joined .and wantsX wantsY, wantsX]

theorem simplifyAny_overlapping : simplifyAny overlapping = some wantsX := by
  have terms : simplifyAny overlapping =
      (Condition.mergeComplements [[wantsX, wantsY], [wantsX]]).bind Condition.ofTerms := rfl
  rw [terms, Condition.mergeComplements_of_none rfl]
  rfl

theorem simplified_terms_are_apart_overlapping :
    simplifyAny overlapping = some wantsX ∧ wantsX.disjuncts.Pairwise AreApart := by
  refine ⟨simplifyAny_overlapping, ?_⟩
  apply Condition.simplified_terms_are_apart _ _ _ simplifyAny_overlapping
  · exact List.forall_mem_cons.mpr ⟨⟨⟨⟨rfl, rfl⟩, trivial⟩, ⟨rfl, rfl⟩, trivial⟩,
      List.forall_mem_singleton.mpr trivial⟩
  · have operands : Conjunction.ofCondition (.joined .and wantsX wantsY) = [wantsX, wantsY] := rfl
    exact List.forall_mem_cons.mpr ⟨⟨trivial, trivial, fun _ _ _ => by simp [operands]⟩,
      List.forall_mem_singleton.mpr trivial⟩
  · exact ⟨_, List.mem_cons_self, _, List.mem_cons_of_mem _ List.mem_cons_self, by decide⟩

def wantsEither : Condition Step := .joined .or wantsX wantsY

/-- `(x || y) && (x || y)` has the single operand `x || y` and covers `x`, which nothing notices: the
result is `x || y || x`. -/
theorem repeated_disjunction_hides_terms :
    (Condition.joined .and wantsEither wantsEither).render ≠ wantsX.render ∧
      simplifyAny [.joined .and wantsEither wantsEither, wantsX] =
        some (.joined .or wantsEither wantsX) ∧
      ¬ (Condition.joined .or wantsEither wantsX).disjuncts.Pairwise AreApart := by
  refine ⟨by decide, ?_, ?_⟩
  · have terms : simplifyAny [.joined .and wantsEither wantsEither, wantsX] =
        (Condition.mergeComplements [[wantsEither], [wantsX]]).bind Condition.ofTerms := rfl
    rw [terms, Condition.mergeComplements_of_none rfl]
    rfl
  · have terms : (Condition.joined .or wantsEither wantsX).disjuncts =
        [wantsX, wantsY, wantsX] := rfl
    rw [terms]
    intro apart
    exact ((List.pairwise_cons.mp apart).1 wantsX (by simp)).1 (List.Subset.refl _)

end Sample

end FlowPlan
