import FlowPlan.Proofs.Reads

/-! # Conditions without what they read

What a condition reads decides nothing about its text. So everything that only
looks at structure and texts, the whole series of simplifications among it, does
the same to conditions and to what is left of them without their sources.
-/

namespace FlowPlan

theorem distinctBy_map {α β : Type} (f : α → β) (same : β → β → Bool) (members : List α) :
    distinctBy same (members.map f) =
      (distinctBy (fun left right => same (f left) (f right)) members).map f := by
  induction members with
  | nil => rfl
  | cons head tail induction =>
      rw [List.map_cons, distinctBy, distinctBy, induction, List.filter_map, List.map_cons]
      rfl

theorem mapM_option_map {α β γ : Type} (f : α → Option β) (g : β → γ) (members : List α) :
    (members.mapM fun member => (f member).map g) = (members.mapM f).map (List.map g) := by
  induction members with
  | nil => rfl
  | cons head tail induction =>
      rw [List.mapM_cons, List.mapM_cons, induction]
      cases f head with
      | none => rfl
      | some first => cases tail.mapM f <;> rfl

namespace Condition

variable {σ : Type}

/-- The condition without its sources. -/
def bare : Condition σ → Condition σ
  | .comparison left comparator right _ => .comparison left comparator right []
  | .call name arguments _ => .call name arguments []
  | .joined connective left right => .joined connective left.bare right.bare
  | .negated inner => .negated inner.bare
  | .raw text _ => .raw text []

@[simp] theorem isTrue_bare (condition : Condition σ) : condition.bare.isTrue = condition.isTrue := by
  cases condition <;> rfl

@[simp] theorem isFalse_bare (condition : Condition σ) :
    condition.bare.isFalse = condition.isFalse := by
  cases condition <;> rfl

@[simp] theorem wrapsUnder_bare (connective : Connective) (condition : Condition σ) :
    condition.bare.wrapsUnder connective = condition.wrapsUnder connective := by
  cases condition <;> rfl

@[simp] theorem wrapsUnderNegation_bare (condition : Condition σ) :
    condition.bare.wrapsUnderNegation = condition.wrapsUnderNegation := by
  cases condition <;> rfl

@[simp] theorem render_bare (condition : Condition σ) : condition.bare.render = condition.render := by
  induction condition with
  | joined connective left right leftInduction rightInduction =>
      simp [bare, render, leftInduction, rightInduction]
  | negated inner induction => simp [bare, render, induction]
  | _ => rfl

@[simp] theorem sameText_bare (left right : Condition σ) :
    left.bare.sameText right.bare = left.sameText right := by
  simp [sameText]

theorem negates_bare (left right : Condition σ) : left.bare.negates right.bare = left.negates right := by
  cases left <;> simp [bare, negates]

@[simp] theorem isComplementOf_bare (left right : Condition σ) :
    left.bare.isComplementOf right.bare = left.isComplementOf right := by
  have byTexts := negates_bare left right
  have byTexts' := negates_bare right left
  cases left <;> cases right <;>
    simp only [bare] at byTexts byTexts' ⊢ <;> simp [isComplementOf, byTexts, byTexts', render]

theorem operands_bare (connective : Connective) (condition : Condition σ) :
    condition.bare.operands connective = (condition.operands connective).map bare := by
  induction condition with
  | joined found left right leftInduction rightInduction =>
      rw [bare, operands, operands, leftInduction, rightInduction]
      split
      · rw [List.map_append]
      · rfl
  | _ => rfl

@[simp] theorem conjuncts_bare (condition : Condition σ) :
    condition.bare.conjuncts = condition.conjuncts.map bare :=
  operands_bare .and condition

@[simp] theorem disjuncts_bare (condition : Condition σ) :
    condition.bare.disjuncts = condition.disjuncts.map bare :=
  operands_bare .or condition

theorem distinctByText_map_bare (conditions : List (Condition σ)) :
    distinctByText (conditions.map bare) = (distinctByText conditions).map bare := by
  simp [distinctByText, distinctBy_map]

section Joining

variable [Keyed σ]

theorem sources_bare (condition : Condition σ) : condition.bare.sources = [] := by
  induction condition with
  | joined connective left right leftInduction rightInduction =>
      rw [bare, sources, leftInduction, rightInduction]
      rfl
  | negated inner induction => exact induction
  | _ => rfl

theorem collapsed_bare (value : Bool) (left right : Condition σ) :
    collapsed value left.bare right.bare = (collapsed value left right).bare := by
  rw [collapsed, sources_bare, sources_bare]
  rfl

theorem conj_bare (left right : Condition σ) : left.bare.conj right.bare = (left.conj right).bare := by
  simp only [conj, isTrue_bare, isFalse_bare, collapsed_bare]
  split
  · rfl
  · split
    · rfl
    · split <;> rfl

theorem disj_bare (left right : Condition σ) : left.bare.disj right.bare = (left.disj right).bare := by
  simp only [disj, isTrue_bare, isFalse_bare, collapsed_bare]
  split
  · rfl
  · split
    · rfl
    · split <;> rfl

theorem allOf_map_bare (conditions : List (Condition σ)) :
    allOf (conditions.map bare) = (allOf conditions).map bare := by
  cases conditions with
  | nil => rfl
  | cons head tail =>
      rw [List.map_cons, allOf, allOf, List.foldl_map, Option.map_some]
      congr 1
      exact List.foldl_hom bare conj_bare

theorem anyOf_map_bare (conditions : List (Condition σ)) :
    anyOf (conditions.map bare) = (anyOf conditions).map bare := by
  cases conditions with
  | nil => rfl
  | cons head tail =>
      rw [List.map_cons, anyOf, anyOf, List.foldl_map, Option.map_some]
      congr 1
      exact List.foldl_hom bare disj_bare

theorem withDistinctConjuncts_bare (condition : Condition σ) :
    condition.bare.withDistinctConjuncts = condition.withDistinctConjuncts.bare := by
  rw [withDistinctConjuncts, withDistinctConjuncts, conjuncts_bare, distinctByText_map_bare,
    allOf_map_bare]
  cases allOf (distinctByText condition.conjuncts) <;> rfl

end Joining

end Condition

/-! ## Terms -/

namespace Conjunction

variable {σ : Type}

open Condition (bare)

theorem ofOperands_map_bare (operands : List (Condition σ)) :
    ofOperands (operands.map bare) = (ofOperands operands).map bare :=
  Condition.distinctByText_map_bare operands

theorem ofCondition_bare (condition : Condition σ) :
    ofCondition condition.bare = (ofCondition condition).map bare := by
  rw [ofCondition, ofCondition, Condition.conjuncts_bare, ofOperands_map_bare]

@[simp] theorem holds_map_bare (conjunction : Conjunction σ) (text : Text) :
    holds (conjunction.map bare) text = holds conjunction text := by
  simp [holds, Function.comp_def]

@[simp] theorem includedIn_map_bare (left right : Conjunction σ) :
    includedIn (left.map bare) (right.map bare) = includedIn left right := by
  simp [includedIn, Function.comp_def]

theorem shared_map_bare (left right : Conjunction σ) :
    shared (left.map bare) (right.map bare) = (shared left right).map bare := by
  simp [shared, List.filter_map, Function.comp_def]

theorem only_map_bare (left right : Conjunction σ) :
    only (left.map bare) (right.map bare) = (only left right).map bare := by
  simp [only, List.filter_map, Function.comp_def]

@[simp] theorem absorbs_map_bare (left right : Conjunction σ) :
    absorbs (left.map bare) (right.map bare) = absorbs left right := by
  simp [absorbs]

@[simp] theorem sameOperands_map_bare (left right : Conjunction σ) :
    sameOperands (left.map bare) (right.map bare) = sameOperands left right := by
  simp [sameOperands]

end Conjunction

namespace Condition

open Conjunction (ofCondition shared only)

variable {σ : Type}

/-! ## Merging -/

section Pairs

variable {α β : Type} (f : α → β)

def Pair.map (pair : Pair α) : Pair β :=
  ⟨pair.before.map f, f pair.first, pair.between.map f, f pair.second, pair.after.map f⟩

theorem findSecond?_map (related : β → β → Bool) (before : List α) (first : α)
    (passed rest : List α) :
    findSecond? related (before.map f) (f first) (passed.map f) (rest.map f) =
      (findSecond? (fun left right => related (f left) (f right)) before first passed rest).map
        (Pair.map f) := by
  induction rest generalizing passed with
  | nil => rfl
  | cons second after induction =>
      rw [List.map_cons, findSecond?, findSecond?, ← List.map_cons, induction]
      split
      · simp [Pair.map]
      · rfl

theorem findPair?_map (related : β → β → Bool) (passed rest : List α) :
    findPair? related (passed.map f) (rest.map f) =
      (findPair? (fun left right => related (f left) (f right)) passed rest).map (Pair.map f) := by
  induction rest generalizing passed with
  | nil => rfl
  | cons first rest induction =>
      have second := findSecond?_map f related passed.reverse first [] rest
      rw [List.map_reverse, List.map_nil] at second
      rw [List.map_cons, findPair?, findPair?, second, ← List.map_cons, induction, Option.map_or]

end Pairs

theorem replacement_map_bare (operands : List (Condition σ)) :
    replacement (operands.map bare) = (replacement operands).map (List.map bare) := by
  match operands with
  | [] => rfl
  | [single] =>
      simp [replacement, Conjunction.ofCondition_bare, Function.comp_def]
  | _ :: _ :: _ => rfl

variable [Keyed σ]

theorem negatesAll_map_bare (single others : List (Condition σ)) :
    negatesAll (single.map bare) (others.map bare) = negatesAll single others := by
  unfold negatesAll
  rw [allOf_map_bare]
  match single with
  | [] => rfl
  | [operand] =>
      cases allOf others with
      | none => rfl
      | some conjunction => exact isComplementOf_bare operand conjunction
  | _ :: _ :: _ => rfl

theorem areComplementary_map_bare (left right : Conjunction σ) :
    areComplementary (left.map bare) (right.map bare) = areComplementary left right := by
  simp only [areComplementary, Conjunction.only_map_bare, negatesAll_map_bare]

theorem findPair?_map_bare (terms : List (Conjunction σ)) :
    findPair? areComplementary [] (terms.map (List.map bare)) =
      (findPair? areComplementary [] terms).map (Pair.map (List.map bare)) := by
  apply (findPair?_map (List.map bare) areComplementary [] terms).trans
  simp only [areComplementary_map_bare]

theorem mergeComplements_of_none {terms : List (Conjunction σ)}
    (none : findPair? areComplementary [] terms = none) : mergeComplements terms = some terms := by
  rw [mergeComplements]
  split
  · rfl
  · rename_i found
    cases none.symm.trans found

theorem mergeComplements_of_some {terms : List (Conjunction σ)} {pair : Pair (Conjunction σ)}
    (found : findPair? areComplementary [] terms = some pair) :
    mergeComplements terms =
      if (shared pair.first pair.second).isEmpty then none else mergeComplements pair.merged := by
  rw [mergeComplements]
  split
  · rename_i none
    cases none.symm.trans found
  · rename_i other isOther
    cases found.symm.trans isOther
    rfl

omit [Keyed σ] in
theorem merged_map_bare (pair : Pair (Conjunction σ)) :
    (pair.map (List.map bare)).merged = pair.merged.map (List.map bare) := by
  simp [Pair.merged, Pair.map, Conjunction.shared_map_bare, replacement_map_bare]

theorem mergeComplements_map_bare (terms : List (Conjunction σ)) :
    mergeComplements (terms.map (List.map bare)) =
      (mergeComplements terms).map (List.map (List.map bare)) := by
  have searched := findPair?_map_bare terms
  induction terms using mergeComplements.induct with
  | case1 terms none =>
      rw [none] at searched
      rw [mergeComplements_of_none none, mergeComplements_of_none searched]
      rfl
  | case2 terms pair found overlap empty =>
      have bareEmpty : (shared (pair.map (List.map bare)).first
          (pair.map (List.map bare)).second).isEmpty = true := by
        rw [Pair.map, Conjunction.shared_map_bare, List.isEmpty_map]
        exact empty
      rw [found] at searched
      rw [mergeComplements_of_some found, mergeComplements_of_some searched, if_pos bareEmpty,
        if_pos empty]
      rfl
  | case3 terms pair found overlap some induction =>
      have bareSome : ¬ (shared (pair.map (List.map bare)).first
          (pair.map (List.map bare)).second).isEmpty = true := by
        rw [Pair.map, Conjunction.shared_map_bare, List.isEmpty_map]
        exact some
      rw [found] at searched
      rw [mergeComplements_of_some found, mergeComplements_of_some searched, if_neg bareSome,
        if_neg some, merged_map_bare]
      exact induction (findPair?_map_bare pair.merged)

/-! ## The series of stages -/

omit [Keyed σ] in
theorem withoutAbsorbed_map_bare (terms : List (Conjunction σ)) :
    withoutAbsorbed (terms.map (List.map bare)) = (withoutAbsorbed terms).map (List.map bare) := by
  simp [withoutAbsorbed, absorbed, List.filter_map, Function.comp_def]

omit [Keyed σ] in
theorem commonFactors_map_bare (terms : List (Conjunction σ)) :
    commonFactors (terms.map (List.map bare)) = (commonFactors terms).map bare := by
  cases terms with
  | nil => rfl
  | cons first rest => simp [commonFactors, List.filter_map, Function.comp_def]

theorem factored?_map_bare (terms : List (Conjunction σ)) :
    factored? (terms.map (List.map bare)) = (factored? terms).map bare := by
  have remainders : (terms.map (List.map bare)).mapM
      (fun term => allOf (only term ((commonFactors terms).map bare))) =
        (terms.mapM fun term => allOf (only term (commonFactors terms))).map (List.map bare) := by
    rw [List.mapM_map, ← mapM_option_map]
    simp only [Conjunction.only_map_bare, allOf_map_bare, Function.comp_def]
  unfold factored?
  rw [commonFactors_map_bare]
  dsimp only
  rw [allOf_map_bare, remainders]
  cases allOf (commonFactors terms) with
  | none => rfl
  | some factor =>
      cases terms.mapM fun term => allOf (only term (commonFactors terms)) with
      | none => rfl
      | some left => simp [anyOf_map_bare, conj_bare, Function.comp_def]

omit [Keyed σ] in
theorem terms?_map_bare (alternatives : List (Condition σ)) :
    terms? (alternatives.map bare) = (terms? alternatives).map (List.map (List.map bare)) := by
  have opened : (alternatives.map bare).flatMap disjuncts =
      (alternatives.flatMap disjuncts).map bare := by
    simp [List.flatMap_map, List.map_flatMap]
  unfold terms?
  rw [opened]
  simp only [List.any_map, List.filter_map, List.map_map, Function.comp_def, isTrue_bare,
    isFalse_bare, Conjunction.ofCondition_bare, apply_ite]
  split <;> simp [Function.comp_def]

theorem ofTerms_map_bare (terms : List (Conjunction σ)) :
    ofTerms (terms.map (List.map bare)) = (ofTerms terms).map bare := by
  have kept : withoutAbsorbed (distinctBy Conjunction.sameOperands (terms.map (List.map bare))) =
      (withoutAbsorbed (distinctBy Conjunction.sameOperands terms)).map (List.map bare) := by
    rw [distinctBy_map, withoutAbsorbed_map_bare]
    simp only [Conjunction.sameOperands_map_bare]
  unfold ofTerms
  rw [kept]
  match withoutAbsorbed (distinctBy Conjunction.sameOperands terms) with
  | [] => rfl
  | [single] => exact allOf_map_bare single
  | first :: second :: rest =>
      have several := factored?_map_bare (first :: second :: rest)
      have listed : ((first :: second :: rest).map (List.map bare)).filterMap allOf =
          ((first :: second :: rest).filterMap allOf).map bare := by
        rw [List.filterMap_map, List.map_filterMap]
        simp only [Function.comp_def, allOf_map_bare]
      rw [List.map_cons, List.map_cons] at several listed ⊢
      dsimp only
      rw [several, listed, anyOf_map_bare, Option.map_or]

/-- The simplified disjunction has the text and the structure that the alternatives lead to, and
what they read has no part in that. -/
theorem simplifyAny_map_bare (alternatives : List (Condition σ)) :
    simplifyAny (alternatives.map bare) = (simplifyAny alternatives).map bare := by
  unfold simplifyAny
  rw [distinctByText_map_bare]
  match distinctByText alternatives with
  | [] => rfl
  | [single] => simp [apply_ite]
  | first :: second :: rest =>
      have opened := terms?_map_bare (first :: second :: rest)
      rw [List.map_cons, List.map_cons] at opened ⊢
      dsimp only
      rw [opened]
      cases terms? (first :: second :: rest) with
      | none => rfl
      | some terms =>
          simp only [Option.map_some, Option.bind_some, List.isEmpty_map, apply_ite,
            mergeComplements_map_bare]
          split
          · rfl
          · cases mergeComplements terms with
            | none => rfl
            | some merged => exact ofTerms_map_bare merged

end Condition

end FlowPlan
