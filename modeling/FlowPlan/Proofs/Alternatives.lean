import FlowPlan.Proofs.Merging

/-! # The simplified disjunction

The stages behind merging leave out terms that other terms cover and take
common factors out, and both keep the truth of the disjunction. So the
simplified disjunction is put together from the operands of the alternatives
alone, permits whatever one of them permits, and permits nothing else if
complements cover.
-/

namespace FlowPlan

open Conjunction (IsMet AnyMet Formed includedIn only)

namespace Condition

variable {σ : Type}

/-! ## The terms of the alternatives -/

theorem exists_of_terms?_eq_none {holds : Condition σ → Prop} (respects : Respects holds)
    {alternatives : List (Condition σ)} (none : terms? alternatives = none) :
    ∃ alternative ∈ alternatives, holds alternative := by
  unfold terms? at none
  dsimp only at none
  split at none
  · rename_i always
    rcases List.any_eq_true.mp always with ⟨term, mem, isTrue⟩
    rcases List.mem_flatMap.mp mem with ⟨alternative, alternativeMem, termMem⟩
    exact ⟨alternative, alternativeMem, (holds_iff_disjuncts respects.connectives alternative).mpr
      ⟨term, termMem, respects.of_isTrue term isTrue⟩⟩
  · cases none

theorem mem_terms? {alternatives : List (Condition σ)} {terms : List (Conjunction σ)}
    (found : terms? alternatives = some terms) {term : Conjunction σ} :
    term ∈ terms ↔ ∃ alternative ∈ alternatives, ∃ operand ∈ alternative.disjuncts,
      operand.isFalse = false ∧ Conjunction.ofCondition operand = term := by
  unfold terms? at found
  dsimp only at found
  split at found
  · cases found
  · cases found
    constructor
    · intro mem
      rcases List.mem_map.mp mem with ⟨operand, kept, equal⟩
      rcases List.mem_filter.mp kept with ⟨listed, notFalse⟩
      rcases List.mem_flatMap.mp listed with ⟨alternative, alternativeMem, operandMem⟩
      exact ⟨alternative, alternativeMem, operand, operandMem, by simpa using notFalse, equal⟩
    · rintro ⟨alternative, alternativeMem, operand, operandMem, notFalse, equal⟩
      refine List.mem_map.mpr ⟨operand, List.mem_filter.mpr ⟨?_, by simp [notFalse]⟩, equal⟩
      exact List.mem_flatMap.mpr ⟨alternative, alternativeMem, operandMem⟩

theorem formed_terms? {among : Condition σ → Prop} (splits : Splits among)
    {alternatives : List (Condition σ)} (members : ∀ alternative ∈ alternatives, among alternative)
    {terms : List (Conjunction σ)} (found : terms? alternatives = some terms) :
    ∀ term ∈ terms, Formed among term := by
  intro term mem
  rcases (mem_terms? found).mp mem with ⟨alternative, alternativeMem, operand, operandMem, _, rfl⟩
  exact Conjunction.formed_ofCondition splits
    (splits.of_mem_operands .or (members alternative alternativeMem) operandMem)

theorem anyMet_terms? {holds among : Condition σ → Prop} (respects : Respects holds)
    (splits : Splits among) (decides : TextDecides holds among)
    {alternatives : List (Condition σ)} (members : ∀ alternative ∈ alternatives, among alternative)
    {terms : List (Conjunction σ)} (found : terms? alternatives = some terms) :
    AnyMet holds terms ↔ ∃ alternative ∈ alternatives, holds alternative := by
  have opened : ∀ alternative ∈ alternatives, ∀ operand ∈ alternative.disjuncts,
      (IsMet holds (Conjunction.ofCondition operand) ↔ holds operand) :=
    fun alternative alternativeMem operand operandMem =>
      Conjunction.isMet_ofCondition respects splits decides
        (splits.of_mem_operands .or (members alternative alternativeMem) operandMem)
  constructor
  · rintro ⟨term, mem, met⟩
    rcases (mem_terms? found).mp mem with ⟨alternative, alternativeMem, operand, operandMem, _, rfl⟩
    exact ⟨alternative, alternativeMem, (holds_iff_disjuncts respects.connectives alternative).mpr
      ⟨operand, operandMem, (opened alternative alternativeMem operand operandMem).mp met⟩⟩
  · rintro ⟨alternative, alternativeMem, stands⟩
    rcases (holds_iff_disjuncts respects.connectives alternative).mp stands with
      ⟨operand, operandMem, operandStands⟩
    have notFalse : operand.isFalse = false := by
      cases isFalse : operand.isFalse with
      | false => rfl
      | true => exact absurd operandStands (respects.not_of_isFalse operand isFalse)
    exact ⟨Conjunction.ofCondition operand,
      (mem_terms? found).mpr ⟨alternative, alternativeMem, operand, operandMem, notFalse, rfl⟩,
      (opened alternative alternativeMem operand operandMem).mpr operandStands⟩

/-! ## Covered terms -/

theorem exists_includedIn_mem_distinctBy {terms : List (Conjunction σ)} {term : Conjunction σ}
    (mem : term ∈ terms) :
    ∃ kept ∈ distinctBy Conjunction.sameOperands terms, includedIn kept term = true := by
  refine exists_mem_distinctBy ?_ mem (Conjunction.includedIn_refl term)
  intro left right same included
  exact Conjunction.includedIn_trans (Bool.and_eq_true_iff.mp same).2 included

/-- An absorbing term has fewer operands, so a shortest one of those that cover a term stays. -/
theorem exists_includedIn_mem_withoutAbsorbed {terms : List (Conjunction σ)}
    {term : Conjunction σ} (mem : term ∈ terms) :
    ∃ kept ∈ withoutAbsorbed terms, includedIn kept term = true := by
  cases covered : absorbed terms term with
  | false =>
      refine ⟨term, List.mem_filter.mpr ⟨mem, ?_⟩, Conjunction.includedIn_refl term⟩
      simp [covered]
  | true =>
      rcases List.any_eq_true.mp covered with ⟨other, otherMem, absorbs⟩
      have parts := Bool.and_eq_true_iff.mp absorbs
      have shorter : other.length < term.length := of_decide_eq_true parts.1
      rcases exists_includedIn_mem_withoutAbsorbed otherMem with ⟨kept, keptMem, included⟩
      exact ⟨kept, keptMem, Conjunction.includedIn_trans included parts.2⟩
termination_by term.length

/-- The terms that the last stages work on. -/
def keptTerms (terms : List (Conjunction σ)) : List (Conjunction σ) :=
  withoutAbsorbed (distinctBy Conjunction.sameOperands terms)

theorem mem_of_mem_keptTerms {terms : List (Conjunction σ)} {term : Conjunction σ}
    (mem : term ∈ keptTerms terms) : term ∈ terms :=
  mem_of_mem_distinctBy (List.mem_filter.mp mem).1

theorem exists_includedIn_mem_keptTerms {terms : List (Conjunction σ)} {term : Conjunction σ}
    (mem : term ∈ terms) : ∃ kept ∈ keptTerms terms, includedIn kept term = true := by
  rcases exists_includedIn_mem_distinctBy mem with ⟨middle, middleMem, first⟩
  rcases exists_includedIn_mem_withoutAbsorbed middleMem with ⟨kept, keptMem, second⟩
  exact ⟨kept, keptMem, Conjunction.includedIn_trans second first⟩

theorem keptTerms_ne_nil {terms : List (Conjunction σ)} (nonempty : terms ≠ []) :
    keptTerms terms ≠ [] := by
  rcases List.exists_mem_of_ne_nil terms nonempty with ⟨term, mem⟩
  rcases exists_includedIn_mem_keptTerms mem with ⟨kept, keptMem, _⟩
  exact List.ne_nil_of_mem keptMem

theorem anyMet_keptTerms {holds among : Condition σ → Prop} (decides : TextDecides holds among)
    {terms : List (Conjunction σ)} (formed : ∀ term ∈ terms, Formed among term) :
    AnyMet holds (keptTerms terms) ↔ AnyMet holds terms := by
  constructor
  · rintro ⟨term, mem, met⟩
    exact ⟨term, mem_of_mem_keptTerms mem, met⟩
  · rintro ⟨term, mem, met⟩
    rcases exists_includedIn_mem_keptTerms mem with ⟨kept, keptMem, included⟩
    have keptFormed := formed kept (mem_of_mem_keptTerms keptMem)
    exact ⟨kept, keptMem, Conjunction.isMet_of_includedIn decides keptFormed.among
      (formed term mem).among included met⟩

/-! ## Common factors -/

theorem commonFactors_spec {terms : List (Conjunction σ)} {factor : Condition σ}
    (mem : factor ∈ commonFactors terms) :
    (∃ term ∈ terms, factor ∈ term) ∧
      ∀ term ∈ terms, Conjunction.holds term factor.render = true := by
  cases terms with
  | nil => cases mem
  | cons first rest =>
      have parts := List.mem_filter.mp mem
      refine ⟨⟨first, List.mem_cons_self, parts.1⟩, ?_⟩
      intro term termMem
      rcases List.mem_cons.mp termMem with rfl | later
      · exact Conjunction.holds_eq_true_iff.mpr ⟨factor, parts.1, rfl⟩
      · exact List.all_eq_true.mp parts.2 term later

section Factors

variable {holds among : Condition σ → Prop} (decides : TextDecides holds among)
  {terms : List (Conjunction σ)} (formed : ∀ term ∈ terms, Formed among term)

include formed in
theorem among_commonFactors {factor : Condition σ} (mem : factor ∈ commonFactors terms) :
    among factor := by
  rcases (commonFactors_spec mem).1 with ⟨term, termMem, factorMem⟩
  exact (formed term termMem).among factor factorMem

include decides formed in
/-- A term says as much as the common factors and what remains of it. -/
theorem isMet_iff_factors_and_rest {term : Conjunction σ} (termMem : term ∈ terms) :
    IsMet holds term ↔
      IsMet holds (commonFactors terms) ∧ IsMet holds (only term (commonFactors terms)) := by
  have members := (formed term termMem).among
  constructor
  · intro met
    refine ⟨?_, fun operand mem => met operand (List.mem_filter.mp mem).1⟩
    intro factor mem
    exact Conjunction.truth_of_holds decides members (among_commonFactors formed mem)
      ((commonFactors_spec mem).2 term termMem) met
  · rintro ⟨factors, rest⟩
    refine Conjunction.isMet_of_shared_of_only ?_ rest
    exact Conjunction.isMet_shared_of_right decides members
      (fun factor mem => among_commonFactors formed mem) factors

end Factors

theorem eq_nil_of_allOf_eq_none [Keyed σ] {conditions : List (Condition σ)}
    (none : allOf conditions = none) : conditions = [] := by
  cases conditions with
  | nil => rfl
  | cons => cases none

variable [Keyed σ]

theorem isMet_of_allOf {holds : Condition σ → Prop} (respects : Respects holds)
    {operands : List (Condition σ)} {all : Condition σ} (found : allOf operands = some all) :
    holds all ↔ IsMet holds operands := by
  have permitted := permits_allOf respects operands
  rwa [found, permits_some] at permitted

theorem holds_of_factored? {holds among : Condition σ → Prop} (respects : Respects holds)
    (decides : TextDecides holds among) {terms : List (Conjunction σ)}
    (formed : ∀ term ∈ terms, Formed among term) {result : Condition σ}
    (found : factored? terms = some result) : holds result ↔ AnyMet holds terms := by
  have splitTerm : ∀ term ∈ terms, (IsMet holds term ↔
      IsMet holds (commonFactors terms) ∧ IsMet holds (only term (commonFactors terms))) :=
    fun term mem => isMet_iff_factors_and_rest decides formed mem
  rcases Option.bind_eq_some_iff.mp found with ⟨factor, factorFound, rest⟩
  have factorHolds := isMet_of_allOf respects factorFound
  split at rest
  · rename_i remainders mapped
    rcases Option.map_eq_some_iff.mp rest with ⟨sum, sumFound, rfl⟩
    rw [holds_conj respects, factorHolds, holds_of_anyOf respects sumFound]
    constructor
    · rintro ⟨factors, remainder, mem, stands⟩
      rcases exists_member_of_mapM mapped mem with ⟨term, termMem, equal⟩
      exact ⟨term, termMem, (splitTerm term termMem).mpr
        ⟨factors, (isMet_of_allOf respects equal).mp stands⟩⟩
    · rintro ⟨term, termMem, met⟩
      have parts := (splitTerm term termMem).mp met
      rcases exists_image_of_mapM mapped termMem with ⟨remainder, mem, equal⟩
      exact ⟨parts.1, remainder, mem, (isMet_of_allOf respects equal).mpr parts.2⟩
  · -- Nothing remains of some term, so that the factors alone cover all terms.
    rename_i failed
    cases rest
    rw [factorHolds]
    constructor
    · intro factors
      rcases exists_none_of_mapM_eq_none failed with ⟨term, termMem, nothing⟩
      refine ⟨term, termMem, (splitTerm term termMem).mpr ⟨factors, ?_⟩⟩
      rw [eq_nil_of_allOf_eq_none nothing]
      intro operand mem
      cases mem
    · rintro ⟨term, termMem, met⟩
      exact ((splitTerm term termMem).mp met).1

/-! ## From terms to a condition -/

theorem permits_anyOf_allOf {holds among : Condition σ → Prop} (respects : Respects holds)
    {terms : List (Conjunction σ)} (formed : ∀ term ∈ terms, Formed among term)
    (nonempty : terms ≠ []) :
    Permits holds (anyOf (terms.filterMap allOf)) ↔ AnyMet holds terms := by
  have image : ∀ term ∈ terms, ∃ all, allOf term = some all := by
    intro term mem
    cases found : allOf term with
    | none => exact absurd (eq_nil_of_allOf_eq_none found) (formed term mem).nonempty
    | some all => exact ⟨all, rfl⟩
  cases found : anyOf (terms.filterMap allOf) with
  | none =>
      rcases List.exists_mem_of_ne_nil terms nonempty with ⟨term, mem⟩
      rcases image term mem with ⟨all, equal⟩
      have some : all ∈ terms.filterMap allOf := List.mem_filterMap.mpr ⟨term, mem, equal⟩
      cases listed : terms.filterMap allOf with
      | nil => simp [listed] at some
      | cons => simp [listed, anyOf] at found
  | some sum =>
      rw [permits_some, holds_of_anyOf respects found]
      constructor
      · rintro ⟨all, mem, stands⟩
        rcases List.mem_filterMap.mp mem with ⟨term, termMem, equal⟩
        exact ⟨term, termMem, (isMet_of_allOf respects equal).mp stands⟩
      · rintro ⟨term, termMem, met⟩
        rcases image term termMem with ⟨all, equal⟩
        exact ⟨all, List.mem_filterMap.mpr ⟨term, termMem, equal⟩,
          (isMet_of_allOf respects equal).mpr met⟩

theorem permits_ofTerms {holds among : Condition σ → Prop} (respects : Respects holds)
    (decides : TextDecides holds among) {terms : List (Conjunction σ)}
    (formed : ∀ term ∈ terms, Formed among term) (nonempty : terms ≠ []) :
    Permits holds (ofTerms terms) ↔ AnyMet holds terms := by
  have keptFormed : ∀ term ∈ keptTerms terms, Formed among term :=
    fun term mem => formed term (mem_of_mem_keptTerms mem)
  rw [← anyMet_keptTerms decides formed]
  have kept : withoutAbsorbed (distinctBy Conjunction.sameOperands terms) = keptTerms terms := rfl
  rw [ofTerms, kept]
  split
  · rename_i single equal
    rw [permits_allOf respects, equal, Conjunction.anyMet_cons]
    simp [IsMet]
  · rename_i several _
    cases found : factored? (keptTerms terms) with
    | some result =>
        rw [Option.some_or, permits_some]
        exact holds_of_factored? respects decides keptFormed found
    | none =>
        rw [Option.none_or]
        exact permits_anyOf_allOf respects keptFormed (keptTerms_ne_nil nonempty)

theorem among_factored? {among : Condition σ → Prop} (closed : Closed among)
    {terms : List (Conjunction σ)} (formed : ∀ term ∈ terms, Formed among term)
    {result : Condition σ} (found : factored? terms = some result) : among result := by
  rcases Option.bind_eq_some_iff.mp found with ⟨factor, factorFound, rest⟩
  have factorMem := closed.allOf (fun operand mem => among_commonFactors formed mem) factorFound
  split at rest
  · rename_i remainders mapped
    rcases Option.map_eq_some_iff.mp rest with ⟨sum, sumFound, rfl⟩
    refine closed.conj factorMem (closed.anyOf ?_ sumFound)
    intro remainder mem
    rcases exists_member_of_mapM mapped mem with ⟨term, termMem, equal⟩
    refine closed.allOf ?_ equal
    intro operand operandMem
    exact (formed term termMem).among operand (List.mem_filter.mp operandMem).1
  · cases rest
    exact factorMem

theorem among_ofTerms {among : Condition σ → Prop} (closed : Closed among)
    {terms : List (Conjunction σ)} (formed : ∀ term ∈ terms, Formed among term)
    {result : Condition σ} (found : ofTerms terms = some result) : among result := by
  have keptFormed : ∀ term ∈ keptTerms terms, Formed among term :=
    fun term mem => formed term (mem_of_mem_keptTerms mem)
  have kept : withoutAbsorbed (distinctBy Conjunction.sameOperands terms) = keptTerms terms := rfl
  rw [ofTerms, kept] at found
  split at found
  · rename_i single equal
    have singleFormed := keptFormed single (by simp [equal])
    exact closed.allOf singleFormed.among found
  · rcases Option.or_eq_some_iff.mp found with factored | ⟨_, any⟩
    · exact among_factored? closed keptFormed factored
    · refine closed.anyOf ?_ any
      intro all mem
      rcases List.mem_filterMap.mp mem with ⟨term, termMem, equal⟩
      exact closed.allOf (keptFormed term termMem).among equal

/-! ## The whole series -/

/-- All the ways in which the simplification ends. -/
theorem simplifyAny_cases (alternatives : List (Condition σ)) :
    (alternatives = [] ∧ simplifyAny alternatives = none) ∨
    (∃ single, distinctByText alternatives = [single] ∧
      simplifyAny alternatives = if single.isTrue then none else some single) ∨
    (terms? (distinctByText alternatives) = none ∧ simplifyAny alternatives = none) ∨
    (terms? (distinctByText alternatives) = some [] ∧
      simplifyAny alternatives = some (.constant false)) ∨
    ∃ terms, terms? (distinctByText alternatives) = some terms ∧ terms ≠ [] ∧
      simplifyAny alternatives = (mergeComplements terms).bind ofTerms := by
  rw [simplifyAny]
  split
  · rename_i empty
    cases alternatives with
    | nil => exact Or.inl ⟨rfl, rfl⟩
    | cons => cases empty
  · rename_i single equal
    exact Or.inr (Or.inl ⟨single, equal, rfl⟩)
  · refine Or.inr (Or.inr ?_)
    cases found : terms? (distinctByText alternatives) with
    | none => exact Or.inl ⟨rfl, rfl⟩
    | some terms =>
        cases terms with
        | nil => exact Or.inr (Or.inl ⟨rfl, rfl⟩)
        | cons first rest =>
            exact Or.inr (Or.inr ⟨first :: rest, rfl, List.cons_ne_nil first rest, rfl⟩)

/-- Simplification puts nothing into the result that the alternatives do not consist of. -/
theorem among_simplifyAny {among : Condition σ → Prop} (closed : Closed among)
    {alternatives : List (Condition σ)} (members : ∀ alternative ∈ alternatives, among alternative)
    {result : Condition σ} (found : simplifyAny alternatives = some result) : among result := by
  have uniqueMembers : ∀ alternative ∈ distinctByText alternatives, among alternative :=
    fun alternative mem => members alternative (mem_of_mem_distinctBy mem)
  rcases simplifyAny_cases alternatives with
    ⟨_, ends⟩ | ⟨single, unique, ends⟩ | ⟨_, ends⟩ | ⟨_, ends⟩ | ⟨terms, termsFound, _, ends⟩
  · simp [ends] at found
  · rw [ends] at found
    split at found
    · cases found
    · cases found
      exact uniqueMembers _ (by simp [unique])
  · simp [ends] at found
  · cases ends.symm.trans found
    exact closed.constant false
  · rcases Option.bind_eq_some_iff.mp (ends.symm.trans found) with ⟨merged, mergedFound, rest⟩
    have formed := formed_terms? closed.splits uniqueMembers termsFound
    exact among_ofTerms closed (formed_mergeComplements closed.splits formed mergedFound) rest

/-- The simplified disjunction is never narrower than the alternatives. -/
theorem permits_simplifyAny {holds among : Condition σ → Prop} (respects : Respects holds)
    (splits : Splits among) (decides : TextDecides holds among)
    {alternatives : List (Condition σ)} (members : ∀ alternative ∈ alternatives, among alternative)
    (any : ∃ alternative ∈ alternatives, holds alternative) :
    Permits holds (simplifyAny alternatives) := by
  have uniqueMembers : ∀ alternative ∈ distinctByText alternatives, among alternative :=
    fun alternative mem => members alternative (mem_of_mem_distinctBy mem)
  have uniqueAny := (decides.exists_mem_distinctByText members).mpr any
  rcases simplifyAny_cases alternatives with
    ⟨_, ends⟩ | ⟨single, unique, ends⟩ | ⟨_, ends⟩ | ⟨empty, _⟩ | ⟨terms, termsFound, some, ends⟩
  · simp [ends]
  · rw [ends]
    split
    · exact permits_none holds
    · simpa [unique] using uniqueAny
  · simp [ends]
  · have met := (anyMet_terms? respects splits decides uniqueMembers empty).mpr uniqueAny
    exact absurd met (Conjunction.anyMet_nil holds)
  · have formed := formed_terms? splits uniqueMembers termsFound
    have met := (anyMet_terms? respects splits decides uniqueMembers termsFound).mpr uniqueAny
    rw [ends]
    cases merging : mergeComplements terms with
    | none => exact permits_none holds
    | some merged =>
        have mergedFormed := formed_mergeComplements splits formed merging
        refine (permits_ofTerms respects decides mergedFormed ?_).mpr ?_
        · exact ne_nil_of_mergeComplements some merging
        · exact anyMet_mergeComplements respects splits decides formed met merging

/-- If complements cover, the simplified disjunction is no wider either. -/
theorem exists_of_permits_simplifyAny {holds among : Condition σ → Prop}
    (respects : Respects holds) (closed : Closed among) (decides : TextDecides holds among)
    (covers : ComplementsCover holds among) {alternatives : List (Condition σ)}
    (members : ∀ alternative ∈ alternatives, among alternative) (nonempty : alternatives ≠ [])
    (permitted : Permits holds (simplifyAny alternatives)) :
    ∃ alternative ∈ alternatives, holds alternative := by
  have uniqueMembers : ∀ alternative ∈ distinctByText alternatives, among alternative :=
    fun alternative mem => members alternative (mem_of_mem_distinctBy mem)
  rw [← decides.exists_mem_distinctByText members]
  rcases simplifyAny_cases alternatives with
    ⟨empty, _⟩ | ⟨single, unique, ends⟩ | ⟨none, _⟩ | ⟨_, ends⟩ | ⟨terms, termsFound, some, ends⟩
  · exact absurd empty nonempty
  · refine ⟨single, by simp [unique], ?_⟩
    rw [ends] at permitted
    split at permitted
    · rename_i isTrue
      exact respects.of_isTrue single isTrue
    · exact (permits_some holds single).mp permitted
  · exact exists_of_terms?_eq_none respects none
  · rw [ends, permits_some] at permitted
    exact absurd permitted (respects.not_of_isFalse _ (isFalse_raw_booleanText []))
  · have formed := formed_terms? closed.splits uniqueMembers termsFound
    rw [← anyMet_terms? respects closed.splits decides uniqueMembers termsFound]
    rw [ends] at permitted
    cases merging : mergeComplements terms with
    | none => exact anyMet_of_mergeComplements_eq_none respects closed decides covers formed merging
    | some merged =>
        rw [merging] at permitted
        have mergedFormed := formed_mergeComplements closed.splits formed merging
        have mergedSome := ne_nil_of_mergeComplements some merging
        exact anyMet_of_mergeComplements respects closed decides covers formed merging
          ((permits_ofTerms respects decides mergedFormed mergedSome).mp permitted)

end Condition

end FlowPlan
