import FlowPlan.Proofs.Terms

/-! # Merging complementary terms

One merge replaces two terms by what they share. The statements about one merge
come first, and `mergeComplements` repeats it until no pair is left.
-/

namespace FlowPlan

open Conjunction (IsMet AnyMet Formed shared only)

namespace Condition

variable {σ : Type}

/-- What is needed of conditions that are put together from others. -/
structure Closed [Keyed σ] (among : Condition σ → Prop) : Prop where
  splits : Splits among
  joined : ∀ connective left right, among left → among right →
    among (.joined connective left right)
  collapsed : ∀ value left right, among left → among right → among (collapsed value left right)
  constant : ∀ value, among (.constant value)

/-- An operand that is no conjunction and a condition that counts as its complement never both
fail. -/
def ComplementsCover (holds among : Condition σ → Prop) : Prop :=
  ∀ operand condition, among operand → among condition → operand.conjuncts = [operand] →
    operand.isComplementOf condition = true → holds operand ∨ holds condition

theorem ComplementsCover.mono {holds fewer more : Condition σ → Prop}
    (covers : ComplementsCover holds more)
    (included : ∀ condition, fewer condition → more condition) : ComplementsCover holds fewer :=
  fun operand condition operandMem conditionMem =>
    covers operand condition (included operand operandMem) (included condition conditionMem)

namespace Closed

variable [Keyed σ] {among : Condition σ → Prop} (closed : Closed among)

include closed

theorem conj {left right : Condition σ} (leftMem : among left) (rightMem : among right) :
    among (left.conj right) := by
  rw [Condition.conj]
  split
  · exact rightMem
  · split
    · exact leftMem
    · split
      · exact closed.collapsed _ _ _ leftMem rightMem
      · exact closed.joined _ _ _ leftMem rightMem

theorem disj {left right : Condition σ} (leftMem : among left) (rightMem : among right) :
    among (left.disj right) := by
  rw [Condition.disj]
  split
  · exact closed.collapsed _ _ _ leftMem rightMem
  · split
    · exact rightMem
    · split
      · exact leftMem
      · exact closed.joined _ _ _ leftMem rightMem

theorem allOf {conditions : List (Condition σ)} {all : Condition σ}
    (members : ∀ condition ∈ conditions, among condition)
    (found : Condition.allOf conditions = some all) : among all := by
  cases conditions with
  | nil => cases found
  | cons head tail =>
      cases found
      have headMem := members head List.mem_cons_self
      have tailMem : ∀ condition ∈ tail, among condition :=
        fun condition mem => members condition (List.mem_cons_of_mem head mem)
      exact List.foldlRecOn tail Condition.conj headMem
        fun sum sumMem next nextMem => closed.conj sumMem (tailMem next nextMem)

theorem anyOf {conditions : List (Condition σ)} {any : Condition σ}
    (members : ∀ condition ∈ conditions, among condition)
    (found : Condition.anyOf conditions = some any) : among any := by
  cases conditions with
  | nil => cases found
  | cons head tail =>
      cases found
      have headMem := members head List.mem_cons_self
      have tailMem : ∀ condition ∈ tail, among condition :=
        fun condition mem => members condition (List.mem_cons_of_mem head mem)
      exact List.foldlRecOn tail Condition.disj headMem
        fun sum sumMem next nextMem => closed.disj sumMem (tailMem next nextMem)

theorem withDistinctConjuncts {condition : Condition σ} (member : among condition) :
    among condition.withDistinctConjuncts := by
  rw [Condition.withDistinctConjuncts]
  cases found : Condition.allOf (distinctByText condition.conjuncts) with
  | none => exact member
  | some all =>
      refine closed.allOf (fun operand mem => ?_) found
      exact closed.splits.of_mem_operands .and member (mem_of_mem_distinctBy mem)

end Closed

/-! ## One merge -/

/-- The terms that the pair was cut out of. -/
def Pair.whole (pair : Pair (Conjunction σ)) : List (Conjunction σ) :=
  pair.before ++ pair.first :: (pair.between ++ pair.second :: pair.after)

def Pair.merged (pair : Pair (Conjunction σ)) : List (Conjunction σ) :=
  pair.before ++ replacement (shared pair.first pair.second) ++ pair.between ++ pair.after

theorem met_or_met_of_negatesAll [Keyed σ] {holds among : Condition σ → Prop}
    (respects : Respects holds) (closed : Closed among) (covers : ComplementsCover holds among)
    {single others : List (Condition σ)} (singleMembers : ∀ operand ∈ single, among operand)
    (flat : ∀ operand ∈ single, operand.conjuncts = [operand])
    (otherMembers : ∀ operand ∈ others, among operand)
    (negates : negatesAll single others = true) : IsMet holds single ∨ IsMet holds others := by
  unfold negatesAll at negates
  split at negates
  · rename_i operand all found
    have operandMem := List.mem_singleton_self operand
    have covered := covers operand all (singleMembers operand operandMem)
      (closed.allOf otherMembers found) (flat operand operandMem) negates
    refine covered.imp ?_ ?_
    · intro met other otherMem
      exact List.mem_singleton.mp otherMem ▸ met
    · intro met
      have permitted := permits_allOf respects others
      rw [found, permits_some] at permitted
      exact permitted.mp met
  · cases negates

theorem met_or_met_of_complementary [Keyed σ] {holds among : Condition σ → Prop}
    (respects : Respects holds) (closed : Closed among) (covers : ComplementsCover holds among)
    {left right : Conjunction σ} (leftFormed : Formed among left)
    (rightFormed : Formed among right) (complementary : areComplementary left right = true) :
    IsMet holds (only left right) ∨ IsMet holds (only right left) := by
  have leftOnly : ∀ operand ∈ only left right, operand ∈ left :=
    fun operand mem => (List.mem_filter.mp mem).1
  have rightOnly : ∀ operand ∈ only right left, operand ∈ right :=
    fun operand mem => (List.mem_filter.mp mem).1
  have leftMembers : ∀ operand ∈ only left right, among operand :=
    fun operand mem => leftFormed.among operand (leftOnly operand mem)
  have rightMembers : ∀ operand ∈ only right left, among operand :=
    fun operand mem => rightFormed.among operand (rightOnly operand mem)
  rcases Bool.or_eq_true_iff.mp complementary with negates | negates
  · exact met_or_met_of_negatesAll respects closed covers leftMembers
      (fun operand mem => leftFormed.flat operand (leftOnly operand mem)) rightMembers negates
  · exact (met_or_met_of_negatesAll respects closed covers rightMembers
      (fun operand mem => rightFormed.flat operand (rightOnly operand mem)) leftMembers
      negates).symm

section OneMerge

variable {holds among : Condition σ → Prop} {pair : Pair (Conjunction σ)}
  (formed : ∀ term ∈ pair.whole, Formed among term)

include formed

theorem Pair.formed_first : Formed among pair.first :=
  formed pair.first (by simp [Pair.whole])

theorem Pair.formed_second : Formed among pair.second :=
  formed pair.second (by simp [Pair.whole])

theorem Pair.formed_merged (splits : Splits among)
    (overlap : shared pair.first pair.second ≠ []) : ∀ term ∈ pair.merged, Formed among term := by
  intro term mem
  simp only [Pair.merged, List.mem_append] at mem
  rcases mem with ((before | replaced) | between) | after
  · exact formed term (by simp [Pair.whole, before])
  · exact Conjunction.formed_replacement splits (Pair.formed_first formed) overlap term replaced
  · exact formed term (by simp [Pair.whole, between])
  · exact formed term (by simp [Pair.whole, after])

theorem Pair.anyMet_replacement (respects : Respects holds) (splits : Splits among)
    (decides : TextDecides holds among) :
    AnyMet holds (replacement (shared pair.first pair.second)) ↔
      IsMet holds (shared pair.first pair.second) :=
  Conjunction.anyMet_replacement respects splits decides fun operand mem =>
    (Pair.formed_first formed).among operand (List.mem_filter.mp mem).1

/-- Whichever of the two terms is met, what they share is met. -/
theorem Pair.isMet_shared (decides : TextDecides holds among)
    (met : IsMet holds pair.first ∨ IsMet holds pair.second) :
    IsMet holds (shared pair.first pair.second) := by
  rcases met with first | second
  · exact Conjunction.isMet_shared_of_left pair.second first
  · exact Conjunction.isMet_shared_of_right decides (Pair.formed_first formed).among
      (Pair.formed_second formed).among second

theorem Pair.anyMet_merged (respects : Respects holds) (splits : Splits among)
    (decides : TextDecides holds among) (met : AnyMet holds pair.whole) :
    AnyMet holds pair.merged := by
  have opened := Pair.anyMet_replacement formed respects splits decides
  have sharedMet := Pair.isMet_shared formed decides
  simp only [Pair.whole, Pair.merged, Conjunction.anyMet_append, Conjunction.anyMet_cons] at met ⊢
  rcases met with before | first | between | second | after
  · exact Or.inl (Or.inl (Or.inl before))
  · exact Or.inl (Or.inl (Or.inr (opened.mpr (sharedMet (Or.inl first)))))
  · exact Or.inl (Or.inr between)
  · exact Or.inl (Or.inl (Or.inr (opened.mpr (sharedMet (Or.inr second)))))
  · exact Or.inr after

/-- Nothing is gained either: what only the one term asks for covers what only the other does. -/
theorem Pair.met_of_isMet_shared [Keyed σ] (respects : Respects holds) (closed : Closed among)
    (decides : TextDecides holds among) (covers : ComplementsCover holds among)
    (complementary : areComplementary pair.first pair.second = true)
    (met : IsMet holds (shared pair.first pair.second)) :
    IsMet holds pair.first ∨ IsMet holds pair.second := by
  have first := Pair.formed_first formed
  have second := Pair.formed_second formed
  have swapped := Conjunction.isMet_shared_swap decides first.among second.among met
  exact (met_or_met_of_complementary respects closed covers first second complementary).imp
    (Conjunction.isMet_of_shared_of_only met) (Conjunction.isMet_of_shared_of_only swapped)

theorem Pair.anyMet_of_merged [Keyed σ] (respects : Respects holds) (closed : Closed among)
    (decides : TextDecides holds among) (covers : ComplementsCover holds among)
    (complementary : areComplementary pair.first pair.second = true)
    (met : AnyMet holds pair.merged) : AnyMet holds pair.whole := by
  have opened := Pair.anyMet_replacement formed respects closed.splits decides
  simp only [Pair.whole, Pair.merged, Conjunction.anyMet_append, Conjunction.anyMet_cons] at met ⊢
  rcases met with ((before | replaced) | between) | after
  · exact Or.inl before
  · rcases Pair.met_of_isMet_shared formed respects closed decides covers complementary
      (opened.mp replaced) with first | second
    · exact Or.inr (Or.inl first)
    · exact Or.inr (Or.inr (Or.inr (Or.inl second)))
  · exact Or.inr (Or.inr (Or.inl between))
  · exact Or.inr (Or.inr (Or.inr (Or.inr after)))

end OneMerge

/-! ## All merges -/

variable [Keyed σ]

theorem whole_of_findPair? {terms : List (Conjunction σ)} {pair : Pair (Conjunction σ)}
    (found : findPair? areComplementary [] terms = some pair) :
    areComplementary pair.first pair.second = true ∧ pair.whole = terms := by
  simpa [Pair.whole] using findPair?_spec found

theorem formed_mergeComplements {among : Condition σ → Prop} (splits : Splits among)
    {terms merged : List (Conjunction σ)} (formed : ∀ term ∈ terms, Formed among term)
    (found : mergeComplements terms = some merged) : ∀ term ∈ merged, Formed among term := by
  fun_induction mergeComplements terms with
  | case1 terms => exact Option.some.inj found ▸ formed
  | case2 => cases found
  | case3 terms pair cut both overlap induction =>
      cases (whole_of_findPair? cut).2
      refine induction (Pair.formed_merged formed splits ?_) found
      simpa using overlap

theorem ne_nil_of_mergeComplements {terms merged : List (Conjunction σ)} (nonempty : terms ≠ [])
    (found : mergeComplements terms = some merged) : merged ≠ [] := by
  fun_induction mergeComplements terms with
  | case1 terms => exact Option.some.inj found ▸ nonempty
  | case2 => cases found
  | case3 terms pair cut both overlap induction =>
      refine induction ?_ found
      simp [Conjunction.replacement_ne_nil both]

/-- Merging never makes the terms narrower. -/
theorem anyMet_mergeComplements {holds among : Condition σ → Prop} (respects : Respects holds)
    (splits : Splits among) (decides : TextDecides holds among)
    {terms merged : List (Conjunction σ)} (formed : ∀ term ∈ terms, Formed among term)
    (met : AnyMet holds terms) (found : mergeComplements terms = some merged) :
    AnyMet holds merged := by
  fun_induction mergeComplements terms with
  | case1 terms => exact Option.some.inj found ▸ met
  | case2 => cases found
  | case3 terms pair cut both overlap induction =>
      cases (whole_of_findPair? cut).2
      refine induction (Pair.formed_merged formed splits ?_)
        (Pair.anyMet_merged formed respects splits decides met) found
      simpa using overlap

section Exact

variable {holds among : Condition σ → Prop} (respects : Respects holds) (closed : Closed among)
  (decides : TextDecides holds among) (covers : ComplementsCover holds among)

include respects closed decides covers

theorem anyMet_of_mergeComplements {terms merged : List (Conjunction σ)}
    (formed : ∀ term ∈ terms, Formed among term)
    (found : mergeComplements terms = some merged) (met : AnyMet holds merged) :
    AnyMet holds terms := by
  fun_induction mergeComplements terms with
  | case1 terms => exact Option.some.inj found ▸ met
  | case2 => cases found
  | case3 terms pair cut both overlap induction =>
      rcases whole_of_findPair? cut with ⟨complementary, whole⟩
      cases whole
      have mergedFormed := Pair.formed_merged formed closed.splits (by simpa using overlap)
      exact Pair.anyMet_of_merged formed respects closed decides covers complementary
        (induction mergedFormed found)

/-- Two complementary terms that share nothing cover all cases. -/
theorem anyMet_of_mergeComplements_eq_none {terms : List (Conjunction σ)}
    (formed : ∀ term ∈ terms, Formed among term) (none : mergeComplements terms = none) :
    AnyMet holds terms := by
  fun_induction mergeComplements terms with
  | case1 => cases none
  | case2 terms pair cut both empty =>
      rcases whole_of_findPair? cut with ⟨complementary, whole⟩
      cases whole
      have sharedMet : IsMet holds (shared pair.first pair.second) := by
        rw [show shared pair.first pair.second = [] by simpa using empty]
        intro operand mem
        cases mem
      rcases Pair.met_of_isMet_shared formed respects closed decides covers complementary
        sharedMet with first | second
      · exact ⟨pair.first, by simp [Pair.whole], first⟩
      · exact ⟨pair.second, by simp [Pair.whole], second⟩
  | case3 terms pair cut both overlap induction =>
      rcases whole_of_findPair? cut with ⟨complementary, whole⟩
      cases whole
      have mergedFormed := Pair.formed_merged formed closed.splits (by simpa using overlap)
      exact Pair.anyMet_of_merged formed respects closed decides covers complementary
        (induction mergedFormed none)

end Exact

end Condition

end FlowPlan
