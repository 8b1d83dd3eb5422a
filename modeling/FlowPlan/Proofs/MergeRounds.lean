import FlowPlan.Proofs.BareConditions

/-! # Rounds of merging

Merging goes round by round. A round takes two complementary terms out and puts
what they share in their place, opened into its alternatives where a single
operand is left, so there may be more terms behind a round than in front of it.
The leaves get fewer all the same, and merging ends where no two terms are
complementary, or where two of them share nothing.
-/

namespace FlowPlan

open Conjunction (Formed shared only)

namespace Condition

/-! ## Pairs -/

section Pairs

variable {α : Type} {related : α → α → Bool}

theorem findSecond?_eq_none_iff {before passed rest : List α} {first : α} :
    findSecond? related before first passed rest = none ↔
      ∀ second ∈ rest, related first second = false := by
  induction rest generalizing passed with
  | nil => simp [findSecond?]
  | cons second after induction =>
      rw [findSecond?, List.forall_mem_cons]
      cases found : related first second with
      | true => simp
      | false => simpa using induction

/-- Nothing is found exactly if no member is related to a later one. -/
theorem findPair?_eq_none_iff {passed rest : List α} :
    findPair? related passed rest = none ↔
      rest.Pairwise fun first second => related first second = false := by
  induction rest generalizing passed with
  | nil => simp [findPair?]
  | cons first rest induction =>
      rw [findPair?, Option.or_eq_none_iff, findSecond?_eq_none_iff, induction, List.pairwise_cons]

end Pairs

variable {σ : Type} [Keyed σ]

/-! ## One round -/

/-- A round puts what the first two complementary terms share in their place. -/
def MergesTo (terms next : List (Conjunction σ)) : Prop :=
  ∃ pair, findPair? areComplementary [] terms = some pair ∧
    shared pair.first pair.second ≠ [] ∧ next = pair.merged

/-- The second of the two terms goes, and what it had apart from the first one goes with it. -/
theorem totalWeight_merged_lt {pair : Pair (Conjunction σ)}
    (complementary : areComplementary pair.first pair.second = true) :
    Conjunction.totalWeight pair.merged < Conjunction.totalWeight pair.whole := by
  have whole := Conjunction.totalWeight_shared_add_only pair.first pair.second
  have replaced := Conjunction.totalWeight_replacement_le (shared pair.first pair.second)
  have lost := totalWeight_only_pos complementary
  simp only [Pair.merged, Pair.whole, Conjunction.totalWeight, total_append, total_cons] at *
  omega

theorem MergesTo.totalWeight_lt {terms next : List (Conjunction σ)} (merges : MergesTo terms next) :
    Conjunction.totalWeight next < Conjunction.totalWeight terms := by
  obtain ⟨pair, found, _, rfl⟩ := merges
  have cut := whole_of_findPair? found
  rw [← cut.2]
  exact totalWeight_merged_lt cut.1

theorem MergesTo.mergeComplements_eq {terms next : List (Conjunction σ)}
    (merges : MergesTo terms next) : mergeComplements terms = mergeComplements next := by
  obtain ⟨pair, found, overlap, rfl⟩ := merges
  rw [mergeComplements_of_some found, if_neg (by simpa using overlap)]

/-! ## Several rounds -/

/-- So many rounds lead from the one list of terms to the other. -/
inductive MergesIn : Nat → List (Conjunction σ) → List (Conjunction σ) → Prop
  | start (terms : List (Conjunction σ)) : MergesIn 0 terms terms
  | round {count : Nat} {terms next last : List (Conjunction σ)} (merges : MergesTo terms next)
      (later : MergesIn count next last) : MergesIn (count + 1) terms last

theorem MergesIn.add_totalWeight_le {count : Nat} {terms last : List (Conjunction σ)}
    (rounds : MergesIn count terms last) :
    count + Conjunction.totalWeight last ≤ Conjunction.totalWeight terms := by
  induction rounds with
  | start terms => omega
  | round merges later induction =>
      have lighter := merges.totalWeight_lt
      omega

theorem MergesIn.mergeComplements_eq {count : Nat} {terms last : List (Conjunction σ)}
    (rounds : MergesIn count terms last) : mergeComplements terms = mergeComplements last := by
  induction rounds with
  | start terms => rfl
  | round merges later induction => exact merges.mergeComplements_eq.trans induction

/-- Two complementary terms that share nothing are the first ones to be found. -/
def CoverAll (terms : List (Conjunction σ)) : Prop :=
  ∃ pair, findPair? areComplementary [] terms = some pair ∧ shared pair.first pair.second = []

theorem CoverAll.mergeComplements_eq {terms : List (Conjunction σ)} (covers : CoverAll terms) :
    mergeComplements terms = none := by
  obtain ⟨pair, found, nothing⟩ := covers
  rw [mergeComplements_of_some found, if_pos (by simpa using nothing)]

/-- The rounds come to an end, where there is no pair or where the pair shares nothing. -/
theorem exists_mergesIn (terms : List (Conjunction σ)) :
    ∃ count last, MergesIn count terms last ∧
      (findPair? areComplementary [] last = none ∨ CoverAll last) := by
  fun_induction mergeComplements terms with
  | case1 terms found => exact ⟨0, terms, .start terms, Or.inl found⟩
  | case2 terms pair found both nothing =>
      exact ⟨0, terms, .start terms, Or.inr ⟨pair, found, by simpa using nothing⟩⟩
  | case3 terms pair found both overlap induction =>
      obtain ⟨count, last, later, ends⟩ := induction
      have merges : MergesTo terms pair.merged := ⟨pair, found, by simpa using overlap, rfl⟩
      exact ⟨count + 1, last, .round merges later, ends⟩

/-! ## Rounds that add terms -/

section Growing

omit [Keyed σ]

/-- An opaque text that is an alternative to itself, so many times. -/
def repeatedly : Nat → Condition σ
  | 0 => .raw ['x'] []
  | count + 1 => .joined .or (repeatedly count) (.raw ['x'] [])

theorem length_disjuncts_repeatedly (count : Nat) :
    (repeatedly count : Condition σ).disjuncts.length = count + 1 := by
  induction count with
  | zero => rfl
  | succ count induction => simpa [repeatedly, disjuncts, operands] using induction

theorem lt_length_render_repeatedly (count : Nat) :
    2 < (repeatedly (count + 1) : Condition σ).render.length := by
  simp [repeatedly, render, Connective.token]
  omega

/-- Two terms that differ in a negation alone, and share the alternatives. -/
def withText (alternatives : Condition σ) : Conjunction σ := [alternatives, .raw ['a'] []]

def withoutText (alternatives : Condition σ) : Conjunction σ :=
  [alternatives, .negated (.raw ['a'] [])]

theorem render_negated_text : (negated (raw ['a'] []) : Condition σ).render = ['!', 'a'] := rfl

end Growing

theorem mergesTo_alternatives {alternatives : Condition σ}
    (long : 2 < alternatives.render.length) :
    MergesTo [withText alternatives, withoutText alternatives] (replacement [alternatives]) := by
  have notText : alternatives.render ≠ ['a'] := by
    intro equal
    simp [equal] at long
  have notNegation : alternatives.render ≠ ['!', 'a'] := by
    intro equal
    simp [equal] at long
  have text : (raw ['a'] [] : Condition σ).render = ['a'] := rfl
  have both : shared (withText alternatives) (withoutText alternatives) = [alternatives] := by
    simp [shared, withText, withoutText, Conjunction.holds, render_negated_text, text, notText]
  have onlyWith : only (withText alternatives) (withoutText alternatives) = [.raw ['a'] []] := by
    simp [only, withText, withoutText, Conjunction.holds, render_negated_text, text, notText]
  have onlyWithout : only (withoutText alternatives) (withText alternatives) =
      [.negated (.raw ['a'] [])] := by
    simp [only, withText, withoutText, Conjunction.holds, render_negated_text, text, notNegation]
  have complementary :
      areComplementary (withText alternatives) (withoutText alternatives) = true := by
    simp [areComplementary, onlyWith, onlyWithout, negatesAll, allOf, isComplementOf, negates]
  refine ⟨⟨[], withText alternatives, [], withoutText alternatives, []⟩, ?_, ?_, ?_⟩
  · simp [findPair?, findSecond?, complementary]
  · simp [both]
  · simp [Pair.merged, both]

/-- A round can add any number of terms. -/
theorem exists_growing_round (more : Nat) : ∃ few many : List (Conjunction σ),
    (∀ term ∈ few, Formed (fun _ => True) term) ∧ MergesTo few many ∧
      many.length = few.length + more := by
  let alternatives : Condition σ := repeatedly (more + 1)
  have flat : alternatives.conjuncts = [alternatives] := rfl
  refine ⟨[withText alternatives, withoutText alternatives], replacement [alternatives], ?_,
    mergesTo_alternatives (lt_length_render_repeatedly more), ?_⟩
  · intro term mem
    have isOne : term = withText alternatives ∨ term = withoutText alternatives := by
      simpa using mem
    cases isOne with
    | inl equal =>
        subst equal
        exact ⟨List.cons_ne_nil _ _, fun _ _ => trivial, by simp [withText, flat]; rfl⟩
    | inr equal =>
        subst equal
        exact ⟨List.cons_ne_nil _ _, fun _ _ => trivial, by simp [withoutText, flat]; rfl⟩
  · simp [replacement, alternatives, length_disjuncts_repeatedly]
    omega

/-! ## The end of all rounds -/

/-- Merging ends, even though a round may add terms: there are at most as many rounds as leaves. It
ends with terms of which no two are complementary, or it comes to two complementary terms that
share nothing. -/
theorem merging_reaches_fixpoint (terms : List (Conjunction σ)) :
    (∀ count reached, MergesIn count terms reached →
      count + Conjunction.totalWeight reached ≤ Conjunction.totalWeight terms) ∧
    (∀ last, mergeComplements terms = some last ↔
      (∃ count, MergesIn count terms last) ∧
        last.Pairwise fun first second => areComplementary first second = false) ∧
    (mergeComplements terms = none ↔ ∃ count last, MergesIn count terms last ∧ CoverAll last) ∧
    ∀ more, ∃ few many : List (Conjunction σ), (∀ term ∈ few, Formed (fun _ => True) term) ∧
      MergesTo few many ∧ many.length = few.length + more := by
  obtain ⟨count, last, rounds, ends⟩ := exists_mergesIn terms
  refine ⟨fun _ _ rounds => rounds.add_totalWeight_le, fun merged => ?_, ?_, exists_growing_round⟩
  · constructor
    · intro isMerged
      rw [rounds.mergeComplements_eq] at isMerged
      cases ends with
      | inl none =>
          rw [mergeComplements_of_none none] at isMerged
          cases isMerged
          exact ⟨⟨count, rounds⟩, findPair?_eq_none_iff.mp none⟩
      | inr covers =>
          rw [covers.mergeComplements_eq] at isMerged
          cases isMerged
    · intro reached
      obtain ⟨⟨count, rounds⟩, apart⟩ := reached
      rw [rounds.mergeComplements_eq]
      exact mergeComplements_of_none (findPair?_eq_none_iff.mpr apart)
  · constructor
    · intro isNone
      rw [rounds.mergeComplements_eq] at isNone
      cases ends with
      | inl none =>
          rw [mergeComplements_of_none none] at isNone
          cases isNone
      | inr covers => exact ⟨count, last, rounds, covers⟩
    · intro reached
      obtain ⟨count, last, rounds, covers⟩ := reached
      rw [rounds.mergeComplements_eq]
      exact covers.mergeComplements_eq

end Condition

end FlowPlan
