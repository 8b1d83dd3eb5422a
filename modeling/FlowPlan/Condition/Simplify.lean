import FlowPlan.Condition.Printer
import FlowPlan.List.Total

/-! # Simplification of alternatives

A step that several others need runs if any of them does. The alternatives are
reduced in a fixed series of stages: complementary terms are merged, repeated
and absorbed terms dropped, and common factors taken out. A term is a
conjunction whose operands have pairwise different texts, and operands are the
same if their texts are.

No stage makes the condition narrower. The result keeps the order of the
alternatives where no stage applies.
-/

namespace FlowPlan

namespace Condition

variable {σ : Type}

/-- The number of leaves: merging two terms lowers the sum. -/
def weight : Condition σ → Nat
  | .joined _ left right => left.weight + right.weight
  | _ => 1

theorem weight_pos (condition : Condition σ) : 0 < condition.weight := by
  cases condition <;> simp [weight]
  rename_i left right
  have := weight_pos left
  omega

def totalWeight (conditions : List (Condition σ)) : Nat := total weight conditions

theorem totalWeight_operands (connective : Connective) (condition : Condition σ) :
    totalWeight (condition.operands connective) = condition.weight := by
  induction condition with
  | joined found left right leftInduction rightInduction =>
    unfold operands
    split
    · simp_all [totalWeight, weight]
    · simp [totalWeight]
  | _ => simp [operands, totalWeight]

end Condition

/-- The operands of a conjunction, with pairwise different texts. -/
abbrev Conjunction (σ : Type) := List (Condition σ)

namespace Conjunction

variable {σ : Type}

def ofOperands (operands : List (Condition σ)) : Conjunction σ := Condition.distinctByText operands

def ofCondition (condition : Condition σ) : Conjunction σ := ofOperands condition.conjuncts

/-- An operand with this text is among the operands. -/
def holds (conjunction : Conjunction σ) (text : Text) : Bool :=
  conjunction.any fun operand => operand.render = text

def includedIn (left right : Conjunction σ) : Bool :=
  left.all fun operand => holds right operand.render

/-- The operands that occur in both. -/
def shared (left right : Conjunction σ) : List (Condition σ) :=
  left.filter fun operand => holds right operand.render

/-- The operands that occur only in the first. -/
def only (left right : Conjunction σ) : List (Condition σ) :=
  left.filter fun operand => !holds right operand.render

def absorbs (left right : Conjunction σ) : Bool :=
  left.length < right.length && includedIn left right

def sameOperands (left right : Conjunction σ) : Bool :=
  left.length = right.length && includedIn left right

end Conjunction

namespace Condition

variable {σ : Type} [Keyed σ]

/-- The one operand of `single` is the complement of the conjunction of `others`. -/
def negatesAll (single others : List (Condition σ)) : Bool :=
  match single, allOf others with
  | [operand], some conjunction => operand.isComplementOf conjunction
  | _, _ => false

/-- The two terms differ only in operands that complement each other. -/
def areComplementary (left right : Conjunction σ) : Bool :=
  let onlyLeft := Conjunction.only left right
  let onlyRight := Conjunction.only right left
  negatesAll onlyLeft onlyRight || negatesAll onlyRight onlyLeft

/-- A list cut open at two of its members. -/
structure Pair (α : Type) where
  before : List α
  first : α
  between : List α
  second : α
  after : List α

/-- The first member behind `first` that is related to it. -/
def findSecond? {α : Type} (related : α → α → Bool) (before : List α) (first : α) :
    List α → List α → Option (Pair α)
  | _, [] => none
  | passed, second :: after =>
    if related first second then some ⟨before, first, passed.reverse, second, after⟩
    else findSecond? related before first (second :: passed) after

/-- The first two related members, in the order of the first and then of the second. -/
def findPair? {α : Type} (related : α → α → Bool) (passed : List α) : List α → Option (Pair α)
  | [] => none
  | first :: rest =>
    (findSecond? related passed.reverse first [] rest).or (findPair? related (first :: passed) rest)

theorem findSecond?_spec {α : Type} {related : α → α → Bool} {before passed rest : List α}
    {first : α} {pair : Pair α} (found : findSecond? related before first passed rest = some pair) :
    pair.before = before ∧ pair.first = first ∧ related pair.first pair.second = true ∧
      pair.between ++ pair.second :: pair.after = passed.reverse ++ rest := by
  induction rest generalizing passed with
  | nil => simp [findSecond?] at found
  | cons second after induction =>
    rw [findSecond?] at found
    split at found
    · cases found
      simp_all
    · simpa using induction found

theorem findPair?_spec {α : Type} {related : α → α → Bool} {passed rest : List α} {pair : Pair α}
    (found : findPair? related passed rest = some pair) :
    related pair.first pair.second = true ∧
      pair.before ++ pair.first :: (pair.between ++ pair.second :: pair.after) =
        passed.reverse ++ rest := by
  induction rest generalizing passed with
  | nil => simp [findPair?] at found
  | cons first rest induction =>
    rw [findPair?] at found
    rcases Option.or_eq_some_iff.1 found with found | ⟨_, found⟩
    · obtain ⟨before, firstEqual, holds, behind⟩ := findSecond?_spec found
      refine ⟨holds, ?_⟩
      rw [before, firstEqual, behind]
      simp
    · simpa using induction found

/-- What takes the place of two complementary terms, given the operands they share: a single
operand is opened into its alternatives. -/
def replacement (shared : List (Condition σ)) : List (Conjunction σ) :=
  match shared with
  | [single] => single.disjuncts.map Conjunction.ofCondition
  | _ => [shared]

end Condition

namespace Conjunction

variable {σ : Type}

def totalWeight (terms : List (Conjunction σ)) : Nat := total Condition.totalWeight terms

theorem totalWeight_ofOperands_le (operands : List (Condition σ)) :
    Condition.totalWeight (ofOperands operands) ≤ Condition.totalWeight operands :=
  total_le_of_sublist Condition.weight (distinctBy_sublist Condition.sameText operands)

theorem totalWeight_ofCondition_le (condition : Condition σ) :
    Condition.totalWeight (ofCondition condition) ≤ condition.weight :=
  Condition.totalWeight_operands .and condition ▸ totalWeight_ofOperands_le _

theorem totalWeight_shared_add_only (left right : Conjunction σ) :
    Condition.totalWeight (shared left right) + Condition.totalWeight (only left right) =
      Condition.totalWeight left := by
  unfold shared only Condition.totalWeight
  induction left with
  | nil => rfl
  | cons head tail induction =>
    cases member : holds right head.render <;> simp [member] <;> omega

theorem totalWeight_replacement_le (shared : List (Condition σ)) :
    totalWeight (Condition.replacement shared) ≤ Condition.totalWeight shared := by
  unfold Condition.replacement
  split
  · rename_i single
    have opened : Condition.totalWeight single.disjuncts = Condition.totalWeight [single] := by
      rw [Condition.disjuncts, Condition.totalWeight_operands]
      simp [Condition.totalWeight]
    rw [← opened]
    induction single.disjuncts with
    | nil => exact Nat.le_refl _
    | cons head tail induction =>
      have := totalWeight_ofCondition_le head
      simp only [totalWeight, Condition.totalWeight, List.map_cons, total_cons] at *
      omega
  · simp [totalWeight]

end Conjunction

namespace Condition

variable {σ : Type} [Keyed σ]

theorem totalWeight_pos_of_negatesAll {single others : List (Condition σ)}
    (negates : negatesAll single others = true) :
    0 < totalWeight single ∧ 0 < totalWeight others := by
  unfold negatesAll at negates
  split at negates
  · rename_i operand conjunction found
    refine ⟨by simpa [totalWeight] using operand.weight_pos, ?_⟩
    cases others with
    | nil => simp [allOf] at found
    | cons head tail =>
      have := head.weight_pos
      simp only [totalWeight, total_cons]
      omega
  · simp at negates

theorem totalWeight_only_pos {left right : Conjunction σ}
    (complementary : areComplementary left right = true) :
    0 < totalWeight (Conjunction.only left right) := by
  rcases Bool.or_eq_true_iff.1 complementary with negates | negates
  · exact (totalWeight_pos_of_negatesAll negates).1
  · exact (totalWeight_pos_of_negatesAll negates).2

/-- Merges complementary terms until none are left. Two of them that share no operand cover all
cases, and then there is no result. -/
def mergeComplements (terms : List (Conjunction σ)) : Option (List (Conjunction σ)) :=
  match _found : findPair? areComplementary [] terms with
  | none => some terms
  | some pair =>
    let shared := Conjunction.shared pair.first pair.second
    if shared.isEmpty then none
    else mergeComplements (pair.before ++ replacement shared ++ pair.between ++ pair.after)
termination_by Conjunction.totalWeight terms
decreasing_by
  obtain ⟨complementary, equal⟩ := findPair?_spec _found
  have whole := Conjunction.totalWeight_shared_add_only pair.first pair.second
  have replaced :=
    Conjunction.totalWeight_replacement_le (Conjunction.shared pair.first pair.second)
  have rest := totalWeight_only_pos complementary
  simp only [List.reverse_nil, List.nil_append] at equal
  rw [← equal]
  simp only [Conjunction.totalWeight, total_append, total_cons] at *
  omega

/-! ## The series of stages -/

/-- A term in which all operands of another term occur is already covered by that one. -/
def absorbed (terms : List (Conjunction σ)) (term : Conjunction σ) : Bool :=
  terms.any fun other => Conjunction.absorbs other term

def withoutAbsorbed (terms : List (Conjunction σ)) : List (Conjunction σ) :=
  terms.filter fun term => !absorbed terms term

/-- The operands of the first term that occur in all other terms. -/
def commonFactors : List (Conjunction σ) → List (Condition σ)
  | [] => []
  | first :: rest => first.filter fun operand => rest.all (Conjunction.holds · operand.render)

/-- The common factors in front of the alternatives that remain of the terms. If nothing remains
of a term, the factors alone cover all terms. -/
def factored? (terms : List (Conjunction σ)) : Option (Condition σ) :=
  let common := commonFactors terms
  (allOf common).bind fun factor =>
    match terms.mapM fun term => allOf (Conjunction.only term common) with
    | some remainders => (anyOf remainders).map factor.conj
    | none => some factor

/-- The terms of all alternatives, or nothing if one of them always holds. -/
def terms? (alternatives : List (Condition σ)) : Option (List (Conjunction σ)) :=
  let terms := alternatives.flatMap disjuncts
  if terms.any isTrue then none
  else some ((terms.filter fun term => !term.isFalse).map Conjunction.ofCondition)

/-- The condition of terms that no merge applies to any more. -/
def ofTerms (terms : List (Conjunction σ)) : Option (Condition σ) :=
  match withoutAbsorbed (distinctBy Conjunction.sameOperands terms) with
  | [single] => allOf single
  | several => (factored? several).or (anyOf (several.filterMap allOf))

/-- The simplified disjunction of the alternatives, or nothing if it always holds. No alternatives
and a single one that always holds count as always holding, and any other single one stays as it
is. -/
def simplifyAny (alternatives : List (Condition σ)) : Option (Condition σ) :=
  match distinctByText alternatives with
  | [] => none
  | [single] => if single.isTrue then none else some single
  | several =>
    (terms? several).bind fun terms =>
      if terms.isEmpty then some (.constant false)
      else (mergeComplements terms).bind ofTerms

end Condition

end FlowPlan
