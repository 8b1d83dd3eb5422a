import FlowPlan.Condition.Simplify
import FlowPlan.Proofs.Members

/-! # Truth of conditions

An assignment says which conditions hold. It respects the connectives, the
negation and the constants, and it may be decided by texts: among some
conditions, those of one text hold together or fail together. Whatever has no
condition is always permitted.
-/

namespace FlowPlan

namespace Condition

variable {σ : Type}

/-! ## Assignments -/

/-- The connectives, the negation and the constants mean what they say. -/
structure Respects (holds : Condition σ → Prop) : Prop where
  and_iff : ∀ left right, holds (.joined .and left right) ↔ holds left ∧ holds right
  or_iff : ∀ left right, holds (.joined .or left right) ↔ holds left ∨ holds right
  negated_iff : ∀ inner, holds (.negated inner) ↔ ¬ holds inner
  of_isTrue : ∀ condition, condition.isTrue = true → holds condition
  not_of_isFalse : ∀ condition, condition.isFalse = true → ¬ holds condition

/-- The connectives and the negation mean what they say, and the constants may mean anything. -/
structure RespectsConnectives (holds : Condition σ → Prop) : Prop where
  and_iff : ∀ left right, holds (.joined .and left right) ↔ holds left ∧ holds right
  or_iff : ∀ left right, holds (.joined .or left right) ↔ holds left ∨ holds right
  negated_iff : ∀ inner, holds (.negated inner) ↔ ¬ holds inner

theorem Respects.connectives {holds : Condition σ → Prop} (respects : Respects holds) :
    RespectsConnectives holds :=
  ⟨respects.and_iff, respects.or_iff, respects.negated_iff⟩

/-- Of the conditions in question, those with equal texts hold together or fail together. -/
def TextDecides (holds : Condition σ → Prop) (among : Condition σ → Prop) : Prop :=
  ∀ left right, among left → among right → left.render = right.render →
    (holds left ↔ holds right)

theorem TextDecides.mono {holds fewer more : Condition σ → Prop} (decides : TextDecides holds more)
    (included : ∀ condition, fewer condition → more condition) : TextDecides holds fewer :=
  fun left right leftMem rightMem =>
    decides left right (included left leftMem) (included right rightMem)

theorem exists_sameText_mem_distinctByText {conditions : List (Condition σ)}
    {condition : Condition σ} (mem : condition ∈ conditions) :
    ∃ kept ∈ distinctByText conditions, kept.render = condition.render := by
  refine exists_mem_distinctBy ?_ mem rfl
  intro left right equal rightEqual
  exact (of_decide_eq_true equal).trans rightEqual

theorem TextDecides.forall_mem_distinctByText {holds among : Condition σ → Prop}
    (decides : TextDecides holds among) {conditions : List (Condition σ)}
    (members : ∀ condition ∈ conditions, among condition) :
    (∀ condition ∈ distinctByText conditions, holds condition) ↔
      ∀ condition ∈ conditions, holds condition := by
  constructor
  · intro all condition mem
    rcases exists_sameText_mem_distinctByText mem with ⟨kept, keptMem, equal⟩
    have keptAmong := members kept (mem_of_mem_distinctBy keptMem)
    exact (decides kept condition keptAmong (members condition mem) equal).mp (all kept keptMem)
  · intro all condition mem
    exact all condition (mem_of_mem_distinctBy mem)

theorem TextDecides.exists_mem_distinctByText {holds among : Condition σ → Prop}
    (decides : TextDecides holds among) {conditions : List (Condition σ)}
    (members : ∀ condition ∈ conditions, among condition) :
    (∃ condition ∈ distinctByText conditions, holds condition) ↔
      ∃ condition ∈ conditions, holds condition := by
  constructor
  · rintro ⟨condition, mem, stands⟩
    exact ⟨condition, mem_of_mem_distinctBy mem, stands⟩
  · rintro ⟨condition, mem, stands⟩
    rcases exists_sameText_mem_distinctByText mem with ⟨kept, keptMem, equal⟩
    have keptAmong := members kept (mem_of_mem_distinctBy keptMem)
    exact ⟨kept, keptMem,
      (decides kept condition keptAmong (members condition mem) equal).mpr stands⟩

/-- There is no condition, or it holds. -/
def Permits (holds : Condition σ → Prop) (condition : Option (Condition σ)) : Prop :=
  ∀ found ∈ condition, holds found

@[simp] theorem permits_none (holds : Condition σ → Prop) : Permits holds none := by
  simp [Permits]

@[simp] theorem permits_some (holds : Condition σ → Prop) (condition : Condition σ) :
    Permits holds (some condition) ↔ holds condition := by
  simp [Permits]

instance (holds : Condition σ → Prop) [DecidablePred holds] :
    (condition : Option (Condition σ)) → Decidable (Permits holds condition)
  | none => Decidable.isTrue (permits_none holds)
  | some condition => decidable_of_iff (holds condition) (permits_some holds condition).symm

/-- With a conjunction or disjunction, both of its operands are in question. -/
def Splits (among : Condition σ → Prop) : Prop :=
  ∀ connective left right, among (.joined connective left right) → among left ∧ among right

theorem Splits.of_mem_operands {among : Condition σ → Prop} (splits : Splits among)
    (connective : Connective) {condition operand : Condition σ} (member : among condition)
    (mem : operand ∈ condition.operands connective) : among operand := by
  induction condition with
  | joined found left right leftInduction rightInduction =>
      have parts := splits found left right member
      rw [operands] at mem
      split at mem
      · rcases List.mem_append.mp mem with mem | mem
        · exact leftInduction parts.1 mem
        · exact rightInduction parts.2 mem
      · exact List.mem_singleton.mp mem ▸ member
  | _ => exact List.mem_singleton.mp mem ▸ member

section Chains

variable {holds : Condition σ → Prop} (respects : RespectsConnectives holds)

include respects

theorem holds_iff_conjuncts (condition : Condition σ) :
    holds condition ↔ ∀ operand ∈ condition.conjuncts, holds operand := by
  rw [conjuncts]
  induction condition with
  | joined found left right leftInduction rightInduction =>
      cases found with
      | and =>
          rw [respects.and_iff, leftInduction, rightInduction]
          simp [operands, or_imp, forall_and]
      | or => simp [operands]
  | _ => simp [operands]

theorem holds_iff_disjuncts (condition : Condition σ) :
    holds condition ↔ ∃ operand ∈ condition.disjuncts, holds operand := by
  rw [disjuncts]
  induction condition with
  | joined found left right leftInduction rightInduction =>
      cases found with
      | and => simp [operands]
      | or =>
          rw [respects.or_iff, leftInduction, rightInduction]
          simp [operands, or_and_right, exists_or]
  | _ => simp [operands]

end Chains

/-! ## The combinators -/

theorem trim_booleanText (value : Bool) : Text.trim (booleanText value) = booleanText value := by
  cases value <;> rfl

theorem isTrue_raw_booleanText (sources : List (Source σ)) :
    (raw (booleanText true) sources).isTrue = true :=
  decide_eq_true (trim_booleanText true)

theorem isFalse_raw_booleanText (sources : List (Source σ)) :
    (raw (booleanText false) sources).isFalse = true :=
  decide_eq_true (trim_booleanText false)

section Combinators

variable [Keyed σ] {holds : Condition σ → Prop} (respects : Respects holds)

include respects

theorem holds_collapsed (value : Bool) (left right : Condition σ) :
    holds (collapsed value left right) ↔ value = true := by
  cases value with
  | true => exact iff_of_true (respects.of_isTrue _ (isTrue_raw_booleanText _)) rfl
  | false =>
      exact iff_of_false (respects.not_of_isFalse _ (isFalse_raw_booleanText _)) Bool.false_ne_true

theorem holds_conj (left right : Condition σ) :
    holds (left.conj right) ↔ holds left ∧ holds right := by
  rw [conj]
  split
  · rename_i leftTrue
    exact (and_iff_right (respects.of_isTrue left leftTrue)).symm
  · split
    · rename_i rightTrue
      exact (and_iff_left (respects.of_isTrue right rightTrue)).symm
    · split
      · rename_i eitherFalse
        rw [holds_collapsed respects]
        rcases Bool.or_eq_true_iff.mp eitherFalse with leftFalse | rightFalse
        · simp [respects.not_of_isFalse left leftFalse]
        · simp [respects.not_of_isFalse right rightFalse]
      · exact respects.and_iff left right

theorem holds_disj (left right : Condition σ) :
    holds (left.disj right) ↔ holds left ∨ holds right := by
  rw [disj]
  split
  · rename_i eitherTrue
    rw [holds_collapsed respects]
    rcases Bool.or_eq_true_iff.mp eitherTrue with leftTrue | rightTrue
    · simp [respects.of_isTrue left leftTrue]
    · simp [respects.of_isTrue right rightTrue]
  · split
    · rename_i leftFalse
      exact (or_iff_right (respects.not_of_isFalse left leftFalse)).symm
    · split
      · rename_i rightFalse
        exact (or_iff_left (respects.not_of_isFalse right rightFalse)).symm
      · exact respects.or_iff left right

theorem holds_foldl_conj (head : Condition σ) (tail : List (Condition σ)) :
    holds (tail.foldl conj head) ↔ ∀ condition ∈ head :: tail, holds condition := by
  induction tail generalizing head with
  | nil => simp
  | cons next tail induction =>
      rw [List.foldl_cons, induction]
      simp [holds_conj respects, and_assoc]

theorem holds_foldl_disj (head : Condition σ) (tail : List (Condition σ)) :
    holds (tail.foldl disj head) ↔ ∃ condition ∈ head :: tail, holds condition := by
  induction tail generalizing head with
  | nil => simp
  | cons next tail induction =>
      rw [List.foldl_cons, induction]
      simp [holds_disj respects, or_assoc]

theorem permits_allOf (conditions : List (Condition σ)) :
    Permits holds (allOf conditions) ↔ ∀ condition ∈ conditions, holds condition := by
  cases conditions with
  | nil => simp [allOf]
  | cons head tail => rw [allOf, permits_some, holds_foldl_conj respects]

theorem holds_of_anyOf {conditions : List (Condition σ)} {sum : Condition σ}
    (any : anyOf conditions = some sum) :
    holds sum ↔ ∃ condition ∈ conditions, holds condition := by
  cases conditions with
  | nil => cases any
  | cons head tail =>
      cases any
      exact holds_foldl_disj respects head tail

/-- Leaving out repeated conjuncts changes nothing, if texts decide. -/
theorem holds_withDistinctConjuncts {among : Condition σ → Prop} (splits : Splits among)
    (decides : TextDecides holds among) {condition : Condition σ} (member : among condition) :
    holds condition.withDistinctConjuncts ↔ holds condition := by
  have operandMem : ∀ operand ∈ condition.conjuncts, among operand :=
    fun operand mem => splits.of_mem_operands .and member mem
  have same := decides.forall_mem_distinctByText operandMem
  rw [← permits_allOf respects, ← holds_iff_conjuncts respects.connectives] at same
  rw [withDistinctConjuncts]
  cases found : allOf (distinctByText condition.conjuncts) with
  | some sum => simpa [found] using same
  | none => simp

end Combinators

end Condition

end FlowPlan
