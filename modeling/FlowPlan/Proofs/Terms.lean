import FlowPlan.Proofs.Truth

/-! # Terms of a disjunction

A term is met if all of its operands hold. Merging two terms keeps only what
they share, so a merge never makes the terms narrower. It keeps them as they
are if an operand and a condition that count as complements never both fail.
-/

namespace FlowPlan

open Condition (Respects Splits TextDecides)

namespace Conjunction

variable {σ : Type}

def IsMet (holds : Condition σ → Prop) (term : Conjunction σ) : Prop :=
  ∀ operand ∈ term, holds operand

def AnyMet (holds : Condition σ → Prop) (terms : List (Conjunction σ)) : Prop :=
  ∃ term ∈ terms, IsMet holds term

/-- A term has operands, and none of them is a conjunction itself. -/
structure Formed (among : Condition σ → Prop) (term : Conjunction σ) : Prop where
  nonempty : term ≠ []
  among : ∀ operand ∈ term, among operand
  flat : ∀ operand ∈ term, operand.conjuncts = [operand]

/-! ## Inclusion by text -/

theorem holds_eq_true_iff {term : Conjunction σ} {text : Text} :
    holds term text = true ↔ ∃ operand ∈ term, operand.render = text := by
  simp [holds]

theorem includedIn_refl (term : Conjunction σ) : includedIn term term = true := by
  refine List.all_eq_true.mpr fun operand mem => ?_
  exact holds_eq_true_iff.mpr ⟨operand, mem, rfl⟩

theorem includedIn_trans {left middle right : Conjunction σ}
    (first : includedIn left middle = true) (second : includedIn middle right = true) :
    includedIn left right = true := by
  refine List.all_eq_true.mpr fun operand mem => ?_
  rcases holds_eq_true_iff.mp (List.all_eq_true.mp first operand mem) with ⟨other, otherMem, equal⟩
  rw [← equal]
  exact List.all_eq_true.mp second other otherMem

section Texts

variable {truth among : Condition σ → Prop} (decides : TextDecides truth among)

include decides

theorem truth_of_holds {term : Conjunction σ} (members : ∀ operand ∈ term, among operand)
    {condition : Condition σ} (member : among condition)
    (found : holds term condition.render = true) (met : IsMet truth term) : truth condition := by
  rcases holds_eq_true_iff.mp found with ⟨operand, mem, equal⟩
  exact (decides operand condition (members operand mem) member equal).mp (met operand mem)

theorem isMet_of_includedIn {left right : Conjunction σ}
    (leftMembers : ∀ operand ∈ left, among operand)
    (rightMembers : ∀ operand ∈ right, among operand)
    (included : includedIn left right = true) (met : IsMet truth right) : IsMet truth left :=
  fun operand mem => truth_of_holds decides rightMembers (leftMembers operand mem)
    (List.all_eq_true.mp included operand mem) met

theorem isMet_shared_of_right {left right : Conjunction σ}
    (leftMembers : ∀ operand ∈ left, among operand)
    (rightMembers : ∀ operand ∈ right, among operand)
    (met : IsMet truth right) : IsMet truth (shared left right) := by
  intro operand mem
  have parts := List.mem_filter.mp mem
  exact truth_of_holds decides rightMembers (leftMembers operand parts.1) parts.2 met

end Texts

theorem isMet_shared_of_left {truth : Condition σ → Prop} {left : Conjunction σ}
    (right : Conjunction σ) (met : IsMet truth left) : IsMet truth (shared left right) :=
  fun operand mem => met operand (List.mem_filter.mp mem).1

theorem isMet_of_shared_of_only {truth : Condition σ → Prop} {left right : Conjunction σ}
    (both : IsMet truth (shared left right)) (rest : IsMet truth (only left right)) :
    IsMet truth left := by
  intro operand mem
  cases found : holds right operand.render with
  | true => exact both operand (List.mem_filter.mpr ⟨mem, found⟩)
  | false => exact rest operand (List.mem_filter.mpr ⟨mem, by simp [found]⟩)

theorem isMet_shared_swap {truth among : Condition σ → Prop} (decides : TextDecides truth among)
    {left right : Conjunction σ} (leftMembers : ∀ operand ∈ left, among operand)
    (rightMembers : ∀ operand ∈ right, among operand)
    (met : IsMet truth (shared left right)) : IsMet truth (shared right left) := by
  intro operand mem
  have parts := List.mem_filter.mp mem
  rcases holds_eq_true_iff.mp parts.2 with ⟨other, otherMem, equal⟩
  have inRight : holds right other.render = true :=
    holds_eq_true_iff.mpr ⟨operand, parts.1, equal.symm⟩
  have otherTrue := met other (List.mem_filter.mpr ⟨otherMem, inRight⟩)
  exact (decides other operand (leftMembers other otherMem) (rightMembers operand parts.1)
    equal).mp otherTrue

/-! ## Terms of a condition -/

@[simp] theorem anyMet_nil (truth : Condition σ → Prop) : ¬ AnyMet truth [] := by
  simp [AnyMet]

@[simp] theorem anyMet_cons {truth : Condition σ → Prop} {term : Conjunction σ}
    {terms : List (Conjunction σ)} :
    AnyMet truth (term :: terms) ↔ IsMet truth term ∨ AnyMet truth terms := by
  simp [AnyMet]

@[simp] theorem anyMet_append {truth : Condition σ → Prop} {front back : List (Conjunction σ)} :
    AnyMet truth (front ++ back) ↔ AnyMet truth front ∨ AnyMet truth back := by
  simp [AnyMet, or_and_right, exists_or]

theorem operands_ne_nil (connective : Connective) (condition : Condition σ) :
    condition.operands connective ≠ [] := by
  induction condition with
  | joined found left right leftInduction rightInduction =>
      rw [Condition.operands]
      split
      · simp [leftInduction]
      · simp
  | _ => simp [Condition.operands]

theorem operands_of_mem_operands {connective : Connective} {condition operand : Condition σ}
    (mem : operand ∈ condition.operands connective) : operand.operands connective = [operand] := by
  induction condition with
  | joined found left right leftInduction rightInduction =>
      rw [Condition.operands] at mem
      split at mem
      · rcases List.mem_append.mp mem with mem | mem
        · exact leftInduction mem
        · exact rightInduction mem
      · rename_i different
        cases List.mem_singleton.mp mem
        rw [Condition.operands, if_neg different]
  | _ =>
      cases List.mem_singleton.mp mem
      rfl

theorem formed_ofCondition {among : Condition σ → Prop} (splits : Splits among)
    {condition : Condition σ} (member : among condition) :
    Formed among (ofCondition condition) where
  nonempty := by
    rw [ofCondition, ofOperands, Condition.distinctByText, Condition.conjuncts]
    cases found : condition.operands .and with
    | nil => exact absurd found (operands_ne_nil .and condition)
    | cons head tail => simp [distinctBy]
  among operand mem := splits.of_mem_operands .and member (mem_of_mem_distinctBy mem)
  flat _ mem := operands_of_mem_operands (mem_of_mem_distinctBy mem)

theorem isMet_ofCondition {truth among : Condition σ → Prop} (respects : Respects truth)
    (splits : Splits among) (decides : TextDecides truth among) {condition : Condition σ}
    (member : among condition) : IsMet truth (ofCondition condition) ↔ truth condition := by
  rw [Condition.holds_iff_conjuncts respects.connectives]
  exact decides.forall_mem_distinctByText fun operand mem =>
    splits.of_mem_operands .and member mem

theorem replacement_ne_nil (operands : List (Condition σ)) :
    Condition.replacement operands ≠ [] := by
  unfold Condition.replacement
  split
  · rename_i single
    exact mt List.map_eq_nil_iff.mp (operands_ne_nil .or single)
  · exact List.cons_ne_nil _ _

theorem formed_replacement {among : Condition σ → Prop} (splits : Splits among)
    {left right : Conjunction σ} (formed : Formed among left) (overlap : shared left right ≠ []) :
    ∀ term ∈ Condition.replacement (shared left right), Formed among term := by
  have part : ∀ operand ∈ shared left right, operand ∈ left :=
    fun operand mem => (List.mem_filter.mp mem).1
  intro term mem
  unfold Condition.replacement at mem
  split at mem
  · rename_i single equal
    have singleMem : single ∈ left := part single (by simp [equal])
    rcases List.mem_map.mp mem with ⟨alternative, alternativeMem, rfl⟩
    exact formed_ofCondition splits
      (splits.of_mem_operands .or (formed.among single singleMem) alternativeMem)
  · cases List.mem_singleton.mp mem
    exact ⟨overlap, fun operand mem => formed.among operand (part operand mem),
      fun operand mem => formed.flat operand (part operand mem)⟩

theorem anyMet_replacement {truth among : Condition σ → Prop} (respects : Respects truth)
    (splits : Splits among) (decides : TextDecides truth among) {operands : List (Condition σ)}
    (members : ∀ operand ∈ operands, among operand) :
    AnyMet truth (Condition.replacement operands) ↔ IsMet truth operands := by
  unfold Condition.replacement
  split
  · rename_i single
    have singleAmong := members single List.mem_cons_self
    have opened : ∀ alternative ∈ single.disjuncts,
        (IsMet truth (ofCondition alternative) ↔ truth alternative) :=
      fun alternative mem => isMet_ofCondition respects splits decides
        (splits.of_mem_operands .or singleAmong mem)
    have whole : IsMet truth [single] ↔ truth single := by simp [IsMet]
    rw [whole, Condition.holds_iff_disjuncts respects.connectives single]
    constructor
    · rintro ⟨term, termMem, met⟩
      rcases List.mem_map.mp termMem with ⟨alternative, mem, rfl⟩
      exact ⟨alternative, mem, (opened alternative mem).mp met⟩
    · rintro ⟨alternative, mem, stands⟩
      exact ⟨ofCondition alternative, List.mem_map_of_mem mem, (opened alternative mem).mpr stands⟩
  · simp [AnyMet]

end Conjunction

end FlowPlan
