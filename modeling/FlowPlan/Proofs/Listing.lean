import FlowPlan.Proofs.ReferenceText
import FlowPlan.Proofs.Splitting

/-! # Listed parts

The operands of a chain and the arguments of a call are written one after
another, with a token between neighbours and blanks around the token. The parts
are found again by splitting the text around the token.
-/

namespace FlowPlan

open Text (IsGap IsTight IsSeparator ClosesQuotes)
open Nesting (Hides IsInert)

section Spaced

variable {token before after : Text} (beforeGap : IsGap before) (afterGap : IsGap after)
  (inert : ∀ c ∈ token, IsInert c)

include beforeGap afterGap inert

theorem Nesting.fault?_spaced : top.fault? (before ++ token ++ after) = none :=
  fault?_of_isInert (beforeGap.forall_mem_spaced afterGap (fun _ => Text.isInert_of_isBlank) inert)

theorem Nesting.Hides.spaced {first : Char} (solid : Text.isBlank first = false)
    (absent : first ∉ token) : Hides first (before ++ token ++ after) := by
  apply of_forall (beforeGap.forall_mem_spaced afterGap (fun _ => Text.isInert_of_isBlank) inert)
  have different : ∀ c ∈ before ++ token ++ after, c ≠ first := by
    refine beforeGap.forall_mem_spaced afterGap ?_ ?_
    · rintro c blank rfl
      rw [solid] at blank
      cases blank
    · rintro c mem rfl
      exact absent mem
  exact fun mem => different first mem rfl

end Spaced

/-- The text lists the parts with the token between them. -/
inductive Text.Lists (token : Text) : List Text → Text → Prop
  | none : Lists token [] []
  | single (part : Text) : Lists token [part] part
  | more (part : Text) {next : Text} {parts : List Text} {rest before after : Text}
      (beforeGap : IsGap before) (afterGap : IsGap after) (later : Lists token (next :: parts) rest) :
      Lists token (part :: next :: parts) (part ++ (before ++ token ++ after) ++ rest)

namespace Text.Lists

variable {token : Text} {parts : List Text} {text : Text}

theorem append {more : List Text} {back before after : Text} (front : Lists token parts text)
    (behind : Lists token more back) (some : parts ≠ []) (moreSome : more ≠ [])
    (beforeGap : IsGap before) (afterGap : IsGap after) :
    Lists token (parts ++ more) (text ++ (before ++ token ++ after) ++ back) := by
  rcases List.exists_cons_of_ne_nil moreSome with ⟨next, rest, rfl⟩
  induction front with
  | none => exact absurd rfl some
  | single part => exact .more part beforeGap afterGap behind
  | more part partGap nextGap later induction =>
      have whole := Lists.more part partGap nextGap (induction (List.cons_ne_nil _ _))
      rw [← List.append_assoc, ← List.append_assoc] at whole
      exact whole

theorem isTight (listed : Lists token parts text) (some : parts ≠ [])
    (tight : ∀ part ∈ parts, IsTight part) : IsTight text := by
  induction listed with
  | none => exact absurd rfl some
  | single part => exact tight part List.mem_cons_self
  | more part beforeGap afterGap later induction =>
      have back := induction (List.cons_ne_nil _ _) fun other mem =>
        tight other (List.mem_cons_of_mem part mem)
      exact (tight part List.mem_cons_self).append _ back

theorem fault?_eq_none (listed : Lists token parts text) (inert : ∀ c ∈ token, IsInert c)
    (faultless : ∀ part ∈ parts, Nesting.top.fault? part = .none) :
    Nesting.top.fault? text = .none := by
  induction listed with
  | none => rfl
  | single part => exact faultless part List.mem_cons_self
  | @more part next parts rest before after beforeGap afterGap later induction =>
      have partFaultless := faultless part List.mem_cons_self
      have restFaultless := induction fun other mem => faultless other (List.mem_cons_of_mem part mem)
      exact Nesting.fault?_eq_none_of_append (Nesting.fault?_eq_none_of_append partFaultless
        (Nesting.fault?_spaced beforeGap afterGap inert)) restFaultless

theorem references_eq (listed : Lists token parts text) (some : token ≠ [])
    (separate : ∀ c ∈ token, IsSeparator c) (close : ∀ part ∈ parts, ClosesQuotes part) :
    references text = parts.flatMap references := by
  induction listed with
  | none => exact references_eq_nil_of_not_mem List.not_mem_nil
  | single part => rw [List.flatMap_singleton]
  | @more part next parts rest before after beforeGap afterGap later induction =>
      have separators : ∀ c ∈ before ++ token ++ after, IsSeparator c :=
        beforeGap.forall_mem_spaced afterGap (fun _ => isSeparator_of_isBlank) separate
      have present : before ++ token ++ after ≠ [] := by simp [some]
      rw [references_append (close part List.mem_cons_self) present separators,
        List.flatMap_cons, induction fun other mem => close other (List.mem_cons_of_mem part mem)]

/-- Splitting around the token finds the parts, with blanks at their ends. -/
theorem map_trim_splitAround {first : Char} {more : Text} (listed : Lists (first :: more) parts text)
    (some : parts ≠ []) (admitted : Nesting.top.admits first = true)
    (solid : isBlank first = false) (tight : ∀ part ∈ parts, IsTight part)
    (hide : ∀ part ∈ parts, Hides first part) {before : Text} (beforeGap : IsGap before) :
    (splitAround (first :: more) (before ++ text)).map trim = parts := by
  have hidesGap : ∀ {gap : Text}, IsGap gap → Hides first gap :=
    fun gap => .of_forall gap.isInert (gap.not_mem solid)
  induction listed generalizing before with
  | none => exact absurd rfl some
  | single part =>
      have hides := (hidesGap beforeGap).append (hide part List.mem_cons_self)
      rw [Nesting.splitAround_of_hides hides, List.map_singleton, trim_gap_append beforeGap,
        (tight part List.mem_cons_self).trim_eq]
  | @more part next parts rest between after betweenGap afterGap later induction =>
      have hides := ((hidesGap beforeGap).append (hide part List.mem_cons_self)).append
        (hidesGap betweenGap)
      have shape : before ++ (part ++ (between ++ first :: more ++ after) ++ rest) =
          (before ++ part ++ between) ++ first :: more ++ (after ++ rest) := by
        simp only [List.append_assoc]
      rw [shape, Nesting.splitAround_append admitted hides, List.map_cons,
        (tight part List.mem_cons_self).trim_surrounded beforeGap betweenGap,
        induction (List.cons_ne_nil next parts)
          (fun other mem => tight other (List.mem_cons_of_mem part mem))
          (fun other mem => hide other (List.mem_cons_of_mem part mem)) afterGap]

end Text.Lists

end FlowPlan
