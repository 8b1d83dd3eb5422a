import FlowPlan.Proofs.Leaves
import FlowPlan.Proofs.Nesting

/-! # Texts of plain conditions

A plain condition is built over comparisons of a dotted name, calls with
balanced arguments and dotted names. No connective shows in the text of a leaf
or of a negation, so the text of a chain falls apart into the texts of its
operands, and two plain conditions with one text have the same truth whatever
the truth of the leaf texts is.
-/

namespace FlowPlan

open Nesting (Passes Balanced IsInert)

/-! ## Plain leaves -/

/-- Names joined by points. -/
def Text.isDottedChar (c : Char) : Bool := isNameChar c || c = '.'

def Text.IsDottedName (text : Text) : Prop := text ≠ [] ∧ ∀ c ∈ text, isDottedChar c = true

theorem Text.isDottedName_iff_all {text : Text} :
    text ≠ [] ∧ text.all isDottedChar = true ↔ IsDottedName text := by
  rw [IsDottedName, List.all_eq_true]

-- Not by trying out all characters, of which there are many.
instance : DecidablePred Text.IsDottedName := fun _ =>
  decidable_of_iff _ Text.isDottedName_iff_all

/-- Only the characters of the text are tried out. -/
instance (priority := 1100) Text.decidableForallMem (holds : Char → Prop) [DecidablePred holds]
    (text : List Char) : Decidable (∀ c ∈ text, holds c) :=
  List.decidableBAll holds text

def Literal.IsPlain : Literal → Prop
  | .number _ => False
  | _ => True

instance : DecidablePred Literal.IsPlain
  | .number _ => isFalse id
  | .string _ | .boolean _ | .null => isTrue trivial

namespace Condition

variable {σ : Type}

def IsPlainLeaf : Condition σ → Prop
  | .comparison left _ right _ => Text.IsDottedName left ∧ right.IsPlain
  | .call name arguments _ =>
    (name ≠ [] ∧ ∀ c ∈ name, Text.isWordChar c = true) ∧
      ∀ argument ∈ arguments, Nesting.top.fault? argument = none
  | .raw text _ => Text.IsDottedName text
  | _ => False

instance : DecidablePred (IsPlainLeaf : Condition σ → Prop)
  | .comparison left _ right _ =>
    inferInstanceAs (Decidable (Text.IsDottedName left ∧ right.IsPlain))
  | .call name arguments _ =>
    decidable_of_iff ((name ≠ [] ∧ name.all Text.isWordChar = true) ∧
      arguments.all (fun argument => decide (Nesting.top.fault? argument = none)) = true)
      (by simp [IsPlainLeaf])
  | .raw text _ => inferInstanceAs (Decidable (Text.IsDottedName text))
  | .joined .. | .negated _ => Decidable.isFalse id

def IsPlain (condition : Condition σ) : Prop := Over IsPlainLeaf condition

instance : DecidablePred (IsPlain : Condition σ → Prop) := fun condition =>
  inferInstanceAs (Decidable (∀ found ∈ condition.leaves, IsPlainLeaf found))

theorem isDottedName_booleanText (value : Bool) : Text.IsDottedName (booleanText value) := by
  cases value <;> decide

theorem isPlainLeaf_booleanText (value : Bool) (sources : List (Source σ)) :
    IsPlainLeaf (.raw (booleanText value) sources) :=
  isDottedName_booleanText value

theorem closed_isPlain [Keyed σ] : Closed (IsPlain : Condition σ → Prop) :=
  closed_over isPlainLeaf_booleanText

theorem isPlain_of_builtFrom {conditions : List (Condition σ)}
    (plain : ∀ condition ∈ conditions, condition.IsPlain) {condition : Condition σ}
    (built : BuiltFrom conditions condition) : condition.IsPlain := by
  intro leaf mem
  rcases built leaf mem with ⟨value, sources, rfl⟩ | ⟨origin, originMem, leafMem⟩
  · exact isPlainLeaf_booleanText value sources
  · exact plain origin originMem leaf leafMem

end Condition

/-! ## Characters of names -/

theorem Text.ne_of_isDottedChar {c other : Char} (dotted : isDottedChar c = true)
    (outside : isDottedChar other = false) : c ≠ other := by
  intro equal
  rw [equal, outside] at dotted
  cases dotted

theorem Text.isDottedChar_of_isWordChar {c : Char} (word : isWordChar c = true) :
    isDottedChar c = true := by
  simp [isDottedChar, isNameChar, word]

theorem Text.isInert_of_isDottedChar {c : Char} (dotted : isDottedChar c = true) : IsInert c :=
  ⟨ne_of_isDottedChar dotted (by decide), ne_of_isDottedChar dotted (by decide),
    ne_of_isDottedChar dotted (by decide)⟩

theorem Text.isBlank_of_isDottedChar {c : Char} (dotted : isDottedChar c = true) :
    isBlank c = false := by
  have bounds : 45 ≤ c.toNat ∧ c.toNat ≤ 122 := by
    have toNat_val : c.val.toNat = c.toNat := rfl
    unfold isDottedChar isNameChar isWordChar Char.isAlphanum Char.isAlpha Char.isUpper Char.isLower
      Char.isDigit at dotted
    simp only [Bool.or_eq_true, Bool.and_eq_true, decide_eq_true_eq, ge_iff_le,
      UInt32.le_iff_toNat_le, toNat_val] at dotted
    rcases dotted with ((((upper | lower) | digit) | rfl) | rfl) | rfl
    · exact ⟨Nat.le_trans (by decide) upper.1, Nat.le_trans upper.2 (by decide)⟩
    · exact ⟨Nat.le_trans (by decide) lower.1, Nat.le_trans lower.2 (by decide)⟩
    · exact ⟨Nat.le_trans (by decide) digit.1, Nat.le_trans digit.2 (by decide)⟩
    all_goals decide
  simp only [isBlank, isWithin, blankRanges, List.any_cons, List.any_nil, Bool.or_false,
    Bool.or_eq_false_iff, Bool.and_eq_false_imp, decide_eq_true_eq, decide_eq_false_iff_not,
    Nat.not_le]
  omega

theorem Text.trim_of_forall {text : Text} (solid : ∀ c ∈ text, isBlank c = false) :
    trim text = text := by
  have kept : ∀ part : Text, (∀ c ∈ part, isBlank c = false) → part.dropWhile isBlank = part := by
    intro part partSolid
    cases part with
    | nil => rfl
    | cons head tail =>
        rw [List.dropWhile_cons, partSolid head List.mem_cons_self, if_neg Bool.false_ne_true]
  have reversed := kept text.reverse fun c mem => solid c (List.mem_reverse.mp mem)
  rw [trim, trimStart, kept text solid, trimEnd, reversed, List.reverse_reverse]

theorem Text.trim_of_isDottedName {text : Text} (name : IsDottedName text) : trim text = text :=
  trim_of_forall fun c mem => isBlank_of_isDottedChar (name.2 c mem)

/-- The character that a connective's token consists of. -/
def Connective.mark : Connective → Char
  | .and => '&'
  | .or => '|'

namespace Connective

theorem token_eq (connective : Connective) :
    connective.token = [connective.mark, connective.mark] := by
  cases connective <;> rfl

theorem admits_mark (connective : Connective) : Nesting.top.admits connective.mark = true := by
  cases connective <;> rfl

theorem mark_ne_of_isDottedChar (connective : Connective) {c : Char}
    (dotted : Text.isDottedChar c = true) : c ≠ connective.mark := by
  apply Text.ne_of_isDottedChar dotted
  cases connective <;> decide

end Connective

/-- A text in which the scan from the outside finds no connective. -/
structure Uncut (text : Text) : Prop where
  balanced : Balanced text
  passes : ∀ connective : Connective, Passes connective.mark .top text

namespace Uncut

theorem append {front back : Text} (frontUncut : Uncut front) (backUncut : Uncut back) :
    Uncut (front ++ back) where
  balanced := frontUncut.balanced.append backUncut.balanced
  passes connective := by
    rw [Nesting.passes_append, frontUncut.balanced.behind_top]
    exact ⟨frontUncut.passes connective, backUncut.passes connective⟩

theorem of_forall {text : Text} (inert : ∀ c ∈ text, IsInert c)
    (noMark : ∀ connective : Connective, connective.mark ∉ text) : Uncut text where
  balanced := Balanced.of_isInert inert
  passes connective := Nesting.passes_of_not_mem (noMark connective) .top

theorem of_isDottedChar {text : Text} (dotted : ∀ c ∈ text, Text.isDottedChar c = true) :
    Uncut text := by
  apply of_forall
  · intro c mem
    exact Text.isInert_of_isDottedChar (dotted c mem)
  · intro connective mem
    exact connective.mark_ne_of_isDottedChar (dotted _ mem) rfl

theorem parenthesized {text : Text} (balanced : Balanced text) :
    Uncut ('(' :: (text ++ [')'])) where
  balanced := balanced.parenthesized
  passes connective := Nesting.passes_parenthesized balanced connective.mark (Int.le_refl 0)

theorem quote (content : Text) : Uncut (Text.quote content) where
  balanced := Balanced.quote content
  passes connective := Nesting.passes_quote content connective.mark 0

end Uncut

theorem Comparator.uncut_token (comparator : Comparator) :
    Uncut (' ' :: (comparator.token ++ [' '])) := by
  apply Uncut.of_forall
  · cases comparator <;> simp [token, IsInert]
  · intro connective
    cases connective <;> cases comparator <;> simp [token, Connective.mark]

theorem Literal.uncut_render {literal : Literal} (plain : literal.IsPlain) :
    Uncut literal.render := by
  cases literal with
  | string content => exact Uncut.quote content
  | number => cases plain
  | boolean value =>
      exact Uncut.of_isDottedChar (Condition.isDottedName_booleanText value).2
  | null =>
      have name : Text.IsDottedName (Literal.render .null) := by decide
      exact Uncut.of_isDottedChar name.2

theorem Nesting.Balanced.joinWith {separator : Text} (separated : Balanced separator)
    {pieces : List Text} (balanced : ∀ piece ∈ pieces, Balanced piece) :
    Balanced (Text.joinWith separator pieces) := by
  fun_induction Text.joinWith separator pieces with
  | case1 => exact Balanced.nil
  | case2 piece => exact balanced piece List.mem_cons_self
  | case3 piece next rest induction =>
      have pieceBalanced := balanced piece List.mem_cons_self
      refine (pieceBalanced.append separated).append (induction ?_)
      intro later mem
      exact balanced later (List.mem_cons_of_mem piece mem)

namespace Condition

variable {σ : Type}

theorem uncut_leaf {leaf : Condition σ} (plain : leaf.IsPlainLeaf) : Uncut leaf.render := by
  cases leaf with
  | comparison left comparator right sources =>
      have leftUncut := Uncut.of_isDottedChar plain.1.2
      have whole := (leftUncut.append comparator.uncut_token).append
        (Literal.uncut_render plain.2)
      simpa [render] using whole
  | call name arguments sources =>
      have nameUncut : Uncut name := Uncut.of_isDottedChar fun c mem =>
        Text.isDottedChar_of_isWordChar (plain.1.2 c mem)
      have separated : Balanced [',', ' '] :=
        Balanced.of_isInert (by simp [IsInert])
      have inside : Balanced (Text.joinWith [',', ' '] arguments) :=
        separated.joinWith fun argument mem =>
          Nesting.balanced_of_fault?_eq_none (plain.2 argument mem)
      have whole := nameUncut.append (Uncut.parenthesized inside)
      simpa [render] using whole
  | raw text sources => exact Uncut.of_isDottedChar plain.2
  | joined => cases plain
  | negated => cases plain

/-- The text of a leaf begins with a character of a name. -/
theorem leaf_start {leaf : Condition σ} (plain : leaf.IsPlainLeaf) :
    ∃ c ∈ leaf.render.head?, Text.isDottedChar c = true := by
  cases leaf with
  | comparison left comparator right sources =>
      rcases List.exists_cons_of_ne_nil plain.1.1 with ⟨head, tail, rfl⟩
      exact ⟨head, rfl, plain.1.2 head List.mem_cons_self⟩
  | call name arguments sources =>
      rcases List.exists_cons_of_ne_nil plain.1.1 with ⟨head, tail, rfl⟩
      exact ⟨head, rfl, Text.isDottedChar_of_isWordChar (plain.1.2 head List.mem_cons_self)⟩
  | raw text sources =>
      rcases List.exists_cons_of_ne_nil plain.1 with ⟨head, tail, rfl⟩
      exact ⟨head, rfl, plain.2 head List.mem_cons_self⟩
  | joined => cases plain
  | negated => cases plain

theorem leaf_head_ne {leaf : Condition σ} (plain : leaf.IsPlainLeaf) {other : Char}
    (outside : Text.isDottedChar other = false) : leaf.render.head? ≠ some other := by
  rcases leaf_start plain with ⟨c, start, dotted⟩
  intro equal
  rw [equal] at start
  cases start
  rw [outside] at dotted
  cases dotted

end Condition

end FlowPlan
