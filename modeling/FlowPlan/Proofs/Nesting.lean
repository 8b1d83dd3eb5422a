import FlowPlan.Condition.Nesting

/-! # Texts between operators

A token is found where the scan is outside all quotes and parentheses. A text
that the scan passes without such a place can stand in front of a token, and a
balanced text can stand between parentheses without hiding what follows.
-/

namespace FlowPlan

namespace Nesting

/-- The state of the scan behind a text. -/
def behind (nesting : Nesting) (text : Text) : Nesting := text.foldl after nesting

@[simp] theorem behind_nil (nesting : Nesting) : nesting.behind [] = nesting := rfl

@[simp] theorem behind_cons (nesting : Nesting) (head : Char) (tail : Text) :
    nesting.behind (head :: tail) = (nesting.after head).behind tail := rfl

@[simp] theorem behind_append (nesting : Nesting) (front back : Text) :
    nesting.behind (front ++ back) = (nesting.behind front).behind back :=
  List.foldl_append

/-- Nowhere in the text can a token begin that has this first character. -/
def Passes (first : Char) (nesting : Nesting) : Text → Prop
  | [] => True
  | head :: tail =>
    (nesting.admits head = true → head ≠ first) ∧ Passes first (nesting.after head) tail

theorem passes_append {first : Char} {nesting : Nesting} {front back : Text} :
    Passes first nesting (front ++ back) ↔
      Passes first nesting front ∧ Passes first (nesting.behind front) back := by
  induction front generalizing nesting with
  | nil => simp [Passes]
  | cons head tail induction =>
      rw [List.cons_append, Passes, Passes, induction, and_assoc, behind_cons]

theorem passes_of_not_mem {first : Char} {text : Text} (absent : first ∉ text)
    (nesting : Nesting) : Passes first nesting text := by
  induction text generalizing nesting with
  | nil => trivial
  | cons head tail induction =>
      rw [List.mem_cons, not_or] at absent
      exact ⟨fun _ => Ne.symm absent.1, induction absent.2 _⟩

theorem cutAt?_append {first : Char} {more : Text} {nesting : Nesting} {front back : Text}
    (passes : Passes first nesting front) :
    cutAt? (first :: more) nesting (front ++ back) =
      (cutAt? (first :: more) (nesting.behind front) back).map fun cut =>
        (front ++ cut.1, cut.2) := by
  induction front generalizing nesting with
  | nil => simp
  | cons head tail induction =>
      have noToken : (nesting.admits head &&
          (first :: more).isPrefixOf (head :: (tail ++ back))) = false := by
        cases admitted : nesting.admits head with
        | false => rfl
        | true =>
            have different := passes.1 admitted
            simp [List.isPrefixOf, Ne.symm different]
      rw [List.cons_append, cutAt?, noToken, if_neg Bool.false_ne_true, induction passes.2,
        Option.map_map, behind_cons]
      rfl

theorem cutAt?_eq_none {first : Char} {more : Text} {nesting : Nesting} {text : Text}
    (passes : Passes first nesting text) : cutAt? (first :: more) nesting text = none := by
  have cut : cutAt? (first :: more) nesting (text ++ []) = _ := cutAt?_append passes
  rw [List.append_nil] at cut
  rw [cut, cutAt?, Option.map_none]

theorem cutAt?_token {first : Char} {more : Text} {nesting : Nesting}
    (admitted : nesting.admits first = true) (back : Text) :
    cutAt? (first :: more) nesting (first :: more ++ back) = some ([], back) := by
  rw [List.cons_append, cutAt?, admitted]
  simp

/-! ## Characters without meaning for the scan -/

/-- Neither a quote nor a parenthesis. -/
def IsInert (c : Char) : Prop := c ≠ '\'' ∧ c ≠ '(' ∧ c ≠ ')'

theorem after_of_isInert {c : Char} (inert : IsInert c) (nesting : Nesting) :
    nesting.after c = nesting := by
  rw [after]
  simp [inert.1, inert.2.1, inert.2.2]

theorem behind_of_isInert {text : Text} (inert : ∀ c ∈ text, IsInert c) (nesting : Nesting) :
    nesting.behind text = nesting := by
  induction text generalizing nesting with
  | nil => rfl
  | cons head tail induction =>
      rw [behind_cons, after_of_isInert (inert head List.mem_cons_self)]
      exact induction (fun c mem => inert c (List.mem_cons_of_mem head mem)) nesting

theorem passes_of_depth_pos {first : Char} {nesting : Nesting} (inside : 0 < nesting.depth)
    (head : Char) : nesting.admits head = true → head ≠ first := by
  intro admitted
  have outside : nesting.depth = 0 := by
    simp only [admits, Bool.and_eq_true, decide_eq_true_eq] at admitted
    exact admitted.1.1.1.2
  omega

/-! ## Balanced texts -/

/-- The scan leaves the text at the depth at which it entered it, and does not come to the
surface in between. -/
structure Balanced (text : Text) : Prop where
  behind : ∀ depth, (Nesting.mk false depth).behind text = ⟨false, depth⟩
  inside : ∀ first depth, 0 < depth → Passes first ⟨false, depth⟩ text

namespace Balanced

theorem nil : Balanced [] := ⟨fun _ => rfl, fun _ _ _ => trivial⟩

theorem append {front back : Text} (frontBalanced : Balanced front)
    (backBalanced : Balanced back) : Balanced (front ++ back) where
  behind depth := by rw [behind_append, frontBalanced.behind, backBalanced.behind]
  inside first depth positive := by
    rw [passes_append, frontBalanced.behind]
    exact ⟨frontBalanced.inside first depth positive, backBalanced.inside first depth positive⟩

theorem of_isInert {text : Text} (inert : ∀ c ∈ text, IsInert c) : Balanced text where
  behind depth := behind_of_isInert inert ⟨false, depth⟩
  inside first depth positive := by
    induction text with
    | nil => trivial
    | cons head tail induction =>
        refine ⟨passes_of_depth_pos positive head, ?_⟩
        rw [after_of_isInert (inert head List.mem_cons_self)]
        exact induction fun c mem => inert c (List.mem_cons_of_mem head mem)

theorem behind_top {text : Text} (balanced : Balanced text) : top.behind text = top :=
  balanced.behind 0

end Balanced

/-- A text in parentheses shows no token at any depth. -/
theorem passes_parenthesized {text : Text} (balanced : Balanced text) (first : Char) {depth : Int}
    (nonnegative : 0 ≤ depth) : Passes first ⟨false, depth⟩ ('(' :: (text ++ [')'])) := by
  have opened : (Nesting.mk false depth).after '(' = ⟨false, depth + 1⟩ := rfl
  refine ⟨by simp [admits], ?_⟩
  rw [opened, passes_append, balanced.behind]
  exact ⟨balanced.inside first (depth + 1) (by omega), by simp [admits], trivial⟩

theorem Balanced.parenthesized {text : Text} (balanced : Balanced text) :
    Balanced ('(' :: (text ++ [')'])) where
  behind depth := by
    have opened : (Nesting.mk false depth).after '(' = ⟨false, depth + 1⟩ := rfl
    have closed : (Nesting.mk false (depth + 1)).after ')' = ⟨false, depth + 1 - 1⟩ := rfl
    rw [behind_cons, opened, behind_append, balanced.behind, behind_cons, closed, behind_nil,
      Int.add_sub_cancel]
  inside first depth positive := passes_parenthesized balanced first (by omega)

/-! ## Quoted strings -/

theorem after_inside_quotes {c : Char} (other : c ≠ '\'') (depth : Int) :
    (Nesting.mk true depth).after c = ⟨true, depth⟩ := by
  rw [after, if_neg other, if_pos rfl]

theorem behind_doubleQuotes (content : Text) (depth : Int) :
    (Nesting.mk true depth).behind (Text.doubleQuotes content) = ⟨true, depth⟩ := by
  fun_induction Text.doubleQuotes content with
  | case1 => rfl
  | case2 tail induction => exact induction
  | case3 head tail other induction =>
      rw [behind_cons, after_inside_quotes other, induction]

/-- Between two quotes that stand for one the scan is outside for a moment, but the second of them
begins no token. -/
theorem passes_doubleQuotes (content : Text) (first : Char) (depth : Int) :
    Passes first ⟨true, depth⟩ (Text.doubleQuotes content) := by
  fun_induction Text.doubleQuotes content with
  | case1 => trivial
  | case2 tail induction => exact ⟨by simp [admits], by simp [admits, after], induction⟩
  | case3 head tail other induction =>
      refine ⟨by simp [admits], ?_⟩
      rw [after_inside_quotes other]
      exact induction

theorem behind_quote (content : Text) (depth : Int) :
    (Nesting.mk false depth).behind (Text.quote content) = ⟨false, depth⟩ := by
  have opened : (Nesting.mk false depth).after '\'' = ⟨true, depth⟩ := rfl
  rw [Text.quote, List.cons_append, behind_cons, opened, behind_append, behind_doubleQuotes]
  rfl

theorem passes_quote (content : Text) (first : Char) (depth : Int) :
    Passes first ⟨false, depth⟩ (Text.quote content) := by
  have opened : (Nesting.mk false depth).after '\'' = ⟨true, depth⟩ := rfl
  rw [Text.quote, List.cons_append]
  refine ⟨by simp [admits], ?_⟩
  rw [opened, passes_append, behind_doubleQuotes]
  exact ⟨passes_doubleQuotes content first depth, by simp [admits], trivial⟩

theorem Balanced.quote (content : Text) : Balanced (Text.quote content) where
  behind depth := behind_quote content depth
  inside first depth _ := passes_quote content first depth

/-! ## Texts without a fault -/

/-- The same state inside some more parentheses. -/
def raised (nesting : Nesting) (levels : Int) : Nesting :=
  { nesting with depth := nesting.depth + levels }

theorem after_raised (nesting : Nesting) (levels : Int) (c : Char) :
    (nesting.raised levels).after c = (nesting.after c).raised levels := by
  unfold after raised
  split
  · rfl
  · split
    · rfl
    · split
      · exact congrArg (Nesting.mk nesting.quoted) (Int.add_right_comm nesting.depth levels 1)
      · split
        · exact congrArg (Nesting.mk nesting.quoted)
            (Int.add_right_comm nesting.depth levels (-1))
        · rfl

theorem behind_raised_of_fault? {nesting : Nesting} {text : Text}
    (faultless : nesting.fault? text = none) (levels : Int) :
    (nesting.raised levels).behind text = ⟨false, levels⟩ := by
  induction text generalizing nesting with
  | nil =>
      rw [fault?] at faultless
      cases quoted : nesting.quoted with
      | true => simp [quoted] at faultless
      | false =>
          have depth : nesting.depth = 0 := by simpa [quoted] using faultless
          simp [raised, quoted, depth]
  | cons head tail induction =>
      rw [fault?] at faultless
      rw [behind_cons, after_raised]
      split at faultless
      · cases faultless
      · exact induction faultless

theorem passes_raised_of_fault? {nesting : Nesting} {text : Text}
    (faultless : nesting.fault? text = none) (nonnegative : 0 ≤ nesting.depth) (first : Char)
    {levels : Int} (positive : 0 < levels) : Passes first (nesting.raised levels) text := by
  induction text generalizing nesting with
  | nil => trivial
  | cons head tail induction =>
      rw [fault?] at faultless
      have inside : 0 < (nesting.raised levels).depth := by
        show 0 < nesting.depth + levels
        omega
      refine ⟨passes_of_depth_pos inside head, ?_⟩
      rw [after_raised]
      split at faultless
      · cases faultless
      · exact induction faultless (by omega)

theorem balanced_of_fault?_eq_none {text : Text} (faultless : top.fault? text = none) :
    Balanced text where
  behind depth := by
    have raisedTop : top.raised depth = ⟨false, depth⟩ := by simp [top, raised]
    rw [← raisedTop, behind_raised_of_fault? faultless, raisedTop]
  inside first depth positive := by
    have raisedTop : top.raised depth = ⟨false, depth⟩ := by simp [top, raised]
    rw [← raisedTop]
    exact passes_raised_of_fault? faultless (Int.le_refl 0) first positive

end Nesting

end FlowPlan
