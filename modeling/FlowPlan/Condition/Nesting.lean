import FlowPlan.Text.Quoted

/-! # Quotes and parentheses

An operator separates the operands of an expression only where it stands
outside all quotes and parentheses. The state of a scan from the left says
whether a quote is open and how many parentheses are. Everything here looks at
one character at a time; what a token means is left to the reader of the text.
-/

namespace FlowPlan

structure Nesting where
  quoted : Bool
  depth : Int
deriving DecidableEq, Repr

/-- Why a text is no expression. -/
inductive ExpressionFault where
  | empty
  | unbalancedParentheses
  | unterminatedString
deriving DecidableEq, Repr

namespace Nesting

/-- Outside all quotes and parentheses. -/
def top : Nesting := ⟨false, 0⟩

/-- Behind the character, which changes the depth only outside quotes. -/
def after (nesting : Nesting) (c : Char) : Nesting :=
  if c = '\'' then { nesting with quoted := !nesting.quoted }
  else if nesting.quoted then nesting
  else if c = '(' then { nesting with depth := nesting.depth + 1 }
  else if c = ')' then { nesting with depth := nesting.depth - 1 }
  else nesting

/-- A token may begin with this character. -/
def admits (nesting : Nesting) (c : Char) : Bool :=
  !nesting.quoted && nesting.depth = 0 && c ≠ '\'' && c ≠ '(' && c ≠ ')'

/-- The first fault of a text that is read from the given state on: a parenthesis that closes
nothing is found at once, everything else at the end. -/
def fault? (nesting : Nesting) : Text → Option ExpressionFault
  | [] =>
    if nesting.quoted then some .unterminatedString
    else if nesting.depth ≠ 0 then some .unbalancedParentheses
    else none
  | head :: tail =>
    let next := nesting.after head
    if next.depth < 0 then some .unbalancedParentheses else next.fault? tail

example : top.fault? ['(', '\'', ')', '\'', ')'] = none := rfl
example : top.fault? [')', '\''] = some .unbalancedParentheses := rfl
example : top.fault? ['(', '\''] = some .unterminatedString := rfl

/-- The text in front of the first token outside quotes and parentheses, and the text behind it. -/
def cutAt? (token : Text) (nesting : Nesting) : Text → Option (Text × Text)
  | [] => none
  | head :: tail =>
    if nesting.admits head && token.isPrefixOf (head :: tail) then
      some ([], tail.drop (token.length - 1))
    else
      (cutAt? token (nesting.after head) tail).map fun (front, back) => (head :: front, back)

/-- The text up to the parenthesis that closes the outermost open one, and the text behind it. -/
def closeAt? (nesting : Nesting) : Text → Option (Text × Text)
  | [] => none
  | head :: tail =>
    let next := nesting.after head
    if next.depth = 0 then some ([], tail)
    else (next.closeAt? tail).map fun (front, back) => (head :: front, back)

theorem length_cutAt? {token : Text} {nesting : Nesting} {text front back : Text}
    (cut : cutAt? token nesting text = some (front, back)) :
    front.length + back.length < text.length := by
  induction text generalizing nesting front with
  | nil => simp [cutAt?] at cut
  | cons head tail induction =>
    rw [cutAt?] at cut
    split at cut
    · cases cut
      simp only [List.length_nil, List.length_drop, List.length_cons]
      omega
    · obtain ⟨⟨front', back'⟩, found, equal⟩ := Option.map_eq_some_iff.1 cut
      cases equal
      have := induction found
      simp only [List.length_cons]
      omega

theorem length_closeAt? {nesting : Nesting} {text front back : Text}
    (close : nesting.closeAt? text = some (front, back)) :
    front.length + back.length < text.length := by
  induction text generalizing nesting front with
  | nil => simp [closeAt?] at close
  | cons head tail induction =>
    rw [closeAt?] at close
    split at close
    · cases close
      simp
    · obtain ⟨⟨front', back'⟩, found, equal⟩ := Option.map_eq_some_iff.1 close
      cases equal
      have := induction found
      simp only [List.length_cons]
      omega

end Nesting

namespace Text

/-- The pieces between the tokens that stand outside quotes and parentheses. There is always at
least one piece. -/
def splitAround (token text : Text) : List Text :=
  match _cut : Nesting.cutAt? token .top text with
  | none => [text]
  | some (front, back) => front :: splitAround token back
termination_by text.length
decreasing_by
  have := Nesting.length_cutAt? _cut
  omega

theorem length_le_of_mem_splitAround {token text piece : Text}
    (member : piece ∈ splitAround token text) : piece.length ≤ text.length := by
  fun_induction splitAround token text with
  | case1 => simp_all
  | case2 text front back cut induction =>
    have shorter := Nesting.length_cutAt? cut
    rcases List.mem_cons.1 member with rfl | later
    · omega
    · have := induction later
      omega

/-- The inside of a text that is one pair of parentheses from its first to its last character. -/
def unwrap? : Text → Option Text
  | '(' :: rest =>
    match Nesting.closeAt? ⟨false, 1⟩ rest with
    | some (inner, []) => some inner
    | _ => none
  | _ => none

theorem length_unwrap? {text inner : Text} (unwrapped : unwrap? text = some inner) :
    inner.length < text.length := by
  unfold unwrap? at unwrapped
  split at unwrapped
  · split at unwrapped
    · rename_i close
      cases unwrapped
      have := Nesting.length_closeAt? close
      simp only [List.length_cons, List.length_nil] at this ⊢
      omega
    · simp at unwrapped
  · simp at unwrapped

example : unwrap? ['(', 'a', ')'] = some ['a'] := rfl
example : unwrap? ['(', 'a', ')', '(', 'b', ')'] = none := rfl

end Text

end FlowPlan
