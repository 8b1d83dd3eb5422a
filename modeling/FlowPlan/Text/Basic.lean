import FlowPlan.Text.Blank

/-! # Operations on text

Looking for a piece inside a text, joining pieces, and the classes of ASCII
characters that names are made of.
-/

namespace FlowPlan.Text

/-- `piece` occurs somewhere in the text. -/
def contains (piece : Text) : Text → Bool
  | [] => piece.isEmpty
  | head :: tail => piece.isPrefixOf (head :: tail) || contains piece tail

example : contains ['&', '&'] ['a', '&', '&'] = true := rfl
example : contains ['&', '&'] ['&', ' ', '&'] = false := rfl

/-- The pieces one after another, with `separator` between neighbours. -/
def joinWith (separator : Text) : List Text → Text
  | [] => []
  | [piece] => piece
  | piece :: next :: rest => piece ++ separator ++ joinWith separator (next :: rest)

/-- What follows `start`, for a text that begins with it. -/
def dropStart? (start text : Text) : Option Text :=
  match start, text with
  | [], rest => some rest
  | _ :: _, [] => none
  | expected :: more, head :: tail => if expected = head then dropStart? more tail else none

/-- What precedes `ending`, for a text that stops with it. -/
def dropEnding? (ending text : Text) : Option Text :=
  (dropStart? ending.reverse text.reverse).map List.reverse

example : dropStart? ['a', 'b'] ['a', 'b', 'c'] = some ['c'] := rfl
example : dropEnding? ['b', 'c'] ['a', 'b', 'c'] = some ['a'] := rfl

theorem eq_append_of_dropStart? {start text rest : Text}
    (dropped : dropStart? start text = some rest) : text = start ++ rest := by
  fun_induction dropStart? start text with
  | case1 => simp_all
  | case2 => simp at dropped
  | case3 more head tail induction => simp [induction dropped]
  | case4 => simp at dropped

/-- ASCII letters, digits and the underscore: the characters of an identifier. -/
def isWordChar (c : Char) : Bool := c.isAlphanum || c = '_'

/-- The characters of a step or job name in an expression. -/
def isNameChar (c : Char) : Bool := isWordChar c || c = '-'

/-- ASCII letters made small, for texts that are read without regard to case. -/
def lowered (text : Text) : Text := text.map Char.toLower

end FlowPlan.Text
