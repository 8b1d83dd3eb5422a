import FlowPlan.Text.Basic

/-! # Places in a text

A cursor stands somewhere in a text. It has the rest of the text in front of
it and knows its line and column, both counted from zero, and how many bytes of
text are behind it.
-/

namespace FlowPlan

structure Cursor where
  rest : Text
  offset : Nat := 0
  line : Nat := 0
  column : Nat := 0

namespace Cursor

/-- The characters that end a line. -/
def isBreak (c : Char) : Bool := c = '\n' || c = '\u2028' || c = '\u2029'

def isBlank (c : Char) : Bool := c = ' ' || c = '\t'

/-- Blanks and line breaks. -/
def isSpace (c : Char) : Bool := isBlank c || isBreak c

/-- The text is over here, or goes on with a space. -/
def endsHere (text : Text) : Bool :=
  match text with
  | [] => true
  | c :: _ => isSpace c

/-- One character further, at the end nowhere. -/
def next (cursor : Cursor) : Cursor :=
  match cursor.rest with
  | [] => cursor
  | c :: rest =>
    if isBreak c then ⟨rest, cursor.offset + c.utf8Size, cursor.line + 1, 0⟩
    else ⟨rest, cursor.offset + c.utf8Size, cursor.line, cursor.column + 1⟩

def skip (cursor : Cursor) : Nat → Cursor
  | 0 => cursor
  | count + 1 => cursor.next.skip count

def skipWhile (cursor : Cursor) (member : Char → Bool) : Cursor :=
  cursor.skip (cursor.rest.takeWhile member).length

theorem rest_next (cursor : Cursor) : cursor.next.rest = cursor.rest.drop 1 := by
  unfold next
  split
  · next isEnd => simp [isEnd]
  · next found => split <;> simp [found]

theorem rest_skip (cursor : Cursor) (count : Nat) :
    (cursor.skip count).rest = cursor.rest.drop count := by
  induction count generalizing cursor with
  | zero => rfl
  | succ count induction => simp [skip, induction, rest_next]

theorem length_skip (cursor : Cursor) (count : Nat) :
    (cursor.skip count).rest.length = cursor.rest.length - count := by
  simp [rest_skip]

theorem length_skipWhile_le (cursor : Cursor) (member : Char → Bool) :
    (cursor.skipWhile member).rest.length ≤ cursor.rest.length := by
  simp [skipWhile, length_skip]

/-- Three hyphens or three points alone at the start of a line set documents apart. -/
def atDocumentMark (cursor : Cursor) : Bool :=
  cursor.column = 0 &&
    match cursor.rest with
    | '-' :: '-' :: '-' :: rest => endsHere rest
    | '.' :: '.' :: '.' :: rest => endsHere rest
    | _ => false

/-- Goes past a byte order mark at the start of a line. The mark takes up a column. -/
def skipOrderMark (cursor : Cursor) : Cursor :=
  if cursor.column = 0 && cursor.rest.head? = some '\ufeff' then cursor.next else cursor

theorem length_skipOrderMark_le (cursor : Cursor) :
    cursor.skipOrderMark.rest.length ≤ cursor.rest.length := by
  unfold skipOrderMark
  split
  · simp [rest_next]
  · exact Nat.le_refl _

/-- Goes on to the next token, past blanks, comments and ends of lines. Outside flow collections a
new line is a place where keys and collections may begin, and where a tab is no blank. -/
def toToken (inFlow mayBegin : Bool) (cursor : Cursor) : Bool × Cursor :=
  let start := cursor.skipOrderMark.skipWhile fun c =>
    c = ' ' || (c = '\t' && (inFlow || !mayBegin))
  let lineEnd := if start.rest.head? = some '#' then start.skipWhile (!isBreak ·) else start
  match _found : lineEnd.rest with
  | [] => (mayBegin, lineEnd)
  | c :: _ =>
    if isBreak c then toToken inFlow (mayBegin || !inFlow) lineEnd.next
    else (mayBegin, lineEnd)
termination_by cursor.rest.length
decreasing_by
  have first : start.rest.length ≤ cursor.rest.length :=
    Nat.le_trans (length_skipWhile_le _ _) (length_skipOrderMark_le cursor)
  have second : lineEnd.rest.length ≤ start.rest.length := by
    simp only [lineEnd]
    split
    · exact length_skipWhile_le _ _
    · exact Nat.le_refl _
  have nonempty : 0 < lineEnd.rest.length := by simp [_found]
  simp only [rest_next, List.length_drop]
  exact Nat.lt_of_lt_of_le (Nat.sub_lt nonempty Nat.one_pos) (Nat.le_trans second first)

end Cursor

/-! ## Lines of scalars -/

namespace Text

/-- The spaces at the start of a text. -/
def gap (text : Text) : Text := text.takeWhile Cursor.isSpace

/-- What a gap between two words counts for, given its line breaks: the first break only joins the
words by a blank, and stands for nothing if others follow. -/
def foldedBreaks : Text → Text
  | [] => []
  | '\n' :: [] => [' ']
  | '\n' :: more => more
  | breaks => breaks

/-- What a gap inside a scalar counts for. -/
def foldedGap (gap : Text) : Text :=
  let breaks := gap.filter Cursor.isBreak
  if breaks.isEmpty then gap else foldedBreaks breaks

example : foldedGap "  ".toList = "  ".toList := by decide +kernel
example : foldedGap " \n  ".toList = " ".toList := by decide +kernel
example : foldedGap "\n\n \n".toList = "\n\n".toList := by decide +kernel

/-- The text with one and the same character at the end of each line. -/
def withPlainBreaks : Text → Text
  | '\r' :: '\n' :: rest => '\n' :: withPlainBreaks rest
  | '\r' :: rest => '\n' :: withPlainBreaks rest
  | '\u0085' :: rest => '\n' :: withPlainBreaks rest
  | c :: rest => c :: withPlainBreaks rest
  | [] => []

end Text

end FlowPlan
