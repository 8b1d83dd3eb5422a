import FlowPlan.Text.Basic

/-! # Quoted strings

A string inside an expression stands between single quotes, and a quote that
belongs to the string is written twice. `quote` writes a string and `unquote?`
reads it back; `unquote?` accepts exactly what `quote` writes.
-/

namespace FlowPlan.Text

def doubleQuotes : Text → Text
  | [] => []
  | '\'' :: tail => '\'' :: '\'' :: doubleQuotes tail
  | head :: tail => head :: doubleQuotes tail

/-- Refuses a quote that stands alone. -/
def undoubleQuotes? : Text → Option Text
  | [] => some []
  | '\'' :: '\'' :: tail => (undoubleQuotes? tail).map ('\'' :: ·)
  | head :: tail => if head = '\'' then none else (undoubleQuotes? tail).map (head :: ·)

def quote (content : Text) : Text := '\'' :: doubleQuotes content ++ ['\'']

/-- Opens with a quote and closes with another one. -/
def quotedInner? (text : Text) : Option Text :=
  (dropStart? ['\''] text).bind (dropEnding? ['\''])

def unquote? (text : Text) : Option Text := (quotedInner? text).bind undoubleQuotes?

example : quote ['i', 't', '\'', 's'] = ['\'', 'i', 't', '\'', '\'', 's', '\''] := rfl
example : unquote? ['\'', 'a', '\'', 'b', '\''] = none := rfl

end FlowPlan.Text
