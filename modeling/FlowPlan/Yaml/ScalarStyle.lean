import FlowPlan.Text.Quoted
import FlowPlan.Yaml.Cursor
import FlowPlan.Yaml.Plain

/-! # Styles of written scalars

A text is written without quotes if it then reads back as the same text, in
single quotes if not, and in double quotes if something in it has to be
escaped. A text with line breaks is written as a block of lines.
-/

namespace FlowPlan.Yaml

/-- Characters that are written as they are. -/
def isPrintable (c : Char) : Bool :=
  let n := c.toNat
  n = 0x0a || (0x20 ≤ n && n ≤ 0x7e) || (0xa0 ≤ n && n ≤ 0xfffd && n ≠ 0xfeff) || 0x10000 ≤ n

/-! ## What a text allows -/

/-- The next character is a space, or there is none. -/
abbrev endsHere := Cursor.endsHere

/-- Characters that begin something other than a plain scalar. -/
def startsOtherwise (c : Char) : Bool := "#,[]\x7b\x7d&*!|>'\"%@`".toList.contains c

/-- The text begins like something other than a plain scalar. -/
def hasForeignStart (text : Text) : Bool :=
  match text with
  | '-' :: '-' :: '-' :: _ => true
  | '.' :: '.' :: '.' :: _ => true
  | [] => false
  | c :: rest => startsOtherwise c || ((c = '?' || c = ':' || c = '-') && endsHere rest)

/-- A colon that ends a key, or a sharp that begins a comment, behind the character `before`. -/
def hasMarkBehind (before : Char) (text : Text) : Bool :=
  match text with
  | [] => false
  | c :: rest =>
    (c = ':' && endsHere rest) || (c = '#' && Cursor.isSpace before) || hasMarkBehind c rest

def hasForeignMark : Text → Bool
  | [] => false
  | c :: rest => hasMarkBehind c rest

/-- A character of the first kind is directly followed by one of the second kind. -/
def hasPair (first second : Char → Bool) : Text → Bool
  | a :: b :: rest => (first a && second b) || hasPair first second (b :: rest)
  | _ => false

def isSpaceChar (c : Char) : Bool := c = ' '

def hasEdge (edge : Char → Bool) (text : Text) : Bool :=
  text.head?.any edge || text.getLast?.any edge

/-- Some character has to be escaped, or a line ends in a blank, which only quotes can show. -/
def needsEscapes (text : Text) : Bool :=
  text.any (!isPrintable ·) || hasPair isSpaceChar Cursor.isBreak text

/-- Ends of lines of all kinds count, also those that have to be escaped. -/
def isMultiline (text : Text) : Bool :=
  text.any fun c => Cursor.isBreak c || c = '\r' || c = '\u0085'

/-- The text can be written without quotes. -/
def allowsPlain (text : Text) : Bool :=
  !hasForeignStart text && !hasForeignMark text && !needsEscapes text && !isMultiline text &&
    !hasEdge isSpaceChar text

def allowsSingleQuotes (text : Text) : Bool :=
  !needsEscapes text && !hasPair Cursor.isBreak isSpaceChar text

def allowsBlock (text : Text) : Bool :=
  !text.isEmpty && !needsEscapes text && !text.getLast?.any isSpaceChar

inductive ScalarStyle where
  | plain
  | singleQuoted
  | doubleQuoted
  | block
deriving DecidableEq, Repr

/-- Quotes of the simpler kind that will do. -/
def quotedStyle (text : Text) : ScalarStyle :=
  if allowsSingleQuotes text then .singleQuoted else .doubleQuoted

def scalarStyle (text : Text) : ScalarStyle :=
  if text.any (· = '\n') then (if allowsBlock text then .block else .doubleQuoted)
  else if Plain.readsAsText text && !Plain.hasLeadingZero text && allowsPlain text then .plain
  else quotedStyle text

example : scalarStyle "007".toList = .singleQuoted := by decide +kernel
example : scalarStyle "tab\there".toList = .doubleQuoted := by decide +kernel
example : scalarStyle "a\nb".toList = .block := by decide +kernel

/-! ## Quoted texts -/

def spaces (count : Nat) : Text := List.replicate count ' '

/-- Single quotes around a text, in which they are doubled. Lines after the first are indented. -/
def singleQuoted (indentation : Nat) (text : Text) : Text := '\'' :: go false text
where
  go (lineStart : Bool) : Text → Text
    | [] => (if lineStart then spaces indentation else []) ++ ['\'']
    | c :: rest =>
      if Cursor.isBreak c then c :: go true rest
      else
        (if lineStart then spaces indentation else []) ++
          (if c = '\'' then ['\'', '\''] else [c]) ++ go false rest

/-- The letter that stands for a character behind a backslash. -/
def escapeLetter? : Char → Option Char
  | '\x00' => some '0'
  | '\x07' => some 'a'
  | '\x08' => some 'b'
  | '\t' => some 't'
  | '\n' => some 'n'
  | '\x0b' => some 'v'
  | '\x0c' => some 'f'
  | '\r' => some 'r'
  | '\x1b' => some 'e'
  | '"' => some '"'
  | '\\' => some '\\'
  | '\u0085' => some 'N'
  | '\u2028' => some 'L'
  | '\u2029' => some 'P'
  | _ => none

/-- A code point in capital digits of base sixteen, filled up with zeros. -/
def codeDigits (width code : Nat) : Text :=
  let digits := (Nat.toDigits 16 code).map Char.toUpper
  List.replicate (width - digits.length) '0' ++ digits

def escapedCode (code : Nat) : Text :=
  if code ≤ 0xff then '\\' :: 'x' :: codeDigits 2 code
  else if code ≤ 0xffff then '\\' :: 'u' :: codeDigits 4 code
  else '\\' :: 'U' :: codeDigits 8 code

def escapedChar (c : Char) : Text :=
  match escapeLetter? c with
  | some letter => ['\\', letter]
  | none => if isPrintable c then [c] else escapedCode c.toNat

def doubleQuoted (text : Text) : Text := '"' :: text.flatMap escapedChar ++ ['"']

/-! ## Blocks

The header of a block gives the indentation if the first line would hide it,
and says what becomes of the line breaks at the end.
-/

def blockHeader (text : Text) : Text :=
  let indentation : Text :=
    if text.head?.any fun c => isSpaceChar c || Cursor.isBreak c then ['2'] else []
  let chomping : Text := match text.reverse with
    | [] => ['-']
    | [last] => if Cursor.isBreak last then ['+'] else ['-']
    | last :: before :: _ =>
      if !Cursor.isBreak last then ['-'] else if Cursor.isBreak before then ['+'] else []
  '|' :: indentation ++ chomping

/-- The lines of a block, each with its break. Empty lines are not indented. -/
def blockLines (indentation : Nat) (lineStart : Bool) : Text → Text
  | [] => if lineStart then [] else ['\n']
  | c :: rest =>
    if Cursor.isBreak c then c :: blockLines indentation true rest
    else
      (if lineStart then spaces indentation else []) ++ c :: blockLines indentation false rest

def block (indentation : Nat) (text : Text) : Text :=
  blockHeader text ++ '\n' :: blockLines indentation true text

example : block 2 "a\n\nb".toList = "|-\n  a\n\n  b\n".toList := by decide +kernel
example : block 2 "\n".toList = "|2+\n\n".toList := by decide +kernel

end FlowPlan.Yaml
