import FlowPlan.Yaml.Cursor

/-! # Scalars of documents

The three ways in which a document writes a text: plain, inside quotes, and as
a block of lines. Each reader starts behind the place where the scalar was
recognised and returns its text and the place behind it.
-/

namespace FlowPlan

/-- What is wrong with a text that is no document. -/
inductive YamlFault where
  | forbiddenCharacter
  | unexpectedCharacter
  | unexpectedDocumentMark
  | unterminatedQuote
  | unknownEscape
  | tabIndentation
  | malformedBlockHeader
  | malformedDirective
  | misplacedEntry
  | misplacedKey
  | misplacedValue
  | missingValue
  | unclosedCollection
  | misplacedNode
  | numberOutOfRange
  | repeatedKey
  | nestedTooDeeply
deriving DecidableEq, Repr

namespace Cursor

/-! ## Plain scalars -/

def isFlowMark (c : Char) : Bool := c = ',' || c = '[' || c = ']' || c = '\x7b' || c = '\x7d'

/-- The characters of a plain scalar up to the next space. -/
def plainWord (inFlow : Bool) : Text → Except YamlFault Text
  | [] => .ok []
  | c :: rest =>
    if isSpace c || (c = ':' && endsHere rest) || (inFlow && isFlowMark c) then .ok []
    else if inFlow && c = ':' && rest.head?.any (fun next => isFlowMark next || next = '?') then
      .error .unexpectedCharacter
    else (plainWord inFlow rest).map (c :: ·)

/-- A tab that stands behind a line break, left of the given column. -/
def hasTabIndentation (least : Nat) (cursor : Cursor) (lineStart : Bool) (gap : Text) : Bool :=
  match gap with
  | [] => false
  | c :: rest =>
    (lineStart && c = '\t' && cursor.column < least) ||
      hasTabIndentation least cursor.next (lineStart || isBreak c) rest

structure ScannedPlain where
  text : Text
  behind : Cursor
  /-- The scalar ended together with its line. -/
  endsLine : Bool

/-- The words of a plain scalar from the gap at the cursor on. On further lines they have to stand
at column `least` or to the right of it. -/
def plainTail (inFlow : Bool) (least : Nat) (cursor : Cursor) : Except YamlFault ScannedPlain :=
  let gap := Text.gap cursor.rest
  if _blank : gap.length = 0 then .ok ⟨[], cursor, false⟩
  else if hasTabIndentation least cursor false gap then .error .tabIndentation
  else
    let start := cursor.skip gap.length
    let nothing : Except YamlFault ScannedPlain := .ok ⟨[], start, gap.any isBreak⟩
    if (!inFlow && start.column < least) || start.atDocumentMark || start.rest.head? = some '#' then
      nothing
    else match plainWord inFlow start.rest with
      | .error fault => .error fault
      | .ok word =>
        if word.isEmpty then nothing
        else (plainTail inFlow least (start.skip word.length)).map fun tail =>
          { tail with text := Text.foldedGap gap ++ word ++ tail.text }
termination_by cursor.rest.length
decreasing_by
  have positive : 0 < (Text.gap cursor.rest).length := Nat.pos_of_ne_zero _blank
  have bounded : (Text.gap cursor.rest).length ≤ cursor.rest.length :=
    (List.takeWhile_sublist isSpace).length_le
  simp only [length_skip]
  omega

def plain (inFlow : Bool) (least : Nat) (cursor : Cursor) : Except YamlFault ScannedPlain := do
  let word ← plainWord inFlow cursor.rest
  let tail ← plainTail inFlow least (cursor.skip word.length)
  return { tail with text := word ++ tail.text }

/-! ## Quoted scalars -/

/-- The characters that are written as a backslash and one letter. -/
def escaped? : Char → Option Char
  | '0' => some '\x00'
  | 'a' => some '\x07'
  | 'b' => some '\x08'
  | 't' => some '\t'
  | '\t' => some '\t'
  | 'n' => some '\n'
  | 'v' => some '\x0b'
  | 'f' => some '\x0c'
  | 'r' => some '\r'
  | 'e' => some '\x1b'
  | ' ' => some ' '
  | '"' => some '"'
  | '/' => some '/'
  | '\\' => some '\\'
  | 'N' => some '\u0085'
  | '_' => some '\u00a0'
  | 'L' => some '\u2028'
  | 'P' => some '\u2029'
  | _ => none

/-- How many digits of a code point follow a backslash and this letter. -/
def codeLength? : Char → Option Nat
  | 'x' => some 2
  | 'u' => some 4
  | 'U' => some 8
  | _ => none

def hexValue? (c : Char) : Option Nat :=
  if c.isDigit then some (c.toNat - '0'.toNat)
  else if 'a' ≤ c ∧ c ≤ 'f' then some (c.toNat - 'a'.toNat + 10)
  else if 'A' ≤ c ∧ c ≤ 'F' then some (c.toNat - 'A'.toNat + 10)
  else none

/-- The character with the code point that the digits give. -/
def ofCode? (digits : Text) : Option Char := do
  let code ← digits.foldlM (fun sum c => (hexValue? c).map (16 * sum + ·)) 0
  if code.isValidChar then some (Char.ofNat code) else none

/-- The character that an escape sequence stands for, and how long the sequence is behind the
backslash. -/
def escape? (text : Text) : Option (Char × Nat) :=
  match text with
  | [] => none
  | c :: rest =>
    match codeLength? c with
    | some size =>
      if (rest.take size).length = size then (ofCode? (rest.take size)).map (·, size + 1) else none
    | none => (escaped? c).map (·, 1)

/-- The next piece of a scalar in quotes, which begins with `c`: what it stands for, and how many
characters it has behind the first. There is none at the closing quote. In double quotes a backslash
begins an escape sequence, or hides the line break behind it; in single quotes a quote is written
twice. -/
def quotedPiece? (double : Bool) (c : Char) (rest : Text) :
    Except YamlFault (Option (Text × Nat)) :=
  if isSpace c then
    let gap := Text.gap rest
    .ok (some (Text.foldedGap (c :: gap), gap.length))
  else if double && c = '\\' then
    match rest with
    | [] => .error .unterminatedQuote
    | next :: behind =>
      if isBreak next then
        let gap := Text.gap behind
        .ok (some (gap.filter isBreak, gap.length + 1))
      else match escape? rest with
        | some (meant, size) => .ok (some ([meant], size))
        | none => .error .unknownEscape
  else if !double && c = '\'' && rest.head? = some '\'' then .ok (some (['\''], 1))
  else if c = (if double then '"' else '\'') then .ok none
  else .ok (some ([c], 0))

/-- A scalar in quotes, from behind its opening quote. -/
def quoted (double : Bool) (cursor : Cursor) : Except YamlFault (Text × Cursor) :=
  match _found : cursor.rest with
  | [] => .error .unterminatedQuote
  | c :: rest =>
    match quotedPiece? double c rest with
    | .error fault => .error fault
    | .ok none => .ok ([], cursor.next)
    | .ok (some (piece, more)) =>
      let start := cursor.skip (more + 1)
      if start.atDocumentMark then .error .unexpectedDocumentMark
      else (quoted double start).map fun (text, behind) => (piece ++ text, behind)
termination_by cursor.rest.length
decreasing_by
  simp only [length_skip, _found, List.length_cons]
  omega

/-! ## Block scalars

A block is introduced by a header and goes on for as long as its lines are
indented. The header may fix the indentation; otherwise the first line with
text does.
-/

/-- What becomes of the line breaks at the end of a block. -/
inductive Chomping where
  | clip
  | strip
  | keep
deriving DecidableEq, Repr

structure BlockHeader where
  chomping : Chomping := .clip
  indentation : Option Nat := none

def chomping? : Char → Option Chomping
  | '-' => some .strip
  | '+' => some .keep
  | _ => none

def indentationMark? (c : Char) : Option Nat :=
  if c.isDigit && c ≠ '0' then some (c.toNat - '0'.toNat) else none

/-- The marks of a header, in either order, and how many there are. -/
def blockHeader (text : Text) : BlockHeader × Nat :=
  match text with
  | [] => ({}, 0)
  | first :: rest =>
    match chomping? first, indentationMark? first with
    | some chomping, _ =>
      match rest.head?.bind indentationMark? with
      | some indentation => (⟨chomping, some indentation⟩, 2)
      | none => (⟨chomping, none⟩, 1)
    | none, some indentation =>
      match rest.head?.bind chomping? with
      | some chomping => (⟨chomping, some indentation⟩, 2)
      | none => (⟨.clip, some indentation⟩, 1)
    | none, none => ({}, 0)

/-- The rest of the line behind a header holds nothing but a comment. -/
def endOfHeader (cursor : Cursor) : Except YamlFault Cursor :=
  let start := cursor.skipWhile isBlank
  let behind := if start.rest.head? = some '#' then start.skipWhile (!isBreak ·) else start
  match behind.rest with
  | [] => .ok behind
  | c :: _ => if isBreak c then .ok behind.next else .error .malformedBlockHeader

structure BlockGap where
  breaks : Text
  /-- The greatest column reached on the way. -/
  greatest : Nat
  behind : Cursor

/-- Behind the spaces that belong to the indentation. -/
def skipIndentation (indentation : Option Nat) (cursor : Cursor) : Cursor :=
  let room := match indentation with
    | some column => column - cursor.column
    | none => cursor.rest.length
  cursor.skip ((cursor.rest.take room).takeWhile (· = ' ')).length

theorem length_skipIndentation_le (indentation : Option Nat) (cursor : Cursor) :
    (skipIndentation indentation cursor).rest.length ≤ cursor.rest.length := by
  simp only [skipIndentation, length_skip]
  omega

/-- The empty lines at the cursor and the indentation behind them. -/
def blockGap (indentation : Option Nat) (cursor : Cursor) : Except YamlFault BlockGap :=
  let start := skipIndentation indentation cursor
  match _found : start.rest with
  | [] => .ok ⟨[], start.column, start⟩
  | c :: _ =>
    if c = '\t' && indentation.all (start.column < ·) then .error .tabIndentation
    else if isBreak c then
      (blockGap indentation start.next).map fun gap =>
        { gap with breaks := c :: gap.breaks, greatest := max start.column gap.greatest }
    else .ok ⟨[], start.column, start⟩
termination_by cursor.rest.length
decreasing_by
  have shorter : start.rest.length ≤ cursor.rest.length := length_skipIndentation_le _ cursor
  have nonempty : 0 < start.rest.length := by simp [_found]
  simp only [rest_next, List.length_drop]
  exact Nat.lt_of_lt_of_le (Nat.sub_lt nonempty Nat.one_pos) shorter

theorem length_blockGap_le {indentation : Option Nat} {cursor : Cursor} {gap : BlockGap}
    (scanned : blockGap indentation cursor = .ok gap) :
    gap.behind.rest.length ≤ cursor.rest.length := by
  fun_induction blockGap indentation cursor generalizing gap with
  | case1 cursor start => cases scanned; exact length_skipIndentation_le indentation cursor
  | case2 => simp at scanned
  | case3 cursor start c rest found =>
    rename_i induction
    have shorter : start.next.rest.length ≤ cursor.rest.length := by
      have : start.rest.length ≤ cursor.rest.length := length_skipIndentation_le _ cursor
      rw [rest_next, List.length_drop]
      omega
    cases inner : blockGap indentation start.next with
    | error fault => simp [inner, Except.map] at scanned
    | ok rest =>
      rw [inner] at scanned
      cases scanned
      have further := induction inner
      exact Nat.le_trans further shorter
  | case4 cursor start => cases scanned; exact length_skipIndentation_le indentation cursor

/-- A line and its break take up something. -/
theorem length_lineEnd_lt {cursor : Cursor} (nonempty : cursor.rest ≠ []) :
    (cursor.skipWhile (!isBreak ·)).next.rest.length < cursor.rest.length := by
  simp only [rest_next, skipWhile, length_skip, List.length_drop]
  rcases found : cursor.rest with _ | ⟨c, rest⟩
  · exact absurd found nonempty
  · simp only [List.length_cons]
    omega

/-- The lines of a block from the cursor on, for lines that start at column `indentation`. `pending`
is the line break that ended the line before, and `breaks` are the empty lines since; `afterBlank`
says that the line before began with a blank. In a folded block a single line break between two
lines that begin with text is a blank. -/
def blockLines (folded : Bool) (chomping : Chomping) (indentation : Nat) (pending : Option Char)
    (breaks : Text) (afterBlank : Bool) (cursor : Cursor) : Except YamlFault (Text × Cursor) :=
  match _found : cursor.rest with
  | c :: _ =>
    if cursor.column = indentation then
      let glue : Text :=
        if folded && pending = some '\n' && !afterBlank && !isBlank c then
          if breaks.isEmpty then [' '] else []
        else pending.toList
      let line := cursor.rest.takeWhile (!isBreak ·)
      let lineEnd := cursor.skipWhile (!isBreak ·)
      match _scanned : blockGap (some indentation) lineEnd.next with
      | .error fault => .error fault
      | .ok gap =>
        (blockLines folded chomping indentation lineEnd.rest.head? gap.breaks (isBlank c)
          gap.behind).map fun (text, behind) => (glue ++ breaks ++ line ++ text, behind)
    else .ok (blockEnd, cursor)
  | [] => .ok (blockEnd, cursor)
termination_by cursor.rest.length
decreasing_by
  have shorter : gap.behind.rest.length ≤ (cursor.skipWhile (!isBreak ·)).next.rest.length :=
    length_blockGap_le _scanned
  exact Nat.lt_of_le_of_lt shorter (length_lineEnd_lt (by simp [_found]))
where
  blockEnd : Text :=
    match chomping with
    | .strip => []
    | .clip => pending.toList
    | .keep => pending.toList ++ breaks

/-- A block scalar from behind its opening mark. `outer` is the indentation of the collection that
the block stands in. -/
def block (folded : Bool) (outer : Option Nat) (cursor : Cursor) :
    Except YamlFault (Text × Cursor) := do
  let (header, size) := blockHeader cursor.rest
  let start ← endOfHeader (cursor.skip size)
  let fixed := header.indentation.map (outer.getD 0 + ·)
  let gap ← blockGap fixed start
  let indentation := fixed.getD (max gap.greatest (max (outer.elim 0 (· + 1)) 1))
  blockLines folded header.chomping indentation none gap.breaks false gap.behind

end Cursor

end FlowPlan
