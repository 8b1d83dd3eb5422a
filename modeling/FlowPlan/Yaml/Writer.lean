import FlowPlan.Yaml.ScalarStyle
import FlowPlan.Yaml.TagText

/-! # Writing documents

A value is written in block style. What is inside a collection stands two
columns further to the right, except that the members of a sequence stand right
under the key that the sequence belongs to. Empty collections are written as
brackets. Some values with tags, or with collections for keys, have no text.
-/

namespace FlowPlan.Yaml

/-- A scalar and the end of its line, for a scalar whose further lines stand at `indentation`. -/
def scalarLine (indentation : Nat) (text : Text) : Text :=
  match scalarStyle text with
  | .plain => text ++ ['\n']
  | .singleQuoted => singleQuoted indentation text ++ ['\n']
  | .doubleQuoted => doubleQuoted text ++ ['\n']
  | .block => block indentation text

/-- A text that fits into one line in front of a colon. -/
def simpleKey (text : Text) : Text :=
  match scalarStyle text with
  | .plain => text
  | .singleQuoted => singleQuoted 0 text
  | _ => doubleQuoted text

/-- The text of a value in a single line, and its length. What counts for the length is tags and
scalars, without quotes and escapes. -/
def lineText? : Yaml → Option (Text × Nat)
  | .null => some ("null".toList, 4)
  | .bool flag => some ((toString flag).toList, (toString flag).length)
  | .integer n => some ((toString n).toList, (toString n).length)
  | .float x => some (x.pointed, x.pointed.length)
  | .string text =>
    if isMultiline text.toList then none
    else some (simpleKey text.toList, byteLength text.toList)
  | .sequence [] => some ("[]".toList, 0)
  | .mapping [] => some ("\x7b\x7d".toList, 0)
  | .sequence _ => none
  | .mapping _ => none
  | .tagged tag value =>
    (lineText? value).map fun (text, length) =>
      (tagText tag ++ ' ' :: text, tagLength tag + length)

/-- The text of a value that can stand in front of a colon. -/
def simpleKey? (key : Yaml) : Option Text :=
  (lineText? key).bind fun (text, length) => if length ≤ 128 then some text else none

mutual

/-- A value behind the mark of a member, to the end of its last line. A collection begins on the
same line, its marks at `indentation + 2`. The members of a sequence with a tag stand at
`members`. -/
def memberText (indentation members : Nat) : Yaml → Text
  | .sequence (first :: rest) =>
    ' ' :: (membersText (indentation + 2) (first :: rest)).drop (indentation + 2)
  | .mapping (first :: rest) =>
    ' ' :: (entriesText (indentation + 2) (first :: rest)).drop (indentation + 2)
  | .tagged tag value => ' ' :: tagText tag ++ taggedText indentation members value
  | .sequence [] => " []\n".toList
  | .mapping [] => " \x7b\x7d\n".toList
  | .null => " null\n".toList
  | .bool flag => ' ' :: (toString flag).toList ++ ['\n']
  | .integer n => ' ' :: (toString n).toList ++ ['\n']
  | .float x => ' ' :: x.pointed ++ ['\n']
  | .string text => ' ' :: scalarLine (indentation + 2) text.toList

/-- A value behind a tag or a colon, where a collection begins on a new line. The members of a
sequence stand at `members`. -/
def taggedText (indentation members : Nat) : Yaml → Text
  | .sequence (first :: rest) => '\n' :: membersText members (first :: rest)
  | .mapping (first :: rest) => '\n' :: entriesText (indentation + 2) (first :: rest)
  | .tagged tag value => ' ' :: tagText tag ++ taggedText indentation members value
  | .sequence [] => " []\n".toList
  | .mapping [] => " \x7b\x7d\n".toList
  | .null => " null\n".toList
  | .bool flag => ' ' :: (toString flag).toList ++ ['\n']
  | .integer n => ' ' :: (toString n).toList ++ ['\n']
  | .float x => ' ' :: x.pointed ++ ['\n']
  | .string text => ' ' :: scalarLine (indentation + 2) text.toList

def membersText (indentation : Nat) : List Yaml → Text
  | [] => []
  | member :: rest =>
    spaces indentation ++ '-' :: memberText indentation (indentation + 2) member ++
      membersText indentation rest

/-- A key that does not fit in front of a colon gets a mark of its own. -/
def entriesText (indentation : Nat) : List (Yaml × Yaml) → Text
  | [] => []
  | (key, value) :: rest =>
    (match simpleKey? key with
      | some key =>
        spaces indentation ++ key ++ ':' :: taggedText indentation indentation value
      | none =>
        spaces indentation ++ '?' :: memberText indentation indentation key ++
          spaces indentation ++ ':' :: memberText indentation indentation value) ++
      entriesText indentation rest

end

/-! ## Values without a text

A tag looks like a mapping of a single entry whose key is the tag, so where one
of the two stands in the other's place they are taken for each other.
-/

/-- The value is tagged, or a mapping of a single entry. -/
def looksTagged : Yaml → Bool
  | .tagged _ _ => true
  | .mapping [_] => true
  | _ => false

mutual

/-- A tag does not stand on another one, and the key of a single entry does not look tagged, unless
the mapping has a tag itself. -/
def isWritable (isTagged : Bool) : Yaml → Bool
  | .tagged _ value => !isTagged && isWritable true value
  | .sequence members => allWritable members
  | .mapping entries =>
    (isTagged || entries.length ≠ 1 || !entries.any (looksTagged ·.1)) &&
      allEntriesWritable entries
  | _ => true

def allWritable : List Yaml → Bool
  | [] => true
  | member :: rest => isWritable false member && allWritable rest

def allEntriesWritable : List (Yaml × Yaml) → Bool
  | [] => true
  | (key, value) :: rest =>
    isWritable false key && isWritable false value && allEntriesWritable rest

end

/-- A whole document, if it can be written. -/
def documentText? (value : Yaml) : Option Text :=
  if isWritable false value then some (text value) else none
where
  text : Yaml → Text
    | .sequence (first :: rest) => membersText 0 (first :: rest)
    | .mapping (first :: rest) => entriesText 0 (first :: rest)
    | value => (memberText 0 0 value).drop 1

end FlowPlan.Yaml
