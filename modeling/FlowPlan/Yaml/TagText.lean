import FlowPlan.List.Total
import FlowPlan.Yaml.Basic

/-! # Written tags

A tag is written as an exclamation mark and its name. In the name only some of
the characters of ASCII stand for themselves. All others are written as the
bytes of their encoding, each with a percent sign in front. The mark is one of
them, so a tag never has a second mark.
-/

namespace FlowPlan.Yaml

/-- The length of a text in bytes. -/
def byteLength (text : Text) : Nat := total Char.utf8Size text

/-- Characters that stand for themselves in a tag. -/
def isTagChar (c : Char) : Bool := c.isAlphanum || "_-;/?:@&=+$,.~*'()[]".toList.contains c

/-- A byte as two capital digits of base sixteen behind a percent sign. -/
def percentByte (byte : UInt8) : Text :=
  let digits := (Nat.toDigits 16 byte.toNat).map Char.toUpper
  '%' :: List.replicate (2 - digits.length) '0' ++ digits

def percentEncoded (c : Char) : Text :=
  if isTagChar c then [c] else (String.utf8EncodeChar c).flatMap percentByte

/-- What stands behind the mark of a tag. A mark at the start of the name is not written twice. -/
def tagName (tag : String) : Text :=
  match tag.toList with
  | '!' :: rest => rest
  | name => name

/-- A tag without any name behind its mark has its mark for a name, and needs brackets. -/
def tagText (tag : String) : Text :=
  match tagName tag with
  | [] => "!<%21>".toList
  | name => '!' :: name.flatMap percentEncoded

/-- What a tag counts for in front of a key. -/
def tagLength (tag : String) : Nat := byteLength (tagName tag) + 1

example : String.ofList (tagText "é") = "!%C3%A9" := by decide +kernel
example : String.ofList (tagText "!a!b") = "!a%21b" := by decide +kernel

end FlowPlan.Yaml
