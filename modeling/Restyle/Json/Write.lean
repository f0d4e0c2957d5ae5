import Restyle.Json.Basic
import Restyle.Text.Decimal
import Restyle.Text.Utf8
import Restyle.Value.Literal

/-!
# Writing JSON

The text of a value, without blanks. Characters stand for themselves where they may; control
characters, quotes, backslashes and surrogates are escaped.
-/

namespace Restyle.Json

open Text

/-- Bytes are shown as text, malformed stretches replaced. -/
instance : Coe (List UInt8) (List Char) :=
  ⟨decodeLossy⟩

def writePoint (p : CodePoint) : List Char :=
  match toChars? (Value.encodePoint p) with
  | some text => text
  | none => '\\' :: 'u' :: hexDigits 4 p.val

def writeString (text : List CodePoint) : List Char :=
  '"' :: text.flatMap writePoint ++ ['"']

mutual

def write : Json → List Char
  | .null => "null".toList
  | .boolean b => (if b then "true" else "false").toList
  | .integer n => decimalInt n
  | .inexact => "NaN".toList
  | .string text => writeString text
  | .array [] => ['[', ']']
  | .array (item :: items) => '[' :: write item ++ writeItems items
  | .object [] => ['\x7b', '\x7d']
  | .object ((name, value) :: members) =>
      '\x7b' :: writeString name ++ ':' :: write value ++ writeMembers members

/-- The items of an array after the first one, and its closing bracket. -/
def writeItems : List Json → List Char
  | [] => [']']
  | item :: items => ',' :: write item ++ writeItems items

/-- The members of an object after the first one, and its closing brace. -/
def writeMembers : List (List CodePoint × Json) → List Char
  | [] => ['\x7d']
  | (name, value) :: members =>
      ',' :: writeString name ++ ':' :: write value ++ writeMembers members

end

end Restyle.Json
