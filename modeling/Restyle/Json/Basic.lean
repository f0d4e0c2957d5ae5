import Restyle.Text.CodePoint

/-!
# JSON values

Strings are lists of code points, since an escape may write half of a surrogate pair. Numbers
written with a fraction or an exponent are kept apart from integers.
-/

namespace Restyle

inductive Json
  | null
  | boolean (b : Bool)
  | integer (n : Int)
  /-- A number that is written as no integer, or is none. -/
  | inexact
  | string (text : List Text.CodePoint)
  | array (items : List Json)
  /-- Members in the order in which they are written; of those of one name, the last one counts. -/
  | object (members : List (List Text.CodePoint × Json))

namespace Json

def ofChars (text : List Char) : Json :=
  .string (Text.ofChars text)

def ofString (text : String) : Json :=
  ofChars text.toList

def member? (name : String) (members : List (List Text.CodePoint × Json)) : Option Json :=
  (members.reverse.find? fun m => m.1 = Text.ofChars name.toList).map fun m => m.2

end Json

end Restyle
