import Restyle.Json.Basic
import Restyle.Text.Decimal
import Restyle.Text.Encodings
import Restyle.Value.Literal

/-!
# Reading JSON

The value that a text writes, and the one that some bytes write, in an encoding that their beginning
tells. Beyond the standard, the words `NaN`, `Infinity` and `-Infinity` are numbers. Of arrays and
objects only so many can be read one inside another.
-/

namespace Restyle.Json

open Text

/-- Why there is no value. What is nested too deep may be JSON or not: it has not been read to the
end. -/
inductive ReadError
  | malformed
  | tooDeep
  deriving DecidableEq, Repr

abbrev Reader (α : Type) := List CodePoint → Except ReadError (α × List CodePoint)

def orMalformed {α : Type} : Option α → Except ReadError α
  | some a => .ok a
  | none => .error .malformed

def isBlank (c : CodePoint) : Bool :=
  c = ' ' || c = '\t' || c = '\n' || c = '\r'

def skipBlanks (text : List CodePoint) : List CodePoint :=
  text.dropWhile isBlank

def after? (c : Char) : List CodePoint → Option (List CodePoint)
  | d :: rest => if d = c then some rest else none
  | [] => none

def isDigit (c : CodePoint) : Bool :=
  0x30 ≤ c.val && c.val ≤ 0x39

/-- The code point of an escape that is a single character. -/
def simpleEscape? (c : CodePoint) : Option CodePoint :=
  match c.toChar? with
  | some '"' => some '"'
  | some '\\' => some '\\'
  | some '/' => some '/'
  | some 'b' => some '\x08'
  | some 'f' => some '\x0c'
  | some 'n' => some '\n'
  | some 'r' => some '\r'
  | some 't' => some '\t'
  | _ => none

def unit? (digits : List CodePoint) : Option CodePoint :=
  match (toChars? digits).bind (Value.fixedHex? 4) with
  | some n => if h : n < 0x110000 then some ⟨n, h⟩ else none
  | none => none

/-- An escape of four digits; the backslash has been read. -/
def readUnit (text : List CodePoint) : Option (CodePoint × List CodePoint) := do
  let rest ← after? 'u' text
  return (← unit? (rest.take 4), rest.drop 4)

def pair? (high low : CodePoint) : Option CodePoint :=
  if IsHigh high.val ∧ IsLow low.val then some (Fin.ofNat _ (pairNumber high.val low.val)) else none

/-- The code point of a pair whose second half is escaped next. -/
def readLow (high : CodePoint) (text : List CodePoint) : Option (CodePoint × List CodePoint) := do
  let (low, rest) ← readUnit (← after? '\\' text)
  return (← pair? high low, rest)

/-- A code point that is escaped, by a pair of escapes or by one; the backslash has been read. -/
def readEscape (text : List CodePoint) : Option (CodePoint × List CodePoint) :=
  match readUnit text with
  | some (p, rest) => some ((readLow p rest).getD (p, rest))
  | none =>
      match text with
      | c :: rest => (simpleEscape? c).map fun p => (p, rest)
      | [] => none

/-- The code points of a string up to the closing quote, and the text after that; at most one code
point for each of `bound`. -/
def readPoints : List CodePoint → List CodePoint → Option (List CodePoint × List CodePoint)
  | _ :: bound, c :: rest =>
      if c = '"' then some ([], rest)
      else if c = '\\' then do
        let (p, rest) ← readEscape rest
        let (points, left) ← readPoints bound rest
        return (p :: points, left)
      else if c.val < 0x20 then none
      else do
        let (points, left) ← readPoints bound rest
        return (c :: points, left)
  | _, _ => none

def readString (text : List CodePoint) : Option (List CodePoint × List CodePoint) :=
  readPoints text text

def readDigits (text : List CodePoint) : Option (List CodePoint × List CodePoint) :=
  match text.span isDigit with
  | ([], _) => none
  | found => some found

def afterFraction? (text : List CodePoint) : Option (List CodePoint) := do
  let rest ← after? '.' text
  return (← readDigits rest).2

def skipSign : List CodePoint → List CodePoint
  | c :: rest => if c = '+' ∨ c = '-' then rest else c :: rest
  | [] => []

def afterExponent? : List CodePoint → Option (List CodePoint)
  | c :: rest =>
      if c = 'e' ∨ c = 'E' then (readDigits (skipSign rest)).map fun (_, left) => left else none
  | [] => none

def afterParts? (text : List CodePoint) : Option (List CodePoint) :=
  match afterFraction? text with
  | some rest => some ((afterExponent? rest).getD rest)
  | none => afterExponent? text

/-- The number of decimal digits, unless there are too many of them. -/
def natOf? (digits : List CodePoint) : Option Nat :=
  if digits.length ≤ digitLimit then some (ofDigits (digits.map fun d => d.val - 0x30)) else none

/-- The digits of a number before any fraction. A zero stands alone. -/
def readWhole (text : List CodePoint) : Option (List CodePoint × List CodePoint) :=
  match after? '0' text with
  | some rest => some (['0'], rest)
  | none => readDigits text

def readNumber (text : List CodePoint) : Option (Json × List CodePoint) := do
  let negative := after? '-' text
  let (digits, rest) ← readWhole (negative.getD text)
  match afterParts? rest with
  | some left => return (.inexact, left)
  | none =>
      let n ← natOf? digits
      return (.integer (if negative.isSome then -(n : Int) else n), rest)

def words : List (String × Json) :=
  [("null", .null), ("true", .boolean true), ("false", .boolean false), ("NaN", .inexact),
    ("Infinity", .inexact), ("-Infinity", .inexact)]

def readScalar (text : List CodePoint) : Option (Json × List CodePoint) :=
  match words.find? fun w => (Text.ofChars w.1.toList).isPrefixOf text with
  | some (word, value) => some (value, text.drop word.length)
  | none => readNumber text

/-- Elements with commas between them, up to a closing character; at most one for each of `bound`. -/
def readListed {α : Type} (one : Reader α) (close : Char) : List CodePoint → Reader (List α)
  | [], _ => .error .malformed
  | _ :: bound, text => do
      let (first, rest) ← one text
      match after? ',' (skipBlanks rest) with
      | some rest =>
          let (others, left) ← readListed one close bound rest
          return (first :: others, left)
      | none =>
          let left ← orMalformed (after? close (skipBlanks rest))
          return ([first], left)

/-- All elements up to a closing character; there may be none. -/
def readBetween {α : Type} (one : Reader α) (close : Char) : Reader (List α) := fun text =>
  match after? close (skipBlanks text) with
  | some left => .ok ([], left)
  | none => readListed one close text text

def readItem (read : Reader Json) : Reader Json := fun text =>
  read (skipBlanks text)

def readName (text : List CodePoint) : Option (List CodePoint × List CodePoint) := do
  let (name, rest) ← readString (← after? '"' (skipBlanks text))
  return (name, ← after? ':' (skipBlanks rest))

def readMember (read : Reader Json) : Reader (List CodePoint × Json) := fun text => do
  let (name, rest) ← orMalformed (readName text)
  let (value, left) ← readItem read rest
  return ((name, value), left)

def readArray (read : Reader Json) : Reader Json := fun text =>
  (readBetween (readItem read) ']' text).map fun (items, left) => (.array items, left)

def readObject (read : Reader Json) : Reader Json := fun text =>
  (readBetween (readMember read) '\x7d' text).map fun (members, left) => (.object members, left)

/-- A value, given what reads the values inside it, if any may be there. -/
def readWith (inner : Option (Reader Json)) : Reader Json := fun text =>
  match after? '"' text, after? '[' text, after? '\x7b' text, inner with
  | some rest, _, _, _ =>
      (orMalformed (readString rest)).map fun (points, left) => (.string points, left)
  | none, some rest, _, some read => readArray read rest
  | none, none, some rest, some read => readObject read rest
  | none, none, none, _ => orMalformed (readScalar text)
  | _, _, _, none => .error .tooDeep

/-- A value with at most so many arrays and objects one inside another. -/
def readNested : Nat → Reader Json
  | 0 => readWith none
  | depth + 1 => readWith (some (readNested depth))

/-- The value that a text writes, if no array and no object is inside more than `depth` others. -/
def read (depth : Nat) (text : List CodePoint) : Except ReadError Json := do
  let (value, rest) ← readNested (depth + 1) (skipBlanks text)
  if (skipBlanks rest).isEmpty then return value else throw .malformed

/-- The value that a text writes, however deep it is nested. -/
def read? (text : List Char) : Option Json :=
  (read text.length (Text.ofChars text)).toOption

/-- The encodings whose marks are looked for, the first one that fits first. -/
def markedEncodings : List Encoding :=
  [.utf32 true, .utf32 false, .utf16 true, .utf16 false, .utf8]

/-- The encoding of some bytes without a mark. It is told from which of the first bytes are zero, since
JSON begins with two characters of ASCII or one. -/
def unmarkedEncoding : List UInt8 → Encoding
  | [a, b] => if a = 0 then .utf16 true else if b = 0 then .utf16 false else .utf8
  | a :: b :: c :: d :: _ =>
      if a = 0 then if b = 0 then .utf32 true else .utf16 true
      else if b = 0 then if c = 0 ∧ d = 0 then .utf32 false else .utf16 false
      else .utf8
  | _ => .utf8

/-- The encoding of some bytes, and how many of them are a mark that tells it. -/
def encodingOf (bytes : List UInt8) : Encoding × Nat :=
  match markedEncodings.find? fun e => e.mark.isPrefixOf bytes with
  | some e => (e, e.mark.length)
  | none => (unmarkedEncoding bytes, 0)

def decode (bytes : List UInt8) : Option (List CodePoint) :=
  let (e, marked) := encodingOf bytes
  e.decode (bytes.drop marked)

/-- The value that some bytes write, if no array and no object is inside more than `depth` others. -/
def readBytes (depth : Nat) (bytes : List UInt8) : Except ReadError Json := do
  read depth (← orMalformed (decode bytes))

end Restyle.Json
