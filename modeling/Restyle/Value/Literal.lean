import Restyle.Report
import Restyle.Syntax.Lexical
import Restyle.Text.CodePoint

/-!
# String literals

A value read off a string literal, and the literal of an attribute that stands for a value.
Attribute strings have no escapes: a value goes between quotes that do not occur in it, and one
that holds both kinds goes into braces, as a string with escapes.
-/

namespace Restyle.Value

open Syntax Text

def hexValue (c : Char) : Nat :=
  if isDigit c then c.toNat - 48
  else if 'a' ≤ c then c.toNat - 87
  else c.toNat - 55

def hexNumber (digits : List Char) : Nat :=
  digits.foldl (fun n c => 16 * n + hexValue c) 0

/-- Exactly `count` hexadecimal digits from the head of a text. -/
def fixedHex? (count : Nat) (text : List Char) : Option Nat :=
  let digits := text.take count
  if digits.length = count ∧ digits.all isHexDigit then some (hexNumber digits) else none

/-- Hexadecimal digits up to a closing brace, with their number. -/
def bracedHex? (text : List Char) : Option (Nat × Nat) :=
  let digits := text.takeWhile isHexDigit
  match digits, text.dropWhile isHexDigit with
  | _ :: _, '}' :: _ => some (hexNumber digits, digits.length)
  | _, _ => none

/-- The number that an escape gives, and the length of the escape; `text` follows the backslash. -/
def numericEscape? (text : List Char) : Option (Nat × Nat) :=
  match text with
  | 'x' :: rest => (fixedHex? 2 rest).map fun n => (n, 3)
  | 'u' :: '{' :: rest => (bracedHex? rest).map fun (n, digits) => (n, digits + 3)
  | 'u' :: rest => (fixedHex? 4 rest).map fun n => (n, 5)
  | _ => none

/-- The character that a backslash makes of another one. -/
def escaped : Char → Char
  | 'n' => '\n'
  | 'r' => '\r'
  | 't' => '\t'
  | 'b' => '\x08'
  | 'f' => '\x0c'
  | 'v' => '\x0b'
  | '0' => '\x00'
  | c => c

/-- What an escape stands for, and its length; `text` follows the backslash. A line break stands
for nothing. -/
def escape? (text : List Char) : Option (Except Failure (List CodePoint) × Nat) :=
  match numericEscape? text with
  | some (n, length) =>
      let value :=
        if h : n < 0x110000 then .ok [⟨n, h⟩]
        else if n < 0x80000000 then .error .noSuchCodePoint
        else .error .numberTooLarge
      some (value, length)
  | none =>
      match text with
      | [] => none
      | '\r' :: '\n' :: _ => some (.ok [], 2)
      | c :: _ => some (.ok (if isLineEnd c then [] else [.ofChar (escaped c)]), 1)

/-- The value of the inside of a literal; `skip` characters of it belong to an escape that has
been read. -/
def decodeFrom : Nat → List Char → Except Failure (List CodePoint)
  | _, [] => .ok []
  | skip + 1, _ :: rest => decodeFrom skip rest
  | 0, c :: rest =>
      let found := if c = '\\' then escape? rest else none
      match found with
      | some (value, length) => do
          let here ← value
          let later ← decodeFrom length rest
          return here ++ later
      | none => do
          let later ← decodeFrom 0 rest
          return .ofChar c :: later

/-- The value of a literal, whose first and last characters are its quotes. -/
def decode (literal : List Char) : Except Failure (List CodePoint) :=
  decodeFrom 0 (literal.drop 1).dropLast

def encodePoint (p : CodePoint) : List CodePoint :=
  let n := p.val
  if n = 0x22 then ofChars ['\\', '"']
  else if n = 0x5C then ofChars ['\\', '\\']
  else if n = 0x0A then ofChars ['\\', 'n']
  else if n = 0x0D then ofChars ['\\', 'r']
  else if n = 0x09 then ofChars ['\\', 't']
  else if n = 0x0C then ofChars ['\\', 'f']
  else if n = 0x08 then ofChars ['\\', 'b']
  else if n < 0x20 then ofChars ('\\' :: 'u' :: hexDigits 4 n)
  else [p]

def encode (value : List CodePoint) : List CodePoint :=
  ofChars ['"'] ++ value.flatMap encodePoint ++ ofChars ['"']

/-- A value between two quotes that do not occur in it. -/
def between (quote : Char) (value : List CodePoint) : List CodePoint :=
  ofChars [quote] ++ value ++ ofChars [quote]

/-- The text of an attribute literal that stands for a value. -/
def literal (value : List CodePoint) : List CodePoint :=
  if ¬ .ofChar '"' ∈ value then between '"' value
  else if ¬ .ofChar '\'' ∈ value then between '\'' value
  else ofChars ['\x7b'] ++ encode value ++ ofChars ['\x7d']

end Restyle.Value
