import Restyle.Syntax.Lexical

/-!
# Semicolons that need not be written

A statement may end without a semicolon at the end of the text, before a closing brace, and at a
line feed unless the next line goes on with it. A line goes on if it begins with an operator, with
`in` or `instanceof`, or, where an operator could follow, with a bracket.
-/

namespace Restyle.Syntax

/-- White space around line ends; narrower than the space between tokens. -/
def isBreakingSpace (c : Char) : Bool :=
  let n := c.toNat
  (9 ≤ n && n ≤ 13) || n == 0x20 || n == 0x1680 || (0x2000 ≤ n && n ≤ 0x2006) ||
    (0x2008 ≤ n && n ≤ 0x200A) || n == 0x2028 || n == 0x2029 || n == 0x205F || n == 0x3000

/-- The place of a statement end: whether an operator could follow there, and whether it ends the
signature of a function, which a body may follow. -/
structure EndPlace where
  operators : Bool
  signature : Bool
  deriving DecidableEq, Repr

inductive Skipping
  | space
  | lineComment
  | blockComment
  deriving DecidableEq

/-- The text from the first token on; a slash that begins no comment is none. -/
def firstToken : Skipping → List Char → Option (List Char)
  | _, [] => some []
  | .space, '/' :: '/' :: rest => firstToken .lineComment rest
  | .space, '/' :: '*' :: rest => firstToken .blockComment rest
  | .space, '/' :: _ => none
  | .space, c :: rest => if isBreakingSpace c then firstToken .space rest else some (c :: rest)
  | .lineComment, c :: rest =>
      if c == '\n' then firstToken .space rest else firstToken .lineComment rest
  | .blockComment, '*' :: '/' :: rest => firstToken .space rest
  | .blockComment, _ :: rest => firstToken .blockComment rest

/-- Whether a text begins with another, and no letter comes after it. -/
def beginsWithWord (word text : List Char) : Bool :=
  word.isPrefixOf text &&
    match text.drop word.length with
    | c :: _ => !(isLetter c || 0x7F < c.toNat)
    | [] => true

/-- Whether the line that begins so is a statement of its own. -/
def startsStatement (place : EndPlace) : List Char → Bool
  | [] => true
  | c :: rest =>
      if c ∈ "`,.;*%><=?^|&/:".toList then false
      else if c == '{' then !place.signature
      else if c == '(' || c == '[' then !place.operators
      else if c == '+' then rest.head? == some '+'
      else if c == '-' then rest.head? == some '-'
      else if c == '!' then rest.head? != some '='
      else if c == 'i' then
        !(beginsWithWord "in".toList (c :: rest) || beginsWithWord "instanceof".toList (c :: rest))
      else true

/-- Whether a statement may end at the head of the text, no comment coming first. -/
def endsHere (place : EndPlace) : List Char → Bool
  | [] => true
  | '}' :: rest =>
      match rest.dropWhile isBreakingSpace with
      | ':' :: _ => place.operators
      | _ => true
  | '\n' :: rest =>
      match firstToken .space rest with
      | some line => startsStatement place line
      | none => false
  | c :: rest => if isBreakingSpace c then endsHere place rest else false

/-- The text past the next comment, if only space comes before it. -/
def pastComment (text : List Char) : Option (List Char) :=
  match takeComment (text.dropWhile isSpace) with
  | some (_, rest) => some rest
  | none => none

/-- Whether a statement may end at the head of the text or after one of the comments there; there
are at most as many as `bound` has characters. -/
def endsAmongComments (place : EndPlace) (bound text : List Char) : Bool :=
  endsHere place text ||
    match bound, pastComment text with
    | _ :: bound, some rest => endsAmongComments place bound rest
    | _, _ => false

/-- Whether a statement may end at the head of the text without a semicolon. -/
def endsStatement (place : EndPlace) (text : List Char) : Bool :=
  endsAmongComments place text text

end Restyle.Syntax
