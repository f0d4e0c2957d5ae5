import Restyle.Text.Blank
import Restyle.Text.Decimal
import Restyle.Text.Line
import Restyle.Text.Quoted
import Restyle.Text.Utf8

/-!
# Problems

What is wrong with a text that has no syntax tree, and how it is put into words. A problem is a
stretch that fits nowhere, or a token that is missing at a place.
-/

namespace Restyle.Syntax

/-- A problem: the stretch of bytes, the row and the byte column of its start, both from zero, and
the name of the token that is missing there, if it is one. -/
structure Problem where
  start : Nat
  stop : Nat
  row : Nat
  column : Nat
  missing : Option (List Char)
  deriving DecidableEq, Repr

def snippetLimit : Nat := 40

/-- The part of some bytes that a message quotes: the first line, unless all of them are blank, cut
to the limit. -/
def snippet (bytes : List UInt8) : List Char :=
  let text := Text.decodeLossy bytes
  let line := if (Text.trim text).isEmpty then text else Text.firstLine text
  if snippetLimit < line.length then line.take snippetLimit ++ "...".toList else line

/-- A problem of some data in words, with its line and column counted from one. -/
def Problem.describe (data : List UInt8) (p : Problem) : List Char :=
  let what :=
    match p.missing with
    | some name => "Missing ".toList ++ Text.quoted name
    | none =>
        "Unexpected ".toList ++
          Text.quoted (snippet ((data.drop p.start).take (p.stop - p.start)))
  what ++ " at line ".toList ++ Text.decimal (p.row + 1) ++ ", column ".toList ++
    Text.decimal (p.column + 1)

/-- Why a text was refused: the words for its first problem, and its line and column. -/
structure Refusal where
  message : List Char
  line : Nat
  column : Nat
  deriving DecidableEq, Repr

def Problem.refusal (data : List UInt8) (p : Problem) : Refusal :=
  ⟨p.describe data, p.row + 1, p.column + 1⟩

end Restyle.Syntax
