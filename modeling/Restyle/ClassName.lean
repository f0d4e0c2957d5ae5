import Restyle.Element.Read
import Restyle.Element.Write

/-!
# Class names

The operations on a text as a whole: what an element's attribute holds, and the text with that
changed. Each of them parses the text anew.
-/

namespace Restyle

open Syntax

/-- The name of the attribute that is read and written unless another one is given. -/
def defaultAttribute : List Char := "className".toList

namespace Document

/-- The attribute's value on the element at an address. Without an ordinal, the last element of
the name answers. -/
def read (d : Document) (tag : List Char) (ordinal : Option Int) (name : List Char) :
    Report (Option (List Char)) := do
  let found := d.locate tag ordinal
  match found.getLast? with
  | none => return none
  | some e =>
      if ordinal = none ∧ 1 < found.length then
        Report.note (.reportingLast tag found.length)
      d.readAttribute e name

def readAll (d : Document) (tag name : List Char) : Report (List (Option (List Char))) :=
  d.readAttributes name (d.locate tag none)

/-- The text with a new value for the attribute on the element at an address. Without an ordinal,
every element of the name gets it. -/
def update (d : Document) (tag : List Char) (value : List Text.CodePoint) (ordinal : Option Int)
    (name : List Char) : Report (List Char) := do
  let (written, found) ← d.write tag value ordinal name
  if found then written.print else return d.source

end Document

/-- The attribute's value on the element at an address of a text. -/
def readClass (dialect : Dialect) (source tag : List Char) (ordinal : Option Int)
    (name : List Char) : Report (Option (List Char)) := do
  let d ← Report.ofExcept (Document.parse dialect source)
  d.read tag ordinal name

/-- Like `readClass`, but a text that does not parse has no value. -/
def getClass (dialect : Dialect) (source tag : List Char) (ordinal : Option Int)
    (name : List Char) : Report (Option (List Char)) :=
  let r := readClass dialect source tag ordinal name
  match r.result with
  | .error (.refused _) => ⟨r.notes ++ [.unparsedSource], .ok none⟩
  | _ => r

def readAllClasses (dialect : Dialect) (source tag name : List Char) :
    Report (List (Option (List Char))) := do
  let d ← Report.ofExcept (Document.parse dialect source)
  d.readAll tag name

/-- A text with a new value for the attribute on the element at an address. -/
def updateClass (dialect : Dialect) (source tag : List Char) (value : List Text.CodePoint)
    (ordinal : Option Int) (name : List Char) : Report (List Char) := do
  let d ← Report.ofExcept (Document.parse dialect source)
  d.update tag value ordinal name

end Restyle
