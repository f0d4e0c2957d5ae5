import Restyle.Document.Print
import Restyle.Element.Locate

/-!
# Reading attributes

The value of an attribute as text, edits applied: a literal without its quotes, an expression
without its braces, an element as it is.
-/

namespace Restyle

namespace Document

/-- The text of a stretch without its first and last byte. Where the stretch ends before any
byte, that is all but the last byte of the text before edits. -/
def printInside (d : Document) (start stop : Nat) : Report (List Char) :=
  match stop with
  | 0 => Report.ofExcept (d.text (start + 1) (d.data.length - 1))
  | stop + 1 => d.printSpan (start + 1) stop

/-- The text of an expression without surrounding blanks, if there is any. -/
def printExpression (d : Document) (start stop : Nat) : Report (Option (List Char)) := do
  let text := Text.trim (← d.printSpan start stop)
  return if text.isEmpty then none else some text

/-- The text of a stretch as a value of a kind. Where the ends of what braces hold are not known,
an expression has none. -/
def readAs (d : Document) (kind : ValueKind) (start stop : Nat) (inner : Option (Nat × Nat)) :
    Report (Option (List Char)) :=
  match kind, inner with
  | .literal, _ => some <$> d.printInside start stop
  | .expression, some (innerStart, innerStop) => d.printExpression innerStart innerStop
  | .element, _ => some <$> d.printSpan start stop
  | _, _ => pure none

def readValue (d : Document) (a : Attribute) : Report (Option (List Char)) :=
  match a.value with
  | some v => d.readAs a.kind v.start v.stop (some (v.innerStart, v.innerStop))
  | none => pure none

def readAttribute (d : Document) (e : Element) (name : List Char) : Report (Option (List Char)) :=
  match e.findAttribute name with
  | some a => d.readValue a
  | none => pure none

/-- The values that several elements have for an attribute of a name. -/
def readAttributes (d : Document) (name : List Char) :
    List Element → Report (List (Option (List Char)))
  | [] => pure []
  | e :: rest => do
      let value ← d.readAttribute e name
      let values ← readAttributes d name rest
      return value :: values

end Document

end Restyle
