/-!
# Elements

Views of the opening constructs of markup, `<Tag ...>` and `<Tag ... />`, and of their attributes.
Offsets are byte offsets into the text before edits; lines count from one.
-/

namespace Restyle

inductive ValueKind
  /-- No equals sign. -/
  | absent
  | literal
  /-- An expression in braces. -/
  | expression
  | element
  /-- No attribute with a name, but braces in the place of one. -/
  | spread
  deriving DecidableEq, Repr

/-- The stretch of an attribute's value, and the ends of what its braces hold. -/
structure AttributeValue where
  start : Nat
  stop : Nat
  innerStart : Nat
  innerStop : Nat
  start_le_stop : start ≤ stop
  deriving DecidableEq, Repr

structure Attribute where
  name : Option (List Char)
  kind : ValueKind
  start : Nat
  stop : Nat
  nameStop : Nat
  value : Option AttributeValue
  line : Nat
  deriving DecidableEq, Repr

/-- An opening construct. `ordinal` counts those of its name before it, and `insertAt` is where a
new attribute goes. -/
structure Element where
  tagName : List Char
  ordinal : Nat
  selfClosing : Bool
  start : Nat
  stop : Nat
  insertAt : Nat
  line : Nat
  nameLine : Nat
  attributes : List Attribute
  deriving DecidableEq, Repr

namespace Element

def findAttribute (e : Element) (name : List Char) : Option Attribute :=
  e.attributes.find? fun a => a.name = some name

/-- Whether the attributes go on below the line of the tag's name. -/
def multiline (e : Element) : Bool :=
  match e.attributes.getLast? with
  | some a => e.nameLine < a.line
  | none => false

end Element

end Restyle
