import Restyle.Element.Locate
import Restyle.Value.Render

/-!
# Writing attributes

The edits that give elements a value for an attribute: in the place of the value it has, after its
name if it has none, or together with the name after the other attributes.
-/

namespace Restyle

open Text

namespace Document

/-- What comes before an attribute that is added to an element: a new line with the indentation
of the last attribute, if the attributes are below the name, else a space. -/
def separator (d : Document) (e : Element) : List Char :=
  match e.attributes.getLast? with
  | some a => if e.multiline then '\n' :: d.indent a.start else [' ']
  | none => [' ']

/-- The edit that gives an element some source text as the value of an attribute. -/
def valueEdit (d : Document) (e : Element) (rendered : List CodePoint) (name : List Char) : Edit :=
  match e.findAttribute name with
  | some a =>
      match a.value with
      | some v => ⟨v.start, v.stop, rendered, v.start_le_stop⟩
      | none => .insertion a.nameStop (ofChars ['='] ++ rendered)
  | none => .insertion e.insertAt (ofChars (d.separator e ++ name ++ ['=']) ++ rendered)

/-- Give an element some source text as the value of an attribute. -/
def apply (d : Document) (e : Element) (rendered : List CodePoint) (name : List Char) : Document :=
  d.record (d.valueEdit e rendered name)

/-- Give elements some source text as the value of an attribute, one after another. -/
def applyAll (d : Document) (rendered : List CodePoint) (name : List Char)
    (elements : List Element) : Document :=
  elements.foldl (fun d e => d.apply e rendered name) d

/-- Give the elements at an address a new value for an attribute: every element of the name, if
no ordinal is given. Says whether there are any. -/
def write (d : Document) (tag : List Char) (value : List CodePoint) (ordinal : Option Int)
    (name : List Char) : Report (Document × Bool) :=
  match d.locate tag ordinal with
  | [] => do
      Report.note (.nothingToUpdate tag ordinal)
      return (d, false)
  | e :: rest => do
      if ordinal = none ∧ rest ≠ [] then
        Report.note (.updatingAll tag (rest.length + 1))
      let rendered ← Value.render d.dialect value
      return (d.applyAll rendered name (e :: rest), true)

end Document

end Restyle
