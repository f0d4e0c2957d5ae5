import Restyle.Document.Basic
import Restyle.Element.Basic

/-!
# Locating elements

The opening constructs of a document in document order. An element is addressed by the name of its
tag and by its position among those of that name.
-/

namespace Restyle

open Syntax

/-- An opening construct with a name, and the place of the name. -/
structure Opening where
  node : Node
  name : Node

/-- The opening construct at a node. A fragment has no name. -/
def opening? (n : Node) : Option Opening :=
  match n.kind with
  | .opening | .selfClosing =>
      (n.children.find? fun (c : Node) => c.kind = .tagName).map fun name => ⟨n, name⟩
  | _ => none

def valueKind (value : Node) : ValueKind :=
  match value.kind with
  | .string => .literal
  | .element | .selfClosing => .element
  | _ => .expression

/-- Where the inside of a value begins: after the brace it begins with, if it does. -/
def innerStart (value : Node) : Nat :=
  match value.children.head? with
  | some (c : Node) => if c.kind = .token "\x7b" then c.stop else value.start
  | none => value.start

def innerStop (value : Node) : Nat :=
  match value.children.getLast? with
  | some (c : Node) => if c.kind = .token "\x7d" then c.start else value.stop
  | none => value.stop

def attributeValue (value : Node) : AttributeValue :=
  ⟨value.start, value.stop, innerStart value, innerStop value, value.start_le_stop⟩

namespace Document

def attributeAt (d : Document) (entry : Node) : Attribute :=
  let line := entry.row + 1
  match entry.kind, entry.parts with
  | .container, _ | _, [] => ⟨none, .spread, entry.start, entry.stop, entry.start, none, line⟩
  | _, [name] =>
      ⟨some (d.nodeText name), .absent, entry.start, entry.stop, name.stop, none, line⟩
  | _, name :: value :: _ =>
      ⟨some (d.nodeText name), valueKind value, entry.start, entry.stop, name.stop,
        some (attributeValue value), line⟩

def entries (n : Node) : List Node :=
  n.children.filter fun (c : Node) => c.kind == .attribute || c.kind == .container

/-- Where a new attribute goes: after the last one, the type arguments or the name, never after a
comment. -/
def insertionPoint (o : Opening) : Nat :=
  let types := o.node.children.filter fun (c : Node) => c.kind == .typeArguments
  let anchors := types ++ entries o.node
  anchors.foldl (fun stop (c : Node) => max stop c.stop) o.name.stop

def elementAt (d : Document) (o : Opening) (ordinal : Nat) : Element :=
  { tagName := d.nodeText o.name
    ordinal := ordinal
    selfClosing := o.node.kind == .selfClosing
    start := o.node.start
    stop := o.node.stop
    insertAt := insertionPoint o
    line := o.node.row + 1
    nameLine := o.name.row + 1
    attributes := (entries o.node).map d.attributeAt }

/-- The opening constructs with names, in document order. -/
def openings (d : Document) : List Opening :=
  d.root.walk opening?

/-- Of some opening constructs, those of a name and an ordinal, if one is given; `seen` of that
name come before them. -/
def locateFrom (d : Document) (tag : List Char) (ordinal : Option Int) (seen : Nat) :
    List Opening → List Element
  | [] => []
  | o :: rest =>
      if d.nodeText o.name = tag then
        let later := locateFrom d tag ordinal (seen + 1) rest
        match ordinal with
        | none => d.elementAt o seen :: later
        | some n => if n = seen then d.elementAt o seen :: later else later
      else locateFrom d tag ordinal seen rest

/-- The elements of a name in document order; with an ordinal, only the one that has it. -/
def locate (d : Document) (tag : List Char) (ordinal : Option Int) : List Element :=
  d.locateFrom tag ordinal 0 d.openings

def count (d : Document) (tag : List Char) : Nat :=
  (d.locate tag none).length

/-- Every one of some opening constructs, with its ordinal; `before` are the names before them. -/
def outlineFrom (d : Document) (before : List (List Char)) : List Opening → List Element
  | [] => []
  | o :: rest =>
      let name := d.nodeText o.name
      d.elementAt o (before.count name) :: outlineFrom d (name :: before) rest

def outline (d : Document) : List Element :=
  d.outlineFrom [] d.openings

end Document

end Restyle
