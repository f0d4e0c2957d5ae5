import Restyle.Syntax.Tree

/-!
# Syntax trees

What a tree of source text holds. Kinds name the constructs that editing looks at, and sort the
others by what they are. Spans are byte offsets; rows count line feeds and start at zero.
-/

namespace Restyle.Syntax

/-- The grammar of a file. `tsx` has markup; `typescript` has angle-bracket casts in its place. -/
inductive Dialect
  | tsx
  | typescript
  deriving DecidableEq, Repr

inductive Kind
  /-- A whole file. -/
  | program
  | comment
  /-- Punctuation or a keyword. -/
  | token (text : String)
  | identifier
  | number
  | string
  | template
  | regex
  | array
  | object
  /-- An entry of an object literal: a pair or a method. -/
  | entry
  /-- The name of a pair or a method. -/
  | key
  /-- A name on its own as an entry of an object literal. -/
  | shorthand
  | spread
  | member
  | subscript
  | nonNull
  | parenthesized
  | sequence
  | assignment
  | ternary
  /-- Any other expression. -/
  | expression
  | expressionStatement
  /-- Any other statement, and any declaration. -/
  | statement
  | block
  | pattern
  | parameters
  | arguments
  | type
  /-- `<A, B>` after a name. -/
  | typeArguments
  /-- The name of a markup element, as written. -/
  | tagName
  | attributeName
  | attribute
  /-- Braces in markup: `{expression}`, `{...spread}` or `{}`. -/
  | container
  /-- `<Tag ...>`, or `<>`, whose element has no name. -/
  | opening
  | selfClosing
  | closing
  | element
  /-- Text and character references between tags. -/
  | text
  deriving DecidableEq, Repr

/-- Tokens are told from the constructs they belong to. -/
def Kind.isNamed : Kind → Bool
  | .token _ => false
  | _ => true

def Kind.isTag : Kind → Bool
  | .opening | .selfClosing => true
  | _ => false

/-- Kinds whose nodes come to be in any way. A string and a comment are read as a whole; opening
constructs and braces are made of their parts. -/
def Kind.isPlain : Kind → Bool
  | .string | .comment | .opening | .selfClosing | .container => false
  | _ => true

/-- Kinds whose nodes end with a character that is no white space: names, strings, and what ends with
a bracket. -/
def Kind.closes : Kind → Bool
  | .token word => word == ">" || word == "/>" || word == "\x7d"
  | .identifier | .string | .typeArguments | .tagName | .attributeName | .attribute | .container
  | .opening | .selfClosing | .closing | .element => true
  | _ => false

/-- Kinds whose nodes come to be in any way, and end in any way. -/
def Kind.isLoose (kind : Kind) : Bool :=
  kind.isPlain && !kind.closes

/-- The turn of a part of an opening construct: its name comes first, then its type arguments, then
its entries. Comments may come anywhere. -/
def Kind.turn? : Kind → Option Nat
  | .tagName => some 0
  | .typeArguments => some 1
  | .attribute | .container => some 2
  | _ => none

/-- A construct, the bytes it covers, and the row of the first of them. -/
@[ext]
structure Label where
  kind : Kind
  start : Nat
  stop : Nat
  row : Nat
  start_le_stop : start ≤ stop
  deriving Repr

instance : DecidableEq Label := fun _ _ => decidable_of_iff _ Label.ext_iff.symm

abbrev Node := Tree Label

namespace Node

def kind (n : Node) : Kind := n.label.kind

def start (n : Node) : Nat := n.label.start

def stop (n : Node) : Nat := n.label.stop

def row (n : Node) : Nat := n.label.row

theorem start_le_stop (n : Node) : n.start ≤ n.stop := n.label.start_le_stop

/-- The parts of a construct that are neither punctuation nor comments. -/
def parts (n : Node) : List Node :=
  n.children.filter fun c => c.kind.isNamed && c.kind != .comment

/-- The comments before the first token of a stretch of syntax. -/
def lead (forest : List Node) : List Node :=
  forest.takeWhile fun n => n.kind == .comment

def withoutLead (forest : List Node) : List Node :=
  forest.dropWhile fun n => n.kind == .comment

/-- Make one node of a stretch of syntax. Comments before its first token stay outside. -/
def enclose (kind : Kind) (forest : List Node) : List Node :=
  let inner := withoutLead forest
  match inner with
  | [] => lead forest
  | first :: _ =>
      let last := inner.getLast?.getD first
      let stop := max first.start last.stop
      lead forest ++ [.node ⟨kind, first.start, stop, first.row, Nat.le_max_left ..⟩ inner]

/-- Whether a part of an opening construct may come before another. -/
def InTurn (a b : Node) : Prop :=
  ∀ i ∈ a.kind.turn?, ∀ j ∈ b.kind.turn?, i ≤ j

end Node

/-- How the parts of an opening construct are laid out: an angle bracket, then all else in turn, and
an angle bracket or a slash and one at the end. -/
def TagLayout (parts : List Node) : Prop :=
  ∃ first middle last, parts = first :: (middle ++ [last]) ∧
    first.kind = .token "<" ∧ first.start < first.stop ∧
    (last.kind = .token ">" ∨ last.kind = .token "/>") ∧ last.start < last.stop ∧
    middle.Pairwise Node.InTurn

/-- How the parts of braces are laid out: an opening brace, all else, and a closing brace. -/
def BraceLayout (parts : List Node) : Prop :=
  ∃ first middle last, parts = first :: (middle ++ [last]) ∧
    first.kind = .token "\x7b" ∧ first.stop = first.start + 1 ∧
    last.kind = .token "\x7d" ∧ last.stop = last.start + 1

/-- What the parts of a construct have to be laid out as. A string has no parts, nor has a comment. -/
def Kind.Layout (kind : Kind) (parts : List Node) : Prop :=
  match kind with
  | .opening | .selfClosing => TagLayout parts
  | .container => BraceLayout parts
  | .string | .comment => False
  | _ => True

theorem Kind.Layout.of_plain {kind : Kind} (plain : kind.isPlain = true) (parts : List Node) :
    kind.Layout parts := by
  cases kind with
  | string | comment | opening | selfClosing | container => cases plain
  | _ => trivial

theorem Kind.Layout.of_tag {kind : Kind} {parts : List Node} (tag : kind.isTag)
    (h : TagLayout parts) : kind.Layout parts := by
  cases kind with
  | opening | selfClosing => exact h
  | _ => cases tag

/-- What nodes, latest first, have to be for one node of a kind to be made of them: they are laid out
as such, the last of them closes if the kind does, and so does every part of an attribute. -/
structure Kind.Made (kind : Kind) (nodes : List Node) : Prop where
  layout : kind.Layout (Node.withoutLead nodes.reverse)
  closing : kind.closes → ∀ n ∈ nodes.head?, n.kind.closes
  parts : kind = .attribute → ∀ n ∈ nodes, n.kind.isNamed → n.kind ≠ .comment → n.kind.closes

theorem Kind.Made.of_top {kind : Kind} {nodes : List Node} (plain : kind.isPlain = true)
    (other : kind ≠ .attribute) (h : ∀ n ∈ nodes.head?, n.kind.closes) : kind.Made nodes :=
  ⟨.of_plain plain _, fun _ => h, fun same => absurd same other⟩

/-- What is laid out as an opening construct or as braces ends with a bracket. -/
theorem Kind.Made.of_layout {kind : Kind} {nodes : List Node}
    (layout : kind.Layout (Node.withoutLead nodes.reverse))
    (brackets : kind.isTag ∨ kind = .container) : kind.Made nodes := by
  obtain ⟨first, middle, last, parts, closes⟩ : ∃ first middle last,
      Node.withoutLead nodes.reverse = first :: (middle ++ [last]) ∧ last.kind.closes := by
    rcases brackets with tag | rfl
    · have bracket : TagLayout (Node.withoutLead nodes.reverse) := by
        cases kind with
        | opening | selfClosing => exact layout
        | _ => cases tag
      obtain ⟨first, middle, last, parts, -, -, kind | kind, -⟩ := bracket
      all_goals exact ⟨first, middle, last, parts, by rw [kind]; rfl⟩
    · obtain ⟨first, middle, last, parts, -, -, kind, -⟩ := layout
      exact ⟨first, middle, last, parts, by rw [kind]; rfl⟩
  refine ⟨layout, fun _ n hn => ?_, fun same => ?_⟩
  · have whole : nodes.reverse = Node.lead nodes.reverse ++ Node.withoutLead nodes.reverse :=
      List.takeWhile_append_dropWhile.symm
    rw [parts, ← List.cons_append, ← List.append_assoc] at whole
    have top : nodes.reverse.getLast? = some last := by rw [whole, List.getLast?_concat]
    rw [List.getLast?_reverse] at top
    cases top.symm.trans hn
    exact closes
  · subst same
    rcases brackets with tag | kind
    · cases tag
    · cases kind

theorem Kind.Made.of_loose {kind : Kind} (loose : kind.isLoose = true) (nodes : List Node) :
    kind.Made nodes := by
  obtain ⟨plain, open'⟩ := Bool.and_eq_true_iff.mp loose
  rw [Bool.not_eq_true'] at open'
  refine ⟨.of_plain plain _, fun closes => ?_, fun same => ?_⟩
  · rw [open'] at closes
    cases closes
  · rw [same] at open'
    cases open'

end Restyle.Syntax
