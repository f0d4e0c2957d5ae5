import Restyle.Document.Basic
import Restyle.Value.Literal

/-!
# Shapes of values

A new value is a text, and what it is follows from how it parses: a conditional, a string literal,
another expression, or nothing of the kind. It is parsed in the grammar of the file it goes into,
between parentheses on lines of their own, so that a comment at its end cannot hide the closing
one.
-/

namespace Restyle.Value

open Syntax

inductive Obstacle
  | empty
  | unparsed
  /-- It parses between parentheses, but not as one expression. -/
  | notSingle
  deriving DecidableEq, Repr

/-- The wording of an obstacle, if it has one of its own. -/
def Obstacle.message? : Obstacle → Option String
  | .empty => some "Empty expression"
  | .notSingle => some "Not a single expression"
  | .unparsed => none

inductive Shape
  /-- A conditional; `commentAtEnd` says that a `//` comment begins on its last line. -/
  | ternary (commentAtEnd : Bool)
  /-- A string literal with its value. -/
  | string (value : List Text.CodePoint)
  | other
  | invalid (why : Obstacle)
  deriving DecidableEq, Repr

def wrapped (value : List Char) : List Char :=
  "(\n".toList ++ value ++ "\n);".toList

/-- The parenthesized expression that is the whole of a program but for its semicolon. -/
def wholeExpression? (root : Node) (size : Nat) : Option Node :=
  match root.parts with
  | [statement] =>
      match statement.kind, statement.parts with
      | .expressionStatement, [e] =>
          if e.kind = .parenthesized ∧ e.start = 0 ∧ e.stop + 1 = size then some e else none
      | _, _ => none
  | _ => none

/-- What parentheses hold, however many there are, up to a depth. -/
def unwrapUpTo : Nat → Node → Node
  | 0, n => n
  | depth + 1, n =>
      match n.kind, n.parts with
      | .parenthesized, [inner] => unwrapUpTo depth inner
      | _, _ => n

def unwrap (n : Node) : Node :=
  unwrapUpTo n.size n

def lineCommentOn (root : Node) (data : List UInt8) (row : Nat) : Bool :=
  root.preorder.any fun l =>
    l.kind == .comment && l.row == row && (data.drop l.start).take 2 == [47, 47]

def shapeOf (dialect : Dialect) (value : List Char) : Except Failure Shape :=
  let text := wrapped value
  let data := Text.encode text
  match Grammar.parse dialect text with
  | .error _ => .ok (.invalid .unparsed)
  | .ok root =>
      match wholeExpression? root data.length with
      | none => .ok (.invalid .notSingle)
      | some e =>
          let n := unwrap e
          match n.kind with
          | .ternary => .ok (.ternary (lineCommentOn root data (value.count '\n' + 1)))
          | .string => do
              let raw := Text.decodeLossy ((data.drop n.start).take (n.stop - n.start))
              return .string (← decode raw)
          | _ => .ok .other

def classify (dialect : Dialect) (value : List Char) : Except Failure Shape :=
  let value := Text.trim value
  if value.isEmpty then .ok (.invalid .empty) else shapeOf dialect value

/-- The shape of a value in the dialect of a name. An empty value has its shape in any. -/
def classifyNamed (dialectName value : List Char) : Except Failure Shape :=
  if (Text.trim value).isEmpty then .ok (.invalid .empty)
  else do
    let dialect ← dialectNamed dialectName
    classify dialect value

end Restyle.Value
