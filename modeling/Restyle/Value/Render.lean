import Restyle.Value.Shape

/-!
# Attribute values

The source text that an attribute gets for a new value. A conditional goes into braces, a string
literal becomes the literal of its value, and all else is stored as it is, as a literal.
-/

namespace Restyle.Value

open Text

/-- Braces around an expression. The closing one goes on a line of its own if a comment would
hide it. -/
def braced (commentAtEnd : Bool) (expression : List Char) : List Char :=
  '\x7b' :: expression ++ if commentAtEnd then ['\n', '\x7d'] else ['\x7d']

def renderAs (value : List Char) : Shape → Report (List CodePoint)
  | .ternary commentAtEnd => pure (ofChars (braced commentAtEnd (trim value)))
  | .string decoded => pure (literal decoded)
  | .other => pure (literal (ofChars value))
  | .invalid _ => do
      Report.note .storedAsLiteral
      return literal (ofChars value)

/-- The source text for a value. One that is no text has none. -/
def render (dialect : Syntax.Dialect) (value : List CodePoint) : Report (List CodePoint) :=
  match toChars? value with
  | some text => do
      let shape ← Report.ofExcept (classify dialect text)
      renderAs text shape
  | none => Report.fail .surrogate

/-- The source text for a text in the dialect of a name. -/
def renderNamed (dialectName value : List Char) : Report (List CodePoint) := do
  let shape ← Report.ofExcept (classifyNamed dialectName value)
  renderAs value shape

end Restyle.Value
