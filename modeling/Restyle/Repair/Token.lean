import Restyle.Syntax.Node
import Restyle.Syntax.Lexical

/-!
# Tokens out of context

The tokens of a text where the grammar does not say what may come next, as when a part of it has
to be skipped. The longest token wins; strings, templates and regular expressions fall apart into
their delimiters and what is between them.
-/

namespace Restyle.Repair

open Syntax

structure Stretch where
  start : Nat
  stop : Nat
  deriving DecidableEq, Repr

/-- A token. It is `strange` if no token of the language begins with its character. -/
structure Token where
  stretch : Stretch
  text : List Char
  strange : Bool
  deriving DecidableEq, Repr

/-- Punctuation of more than one character, the longer ones first. -/
def longPunctuation : Dialect → List String
  | .tsx => "</" :: "/>" :: common
  | .typescript => common
where
  common : List String :=
    [">>>=", "...", "===", "!==", "**=", "<<=", ">>=", ">>>", "&&=", "||=", "??=", "-?:", "+?:",
      "=>", "==", "!=", "<=", ">=", "&&", "||", "??", "?.", "?:", "++", "--", "+=", "-=", "*=",
      "/=", "%=", "&=", "|=", "^=", "<<", ">>", "**", "$\x7b", "\x7b|", "|\x7d"]

def shortPunctuation : List Char :=
  "\x7b\x7d()[];,<>:?.=+-*/%&|^!~@\"'\x60".toList

def takeToken (dialect : Dialect) (text : List Char) : (List Char × Bool) × List Char :=
  let known (taken : List Char) : (List Char × Bool) × List Char :=
    ((taken, false), text.drop taken.length)
  match (longPunctuation dialect).find? fun p => p.toList.isPrefixOf text with
  | some p => known p.toList
  | none =>
      match takeNumber text, takeName text, text with
      | (c :: number, _), _, _ => known (c :: number)
      | _, (c :: name, _), _ => known (c :: name)
      | _, _, c :: rest => (([c], !shortPunctuation.contains c), rest)
      | _, _, [] => (([], false), [])

/-- The tokens of a text whose head is at an offset; at most one for each of `bound`. -/
def tokensFrom (dialect : Dialect) : List Char → Nat → List Char → List Token
  | [], _, _ => []
  | _ :: bound, offset, text =>
      match text with
      | [] => []
      | c :: rest =>
          if isSpace c then tokensFrom dialect bound (offset + Text.charWidth c) rest
          else
            match takeComment text with
            | some (comment, rest) =>
                tokensFrom dialect bound (offset + Text.byteLength comment) rest
            | none =>
                let ((taken, strange), rest) := takeToken dialect text
                let stop := offset + Text.byteLength taken
                ⟨⟨offset, stop⟩, taken, strange⟩ :: tokensFrom dialect bound stop rest

end Restyle.Repair
