import Restyle.Grammar.Statements

/-!
# Parsing

All rules of the grammar put together, and the syntax tree of a text. The rules are unrolled as
deep as the text is long, with room to spare: each level of nesting takes at least a character
and at most a few rules.
-/

namespace Restyle.Grammar

open Restyle.Syntax

/-- The meaning of a rule, given that of the rules below it. -/
def define (dialect : Dialect) (self : Recur) : Rule → Parser Unit
  | .statement => statement self
  | .expression setting => expression self setting
  | .operand setting => operand self dialect setting
  | .type ends => type self ends
  | .typeOperand ends => typeOperand self ends
  | .pattern => pattern self
  | .element => element self

def rules (dialect : Dialect) : Nat → Recur
  | 0 => ⟨fun _ => Parser.decline, nofun⟩
  | depth + 1 => ⟨define dialect (rules dialect depth), element_tops⟩

def depthFor (text : List Char) : Nat :=
  4 * text.length + 16

def beginning (text : List Char) : Progress :=
  ⟨text, 0, 0, [], [], ⟨0, [], []⟩⟩

def parse (dialect : Dialect) (text : List Char) : Except Reach Node :=
  match (program (rules dialect (depthFor text))).run (beginning text) with
  | .accepted () s => .ok (.node ⟨.program, 0, s.offset, 0, Nat.zero_le _⟩ s.nodes.reverse)
  | .refused r => .error r

end Restyle.Grammar
