import Restyle.Syntax.Comments
import Restyle.Syntax.Node
import Restyle.Syntax.Quotes
import Restyle.Syntax.Semicolon

/-!
# Progress

The state of a parser, and the steps of which every reading is made: characters are passed over or
become a node, the nodes under way become one, and a part is read with no nodes behind it. What
holds of the nodes of any text follows from what each of these steps does.
-/

namespace Restyle.Syntax

/-- What would have been accepted at a place: something to compute with, a type, a given closing
token, or anything else. -/
inductive Expectation
  | operand
  | type
  | closer (token : String)
  | other
  deriving DecidableEq, Repr

/-- Nodes under way, latest first: those of the construct being read, those of the one it is part
of, and so on to the file. -/
abbrev Frames := List (List Node)

/-- The farthest place at which a token was refused: its offset, what was awaited there, and the
nodes under way. -/
structure Reach where
  offset : Nat
  awaited : List Expectation
  frames : Frames

/-- A token is refused at a place. A nearer place than the farthest one is not remembered. -/
def Reach.refuse (r : Reach) (offset : Nat) (e : Expectation) (frames : Frames) : Reach :=
  if r.offset < offset then ⟨offset, [e], frames⟩
  else if offset < r.offset || r.awaited.contains e then r
  else if r.awaited.isEmpty then ⟨offset, [e], frames⟩
  else { r with awaited := e :: r.awaited }

/-- The state of a parser: the text left with the offset and row of its head, the nodes read so far,
latest first, those of the constructs around, and the farthest refusal. -/
structure Progress where
  rest : List Char
  offset : Nat
  row : Nat
  nodes : List Node
  outer : Frames
  reach : Reach

namespace Progress

def advance (s : Progress) (count : Nat) : Progress :=
  let passed := s.rest.take count
  { s with
    rest := s.rest.drop count
    offset := s.offset + Text.byteLength passed
    row := s.row + passed.count '\n' }

def leaf (s : Progress) (kind : Kind) (count : Nat) : Progress :=
  let t := s.advance count
  { t with nodes := .node ⟨kind, s.offset, t.offset, s.row, Nat.le_add_right ..⟩ [] :: s.nodes }

def group (s : Progress) (kind : Kind) : Progress :=
  { s with nodes := (Node.enclose kind s.nodes.reverse).reverse }

/-- The state before a part that is read with no nodes behind it. -/
def enter (s : Progress) : Progress :=
  { s with nodes := [], outer := s.nodes :: s.outer }

/-- The state `t` after such a part, with the nodes put on top of those before. -/
def leave (s t : Progress) : Progress :=
  { t with nodes := t.nodes ++ s.nodes, outer := s.outer }

def remember (s : Progress) (reach : Reach) : Progress :=
  { s with reach }

end Progress

/-- What the text of a node without parts has to be, in front of another text. Opening constructs and
braces have parts. -/
def Kind.Spelling (kind : Kind) (taken left : List Char) : Prop :=
  match kind with
  | .string => Quoted taken
  | .comment => Comment taken left
  | .opening | .selfClosing | .container => False
  | _ => True

theorem Kind.Spelling.of_plain {kind : Kind} (plain : kind.isPlain = true) (taken left : List Char) :
    kind.Spelling taken left := by
  cases kind with
  | string | comment | opening | selfClosing | container => cases plain
  | _ => trivial

/-- What a node without parts has to be spelt and to end as, in front of another text. -/
structure Kind.Taken (kind : Kind) (taken left : List Char) : Prop where
  spelling : kind.Spelling taken left
  ending : kind.closes → ∃ c ∈ taken.getLast?, isSpace c = false

theorem Kind.Taken.of_loose {kind : Kind} (loose : kind.isLoose = true) (taken left : List Char) :
    kind.Taken taken left := by
  obtain ⟨plain, open'⟩ := Bool.and_eq_true_iff.mp loose
  rw [Bool.not_eq_true'] at open'
  refine ⟨.of_plain plain _ _, fun closes => ?_⟩
  rw [open'] at closes
  cases closes

theorem Kind.Taken.of_quoted {taken : List Char} (h : Quoted taken) (left : List Char) :
    Kind.string.Taken taken left := by
  refine ⟨h, fun _ => ?_⟩
  obtain ⟨q, inside, hq, rfl⟩ := h
  refine ⟨q, by rw [← List.cons_append, List.getLast?_concat]; rfl, ?_⟩
  rcases isQuote_iff.mp hq with rfl | rfl <;> rfl

/-- `Reads s t`: a reading that begins in the state `s` may end in the state `t`. Only what is spelt
or laid out as a construct becomes one. -/
inductive Reads : Progress → Progress → Prop
  | refl (s : Progress) : Reads s s
  | trans {s t u : Progress} : Reads s t → Reads t u → Reads s u
  | remember (s : Progress) (reach : Reach) : Reads s (s.remember reach)
  | advance (s : Progress) (count : Nat) : Reads s (s.advance count)
  | leaf (s : Progress) (kind : Kind) (count : Nat) :
      kind.Taken (s.rest.take count) (s.rest.drop count) → Reads s (s.leaf kind count)
  | group (s : Progress) (kind : Kind) : kind.Made s.nodes → Reads s (s.group kind)
  | within {s t : Progress} : Reads s.enter t → Reads s (s.leave t)

inductive Outcome (α : Type) where
  | accepted (value : α) (state : Progress)
  | refused (reach : Reach)

end Restyle.Syntax
