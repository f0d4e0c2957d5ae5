import Restyle.Repair.Token
import Restyle.Syntax.Problem
import Restyle.Syntax.Tree

/-!
# Drafts

A text that is repaired bit by bit until it parses: stretches that fit nowhere are blanked out, and
tokens that are missing are put in. Every repair has a price, and a draft remembers what its
repairs add up to. Blanking a stretch moves nothing, and what a token put in moves is known.
-/

namespace Restyle.Repair

open Syntax

/-- A token put in: where, how many bytes it takes, and the name it is missed by. -/
structure Insertion where
  offset : Nat
  length : Nat
  name : String
  deriving DecidableEq, Repr

/-- A text under repair. The stretches taken out are kept in order, and so are the tokens put in;
`shifts` also holds tokens that have been taken out again. -/
structure Draft where
  text : List Char
  removed : List Stretch
  inserted : List Insertion
  shifts : List Insertion
  cost : Nat

def errorCost : Nat := 500

/-- The price of a token that is missing, beyond that of an error. -/
def missingCost : Nat := 110

def treeCost : Nat := 100

def lineCost : Nat := 30

def dropBytes : Nat → List Char → List Char
  | _, [] => []
  | 0, text => text
  | n + 1, c :: rest => dropBytes (n + 1 - Text.charWidth c) rest

def takeBytes : Nat → List Char → List Char
  | _, [] => []
  | 0, _ => []
  | n + 1, c :: rest => c :: takeBytes (n + 1 - Text.charWidth c) rest

def Stretch.of (s : Stretch) (text : List Char) : List Char :=
  takeBytes (s.stop - s.start) (dropBytes s.start text)

/-- The price of taking out a stretch that holds some trees. -/
def removalCost (text : List Char) (s : Stretch) (trees : Nat) : Nat :=
  errorCost + (s.stop - s.start) + treeCost * trees + lineCost * (s.of text).count '\n'

def blank (text : List Char) (s : Stretch) : List Char :=
  takeBytes s.start text ++ List.replicate (s.stop - s.start) ' ' ++ dropBytes s.stop text

namespace Draft

def ofText (text : List Char) : Draft := ⟨text, [], [], [], 0⟩

/-- Whether nothing but white space is between two offsets. -/
def blankBetween (d : Draft) (start stop : Nat) : Bool :=
  ((Stretch.mk start stop).of d.text).all isSpace

/-- The stretches taken out, with another one that comes after them or covers some of them. It is
joined to one right before it. -/
def withRemoved (d : Draft) (s : Stretch) : List Stretch :=
  let before := d.removed.filter fun r => r.start < s.start
  match before.getLast? with
  | some last =>
      if d.blankBetween last.stop s.start then before.dropLast ++ [⟨last.start, s.stop⟩]
      else before ++ [s]
  | none => [s]

/-- Take out a stretch that holds some trees. The white space after what is kept before it goes
with it. -/
def remove (d : Draft) (kept : Nat) (s : Stretch) (trees : Nat) : Draft :=
  { d with
    text := blank d.text ⟨kept, s.stop⟩
    removed := d.withRemoved s
    inserted := d.inserted.filter fun i => i.offset < s.start
    cost := d.cost + removalCost d.text s trees }

def insert (d : Draft) (offset : Nat) (token : List Char) (name : String) : Draft :=
  let i : Insertion := ⟨offset, Text.byteLength token, name⟩
  { d with
    text := takeBytes offset d.text ++ token ++ dropBytes offset d.text
    inserted := d.inserted ++ [i]
    shifts := d.shifts ++ [i]
    cost := d.cost + errorCost + missingCost }

def unrepaired (d : Draft) (offset : Nat) : Nat :=
  (d.shifts.filter fun i => i.offset < offset).foldl (fun place i => place - i.length) offset

def problemAt (text : List Char) (s : Stretch) (missing : Option (List Char)) : Problem :=
  let before := takeBytes s.start text
  let line := (before.reverse.takeWhile (· != '\n'))
  ⟨s.start, s.stop, before.count '\n', Text.byteLength line, missing⟩

/-- The repairs in order, as problems of the text without repairs. -/
def problems (d : Draft) (text : List Char) : List Problem :=
  let stretch (s : Stretch) : Stretch := ⟨d.unrepaired s.start, d.unrepaired s.stop⟩
  let removals := d.removed.map fun s => (s.start, problemAt text (stretch s) none)
  let missing := d.inserted.map fun i =>
    (i.offset, problemAt text (stretch ⟨i.offset, i.offset⟩) (some i.name.toList))
  (removals.merge missing fun a b => a.1 ≤ b.1).map fun p => p.2

/-- What is known of a node of a repaired text: its stretch, whether it is wrong itself, and whether
something under it is. -/
structure Mark where
  problem : Problem
  wrong : Bool
  suspect : Bool

/-- The tree of a repaired text, as far as what is wrong with it goes. -/
def problemTree (d : Draft) (text : List Char) : Syntax.Tree Mark :=
  .node ⟨problemAt text ⟨0, Text.byteLength text⟩ none, false, true⟩
    ((d.problems text).map fun p => .node ⟨p, true, false⟩ [])

end Draft

end Restyle.Repair
