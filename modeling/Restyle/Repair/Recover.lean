import Restyle.Grammar.Parse
import Restyle.Repair.Draft

/-!
# Recovering from errors

Where a text does not parse, several repairs are tried at once, and the one that gets on best is
kept. Where a token is refused, one that is awaited may be put in before it. Or nodes under way are
taken out, as few as needed for the token to fit; or the token is skipped, and the same is tried
with the one after it, for as long as skipping costs no more than what has been found. At the end
of the text only whole statements may stand, so that the statement under way is taken out.
-/

namespace Restyle.Repair

open Syntax

structure Candidate where
  draft : Draft
  reach? : Option Reach
  /-- How far offsets after the repair have moved. -/
  shift : Nat
  /-- Whether the second of two names in a row has been skipped, and nothing else. -/
  keepsName : Bool

def Candidate.of (dialect : Dialect) (d : Draft) (shift : Nat) (keepsName : Bool) : Candidate :=
  match Grammar.parse dialect d.text with
  | .ok _ => ⟨d, none, shift, keepsName⟩
  | .error r => ⟨d, some r, shift, keepsName⟩

/-- Where a candidate is refused, in terms of the text before the repair. -/
def Candidate.failsAt? (c : Candidate) : Option Nat :=
  c.reach?.map fun r => r.offset - c.shift

def Candidate.failsBefore (c : Candidate) (offset : Nat) : Bool :=
  match c.failsAt? with
  | some place => place < offset
  | none => false

/-- Whether a stretch has been read as a token of some trees, or as the end of a literal. -/
def isToken (forest : List Node) (s : Stretch) : Bool :=
  forest.any fun n => n.preorder.any fun l =>
    (l.start == s.start && l.start < l.stop && l.kind != .text) ||
      (l.stop == s.stop && l.kind ∈ [.string, .regex])

/-- Where the comparisons among siblings are: at the angle brackets that do not come first, as those
of types and tags do. -/
def comparisonsAmong (siblings : List Node) : List Nat :=
  (siblings.drop 1).filterMap fun n => if n.kind == .token "<" then some n.start else none

/-- Where the comparisons in some groups of siblings are. -/
def comparisons (groups : List (List Node)) : List Nat :=
  groups.flatMap fun siblings =>
    comparisonsAmong siblings ++
      (Tree.subtreesAll siblings).flatMap fun t => comparisonsAmong t.children

def groupsUnderWay (r : Reach) : List (List Node) :=
  r.frames.map List.reverse

/-- Whether a text parses up to and with the token at a stretch, with comparisons at all of the
given offsets: none becomes a list of types because something after it is gone. -/
def fits (dialect : Dialect) (text : List Char) (kept : List Nat) (s : Stretch) : Bool :=
  let holds (groups : List (List Node)) : Bool :=
    isToken groups.flatten s && (kept.isEmpty || kept.all (comparisons groups).contains)
  match Grammar.parse dialect text with
  | .ok root => holds [root.children]
  | .error r => s.start < r.offset && holds (groupsUnderWay r)

/-- The place of an error: the draft, the nodes under way inside the current statement and the
statements before it, latest first, where the comparisons among the former are, the offset of the
token that is refused, and what is awaited there. -/
structure Place where
  dialect : Dialect
  draft : Draft
  nodes : List Node
  statements : List Node
  comparisons : List Nat
  offset : Nat
  awaited : List Expectation

def isCode (n : Node) : Bool :=
  n.kind != .comment

def Place.of (dialect : Dialect) (d : Draft) (r : Reach) : Place :=
  ⟨dialect, d, r.frames.dropLast.flatten.filter isCode, (r.frames.getLast?.getD []).filter isCode,
    Repair.comparisons (groupsUnderWay r).dropLast, r.offset, r.awaited⟩

/-- The most nodes that can be taken out at once, unless it is all of them. -/
def depthLimit : Nat := 15

namespace Place

/-- Where the last node ends, once `count` of them are taken out. -/
def keptStop (p : Place) (count : Nat) : Nat :=
  match p.nodes.drop count, p.statements with
  | n :: _, _ => n.stop
  | [], n :: _ => n.stop
  | [], [] => 0

def missingTokens (p : Place) (first : Token) : List (List Char × String) :=
  let named (e : Expectation) : Option (List Char × String) :=
    match e with
    | .operand =>
        if first.text ∈ ["=".toList, "=>".toList] then none
        else some (" x ".toList, "identifier")
    | .type => some (" x ".toList, "type_identifier")
    | .closer token => some (token.toList ++ [' '], token)
    | .other => none
  p.awaited.filterMap named

/-- The draft with a token put in before the one that is refused, if that one fits then. -/
def missingCandidate? (p : Place) (first : Token) : Option Candidate :=
  let offset := p.keptStop 0
  let tries := (p.missingTokens first).map fun (token, name) =>
    (p.draft.insert offset token name, Text.byteLength token)
  let moved (shift : Nat) : Stretch := ⟨first.stretch.start + shift, first.stretch.stop + shift⟩
  (tries.find? fun (d, shift) => fits p.dialect d.text p.comparisons (moved shift)).map
    fun (d, shift) => Candidate.of p.dialect d shift false

/-- The draft with the last `count` nodes and the skipped tokens before `stop` taken out. -/
def removal (p : Place) (count skipped : Nat) (stop : Nat) : Draft :=
  let start :=
    match (p.nodes.take count).getLast? with
    | some n => n.start
    | none => p.offset
  p.draft.remove (p.keptStop count) ⟨start, stop⟩ (count + skipped)

def namesInARow (p : Place) : Bool :=
  match p.nodes with
  | n :: _ =>
      n.kind ∈ [.identifier, .shorthand, .key] &&
        !(takeName (dropBytes p.offset p.draft.text)).1.isEmpty
  | [] => false

/-- The words and brackets after which an expression begins that reaches as far as it can. -/
def openers : List String :=
  ["(", "[", "\x7b", "$\x7b", ",", "return", "throw"]

/-- Whether the last node is an operator whose left side begins where an expression does. What
such an operator lacks is an operand. -/
def endsInOperator (p : Place) : Bool :=
  match p.nodes with
  | operator :: _ :: before =>
      let isOperator :=
        match operator.kind with
        | .token t => Grammar.rowOperators.contains t
        | _ => false
      let begins :=
        match before with
        | [] => true
        | n :: _ =>
            match n.kind with
            | .token t => openers.contains t
            | _ => false
      isOperator && begins
  | _ => false

/-- Whether the last node is a name inside brackets, which any closing token may follow as far as
can be seen from there. -/
def endsInBracketedName (p : Place) : Bool :=
  match p.nodes with
  | n :: rest =>
      let bracket := rest.find? fun (m : Node) =>
        m.kind ∈ [.token "(", .token "[", .token "\x7b", .token "$\x7b", .token ";"]
      n.kind == .identifier &&
        match bracket with
        | some m => m.kind ∈ [.token "(", .token "[", .token "$\x7b"]
        | none => false
  | [] => false

def closers : List String := [";", ",", ")", "]", "\x7d"]

/-- Whether a token fits, once nodes and skipped tokens are taken out. -/
def fitsAfter (p : Place) (lacksOperand : Bool) (count skipped stop : Nat) (t : Token) : Bool :=
  if count == 1 && skipped == 0 && lacksOperand && p.endsInOperator then false
  else if count == 0 && p.endsInBracketedName && closers.contains (String.ofList t.text) then true
  else
    fits p.dialect (p.removal count skipped stop).text
      (p.comparisons.filter fun offset => offset < p.keptStop count) t.stretch

/-- The draft with as few nodes taken out as needed for a token to fit, after some skipped tokens,
the last of which ends at `stop`. -/
def removalCandidate? (p : Place) (lacksOperand : Bool) (skipped stop : Nat) (t : Token) :
    Option Candidate :=
  if t.strange then none
  else
    let all := List.range (min depthLimit p.nodes.length + 1)
    let counts := all.drop (if skipped = 0 then 1 else 0)
    let stop := if skipped = 0 then p.keptStop 0 else stop
    (counts.find? fun count => p.fitsAfter lacksOperand count skipped stop t).map fun count =>
      Candidate.of p.dialect (p.removal count skipped stop) 0
        (count == 0 && skipped == 1 && p.namesInARow)

/-- The draft with the statement under way and all that follows taken out, or all of the text if
the statement holds too many nodes. -/
def endCandidate (p : Place) (skipped stop : Nat) : Candidate :=
  let stop := if skipped = 0 then p.keptStop 0 else stop
  if p.nodes.length ≤ depthLimit then ⟨p.removal p.nodes.length skipped stop, none, 0, false⟩
  else
    let all := p.nodes ++ p.statements
    ⟨{ p with nodes := all, statements := [] }.removal all.length skipped stop, none, 0, false⟩

/-- The price of having skipped tokens up to an offset. -/
def skipCost (p : Place) (skipped stop : Nat) : Nat :=
  p.draft.cost + removalCost p.draft.text ⟨p.offset, stop⟩ skipped

/-- All candidates, oldest first. `skipped` tokens have been skipped, the last of which ends at
`stop`, and `found` are the candidates found so far. -/
def candidates (p : Place) (lacksOperand : Bool) (skipped stop : Nat) (found : List Candidate) :
    List Token → List Candidate
  | [] => found ++ [p.endCandidate skipped stop]
  | t :: rest =>
      let found := found ++ (p.removalCandidate? lacksOperand skipped stop t).toList
      let next := p.skipCost (skipped + 1) t.stretch.stop
      if found.any fun c => c.draft.cost < next && !c.failsBefore t.stretch.start then found
      else p.candidates lacksOperand (skipped + 1) t.stretch.stop found rest

end Place

/-- Whether a candidate is cheaper than one found before it, or as cheap and leaves the first of two
names in a row alone. -/
def Candidate.cheaper (c old : Candidate) : Bool :=
  c.draft.cost < old.draft.cost || (c.draft.cost == old.draft.cost && c.keepsName)

/-- Whether a candidate is to be preferred to one found before it: it gets farther, or as far for a
lower price. -/
def Candidate.beats (c old : Candidate) : Bool :=
  match c.failsAt?, old.failsAt? with
  | none, some _ => true
  | some _, none => false
  | none, none => c.cheaper old
  | some a, some b => b < a || (a == b && c.cheaper old)

def best? : List Candidate → Option Candidate
  | [] => none
  | c :: rest => some (rest.foldl (fun old c => if c.beats old then c else old) c)

def recover (dialect : Dialect) (d : Draft) (r : Reach) : Option Candidate :=
  let p := Place.of dialect d r
  let rest := dropBytes r.offset d.text
  let tokens := tokensFrom dialect rest r.offset rest
  let missing := tokens.head?.bind p.missingCandidate?
  let lacksOperand := missing.isSome && r.awaited.contains .operand
  best? (p.candidates lacksOperand 0 r.offset missing.toList tokens)

def recoverAll (dialect : Dialect) : Nat → Candidate → Draft
  | 0, c => c.draft
  | errors + 1, c =>
      match c.reach? with
      | none => c.draft
      | some r =>
          match recover dialect c.draft r with
          | some c => recoverAll dialect errors c
          | none => c.draft

/-- The first problem of a text that does not parse, which was refused at a place. -/
def firstProblem (dialect : Dialect) (text : List Char) (r : Reach) : Problem :=
  let root := (recoverAll dialect text.length ⟨.ofText text, some r, 0, false⟩).problemTree text
  ((root.firstProblem Draft.Mark.wrong Draft.Mark.suspect).getD root).label.problem

end Restyle.Repair
