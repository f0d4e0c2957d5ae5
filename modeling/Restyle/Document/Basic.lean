import Restyle.Document.Edit
import Restyle.Grammar.Parse
import Restyle.Repair.Recover

/-!
# Documents

A parsed text with the edits that wait to be applied to it. The text and its tree never change;
edits are recorded against the bytes that were parsed, so that all else is printed as it was.
-/

namespace Restyle

open Syntax

def dialectNamed (name : List Char) : Except Failure Dialect :=
  if name = "tsx".toList then .ok .tsx
  else if name = "typescript".toList then .ok .typescript
  else .error (.unknownDialect name)

/-- A parsed text and the edits recorded against it, oldest first. -/
structure Document where
  source : List Char
  data : List UInt8
  root : Node
  dialect : Dialect
  edits : List Edit
  data_eq : data = Text.encode source

namespace Document

def ofTree (source : List Char) (root : Node) (dialect : Dialect) : Document :=
  ⟨source, Text.encode source, root, dialect, [], rfl⟩

def parse (dialect : Dialect) (source : List Char) : Except Failure Document :=
  match Grammar.parse dialect source with
  | .ok root => .ok (ofTree source root dialect)
  | .error reach =>
      .error (.refused ((Repair.firstProblem dialect source reach).refusal (Text.encode source)))

def parseNamed (dialectName : List Char) (source : List Char) : Except Failure Document :=
  match dialectNamed dialectName with
  | .ok dialect => parse dialect source
  | .error e => .error e

def mutated (d : Document) : Bool := !d.edits.isEmpty

def bytes (d : Document) (start stop : Nat) : List UInt8 :=
  (d.data.drop start).take (stop - start)

/-- The text between two offsets, if they cut no character. -/
def text (d : Document) (start stop : Nat) : Except Failure (List Char) :=
  match Text.decode (d.bytes start stop) with
  | .ok text => .ok text
  | .error _ => .error .notText

def nodeText (d : Document) (n : Node) : List Char :=
  Text.decodeLossy (d.bytes n.start n.stop)

def record (d : Document) (e : Edit) : Document :=
  { d with edits := d.edits ++ [e] }

/-- The spaces and tabs at the beginning of the line that holds an offset. -/
def indent (d : Document) (offset : Nat) : List Char :=
  let line := ((d.data.take offset).reverse.takeWhile (· != 10)).reverse
  (line.takeWhile fun b => b == 32 || b == 9).map fun b => Char.ofNat b.toNat

end Document

end Restyle
