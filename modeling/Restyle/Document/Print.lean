import Restyle.Document.Basic

/-!
# Printing

The text of a document with its edits applied. Edits are taken in order; one that begins inside a
stretch already replaced is dropped, so that of nested replacements the outer one wins.
-/

namespace Restyle.Document

def editsIn (d : Document) (start stop : Nat) : List Edit :=
  (Edit.sorted d.edits).filter fun e => start ≤ e.start && e.stop ≤ stop

/-- Of edits in order, those that begin no earlier than the end of the one applied before. -/
def keptFrom (cursor : Nat) : List Edit → List Edit
  | [] => []
  | e :: rest => if e.start < cursor then keptFrom cursor rest else e :: keptFrom e.stop rest

def kept (d : Document) (start stop : Nat) : List Edit :=
  keptFrom start (d.editsIn start stop)

/-- The bytes of a stretch from `cursor` up to `stop`, some edits applied, with notes on those
that are dropped. -/
def printBytes (d : Document) (stop cursor : Nat) : List Edit → Report (List UInt8)
  | [] => pure (d.bytes cursor stop)
  | e :: rest =>
      if e.start < cursor then do
        Report.note (.droppedEdit e.start e.stop)
        printBytes d stop cursor rest
      else
        match Text.toChars? e.text with
        | none => Report.fail .surrogate
        | some text => do
            let tail ← printBytes d stop e.stop rest
            return d.bytes cursor e.start ++ Text.encode text ++ tail

def printSpan (d : Document) (start stop : Nat) : Report (List Char) := do
  let bytes ← printBytes d stop start (d.editsIn start stop)
  match Text.decode bytes with
  | .ok text => return text
  | .error _ => Report.fail .notText

def print (d : Document) : Report (List Char) :=
  if d.mutated then d.printSpan 0 d.data.length else pure d.source

end Restyle.Document
