import Restyle.ClassName
import Restyle.Workspace.Basic

/-!
# Editing files of a workspace

Reading and updating the attribute of an element in a file. A file is read and written under its
lock. There is one lock for each location; a lock is made when it is first asked for and kept.
-/

namespace Restyle

open Disk

/-- The locations that have locks, in the order in which these were made. -/
abbrev Locks := List Location

/-- The number of a location's lock, which is made if there is none. -/
def Locks.lockFor (locks : Locks) (place : Location) : Locks × Nat :=
  if place ∈ locks then (locks, locks.idxOf place) else (locks ++ [place], locks.length)

structure Desk where
  disk : Disk
  locks : Locks

/-- What an update has done: the file, as seen from the root, and whether it is another one now. -/
structure UpdateResult where
  file : Path
  changed : Bool
  deriving DecidableEq, Repr

namespace Workspace

def readSource (w : Workspace) (d : Disk) (place : Location) : Except Trouble (List Char) := do
  let bytes ← ofDisk (d.contents place.path)
  match Text.decode bytes with
  | .ok text => return text
  | .error flaw => throw (.workspace (.notText (w.relative place) flaw))

/-- The value of the attribute in the text at a location. -/
def readAt (w : Workspace) (d : Disk) (place : Location) (tag : List Char)
    (ordinal : Option Int) : Except Trouble (Option (List Char)) := do
  let source ← w.readSource d place
  let r := readClass (dialectFor place.path) source tag ordinal w.attributeName
  r.result.mapError .text

/-- The value of the attribute on the element at an address. -/
def readClass (w : Workspace) (desk : Desk) (tag : List Char) (ordinal : Option Int)
    (file : Option Path) : Desk × Except Trouble (Option (List Char)) :=
  match w.resolve desk.disk file with
  | .error e => (desk, .error e)
  | .ok place =>
      ({ desk with locks := (desk.locks.lockFor place).1 }, w.readAt desk.disk place tag ordinal)

/-- The text at a location before and after an update. -/
def revise (w : Workspace) (d : Disk) (place : Location) (tag : List Char)
    (value : List Text.CodePoint) (ordinal : Option Int) :
    Except Trouble (List Char × List Char) := do
  let source ← w.readSource d place
  let r := updateClass (dialectFor place.path) source tag value ordinal w.attributeName
  return (source, ← r.result.mapError .text)

/-- Update the text at a location, which is written only if it has become another one. -/
def updateAt (w : Workspace) (d : Disk) (place : Location) (tag : List Char)
    (value : List Text.CodePoint) (ordinal : Option Int) :
    Disk × Except Trouble UpdateResult :=
  match w.revise d place tag value ordinal with
  | .error e => (d, .error e)
  | .ok (source, updated) =>
      if updated = source then (d, .ok ⟨w.relative place, false⟩)
      else
        match d.overwrite place.path (Text.encode updated) with
        | .ok d => (d, .ok ⟨w.relative place, true⟩)
        | .error e => (d, .error (.disk e))

/-- Give the elements at an address a new value for the attribute. -/
def updateClass (w : Workspace) (desk : Desk) (tag : List Char) (value : List Text.CodePoint)
    (ordinal : Option Int) (file : Option Path) : Desk × Except Trouble UpdateResult :=
  match w.resolve desk.disk file with
  | .error e => (desk, .error e)
  | .ok place =>
      let (disk, result) := w.updateAt desk.disk place tag value ordinal
      (⟨disk, (desk.locks.lockFor place).1⟩, result)

end Workspace

end Restyle
