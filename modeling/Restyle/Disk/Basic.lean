import Restyle.Disk.Path

/-!
# Disks

Files, directories and symbolic links, each at its location. The root is always a directory.
-/

namespace Restyle

inductive Disk.Entry
  | file (bytes : List UInt8)
  | directory
  /-- A symbolic link with the path it stands for. -/
  | link (target : Disk.Path)
  deriving DecidableEq, Repr

structure Disk where
  entries : List (Disk.Location × Disk.Entry)
  current : Disk.Location

namespace Disk

def entry? (d : Disk) (place : Location) : Option Entry :=
  if place = [] then some .directory else d.entries.lookup place

/-- Put an entry at a location, in the place of one that may be there. -/
def put (d : Disk) (place : Location) (e : Entry) : Disk :=
  { d with entries := (place, e) :: d.entries.filter fun f => f.1 != place }

def remove (d : Disk) (place : Location) : Disk :=
  { d with entries := d.entries.filter fun f => !place.isPrefixOf f.1 }

/-- Make a directory where there is nothing, and the directories above it. -/
def makeDirectories (d : Disk) (place : Location) : Disk :=
  (List.range place.length).foldl
    (fun d n =>
      let place := place.take (n + 1)
      match d.entry? place with
      | some _ => d
      | none => d.put place .directory)
    d

end Disk

end Restyle
