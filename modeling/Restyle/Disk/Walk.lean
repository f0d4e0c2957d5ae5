import Restyle.Disk.Basic

/-!
# Walking the disk

Where a path leads. Links are followed when they are met, so that a step up from a link to a
directory leads to the directory above its target.
-/

namespace Restyle.Disk

/-- Why a path leads nowhere, or what is there cannot be used. -/
inductive Fault
  | notFound
  | notDirectory
  | isDirectory
  | alreadyThere
  | tooManyLinks
  | nameTooLong
  /-- A path holds the byte that ends paths. -/
  | nulInPath
  /-- A link stands for itself, by way of others or not. -/
  | endlessLink
  deriving DecidableEq, Repr

def nameLimit : Nat := 255

def pathLimit : Nat := 4096

/-- The links that may be followed on the way along a path. -/
def linkLimit : Nat := 40

/-- Where steps lead from a place. What lies behind a link is found by `jump`, from the place
where a path begins and the steps to take from there. -/
def follow (jump : Location → List Name → Except Fault Location) (d : Disk) (place : Location) :
    List Name → Except Fault Location
  | [] => .ok place
  | part :: rest =>
      match d.entry? place with
      | none => .error .notFound
      | some (.file _) | some (.link _) => .error .notDirectory
      | some .directory =>
          if staysPut part then follow jump d place rest
          else if part = above then follow jump d place.dropLast rest
          else if nameLimit < part.length then .error .nameTooLong
          else
            let next := place ++ [part]
            match d.entry? next with
            | none => .error .notFound
            | some (.link target) =>
                jump (if isAbsolute target then [] else place) (splitSlash target ++ rest)
            | some _ => follow jump d next rest

/-- Where steps lead from a place, with so many links on the way at most. -/
def walk (d : Disk) : Nat → Location → List Name → Except Fault Location
  | 0 => follow (fun _ _ => .error .tooManyLinks) d
  | links + 1 => follow (walk d links) d

def holdsNul (path : Path) : Bool :=
  path.contains 0

def find (d : Disk) (path : Path) : Except Fault Location :=
  if holdsNul path then .error .nulInPath
  else if path.isEmpty then .error .notFound
  else if pathLimit ≤ path.length then .error .nameTooLong
  else walk d linkLimit (if isAbsolute path then [] else d.current) (splitSlash path)

def status (d : Disk) (path : Path) : Except Fault Entry := do
  let place ← d.find path
  match d.entry? place with
  | some e => return e
  | none => throw .notFound

/-- Whether a path leads to something that `holds`. That it leads nowhere is no fault, but that it
is too long is one. -/
def test (holds : Entry → Bool) (d : Disk) (path : Path) : Except Fault Bool :=
  match d.status path with
  | .ok e => .ok (holds e)
  | .error .nameTooLong => .error .nameTooLong
  | .error _ => .ok false

def isFile (d : Disk) (path : Path) : Except Fault Bool :=
  d.test (fun e => match e with | .file _ => true | _ => false) path

def isDirectory (d : Disk) (path : Path) : Except Fault Bool :=
  d.test (fun e => match e with | .directory => true | _ => false) path

def contents (d : Disk) (path : Path) : Except Fault (List UInt8) := do
  match ← d.status path with
  | .file bytes => return bytes
  | .directory => throw .isDirectory
  | .link _ => throw .tooManyLinks

/-- Replace the bytes of the file that a path leads to. -/
def overwrite (d : Disk) (path : Path) (bytes : List UInt8) : Except Fault Disk := do
  let place ← d.find path
  match d.entry? place with
  | some (.file _) => return d.put place (.file bytes)
  | some .directory => throw .isDirectory
  | some (.link _) => throw .tooManyLinks
  | none => throw .notFound

end Restyle.Disk
