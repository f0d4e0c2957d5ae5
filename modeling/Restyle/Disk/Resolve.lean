import Restyle.Disk.Walk

/-!
# Resolving paths

The location that a path stands for, links replaced by their targets. Names that are not there are
kept as they are, so that every path stands for a location, whether there is anything or not.
-/

namespace Restyle.Disk

/-- The links met so far, each with the location it stands for, once that is known. -/
abbrev Seen := List (Location × Option Location)

/-- Where resolving some steps has led: a place, the links met, and whether it got to the end. If a
link led back to itself it did not. Then some steps are left to take from the place, the last of
them being those that were `ahead` of the link. -/
structure Resolution where
  place : Location
  seen : Seen
  finished : Bool
  left : List Name
  ahead : List Name
  /-- The path that is left begins with exactly two slashes. -/
  doubled : Bool

/-- Whether steps from the root are written with exactly two slashes before them. -/
def beginsDoubled : List Name → Bool
  | [] :: [] :: [] :: _ :: _ => false
  | [] :: [] :: _ :: _ => true
  | _ => false

/-- Resolving ends at a place, with some steps left and others ahead. Those ahead are put after a
slash; if they begin with one themselves, they lead from the root, and nothing before them counts. -/
def stopped (place : Location) (seen : Seen) (doubled : Bool) (left ahead : List Name) : Resolution :=
  match ahead with
  | [] :: _ :: _ => ⟨[], seen, false, ahead, ahead, beginsDoubled ahead⟩
  | _ => ⟨place, seen, false, left ++ ahead, ahead, doubled⟩

def link? (d : Disk) (place : Location) : Option Path :=
  match d.entry? place with
  | some (.link target) => some target
  | _ => none

/-- Resolve steps from a place. The target of a link is resolved by `jump`. -/
def resolveSteps (jump : Seen → Location → List Name → Resolution) (d : Disk) (seen : Seen)
    (place : Location) : List Name → Resolution
  | [] => ⟨place, seen, true, [], [], false⟩
  | part :: rest =>
      if staysPut part then resolveSteps jump d seen place rest
      else if part = above then resolveSteps jump d seen place.dropLast rest
      else
        let next := place ++ [part]
        match d.link? next with
        | none => resolveSteps jump d seen next rest
        | some target =>
            match seen.lookup next with
            | some (some known) => resolveSteps jump d seen known rest
            | some none => stopped next seen false [] rest
            | none =>
                let r := jump ((next, none) :: seen) (if isAbsolute target then [] else place)
                  (splitSlash target)
                if r.finished then
                  resolveSteps jump d ((next, some r.place) :: r.seen) r.place rest
                else stopped r.place r.seen r.doubled r.left rest

/-- Resolve steps from a place, with links inside links to a depth. -/
def resolveWithin (d : Disk) : Nat → Seen → Location → List Name → Resolution
  | 0 => resolveSteps (fun seen place _ => ⟨place, seen, true, [], [], false⟩) d
  | depth + 1 => resolveSteps (resolveWithin d depth) d

/-- The steps from the root along a path, as seen from a place. -/
def stepsOf (place : Location) (path : Path) : List Name :=
  if isAbsolute path then parts path else place ++ parts path

/-- What resolving a path comes to, as seen from a place. -/
def resolution (d : Disk) (place : Location) (path : Path) : Resolution :=
  resolveWithin d d.entries.length [] [] (stepsOf place path)

/-- The location of a resolution. A path that begins with two slashes is kept apart from the others
by a name that is empty. -/
def Resolution.location (r : Resolution) : Location :=
  (if r.doubled then [[]] else []) ++ lexical r.place r.left

/-- The location that a path stands for, as seen from a place. -/
def realLocation (d : Disk) (place : Location) (path : Path) : Location :=
  (d.resolution place path).location

/-- The steps along a path that are looked at: those up to a link that leads back to itself. -/
def stepsTaken (d : Disk) (place : Location) (path : Path) : List Name :=
  (stepsOf place path).take
    ((stepsOf place path).length - (d.resolution place path).ahead.length)

/-- The location that a path stands for, unless a link on the way leads back to itself. -/
def resolve (d : Disk) (place : Location) (path : Path) : Except Fault Location :=
  if (d.stepsTaken place path).any holdsNul then .error .nulInPath
  else
    let found := d.realLocation place path
    match d.find found.path with
    | .error .tooManyLinks => .error .endlessLink
    | .error .nulInPath => .error .nulInPath
    | _ => .ok found

end Restyle.Disk
