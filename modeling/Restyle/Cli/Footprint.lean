import Restyle.Cli.Command

/-!
# Footprints

The paths that a command may look at. A disk on which they lead to the same as on another one
serves it as well.
-/

namespace Restyle.Cli

open Disk

/-- The places where the entry file of a project may be. -/
def entryPaths (project : Path) : List Path :=
  entryPatterns.map fun pattern => joined project (Text.bytes pattern)

/-- The paths that a command with sorted words may look at. -/
def Command.footprint (c : Command) (s : Sorted) : List Path :=
  match c with
  | .get | .set | .list => s.positional.take 1
  | .discover => s.positional.take 1 ++ (s.positional.take 1).flatMap entryPaths
  | .serve =>
      match s.value? "--project" with
      | some project =>
          project :: (s.value? "--file").toList.map (joined project) ++ entryPaths project
      | none => []

def footprint (words : List Word) : List Path :=
  match sortWords generalUsage false words with
  | some s =>
      match s.positional with
      | name :: rest =>
          match commandNamed name with
          | some c => ((sortWords c.usage true rest).map c.footprint).getD []
          | none => []
      | [] => []
  | none => []

end Restyle.Cli
