import Restyle.Proofs.Requests
import Restyle.Proofs.SystemStrings
import Restyle.Proofs.Workspaces

/-!
# The file that an update writes

An update of a workspace comes to nothing and leaves the disk as it is, or it replaces the text of
one file and leaves all others. A request from a browser that has no flaw does what such an update does,
and any other leaves the disk.
-/

namespace Restyle

open Disk

/-- What an update that comes to something does to a disk and reports. -/
def Workspace.Updates (w : Workspace) (d : Disk) (tag : List Char) (value : List Text.CodePoint)
    (ordinal : Option Int) (file : Option Disk.Path) (d' : Disk) (r : UpdateResult) : Prop :=
  ∃ place q below bytes source updated,
    -- the file that is named lies in the project, and its path leads to a file `q`
    w.resolve d file = .ok place ∧ place = w.root ++ below ∧
    d.find place.path = .ok q ∧ d.entry? q = some (.file bytes) ∧
    Text.decode bytes = .ok source ∧
    (Restyle.updateClass (dialectFor place.path) source tag value ordinal w.attributeName).result =
      .ok updated ∧
    -- only `q` is another one, and only if its bytes are
    d'.entry? q = some (.file (Text.encode updated)) ∧ (∀ p, p ≠ q → d'.entry? p = d.entry? p) ∧
    (r.changed = true ↔ Text.encode updated ≠ bytes) ∧ (r.changed = false → d' = d) ∧
    r.file = if below = [] then here else joinSlash below

/-- A workspace that has been opened, on whatever disk. -/
def Workspace.Opened (w : Workspace) : Prop :=
  ∃ d project file name, openProject d project file name = .ok w

variable {w : Workspace} {d : Disk} {place : Location} {file : Option Disk.Path}

theorem Workspace.Opened.inside (opened : w.Opened) (resolved : w.resolve d file = .ok place) :
    ∃ below, place = w.root ++ below := by
  cases file with
  | some file =>
      obtain ⟨-, below, -⟩ := locateFile_eq_ok.mp resolved
      obtain ⟨⟨below, inside⟩, -⟩ := isBelow_iff.mp below
      exact ⟨below, inside.symm⟩
  | none =>
      cases resolved
      obtain ⟨d, project, file, name, opened⟩ := opened
      obtain ⟨-, -, -, file, located⟩ := Workspace.openProject_eq_ok opened
      obtain ⟨-, below, -⟩ := locateFile_eq_ok.mp located
      obtain ⟨⟨below, inside⟩, -⟩ := isBelow_iff.mp below
      exact ⟨below, inside.symm⟩

theorem relative_append (w : Workspace) (below : List Name) :
    w.relative (w.root ++ below) = if below = [] then here else joinSlash below := by
  rw [Workspace.relative, relativePath, List.drop_left]
  cases below with
  | nil => rfl
  | cons name below => rw [if_neg (List.cons_ne_nil _ _)]

theorem Workspace.Opened.updateClass (opened : w.Opened) (desk : Desk) (tag : List Char)
    (value : List Text.CodePoint) (ordinal : Option Int) (file : Option Disk.Path) :
    let done := w.updateClass desk tag value ordinal file
    (∀ e, done.2 = .error e → done.1.disk = desk.disk) ∧
      ∀ r, done.2 = .ok r → w.Updates desk.disk tag value ordinal file done.1.disk r := by
  rcases w.updateClass_cases desk tag value ordinal file with ⟨locks, e, same⟩ |
    ⟨place, q, bytes, source, updated, resolved, found, here, decoded, h, same⟩
  · rw [same]
    exact ⟨fun _ _ => rfl, nofun⟩
  · rw [same]
    refine ⟨nofun, fun r result => ?_⟩
    cases Except.ok.inj result
    obtain ⟨below, rfl⟩ := opened.inside resolved
    have encoded := Text.encode_of_decode decoded
    have notRoot := ne_nil_of_entry here nofun
    refine ⟨_, q, below, bytes, source, updated, resolved, rfl, found, here, decoded, h, ?_⟩
    by_cases unchanged : updated = source
    · rw [if_pos unchanged, unchanged, encoded]
      refine ⟨here, fun _ _ => rfl, ?_, fun _ => rfl, relative_append w below⟩
      simp
    · have other : Text.encode updated ≠ bytes :=
        encoded ▸ fun equal => unchanged (Text.encode_injective equal)
      rw [if_neg unchanged]
      refine ⟨entry?_put_self _ _ notRoot, fun p => entry?_put_of_ne _ _, ?_, ?_,
        relative_append w below⟩
      · simp [unchanged, other]
      · simp [unchanged]

namespace Web

end Web

end Restyle
