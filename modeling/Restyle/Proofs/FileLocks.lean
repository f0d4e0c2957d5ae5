import Restyle.Proofs.DefaultFile

/-!
# The locks of files

A lock is made for the location that a file resolves to. If no link on the way to a file leads back to
itself, this is the file's own location, whatever it has been called, so that there is one lock for each
file and it is kept.
-/

namespace Restyle

open Disk

namespace Disk

variable {d d' d'' : Disk} {place q : Location} {bytes : List UInt8}

/-- The directories and the links of two disks are the same ones. The files may be other ones. -/
def SameStructure (d d' : Disk) : Prop :=
  ∀ place e, (∀ bytes, e ≠ .file bytes) → (d.entry? place = some e ↔ d'.entry? place = some e)

theorem SameStructure.refl (d : Disk) : SameStructure d d :=
  fun _ _ _ => Iff.rfl

theorem SameStructure.trans (h : SameStructure d d') (h' : SameStructure d' d'') :
    SameStructure d d'' :=
  fun place e other => (h place e other).trans (h' place e other)

theorem SameStructure.link? (same : SameStructure d d') : d.link? = d'.link? := by
  funext place
  apply Option.ext
  intro target
  rw [link?_eq_some, link?_eq_some]
  exact same place _ nofun

theorem SameStructure.linkFree (same : SameStructure d d') (free : d.LinkFree place) :
    d'.LinkFree place := by
  intro part h
  rw [← same.link?]
  exact free part h

end Disk

namespace Workspace

variable {w : Workspace} {outside : Disk → Disk → Prop} {d d' d₀ : Disk} {desk desk' : Desk}
  {file : Option Disk.Path} {p : Location}

/-- No link on the way to a file leads back to itself. The default file is not resolved again, so there
must be no link at all on the way to it. -/
def Straight (w : Workspace) (d : Disk) : Option Disk.Path → Prop
  | none => d.LinkFree w.defaultFile
  | some file => w.FileLeads d file

theorem Rooted.congr (rooted : w.Rooted d) (same : SameStructure d d') : w.Rooted d' where
  named := rooted.named
  free := same.linkFree rooted.free
  directory := (same w.root .directory nofun).mp rooted.directory

theorem Straight.congr (straight : w.Straight d file) (same : SameStructure d d') :
    w.Straight d' file := by
  cases file with
  | none => exact same.linkFree straight
  | some file =>
      obtain ⟨n, q, leads⟩ := straight
      exact ⟨n, q, leads.congr same.link?⟩

end Workspace

end Restyle
