import Restyle.Proofs.AlikeDisks
import Restyle.Proofs.Outcomes
import Restyle.Proofs.Utf8
import Restyle.Workspace.Edit

/-!
# What the operations of a workspace do

Each operation of a workspace that comes to something, taken apart into what it found on the disk
and what it has done.
-/

namespace Restyle

open Disk

section Except

variable {α : Type}

theorem ofDisk_eq_ok {x : Except Fault α} {a : α} : ofDisk x = .ok a ↔ x = .ok a :=
  mapError_eq_ok

@[simp] theorem ofDisk_ok (a : α) : ofDisk (.ok a) = .ok a := rfl

@[simp] theorem ofDisk_error (fault : Fault) :
    ofDisk (.error fault : Except Fault α) = .error (.disk fault) := rfl

end Except

variable {d : Disk} {root place q : Location} {file : Disk.Path} {w : Workspace}

theorem Disk.resolve_eq_ok {path : Disk.Path} (h : d.resolve place path = .ok q) :
    q = d.realLocation place path := by
  rw [Disk.resolve] at h
  split at h
  · cases h
  · dsimp only at h
    split at h
    · cases h
    · cases h
    · exact (Except.ok.inj h).symm

theorem isBelow_iff :
    isBelow root place ↔ root <+: place ∧ (place.head? = some [] → root.head? = some []) := by
  simp [isBelow, Decidable.imp_iff_not_or]

theorem locateFile_eq_ok :
    locateFile d root file = .ok place ↔
      d.resolve root file = .ok place ∧ isBelow root place ∧ d.isFile place.path = .ok true := by
  simp only [locateFile, bind_eq_ok, ofDisk_eq_ok, guarded_eq_ok, pure_eq_ok]
  constructor
  · rintro ⟨place, resolved, inside, yes, isFile, rfl, rfl⟩
    exact ⟨resolved, inside, isFile⟩
  · rintro ⟨resolved, inside, isFile⟩
    exact ⟨place, resolved, inside, true, isFile, rfl, rfl⟩

namespace Workspace

/-- The root of a workspace has been resolved and is a directory, and its default file has been
looked up in it. -/
theorem openProject_eq_ok {project : Disk.Path} {name : List Char} {file : Option Disk.Path}
    (h : openProject d project file name = .ok w) :
    d.resolve d.current project = .ok w.root ∧ d.isDirectory w.root.path = .ok true ∧
      w.attributeName = name ∧ ∃ file, locateFile d w.root file = .ok w.defaultFile := by
  simp only [openProject, bind_eq_ok, ofDisk_eq_ok, guarded_eq_ok] at h
  obtain ⟨root, resolved, yes, isDirectory, rfl, h⟩ := h
  have opened {file : Disk.Path}
      (h : (do return ⟨root, name, ← locateFile d root file⟩) = (.ok w : Except Trouble Workspace)) :
      d.resolve d.current project = .ok w.root ∧ d.isDirectory w.root.path = .ok true ∧
        w.attributeName = name ∧ ∃ file, locateFile d w.root file = .ok w.defaultFile := by
    obtain ⟨place, located, same⟩ := bind_eq_ok.mp h
    cases pure_eq_ok.mp same
    exact ⟨resolved, isDirectory, rfl, file, located⟩
  cases file with
  | some file => exact opened h
  | none =>
      obtain ⟨entry, -, h⟩ := bind_eq_ok.mp h
      cases entry with
      | some pattern => exact opened h
      | none => cases h

theorem resolve_congr {d' : Disk} (alike : Alike d d') (w : Workspace)
    (file : Option Disk.Path) : w.resolve d file = w.resolve d' file := by
  cases file with
  | none => rfl
  | some file => exact alike.locateFile w.root file

theorem readSource_eq_ok {source : List Char} :
    w.readSource d place = .ok source ↔
      ∃ q bytes, d.find place.path = .ok q ∧ d.entry? q = some (.file bytes) ∧
        Text.decode bytes = .ok source := by
  simp only [readSource, bind_eq_ok, ofDisk_eq_ok, contents_eq_ok]
  constructor
  · rintro ⟨bytes, ⟨q, found, here⟩, decoded⟩
    refine ⟨q, bytes, found, here, ?_⟩
    split at decoded
    · rename_i text same
      rw [same, pure_eq_ok.mp decoded]
    · cases decoded
  · rintro ⟨q, bytes, found, here, decoded⟩
    refine ⟨bytes, ⟨q, found, here⟩, ?_⟩
    rw [decoded]
    rfl

variable {tag : List Char} {value : List Text.CodePoint} {ordinal : Option Int}
  {source updated : List Char}

theorem revise_eq_ok :
    w.revise d place tag value ordinal = .ok (source, updated) ↔
      w.readSource d place = .ok source ∧
        (Restyle.updateClass (dialectFor place.path) source tag value ordinal
          w.attributeName).result = .ok updated := by
  simp only [revise, bind_eq_ok, mapError_eq_ok, pure_eq_ok, Prod.mk.injEq]
  constructor
  · rintro ⟨source, read, updated, h, rfl, rfl⟩
    exact ⟨read, h⟩
  · rintro ⟨read, h⟩
    exact ⟨source, read, updated, h, rfl, rfl⟩

/-- An update writes the file that the location leads to, if its text has become another one. -/
theorem updateAt_ok {bytes : List UInt8} (found : d.find place.path = .ok q)
    (here : d.entry? q = some (.file bytes)) (decoded : Text.decode bytes = .ok source)
    (h : (Restyle.updateClass (dialectFor place.path) source tag value ordinal
      w.attributeName).result = .ok updated) :
    w.updateAt d place tag value ordinal =
      (if updated = source then d else d.put q (.file (Text.encode updated)),
        .ok ⟨w.relative place, updated ≠ source⟩) := by
  have read : w.readSource d place = .ok source :=
    readSource_eq_ok.mpr ⟨q, bytes, found, here, decoded⟩
  rw [updateAt, revise_eq_ok.mpr ⟨read, h⟩]
  by_cases same : updated = source
  · simp only [same, if_true, ne_eq, not_true, decide_false]
  · simp only [same, if_false, overwrite_file found here, ne_eq, not_false_iff, decide_true]

/-- An update that comes to nothing leaves the disk. Any other has read the file that the location
leads to. -/
theorem updateAt_cases (w : Workspace) (d : Disk) (place : Location) (tag : List Char)
    (value : List Text.CodePoint) (ordinal : Option Int) :
    (∃ e, w.updateAt d place tag value ordinal = (d, .error e)) ∨
      ∃ q bytes source updated, d.find place.path = .ok q ∧ d.entry? q = some (.file bytes) ∧
        Text.decode bytes = .ok source ∧
        (Restyle.updateClass (dialectFor place.path) source tag value ordinal
          w.attributeName).result = .ok updated ∧
        w.updateAt d place tag value ordinal =
          (if updated = source then d else d.put q (.file (Text.encode updated)),
            .ok ⟨w.relative place, updated ≠ source⟩) := by
  cases revised : w.revise d place tag value ordinal with
  | error e => exact .inl ⟨e, by rw [updateAt, revised]⟩
  | ok texts =>
      obtain ⟨source, updated⟩ := texts
      obtain ⟨read, h⟩ := revise_eq_ok.mp revised
      obtain ⟨q, bytes, found, here, decoded⟩ := readSource_eq_ok.mp read
      exact .inr ⟨q, bytes, source, updated, found, here, decoded, h,
        updateAt_ok found here decoded h⟩

theorem updateAt_result (w : Workspace) (d : Disk) (place : Location) (tag : List Char)
    (value : List Text.CodePoint) (ordinal : Option Int) :
    (w.updateAt d place tag value ordinal).2 =
      (w.revise d place tag value ordinal).map fun texts =>
        ⟨w.relative place, texts.2 ≠ texts.1⟩ := by
  cases revised : w.revise d place tag value ordinal with
  | error e =>
      rw [updateAt, revised]
      rfl
  | ok texts =>
      obtain ⟨source, updated⟩ := texts
      obtain ⟨read, h⟩ := revise_eq_ok.mp revised
      obtain ⟨q, bytes, found, here, decoded⟩ := readSource_eq_ok.mp read
      rw [updateAt_ok found here decoded h]
      rfl

theorem updateClass_cases (w : Workspace) (desk : Desk) (tag : List Char)
    (value : List Text.CodePoint) (ordinal : Option Int) (file : Option Disk.Path) :
    (∃ locks e, w.updateClass desk tag value ordinal file = (⟨desk.disk, locks⟩, .error e)) ∨
      ∃ place q bytes source updated, w.resolve desk.disk file = .ok place ∧
        desk.disk.find place.path = .ok q ∧ desk.disk.entry? q = some (.file bytes) ∧
        Text.decode bytes = .ok source ∧
        (Restyle.updateClass (dialectFor place.path) source tag value ordinal
          w.attributeName).result = .ok updated ∧
        w.updateClass desk tag value ordinal file =
          (⟨if updated = source then desk.disk else desk.disk.put q (.file (Text.encode updated)),
            (desk.locks.lockFor place).1⟩, .ok ⟨w.relative place, updated ≠ source⟩) := by
  rw [Workspace.updateClass]
  cases resolved : w.resolve desk.disk file with
  | error e => exact .inl ⟨desk.locks, e, rfl⟩
  | ok place =>
      dsimp only
      rcases w.updateAt_cases desk.disk place tag value ordinal with ⟨e, same⟩ |
        ⟨q, bytes, source, updated, found, here, decoded, h, same⟩
      · rw [same]
        exact .inl ⟨_, e, rfl⟩
      · rw [same]
        exact .inr ⟨place, q, bytes, source, updated, rfl, found, here, decoded, h, rfl⟩

end Workspace

end Restyle
