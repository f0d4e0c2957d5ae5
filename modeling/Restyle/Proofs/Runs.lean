import Mathlib.Logic.Relation
import Restyle.Proofs.Workspaces

/-!
# Runs of a workspace

A project stays open while its disk may be changed from outside. The workspace itself changes the bytes
of files only, and locks are never taken away or given to another location.
-/

namespace Restyle

open Disk

/-- What may happen to an opened project: something outside changes the disk, or a file is read, updated
or locked. -/
inductive Workspace.Step (w : Workspace) (outside : Disk → Disk → Prop) : Desk → Desk → Prop
  | changed {d d' : Disk} (locks : Locks) : outside d d' → Step w outside ⟨d, locks⟩ ⟨d', locks⟩
  | read (desk : Desk) (tag : List Char) (ordinal : Option Int) (file : Option Disk.Path) :
      Step w outside desk (w.readClass desk tag ordinal file).1
  | updated (desk : Desk) (tag : List Char) (value : List Text.CodePoint) (ordinal : Option Int)
      (file : Option Disk.Path) :
      Step w outside desk (w.updateClass desk tag value ordinal file).1
  | locked (desk : Desk) (place : Location) :
      Step w outside desk ⟨desk.disk, (desk.locks.lockFor place).1⟩

abbrev Workspace.Run (w : Workspace) (outside : Disk → Disk → Prop) : Desk → Desk → Prop :=
  Relation.ReflTransGen (w.Step outside)

namespace Locks

variable {locks before after : Locks} {place p q : Location}

theorem lockFor_extends (locks : Locks) (place : Location) : locks <+: (locks.lockFor place).1 := by
  rw [lockFor]
  split
  · exact List.prefix_refl locks
  · exact List.prefix_append locks [place]

theorem lockFor_nodup (nodup : locks.Nodup) (place : Location) : (locks.lockFor place).1.Nodup := by
  rw [lockFor]
  split
  · exact nodup
  · rename_i new
    rw [List.nodup_append]
    refine ⟨nodup, by simp, ?_⟩
    intro old mem other added
    rw [List.mem_singleton.mp added]
    exact fun same => new (same ▸ mem)

end Locks

namespace Workspace

variable {w : Workspace} {outside : Disk → Disk → Prop} {desk desk' : Desk}

theorem readClass_desk (w : Workspace) (desk : Desk) (tag : List Char) (ordinal : Option Int)
    (file : Option Disk.Path) :
    (w.readClass desk tag ordinal file).1 = desk ∨
      ∃ place, (w.readClass desk tag ordinal file).1 = ⟨desk.disk, (desk.locks.lockFor place).1⟩ := by
  rw [readClass]
  cases w.resolve desk.disk file with
  | error e => exact .inl rfl
  | ok place => exact .inr ⟨place, rfl⟩

theorem updateClass_desk (w : Workspace) (desk : Desk) (tag : List Char)
    (value : List Text.CodePoint) (ordinal : Option Int) (file : Option Disk.Path) :
    (w.updateClass desk tag value ordinal file).1 = desk ∨
      ∃ d place, Alike desk.disk d ∧
        (w.updateClass desk tag value ordinal file).1 = ⟨d, (desk.locks.lockFor place).1⟩ := by
  rw [updateClass]
  cases w.resolve desk.disk file with
  | error e => exact .inl rfl
  | ok place =>
      dsimp only
      rcases w.updateAt_cases desk.disk place tag value ordinal with
        ⟨e, same⟩ | ⟨q, bytes, source, updated, -, here, -, -, same⟩
      · rw [same]
        exact .inr ⟨_, place, .refl _, rfl⟩
      · rw [same]
        refine .inr ⟨_, place, ?_, rfl⟩
        split
        · exact .refl _
        · exact alike_put here _

/-- A step leaves all but the bytes of files as it is, unless it is a change from outside. It makes a
lock, or none. -/
theorem Step.spec (step : w.Step outside desk desk') :
    (Alike desk.disk desk'.disk ∨ outside desk.disk desk'.disk) ∧
      (desk'.locks = desk.locks ∨ ∃ place, desk'.locks = (desk.locks.lockFor place).1) := by
  cases step with
  | changed locks change => exact ⟨.inr change, .inl rfl⟩
  | read _ tag ordinal file =>
      rcases w.readClass_desk desk tag ordinal file with same | ⟨place, same⟩
      · rw [same]
        exact ⟨.inl (.refl _), .inl rfl⟩
      · rw [same]
        exact ⟨.inl (.refl _), .inr ⟨place, rfl⟩⟩
  | updated _ tag value ordinal file =>
      rcases w.updateClass_desk desk tag value ordinal file with same | ⟨d, place, alike, same⟩
      · rw [same]
        exact ⟨.inl (.refl _), .inl rfl⟩
      · rw [same]
        exact ⟨.inl alike, .inr ⟨place, rfl⟩⟩
  | locked _ place => exact ⟨.inl (.refl _), .inr ⟨place, rfl⟩⟩

/-- What neither other bytes nor a change from outside can spoil holds throughout a run. -/
theorem Run.disk {holds : Disk → Prop} (run : w.Run outside desk desk')
    (bytes : ∀ d d', Alike d d' → holds d → holds d')
    (change : ∀ d d', outside d d' → holds d → holds d') (start : holds desk.disk) :
    holds desk'.disk := by
  induction run with
  | refl => exact start
  | tail _ step ih =>
      rcases step.spec.1 with alike | given
      · exact bytes _ _ alike ih
      · exact change _ _ given ih

theorem Run.locks (run : w.Run outside desk desk') :
    desk.locks <+: desk'.locks ∧ (desk.locks.Nodup → desk'.locks.Nodup) := by
  induction run with
  | refl => exact ⟨List.prefix_refl _, id⟩
  | tail _ step ih =>
      obtain ⟨kept, nodup⟩ := ih
      rcases step.spec.2 with same | ⟨place, same⟩
      · rw [same]
        exact ⟨kept, nodup⟩
      · rw [same]
        refine ⟨kept.trans (Locks.lockFor_extends _ place), ?_⟩
        exact fun start => Locks.lockFor_nodup (nodup start) place

end Workspace

end Restyle
