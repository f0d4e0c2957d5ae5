import Restyle.Proofs.Resolving
import Restyle.Workspace.Basic

/-!
# Disks with other bytes

Paths lead through directories and links. On disks that differ in the bytes of their files only,
every path leads to the same location and stands for the same one.
-/

namespace Restyle.Disk

/-- The disks differ in the bytes of files only. -/
structure Alike (d d' : Disk) : Prop where
  current : d.current = d'.current
  entry? : ∀ place, d.entry? place = d'.entry? place ∨
    ∃ bytes bytes', d.entry? place = some (.file bytes) ∧ d'.entry? place = some (.file bytes')

variable {d d' : Disk} {place q : Location} {bytes : List UInt8}

theorem Alike.refl (d : Disk) : Alike d d :=
  ⟨rfl, fun _ => .inl rfl⟩

theorem alike_put (here : d.entry? place = some (.file bytes)) (bytes' : List UInt8) :
    Alike d (d.put place (.file bytes')) := by
  refine ⟨rfl, fun q => ?_⟩
  by_cases there : q = place
  · subst there
    have below := ne_nil_of_entry here nofun
    exact .inr ⟨bytes, bytes', here, entry?_put_self d _ below⟩
  · exact .inl (entry?_put_of_ne d _ there).symm

namespace Alike

theorem link? (h : Alike d d') : d.link? = d'.link? := by
  funext place
  exact link?_congr (h.entry? place)

private theorem follow (h : Alike d d') {jump jump' : Location → List Name → Except Fault Location}
    (jumps : jump = jump') (place : Location) (steps : List Name) :
    Disk.follow jump d place steps = Disk.follow jump' d' place steps := by
  subst jumps
  induction steps generalizing place with
  | nil => rfl
  | cons part rest ih =>
      rw [Disk.follow, Disk.follow]
      dsimp only
      rcases h.entry? place with same | ⟨bytes, bytes', here, there⟩
      · rw [same]
        rcases h.entry? (place ++ [part]) with same | ⟨bytes, bytes', here, there⟩
        · simp only [same, ih]
        · simp only [here, there, ih]
      · rw [here, there]

theorem walk (h : Alike d d') (links : Nat) : d.walk links = d'.walk links := by
  induction links with
  | zero =>
      funext place steps
      exact h.follow rfl place steps
  | succ links ih =>
      funext place steps
      exact h.follow ih place steps

theorem find (h : Alike d d') (path : Disk.Path) : d.find path = d'.find path := by
  rw [Disk.find, Disk.find, h.walk, h.current]

theorem test (h : Alike d d') {holds : Entry → Bool}
    (anyBytes : ∀ bytes bytes', holds (.file bytes) = holds (.file bytes')) (path : Disk.Path) :
    d.test holds path = d'.test holds path := by
  rw [Disk.test, Disk.test, Disk.status, Disk.status, h.find]
  cases d'.find path with
  | error fault => rfl
  | ok q =>
      simp only [bind, Except.bind]
      rcases h.entry? q with same | ⟨bytes, bytes', here, there⟩
      · rw [same]
      · rw [here, there]
        exact congrArg Except.ok (anyBytes bytes bytes')

theorem isFile (h : Alike d d') (path : Disk.Path) : d.isFile path = d'.isFile path :=
  h.test (fun _ _ => rfl) path

theorem resolve (h : Alike d d') (place : Location) (path : Disk.Path) :
    d.resolve place path = d'.resolve place path := by
  rw [Disk.resolve, Disk.resolve, stepsTaken, stepsTaken, realLocation, realLocation,
    resolution_congr h.link?]
  dsimp only
  rw [h.find]

theorem locateFile (h : Alike d d') (root : Location) (file : Disk.Path) :
    locateFile d root file = locateFile d' root file := by
  simp only [Restyle.locateFile, h.resolve, h.isFile]

end Alike

end Restyle.Disk
