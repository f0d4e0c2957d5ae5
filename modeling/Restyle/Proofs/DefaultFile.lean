import Restyle.Proofs.Containment
import Restyle.Proofs.Runs
import Restyle.Proofs.Troubles

/-!
# The default file of a project that stays open

The default file is looked up when a project is opened, and its location is kept. What the path of this
location leads to later is read and written as it is: it may be a file outside the project, and if
it is no file there are no words for the failure.
-/

namespace Restyle

open Disk

instance (d : Disk) (place q : Location) (bytes : List UInt8) : Decidable (d.Reaches place q bytes) :=
  inferInstanceAs (Decidable (_ ∧ _))

namespace Workspace

variable {w : Workspace} {outside : Disk → Disk → Prop} {d d' d₀ : Disk} {desk : Desk}
  {q : Location} {bytes : List UInt8}

/-- Without a file being named, everything fails for one reason, and the disk stays as it is. -/
structure FailsWith (w : Workspace) (desk : Desk) (e : Trouble) : Prop where
  read : ∀ tag ordinal, (w.readClass desk tag ordinal none).2 = .error e
  update : ∀ tag value ordinal,
    let done := w.updateClass desk tag value ordinal none
    done.2 = .error e ∧ done.1.disk = desk.disk

/-- Without a file being named, a file with these bytes is read and written, and no other one. -/
structure WorksOn (w : Workspace) (desk : Desk) (q : Location) (bytes : List UInt8) : Prop where
  notText : ∀ flaw, Text.decode bytes = .error flaw →
    w.FailsWith desk (.workspace (.notText (w.relative w.defaultFile) flaw))
  read : ∀ source, Text.decode bytes = .ok source → ∀ tag ordinal,
    (w.readClass desk tag ordinal none).2 =
      (Restyle.readClass (dialectFor w.defaultFile.path) source tag ordinal
        w.attributeName).result.mapError .text
  update : ∀ source, Text.decode bytes = .ok source → ∀ tag value ordinal,
    let engine := (Restyle.updateClass (dialectFor w.defaultFile.path) source tag value ordinal
      w.attributeName).result
    let done := w.updateClass desk tag value ordinal none
    (∀ e, engine = .error e → done.2 = .error (.text e) ∧ done.1.disk = desk.disk) ∧
      ∀ updated, engine = .ok updated →
        done.2 = .ok ⟨w.relative w.defaultFile, updated ≠ source⟩ ∧
          done.1.disk.entry? q = some (.file (Text.encode updated))
  alone : ∀ tag value ordinal p, p ≠ q →
    Disk.entry? (w.updateClass desk tag value ordinal none).1.disk p = desk.disk.entry? p

theorem default_below {project : Disk.Path} {name : List Char} {file : Option Disk.Path}
    (opened : openProject d project file name = .ok w) : w.defaultFile.Below w.root := by
  obtain ⟨-, isDirectory, -, file, located⟩ := openProject_eq_ok opened
  obtain ⟨-, inside, isFile⟩ := locateFile_eq_ok.mp located
  obtain ⟨below, inside⟩ := (isBelow_iff.mp inside).1
  refine ⟨below, ?_, inside.symm⟩
  rintro rfl
  rw [List.append_nil] at inside
  rw [← inside] at isFile
  obtain ⟨q, found, here⟩ := isDirectory_eq_true.mp isDirectory
  obtain ⟨q', bytes, found', here'⟩ := isFile_eq_true.mp isFile
  cases found.symm.trans found'
  rw [here] at here'
  cases here'

theorem Rooted.default_named {project : Disk.Path} {name : List Char} {file : Option Disk.Path}
    (rooted : w.Rooted d) (opened : openProject d project file name = .ok w) :
    w.defaultFile.Named := by
  obtain ⟨-, -, -, file, located⟩ := openProject_eq_ok opened
  apply rooted.file_named
  exact located

theorem default_here {project : Disk.Path} {name : List Char} {file : Option Disk.Path}
    (opened : openProject d project file name = .ok w) (named : w.defaultFile.Named)
    (free : d.LinkFree w.defaultFile) : ∃ bytes, d.Reaches w.defaultFile w.defaultFile bytes := by
  obtain ⟨-, -, -, file, located⟩ := openProject_eq_ok opened
  obtain ⟨-, -, isFile⟩ := locateFile_eq_ok.mp located
  obtain ⟨q, bytes, found, here⟩ := isFile_eq_true.mp isFile
  cases find_linkFree named free found
  exact ⟨bytes, found, here⟩

private theorem updateClass_failed {tag : List Char} {value : List Text.CodePoint}
    {ordinal : Option Int} {file : Option Disk.Path} {e : Trouble}
    (failed : (w.updateClass desk tag value ordinal file).2 = .error e) :
    (w.updateClass desk tag value ordinal file).1.disk = desk.disk := by
  rcases w.updateClass_cases desk tag value ordinal file with ⟨locks, e, same⟩ |
    ⟨place, q, bytes, source, updated, -, -, -, -, -, same⟩
  · rw [same]
  · rw [same] at failed
    cases failed

theorem failsWith_of_unfetched {e : Trouble} (unfetched : w.fetch desk.disk none = .error e) :
    w.FailsWith desk e := by
  constructor
  · intro tag ordinal
    exact readClass_unfetched unfetched
  · intro tag value ordinal done
    have failed : done.2 = .error e := updateClass_unfetched unfetched
    exact ⟨failed, updateClass_failed failed⟩

section Reaches

variable (leads : desk.disk.Reaches w.defaultFile q bytes)
include leads

theorem fetch_default {source : List Char} (decoded : Text.decode bytes = .ok source) :
    w.fetch desk.disk none = .ok (w.defaultFile, source) :=
  fetch_eq_ok.mpr ⟨rfl, readSource_eq_ok.mpr ⟨q, bytes, leads.1, leads.2, decoded⟩⟩

theorem default_notText {flaw : Text.Malformed} (undecoded : Text.decode bytes = .error flaw) :
    w.FailsWith desk (.workspace (.notText (w.relative w.defaultFile) flaw)) := by
  have contents : desk.disk.contents w.defaultFile.path = .ok bytes := contents_eq_ok.mpr ⟨q, leads⟩
  apply failsWith_of_unfetched
  refine fetch_eq_error.mpr (.inr ⟨_, rfl, ?_⟩)
  simp only [readSource, contents, ofDisk_ok, ok_bind, undecoded, throw_eq]

theorem default_written {source updated tag : List Char} {value : List Text.CodePoint}
    {ordinal : Option Int} (decoded : Text.decode bytes = .ok source)
    (returned : (Restyle.updateClass (dialectFor w.defaultFile.path) source tag value ordinal
      w.attributeName).result = .ok updated) :
    (w.updateClass desk tag value ordinal none).1.disk.entry? q =
      some (.file (Text.encode updated)) := by
  have written := updateAt_ok (w := w) leads.1 leads.2 decoded returned
  simp only [Workspace.updateClass, Workspace.resolve, written]
  split
  · rename_i same
    rw [same, Text.encode_of_decode decoded]
    exact leads.2
  · exact entry?_put_self _ _ leads.ne_nil

theorem default_alone (tag : List Char) (value : List Text.CodePoint) (ordinal : Option Int)
    {p : Location} (other : p ≠ q) :
    Disk.entry? (w.updateClass desk tag value ordinal none).1.disk p = desk.disk.entry? p := by
  rcases w.updateClass_cases desk tag value ordinal none with ⟨locks, e, same⟩ |
    ⟨place, q', bytes', source, updated, resolved, found, -, -, -, same⟩
  · rw [same]
  · rw [same]
    cases resolved
    cases found.symm.trans leads.1
    dsimp only
    split
    · rfl
    · exact entry?_put_of_ne _ _ other

theorem worksOn_of_reaches : w.WorksOn desk q bytes := by
  constructor
  · intro flaw undecoded
    exact default_notText leads undecoded
  · intro source decoded tag ordinal
    exact readClass_fetched (fetch_default leads decoded)
  · intro source decoded tag value ordinal engine done
    have result : done.2 = (engine.mapError Trouble.text).map fun updated =>
        ⟨w.relative w.defaultFile, updated ≠ source⟩ :=
      updateClass_fetched (fetch_default leads decoded)
    constructor
    · intro e failed
      rw [failed] at result
      exact ⟨result, updateClass_failed result⟩
    · intro updated returned
      rw [returned] at result
      exact ⟨result, default_written leads decoded returned⟩
  · intro tag value ordinal p other
    exact default_alone leads tag value ordinal other

end Reaches

theorem failsWith_of_nowhere (nowhere : ¬ ∃ q bytes, desk.disk.Reaches w.defaultFile q bytes) :
    ∃ fault, w.FailsWith desk (.disk fault) := by
  cases contents : desk.disk.contents w.defaultFile.path with
  | ok bytes =>
      obtain ⟨q, leads⟩ := contents_eq_ok.mp contents
      exact absurd ⟨q, bytes, leads⟩ nowhere
  | error fault =>
      refine ⟨fault, failsWith_of_unfetched (fetch_eq_error.mpr (.inr ⟨_, rfl, ?_⟩))⟩
      simp only [readSource, contents, ofDisk_error, error_bind]

/-- The default file stays where it was as long as nothing on the way to it becomes another thing. -/
theorem Run.default_stays {desk₀ : Desk} (run : w.Run outside desk₀ desk)
    (named : w.defaultFile.Named) (free : desk₀.disk.LinkFree w.defaultFile)
    (start : ∃ bytes, desk₀.disk.Reaches w.defaultFile w.defaultFile bytes)
    (way : ∀ d d', outside d d' → d.SameWay d' w.defaultFile) :
    ∃ bytes, desk.disk.Reaches w.defaultFile w.defaultFile bytes := by
  have kept (d d' : Disk) (same : d.SameWay d' w.defaultFile)
      (h : d.LinkFree w.defaultFile ∧ ∃ bytes, d.Reaches w.defaultFile w.defaultFile bytes) :
      d'.LinkFree w.defaultFile ∧ ∃ bytes, d'.Reaches w.defaultFile w.defaultFile bytes := by
    obtain ⟨free, bytes, found, here⟩ := h
    refine ⟨same.linkFree free, ?_⟩
    have found' := find_sameWay named free same found
    rcases same _ (List.prefix_refl _) with same | ⟨-, bytes', -, there⟩
    · exact ⟨bytes, found', same ▸ here⟩
    · exact ⟨bytes', found', there⟩
  have bytes (d d' : Disk) (alike : Alike d d') := kept d d' fun part _ => alike.entry? part
  exact (run.disk bytes (fun d d' given => kept d d' (way d d' given)) ⟨free, start⟩).2

end Workspace

/-- What becomes of the default file of a project that has been opened, whatever happens to the disk. -/
theorem default_throughout {w : Workspace} {outside : Disk → Disk → Prop} {d₀ : Disk} {desk : Desk}
    {project : Disk.Path} {name : List Char} {file : Option Disk.Path}
    (opened : Workspace.openProject d₀ project file name = .ok w)
    (run : w.Run outside ⟨d₀, []⟩ desk) :
    w.defaultFile.Below w.root ∧ w.resolve desk.disk none = .ok w.defaultFile ∧
      (∀ q bytes, desk.disk.Reaches w.defaultFile q bytes →
        desk.disk.realLocation [] w.defaultFile.path = q ∧ desk.disk.LinkFree q ∧
          w.WorksOn desk q bytes) ∧
      ((¬ ∃ q bytes, desk.disk.Reaches w.defaultFile q bytes) → ∃ fault, w.FailsWith desk (.disk fault)) ∧
      (w.Rooted d₀ → d₀.LinkFree w.defaultFile →
        (∀ d d', outside d d' → d.SameWay d' w.defaultFile) →
        ∃ bytes, desk.disk.Reaches w.defaultFile w.defaultFile bytes) := by
  refine ⟨Workspace.default_below opened, rfl, ?_, Workspace.failsWith_of_nowhere, ?_⟩
  · intro q bytes leads
    obtain ⟨real, free⟩ := find_real leads.1
    exact ⟨real, free, Workspace.worksOn_of_reaches leads⟩
  · intro rooted free way
    have named := rooted.default_named opened
    exact run.default_stays named free (Workspace.default_here opened named free) way

theorem default_throughout_removed :
    let place : Location := [Text.bytes "p", Text.bytes "a.tsx"]
    let d : Disk := ⟨[([Text.bytes "p"], .directory), (place, .file [])], []⟩
    let w : Workspace := ⟨[Text.bytes "p"], defaultAttribute, place⟩
    let desk : Desk := ⟨d.remove place, []⟩
    Workspace.openProject d (Text.bytes "p") (some (Text.bytes "a.tsx")) defaultAttribute = .ok w ∧
      w.Run (fun d d' => d' = d.remove place) ⟨d, []⟩ desk ∧ ∃ fault, w.FailsWith desk (.disk fault) := by
  intro place d w desk
  have opened :
      Workspace.openProject d (Text.bytes "p") (some (Text.bytes "a.tsx")) defaultAttribute = .ok w := by
    decide +kernel
  have run : w.Run (fun d d' => d' = d.remove place) ⟨d, []⟩ desk := .single (.changed [] rfl)
  refine ⟨opened, run, (default_throughout opened run).2.2.2.1 ?_⟩
  rintro ⟨q, bytes, leads⟩
  have gone : desk.disk.isFile w.defaultFile.path = .ok false := by decide +kernel
  rw [isFile_eq_true.mpr ⟨q, bytes, leads⟩] at gone
  cases gone

/-- A link that has taken the place of the default file is followed out of the project. -/
example :
    let place : Location := [Text.bytes "p", Text.bytes "a.tsx"]
    let d : Disk := ⟨[([Text.bytes "p"], .directory), (place, .link (Text.bytes "../b.tsx")),
      ([Text.bytes "b.tsx"], .file [])], []⟩
    let w : Workspace := ⟨[Text.bytes "p"], defaultAttribute, place⟩
    d.Reaches w.defaultFile [Text.bytes "b.tsx"] [] := by
  decide +kernel

end Restyle
