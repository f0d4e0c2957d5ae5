import Restyle.Proofs.ReadAttributes
import Restyle.Proofs.UpdateOutcome
import Restyle.Proofs.Workspaces

/-!
# Failures without words

Why reading or updating a file of a workspace fails, and for which failures there are words. A file
that is named is looked up before it is read, so that most of what can be wrong with it is put into
words; the default file is read without a look.
-/

namespace Restyle

open Disk Syntax Text

section Texts

variable {dialect : Dialect} {source tag name : List Char} {value : List CodePoint}
  {ordinal : Option Int} {d : Document}

theorem Document.read_reads (h : d.SoundTree) (fresh : d.edits = []) :
    ∃ found, (d.read tag ordinal name).result = .ok found := by
  cases last : (d.locate tag ordinal).getLast? with
  | none => exact ⟨none, Document.read_unlocated (List.getLast?_eq_none_iff.mp last)⟩
  | some e =>
      rw [Document.read_located last]
      obtain ⟨o, ho, k, rfl⟩ := Document.mem_locate (List.mem_of_getLast? last)
      exact Document.readAttribute_reads h fresh ho k name

theorem readClass_reads (parsed : Document.parse dialect source = .ok d) :
    ∃ found, (readClass dialect source tag ordinal name).result = .ok found := by
  obtain ⟨-, -, fresh, sound⟩ := Document.parse_spec parsed
  rw [readClass_parsed parsed]
  exact Document.read_reads sound fresh

theorem readClass_refused {e : Failure} (h : Document.parse dialect source = .error e) :
    (readClass dialect source tag ordinal name).result = .error e :=
  Report.result_bind_error h

/-- A value that can be written: it is text, and its escapes name characters if it is a string
literal. -/
def Value.Writable (dialect : Dialect) (value : List CodePoint) : Prop :=
  ∃ text, value = ofChars text ∧ EscapesNameCharacters dialect text

theorem Document.update_writable (h : d.SoundTree) (fresh : d.edits = [])
    (writable : Value.Writable d.dialect value) :
    ∃ out, (d.update tag value ordinal name).result = .ok out := by
  obtain ⟨text, rfl, names⟩ := writable
  exact (Document.update_returns h fresh tag text ordinal name).1.mpr (.inr names)

/-- Where an element is found, a value that cannot be written is the reason for the failure. -/
theorem Document.update_unwritable (h : d.SoundTree) (fresh : d.edits = [])
    (found : d.locate tag ordinal ≠ []) (unwritable : ¬ Value.Writable d.dialect value) :
    ∃ e, (d.update tag value ordinal name).result = .error e ∧ ∀ reason, e ≠ .refused reason := by
  cases chars : toChars? value with
  | none =>
      have failed : (Value.render d.dialect value).result = .error .surrogate := by
        simp only [Value.render, chars, Report.result_fail]
      exact ⟨_, Document.update_unrendered found failed, nofun⟩
  | some text =>
      obtain rfl := toChars?_eq_some.mp chars
      obtain ⟨returns, fails⟩ := Document.update_returns h fresh tag text ordinal name
      cases updated : (d.update tag (ofChars text) ordinal name).result with
      | ok out =>
          have names := (returns.mp ⟨out, updated⟩).resolve_left found
          exact absurd ⟨text, rfl, names⟩ unwritable
      | error e =>
          refine ⟨e, rfl, ?_⟩
          rcases fails e updated with rfl | rfl | rfl <;> nofun

end Texts

namespace Disk

variable {d : Disk} {root : Location} {path : Path}

theorem resolve_eq (d : Disk) (root : Location) (path : Path) :
    d.resolve root path =
      if (d.stepsTaken root path).any holdsNul then .error .nulInPath
      else if d.find (d.realLocation root path).path = .error .tooManyLinks then .error .endlessLink
      else if d.find (d.realLocation root path).path = .error .nulInPath then .error .nulInPath
      else .ok (d.realLocation root path) := by
  rw [Disk.resolve]
  dsimp only
  split
  · rfl
  · split <;> simp_all

theorem isFile_eq_error {fault : Fault} :
    d.isFile path = .error fault ↔ fault = .nameTooLong ∧ d.find path = .error .nameTooLong := by
  have status : d.status path = .error .nameTooLong ↔ d.find path = .error .nameTooLong := by
    cases found : d.find path with
    | error fault => simp [Disk.status, found, bind, Except.bind]
    | ok q =>
        cases here : d.entry? q <;>
          simp [Disk.status, found, here, bind, Except.bind, pure, Except.pure, throw, throwThe,
            MonadExceptOf.throw]
  rw [isFile, test, ← status]
  split
  · simp_all
  · simp_all [eq_comm]
  · simp_all

end Disk

namespace Workspace

variable {w : Workspace} {d : Disk} {place : Location} {file : Option Disk.Path}

def fetch (w : Workspace) (d : Disk) (file : Option Disk.Path) :
    Except Trouble (Location × List Char) := do
  let place ← w.resolve d file
  return (place, ← w.readSource d place)

section Fetch

variable {desk : Desk} {tag source : List Char} {value : List CodePoint} {ordinal : Option Int}

theorem fetch_eq_ok :
    w.fetch d file = .ok (place, source) ↔
      w.resolve d file = .ok place ∧ w.readSource d place = .ok source := by
  simp only [fetch, bind_eq_ok, pure_eq_ok, Prod.mk.injEq]
  constructor
  · rintro ⟨place, resolved, source, read, rfl, rfl⟩
    exact ⟨resolved, read⟩
  · rintro ⟨resolved, read⟩
    exact ⟨place, resolved, source, read, rfl, rfl⟩

theorem fetch_eq_error {e : Trouble} :
    w.fetch d file = .error e ↔ w.resolve d file = .error e ∨
      ∃ place, w.resolve d file = .ok place ∧ w.readSource d place = .error e := by
  simp [fetch, bind_eq_error, pure, Except.pure]

theorem readClass_unfetched {e : Trouble} (h : w.fetch desk.disk file = .error e) :
    (w.readClass desk tag ordinal file).2 = .error e := by
  rcases fetch_eq_error.mp h with failed | ⟨place, resolved, failed⟩
  · simp only [Workspace.readClass, failed]
  · simp only [Workspace.readClass, resolved, readAt, failed, error_bind]

theorem readClass_fetched (h : w.fetch desk.disk file = .ok (place, source)) :
    (w.readClass desk tag ordinal file).2 =
      (Restyle.readClass (dialectFor place.path) source tag ordinal
        w.attributeName).result.mapError .text := by
  obtain ⟨resolved, read⟩ := fetch_eq_ok.mp h
  simp only [Workspace.readClass, resolved, readAt, read, ok_bind]

theorem updateClass_unfetched {e : Trouble} (h : w.fetch desk.disk file = .error e) :
    (w.updateClass desk tag value ordinal file).2 = .error e := by
  rcases fetch_eq_error.mp h with failed | ⟨place, resolved, failed⟩
  · simp only [Workspace.updateClass, failed]
  · simp only [Workspace.updateClass, resolved, updateAt_result, revise, failed, error_bind]
    rfl

theorem updateClass_fetched (h : w.fetch desk.disk file = .ok (place, source)) :
    (w.updateClass desk tag value ordinal file).2 =
      ((Restyle.updateClass (dialectFor place.path) source tag value ordinal
        w.attributeName).result.mapError Trouble.text).map fun updated =>
          ⟨w.relative place, updated ≠ source⟩ := by
  obtain ⟨resolved, read⟩ := fetch_eq_ok.mp h
  simp only [Workspace.updateClass, resolved, updateAt_result, revise, read, ok_bind]
  generalize (Restyle.updateClass (dialectFor place.path) source tag value ordinal
    w.attributeName).result = updated
  cases updated <;> rfl

end Fetch

end Workspace

end Restyle
