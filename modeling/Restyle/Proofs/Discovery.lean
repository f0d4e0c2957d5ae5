import Restyle.Cli.Command
import Restyle.Proofs.ProperDisks
import Restyle.Proofs.SystemStrings
import Restyle.Proofs.Troubles

/-!
# Finding and opening

The entry file of a project is the first candidate that is there. It is looked for below the path of the
project, and below the root when the project is opened: both lead to the same file. Only opening asks
whether this file lies in the project, so that one may be found that cannot be opened.
-/

namespace Restyle

open Disk Text

variable {d : Disk} {project project' base file : Disk.Path} {name : List Char} {root place : Location}
  {pattern : String} {patterns : List String} {found : Option String}

theorem joined_relative (relative : isAbsolute file = false) (base : Disk.Path) :
    joined base file = base ++ slash :: file := by
  rw [joined, relative]
  exact if_neg Bool.false_ne_true

namespace Disk

theorem holdsNul_append_slash (noNul : ¬ holdsNul base) (noNul' : ¬ holdsNul file) :
    ¬ holdsNul (base ++ slash :: file) := by
  simp only [holdsNul, List.contains_iff_mem, List.mem_append, List.mem_cons] at noNul noNul' ⊢
  rintro (nul | cut | nul)
  · exact noNul nul
  · cases cut
  · exact noNul' nul

/-- What is below a path is looked for from where the path leads, with the links that are left. -/
theorem find_joined (leads : d.find base = .ok place) (relative : isAbsolute file = false)
    (noNul : ¬ holdsNul file) (short : (joined base file).length < pathLimit) :
    ∃ left, left ≤ linkLimit ∧ d.find (joined base file) = d.walk left place (splitSlash file) := by
  obtain ⟨noNul', some, -, leads⟩ := find_eq_ok.mp leads
  obtain ⟨left, le, onward⟩ := walk_append leads
  refine ⟨left, le, ?_⟩
  rw [joined_relative relative] at short ⊢
  have start : beginning d.current (base ++ slash :: file) = beginning d.current base := by
    cases base with
    | nil => exact absurd rfl some
    | cons c base => rfl
  rw [find_eq_walk (holdsNul_append_slash noNul' noNul) (by simp) short, splitSlash_slash, start, onward]

theorem Proper.find_joined (proper : d.Proper) (directory : d.entry? root = some .directory)
    (relative : isAbsolute file = false) (noNul : ¬ holdsNul file)
    (short : (joined root.path file).length < pathLimit) :
    d.find (joined root.path file) = d.walk linkLimit root (splitSlash file) := by
  have fits := proper.fits directory
  rw [joined_relative relative] at short ⊢
  have start : beginning d.current (root.path ++ slash :: file) = [] := rfl
  rw [find_eq_walk (holdsNul_append_slash (path_noNul fits) noNul) (by simp) short, splitSlash_slash, start,
    splitSlash_path fun name mem => (fits name mem).toIsName, List.cons_append, walk_root]
  split
  · rename_i top
    rw [top, List.singleton_append, walk_root]
  · have down : d.walk linkLimit [] (root ++ splitSlash file) = d.walk linkLimit root (splitSlash file) :=
      proper.walk_down directory nofun
    exact down

theorem holdsNul_part {path : Path} {part : Name} (h : part ∈ parts path) (holds : holdsNul part) :
    holdsNul path := by
  have whole := joinSlash_sublist (List.cons_ne_nil part [])
    (List.singleton_sublist.mpr (List.mem_filter.mp h).1)
  rw [joinSlash_splitSlash] at whole
  simp only [holdsNul, List.contains_iff_mem] at holds ⊢
  exact whole.mem holds

/-- The steps of a path that are looked at lead to where it begins, or are parts of it. -/
theorem stepsTaken_noNul {path : Path} (start : ∀ name ∈ beginning root path, ¬ holdsNul name)
    (noNul : ¬ holdsNul path) : ¬ (d.stepsTaken root path).any holdsNul := by
  intro nul
  obtain ⟨step, taken, holds⟩ := List.any_eq_true.mp nul
  have along := List.mem_of_mem_take taken
  rw [stepsOf_eq, List.mem_append] at along
  rcases along with before | part
  · exact start step before holds
  · exact noNul (holdsNul_part part holds)

theorem resolve_of_find {path : Path} (whole : ¬ (d.stepsTaken root path).any holdsNul)
    (stands : d.realLocation root path = place) (found : d.find place.path = .ok place) :
    d.resolve root path = .ok place := by
  rw [resolve_eq, if_neg whole, stands, found, if_neg nofun, if_neg nofun]

theorem isFile_congr {path path' : Path} (same : d.find path = d.find path') :
    d.isFile path = d.isFile path' := by
  rw [isFile, isFile, test, test, status, status, same]

theorem short_of_isFile {path : Path} {answer : Bool} (noNul : ¬ holdsNul path) (some : path ≠ [])
    (known : d.isFile path = .ok answer) : path.length < pathLimit := by
  refine Nat.lt_of_not_le fun long => ?_
  have fault : d.find path = .error .nameTooLong := by
    rw [find, if_neg noNul, if_neg (mt List.isEmpty_iff.mp some), if_pos long]
  rw [isFile_eq_error.mpr ⟨rfl, fault⟩] at known
  cases known

end Disk

namespace Disk

variable (proper : d.Proper)
include proper

theorem Proper.resolve_project (leads : d.find project = .ok root)
    (found : d.find root.path = .ok root) : d.resolve d.current project = .ok root := by
  obtain ⟨noNul, -, -, walked⟩ := find_eq_ok.mp leads
  have directory : d.entry? (beginning d.current project) = some .directory := by
    cases steps : splitSlash project with
    | nil => exact absurd steps (splitSlash_ne_nil project)
    | cons part rest => exact walk_directory (steps ▸ walked)
  have fits := proper.fits directory
  have named : (beginning d.current project).Named := fun name mem => (fits name mem).toIsName
  obtain ⟨n, leads⟩ := walk_leads walked
  refine resolve_of_find (stepsTaken_noNul (fun name mem nul => ?_) noNul)
    (realLocation_of_leads named (proper.linkFree directory nofun) leads) found
  simp only [holdsNul, List.contains_iff_mem] at nul
  exact (fits name mem).noNul nul

end Disk

theorem entryPatterns_plain :
    ∀ pattern ∈ entryPatterns, isAbsolute (Text.bytes pattern) = false ∧ ¬ holdsNul (Text.bytes pattern) := by
  decide

theorem firstFile_some (h : firstFile d project patterns = .ok (some pattern)) :
    pattern ∈ patterns ∧ d.isFile (joined (tidied project) (Text.bytes pattern)) = .ok true := by
  induction patterns with
  | nil => cases h
  | cons first patterns ih =>
      obtain ⟨answer, known, h⟩ := bind_eq_ok.mp h
      cases answer with
      | true =>
          cases h
          exact ⟨List.mem_cons_self, known⟩
      | false => exact (ih h).imp_left (List.mem_cons_of_mem first)

theorem firstFile_error {fault : Fault} (h : firstFile d project patterns = .error fault) :
    fault = .nameTooLong := by
  induction patterns with
  | nil => cases h
  | cons first patterns ih =>
      rcases bind_eq_error.mp h with unknown | ⟨answer, -, h⟩
      · exact (isFile_eq_error.mp unknown).1
      · cases answer with
        | true => cases h
        | false => exact ih h

/-- What is found below one path is found below another one at which the same candidates are there. -/
theorem firstFile_of_known (h : firstFile d project patterns = .ok found)
    (same : ∀ pattern ∈ patterns, ∀ answer,
      d.isFile (joined (tidied project) (Text.bytes pattern)) = .ok answer →
      d.isFile (joined (tidied project') (Text.bytes pattern)) = .ok answer) :
    firstFile d project' patterns = .ok found := by
  induction patterns with
  | nil => exact h
  | cons first patterns ih =>
      obtain ⟨answer, known, h⟩ := bind_eq_ok.mp h
      have onward := fun h => ih h fun pattern mem => same pattern (List.mem_cons_of_mem first mem)
      rw [firstFile, same first List.mem_cons_self answer known]
      cases answer with
      | true => exact h
      | false => exact onward h

/-- The limits of the disk make no difference: paths below the root are short enough, too many links are on
the way to a candidate only if they are below the root, and where a candidate lies is not too far down. -/
structure Roomy (d : Disk) (project : Disk.Path) (root : Location) : Prop where
  below : ∀ pattern ∈ entryPatterns, (joined root.path (Text.bytes pattern)).length < pathLimit
  links : ∀ pattern ∈ entryPatterns,
    d.find (joined (tidied project) (Text.bytes pattern)) = .error .tooManyLinks →
      d.find (joined root.path (Text.bytes pattern)) = .error .tooManyLinks
  place : ∀ pattern ∈ entryPatterns, ∀ place,
    d.find (joined (tidied project) (Text.bytes pattern)) = .ok place → place.path.length < pathLimit

section Project

variable (proper : d.Proper) (leads : d.find project = .ok root)
  (directory : d.entry? root = some .directory) (roomy : Roomy d project root)
include proper leads directory roomy

/-- A candidate is the same one below the path of the project as below its root. -/
theorem find_candidate (candidate : pattern ∈ entryPatterns)
    (short : (joined (tidied project) (Text.bytes pattern)).length < pathLimit) :
    d.find (joined (tidied project) (Text.bytes pattern)) =
      d.find (joined root.path (Text.bytes pattern)) := by
  obtain ⟨relative, noNul⟩ := entryPatterns_plain pattern candidate
  obtain ⟨left, le, onward⟩ := find_joined (find_tidied leads) relative noNul short
  by_cases ends : d.find (joined (tidied project) (Text.bytes pattern)) = .error .tooManyLinks
  · rw [ends, roomy.links pattern candidate ends]
  · rw [onward] at ends ⊢
    rw [proper.find_joined directory relative noNul (roomy.below pattern candidate), walk_more le ends]

theorem find_candidate_of_isFile {answer : Bool} (candidate : pattern ∈ entryPatterns)
    (known : d.isFile (joined (tidied project) (Text.bytes pattern)) = .ok answer) :
    d.find (joined (tidied project) (Text.bytes pattern)) =
      d.find (joined root.path (Text.bytes pattern)) := by
  obtain ⟨relative, noNul⟩ := entryPatterns_plain pattern candidate
  apply find_candidate proper leads directory roomy candidate
  refine short_of_isFile ?_ ?_ known
  · rw [joined_relative relative]
    exact holdsNul_append_slash (find_eq_ok.mp (find_tidied leads)).1 noNul
  · rw [joined_relative relative]
    simp

theorem discover_root (h : discoverEntryFile d project = .ok found) :
    discoverEntryFile d root.path = .ok found := by
  refine firstFile_of_known h fun pattern candidate answer known => ?_
  have named : root.Named := fun name mem => (proper.fits directory name mem).toIsName
  rw [tidied_path named, ← known]
  exact (isFile_congr (find_candidate_of_isFile proper leads directory roomy candidate known)).symm

theorem openProject_discovered (h : discoverEntryFile d project = .ok found) :
    Workspace.openProject d project none name =
      found.elim (.error (.workspace .noEntryFile)) fun pattern =>
        (locateFile d root (Text.bytes pattern)).map fun place => ⟨root, name, place⟩ := by
  have short : root.path.length < pathLimit := by
    refine Nat.lt_of_le_of_lt ?_ (roomy.below "src/App.tsx" (by decide))
    rw [joined_relative (by decide)]
    exact (List.sublist_append_left root.path _).length_le
  have here := proper.find_path directory nofun short
  have resolved := proper.resolve_project leads here
  have isDirectory : d.isDirectory root.path = .ok true :=
    isDirectory_eq_true.mpr ⟨root, here, directory⟩
  rw [Workspace.openProject, resolved]
  simp only [ofDisk_ok, ok_bind, isDirectory, discover_root proper leads directory roomy h]
  cases found with
  | some pattern =>
      change (locateFile d root (Text.bytes pattern) >>= fun place => pure (Workspace.mk root name place)) = _
      rw [Option.elim_some]
      cases locateFile d root (Text.bytes pattern) <;> rfl
  | none => rfl

theorem locate_candidate {content : List UInt8} (candidate : pattern ∈ entryPatterns)
    (there : d.find (joined (tidied project) (Text.bytes pattern)) = .ok place)
    (here : d.entry? place = some (.file content)) :
    locateFile d root (Text.bytes pattern) =
      if root <+: place then .ok place
      else .error (.workspace (.escapes (Text.bytes pattern))) := by
  obtain ⟨relative, noNul⟩ := entryPatterns_plain pattern candidate
  have notLink (target : Disk.Path) : Entry.file content ≠ .link target := by
    intro same
    cases same
  have linkFree : d.LinkFree root := by
    apply proper.linkFree directory
    intro target same
    cases same
  have path := proper.find_path here notLink (roomy.place pattern candidate place there)
  have isFile : d.isFile place.path = .ok true := isFile_eq_true.mpr ⟨place, content, path, here⟩
  have fits := proper.fits directory
  have named : root.Named := fun name mem => (fits name mem).toIsName
  have resolved : d.resolve root (Text.bytes pattern) = .ok place := by
    rw [find_candidate_of_isFile proper leads directory roomy candidate
        (isFile_eq_true.mpr ⟨place, content, there, here⟩),
      proper.find_joined directory relative noNul (roomy.below pattern candidate)] at there
    obtain ⟨n, leads⟩ := walk_leads there
    have start : beginning root (Text.bytes pattern) = root := by
      rw [beginning, relative]
      exact if_neg Bool.false_ne_true
    rw [← start] at leads
    refine resolve_of_find (stepsTaken_noNul (fun name mem nul => ?_) noNul)
      (realLocation_of_leads (named.beginning _) ?_ leads) path
    · rw [start] at mem
      simp only [holdsNul, List.contains_iff_mem] at nul
      exact (fits name mem).noNul nul
    · exact linkFree.beginning _
  have below : isBelow root place ↔ root <+: place := by
    refine isBelow_iff.trans (and_iff_left fun doubled => ?_)
    exact absurd rfl (proper.fits here [] (List.mem_of_head? doubled)).moves
  rw [locateFile, resolved]
  by_cases inside : root <+: place
  · rw [if_pos inside]
    simp only [ofDisk_ok, ok_bind, below.mpr inside, isFile]
    rfl
  · rw [if_neg inside]
    have outside : isBelow root place = false := Bool.eq_false_iff.mpr (mt below.mp inside)
    simp only [ofDisk_ok, ok_bind, outside]
    rfl

end Project

theorem Cli.Outcome.ofLines_crash (lines : List (List CodePoint)) :
    (Cli.Outcome.ofLines lines).crash.isSome = false ↔ ∀ line ∈ lines, (toChars? line).isSome := by
  rw [Cli.Outcome.ofLines]
  cases text : (lines.map toChars?).all Option.isSome with
  | true =>
      refine iff_of_true rfl fun line mem => ?_
      exact List.all_eq_true.mp text _ (List.mem_map_of_mem mem)
  | false =>
      refine iff_of_false nofun fun all => ?_
      rw [List.all_eq_true.mpr (List.forall_mem_map.mpr all)] at text
      cases text

/-- What names a server when it starts is UTF-8: its host, its project and the file that is meant by
default. -/
def Cli.Announced (s : Cli.Sorted) (root place : Location) : Prop :=
  IsText (Cli.host s) ∧ IsText root.path ∧ IsText (relativePath root place)

theorem Cli.announcement_text (w : Workspace) (s : Cli.Sorted) :
    (∀ line ∈ Cli.announcement w s, (toChars? line).isSome) ↔
      Cli.Announced s w.root w.defaultFile := by
  have front (text : List Char) (bytes : List UInt8) :
      (toChars? (systemString (encode text ++ bytes))).isSome ↔ IsText bytes :=
    isText_iff_isSome.trans (isText_append text)
  have host (text port : List Char) (host : List UInt8) :
      (toChars? (systemString (encode text ++ host ++ encode (':' :: port)))).isSome ↔ IsText host := by
    rw [List.append_assoc, front, isText_append_colon]
  simp only [Cli.announcement, List.map_cons, List.map_nil, List.forall_mem_cons, List.not_mem_nil,
    false_implies, implies_true, and_true, Text.bytes, front, host]
  rfl

/-- What is served is what opening the project comes to, once the lines that say so are printed. -/
theorem serving_default {d : Disk} {s : Cli.Sorted} {project : Disk.Path} {place : Location} :
    (Cli.serve d s project).serving.map (fun serving => serving.workspace.defaultFile) = some place ↔
      ∃ w, Workspace.openProject d project (s.value? "--file") defaultAttribute = .ok w ∧
        w.defaultFile = place ∧ Cli.Announced s w.root w.defaultFile := by
  simp only [← Cli.announcement_text, Cli.serve]
  cases Workspace.openProject d project (s.value? "--file") defaultAttribute with
  | error e => cases e <;> simp [Cli.Outcome.failure, Cli.Outcome.crashed]
  | ok w =>
      simp only [Except.ok.injEq, exists_eq_left', ← Cli.Outcome.ofLines_crash]
      cases crash : (Cli.Outcome.ofLines (Cli.announcement w s)).crash.isSome with
      | false => simp
      | true =>
          have unserved : (Cli.Outcome.ofLines (Cli.announcement w s)).serving = none := by
            rw [Cli.Outcome.ofLines]
            split <;> rfl
          simp [unserved]

/-- An entry file that is found is the one that is opened if it lies in the project, and it is served
if what names the server is UTF-8; if it does not, nothing is opened. If none is found, none is opened
either. -/
theorem discovered_opens (proper : d.Proper) (leads : d.find project = .ok root)
    (directory : d.entry? root = some .directory) (roomy : Roomy d project root) (name : List Char) :
    (∀ pattern, discoverEntryFile d project = .ok (some pattern) →
      ∃ place content, d.find (joined (tidied project) (Text.bytes pattern)) = .ok place ∧
        d.entry? place = some (.file content) ∧
        Workspace.openProject d project none name =
          (if root <+: place then .ok ⟨root, name, place⟩
          else .error (.workspace (.escapes (Text.bytes pattern)))) ∧
        ∀ s : Cli.Sorted, s.value? "--file" = none → ∀ file,
          (Cli.serve d s project).serving.map (fun serving => serving.workspace.defaultFile) =
            some file ↔
          file = place ∧ root <+: place ∧ Cli.Announced s root place) ∧
    (discoverEntryFile d project = .ok none →
      Workspace.openProject d project none name = .error (.workspace .noEntryFile)) ∧
    ∀ fault, discoverEntryFile d project = .error fault → fault = .nameTooLong := by
  refine ⟨fun pattern h => ?_, openProject_discovered proper leads directory roomy,
    fun fault => firstFile_error⟩
  obtain ⟨candidate, isFile⟩ := firstFile_some h
  obtain ⟨place, content, there, here⟩ := isFile_eq_true.mp isFile
  have located := locate_candidate proper leads directory roomy candidate there here
  have opened (name : List Char) : Workspace.openProject d project none name =
      (if root <+: place then .ok ⟨root, name, place⟩
      else .error (.workspace (.escapes (Text.bytes pattern)))) := by
    rw [openProject_discovered proper leads directory roomy h, Option.elim_some, located]
    split <;> rfl
  refine ⟨place, content, there, here, opened name, fun s noFile file => ?_⟩
  rw [serving_default, noFile, opened]
  by_cases inside : root <+: place
  · rw [if_pos inside]
    constructor
    · rintro ⟨w, same, rfl, text⟩
      cases same
      exact ⟨rfl, inside, text⟩
    · rintro ⟨rfl, -, text⟩
      exact ⟨_, rfl, rfl, text⟩
  · rw [if_neg inside]
    exact iff_of_false (fun ⟨w, failed, _⟩ => by cases failed) fun h => inside h.2.1

theorem discovered_opens_outside :
    let d : Disk := ⟨[([bytes "p"], .directory), ([bytes "p", bytes "src"], .directory),
      ([bytes "p", bytes "src", bytes "App.tsx"], .link (bytes "../../a.tsx")),
      ([bytes "a.tsx"], .file [])], []⟩
    discoverEntryFile d (bytes "p") = .ok (some "src/App.tsx") ∧
      Workspace.openProject d (bytes "p") none defaultAttribute =
        .error (.workspace (.escapes (bytes "src/App.tsx"))) ∧
      (Cli.serve d ⟨[], []⟩ (bytes "p")).serving.map (fun serving => serving.workspace.defaultFile) =
        none := by
  intro d
  have proper : d.Proper := by decide
  have leads : d.find (bytes "p") = .ok [bytes "p"] := by decide +kernel
  have roomy : Roomy d (bytes "p") [bytes "p"] := by
    have near : ∀ pattern ∈ entryPatterns,
        (d.find (joined (tidied (bytes "p")) (bytes pattern))).toOption.all fun place =>
          place.path.length < pathLimit := by
      decide +kernel
    refine ⟨by decide +kernel, by decide +kernel, fun pattern candidate place found => ?_⟩
    have near := near pattern candidate
    rw [found] at near
    exact of_decide_eq_true near
  have discovered : discoverEntryFile d (bytes "p") = .ok (some "src/App.tsx") := by decide +kernel
  obtain ⟨place, content, there, -, opened, served⟩ :=
    (discovered_opens proper leads (by decide) roomy defaultAttribute).1 _ discovered
  have outside : d.find (joined (tidied (bytes "p")) (bytes "src/App.tsx")) = .ok [bytes "a.tsx"] := by
    decide +kernel
  cases outside.symm.trans there
  refine ⟨discovered, opened, Option.eq_none_iff_forall_ne_some.mpr fun file serving => ?_⟩
  have inside := ((served ⟨[], []⟩ rfl file).mp serving).2.1
  exact absurd inside (by decide)

end Restyle
