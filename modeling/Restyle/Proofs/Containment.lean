import Restyle.Proofs.FollowedLinks
import Restyle.Proofs.Workspaces

/-!
# Staying inside a project

A file that is named is looked for below the root of a project, links and steps up followed. Its
location lies below the root whatever its path is. If no link on the way leads back to itself, no
link is part of the location, and nothing outside the project is read or written.
-/

namespace Restyle

open Disk Text

variable {w : Workspace} {d d' : Disk} {place : Location} {file : Disk.Path}

/-- The root of a workspace is a directory, and no part of the way to it is a link. -/
structure Workspace.Rooted (w : Workspace) (d : Disk) : Prop where
  named : w.root.Named
  free : d.LinkFree w.root
  directory : d.entry? w.root = some .directory

/-- A file leads somewhere from the root if no link on the way leads back to itself. There need not
be anything. -/
def Workspace.FileLeads (w : Workspace) (d : Disk) (file : Disk.Path) : Prop :=
  ∃ n q, d.Leads n (beginning w.root file) (splitSlash file) q

/-- A location below another one. -/
def Disk.Location.Below (place root : Location) : Prop :=
  ∃ below, below ≠ [] ∧ place = root ++ below

theorem Workspace.Rooted.file_named (rooted : w.Rooted d)
    (resolved : w.resolve d (some file) = .ok place) : place.Named := by
  obtain ⟨found, inside, -⟩ := locateFile_eq_ok.mp resolved
  have location := Disk.resolve_eq_ok found
  have single : place.head? ≠ some [] := by
    intro doubled
    have top := (isBelow_iff.mp inside).2 doubled
    exact (rooted.named [] (List.mem_of_head? top)).moves rfl
  rw [location] at single ⊢
  exact realLocation_named rooted.named file single

theorem Workspace.Rooted.file_below (rooted : w.Rooted d)
    (resolved : w.resolve d (some file) = .ok place) : place.Below w.root ∧ place.Named := by
  obtain ⟨-, inside, isFile⟩ := locateFile_eq_ok.mp resolved
  obtain ⟨below, inside⟩ := (isBelow_iff.mp inside).1
  refine ⟨⟨below, ?_, inside.symm⟩, rooted.file_named resolved⟩
  rintro rfl
  rw [List.append_nil] at inside
  obtain ⟨q, bytes, leads, here⟩ := isFile_eq_true.mp isFile
  rw [← inside] at leads
  rw [find_linkFree rooted.named rooted.free leads, rooted.directory] at here
  cases here

theorem Workspace.Rooted.file_here (rooted : w.Rooted d) (leads : w.FileLeads d file)
    (resolved : w.resolve d (some file) = .ok place) :
    d.LinkFree place ∧
      ∃ bytes, d.find place.path = .ok place ∧ d.entry? place = some (.file bytes) := by
  have named := rooted.file_named resolved
  obtain ⟨n, q, leads⟩ := leads
  obtain ⟨found, -, isFile⟩ := locateFile_eq_ok.mp resolved
  have location := Disk.resolve_eq_ok found
  rw [realLocation_of_leads (rooted.named.beginning file) (rooted.free.beginning file) leads] at location
  subst location
  have free := leads.linkFree (rooted.free.beginning file)
  obtain ⟨q, bytes, found, here⟩ := isFile_eq_true.mp isFile
  cases find_linkFree named free found
  exact ⟨free, bytes, found, here⟩

/-- Another disk with the same bytes in the files below the root of a workspace. -/
structure Workspace.AlikeInside (w : Workspace) (d d' : Disk) : Prop where
  alike : Alike d d'
  inside : ∀ place : Location, place.Below w.root → d.entry? place = d'.entry? place

theorem Workspace.Rooted.readSource (rooted : w.Rooted d) (leads : w.FileLeads d file)
    (resolved : w.resolve d (some file) = .ok place) (alike : w.AlikeInside d d') :
    w.readSource d place = w.readSource d' place := by
  obtain ⟨-, bytes, found, here⟩ := rooted.file_here leads resolved
  have contents : d.contents place.path = .ok bytes := contents_eq_ok.mpr ⟨place, found, here⟩
  rw [alike.alike.find] at found
  rw [alike.inside place (rooted.file_below resolved).1] at here
  have contents' : d'.contents place.path = .ok bytes := contents_eq_ok.mpr ⟨place, found, here⟩
  rw [Workspace.readSource, Workspace.readSource, contents, contents']

theorem Workspace.Rooted.readClass (rooted : w.Rooted d) (leads : w.FileLeads d file)
    (alike : w.AlikeInside d d') (locks locks' : Locks) (tag : List Char) (ordinal : Option Int) :
    (w.readClass ⟨d, locks⟩ tag ordinal (some file)).2 =
      (w.readClass ⟨d', locks'⟩ tag ordinal (some file)).2 := by
  rw [Workspace.readClass, Workspace.readClass]
  dsimp only
  rw [← Workspace.resolve_congr alike.alike]
  cases resolved : w.resolve d (some file) with
  | error e => rfl
  | ok place =>
      dsimp only
      rw [readAt, readAt, rooted.readSource leads resolved alike]

theorem Workspace.Rooted.updateClass (rooted : w.Rooted d) (leads : w.FileLeads d file)
    (alike : w.AlikeInside d d') (locks locks' : Locks) (tag : List Char)
    (value : List CodePoint) (ordinal : Option Int) :
    (w.updateClass ⟨d, locks⟩ tag value ordinal (some file)).2 =
      (w.updateClass ⟨d', locks'⟩ tag value ordinal (some file)).2 := by
  rw [Workspace.updateClass, Workspace.updateClass]
  dsimp only
  rw [← Workspace.resolve_congr alike.alike]
  cases resolved : w.resolve d (some file) with
  | error e => rfl
  | ok place =>
      dsimp only
      rw [updateAt_result, updateAt_result, revise, revise, rooted.readSource leads resolved alike]

theorem Workspace.Rooted.updateClass_outside (rooted : w.Rooted d) (leads : w.FileLeads d file)
    (locks : Locks) (tag : List Char) (value : List CodePoint) (ordinal : Option Int)
    {p : Location} (outside : ¬ p.Below w.root) :
    Disk.entry? (w.updateClass ⟨d, locks⟩ tag value ordinal (some file)).1.disk p =
      d.entry? p := by
  rcases w.updateClass_cases ⟨d, locks⟩ tag value ordinal (some file) with ⟨locks, e, same⟩ |
    ⟨place, q, bytes, source, updated, resolved, found, -, -, -, same⟩
  · rw [same]
  · rw [same]
    obtain ⟨-, _, found', -⟩ := rooted.file_here leads resolved
    cases found.symm.trans found'
    dsimp only
    split
    · rfl
    · apply entry?_put_of_ne
      rintro rfl
      exact outside (rooted.file_below resolved).1

/-- Where a file that is named lies, and what of the disk an operation on it touches. That no link
leads back to itself is needed: such a link is kept as a name of the location, and a step up removes
it without the rest of the path having been resolved. -/
theorem resolve_inside (rooted : w.Rooted d) (file : Disk.Path) :
    (∀ place, w.resolve d (some file) = .ok place →
      place.Below w.root ∧ place.Named ∧ d.isFile place.path = .ok true) ∧
    (w.FileLeads d file →
      (∀ place, w.resolve d (some file) = .ok place →
        d.LinkFree place ∧ ∃ bytes, d.entry? place = some (.file bytes)) ∧
      (∀ d', w.AlikeInside d d' → ∀ locks locks' tag ordinal,
        (w.readClass ⟨d, locks⟩ tag ordinal (some file)).2 =
          (w.readClass ⟨d', locks'⟩ tag ordinal (some file)).2) ∧
      (∀ d', w.AlikeInside d d' → ∀ locks locks' tag value ordinal,
        (w.updateClass ⟨d, locks⟩ tag value ordinal (some file)).2 =
          (w.updateClass ⟨d', locks'⟩ tag value ordinal (some file)).2) ∧
      ∀ locks tag value ordinal (p : Location), ¬ p.Below w.root →
        Disk.entry? (w.updateClass ⟨d, locks⟩ tag value ordinal (some file)).1.disk p =
          d.entry? p) := by
  constructor
  · intro place resolved
    obtain ⟨below, named⟩ := rooted.file_below resolved
    exact ⟨below, named, (locateFile_eq_ok.mp resolved).2.2⟩
  · intro leads
    refine ⟨fun place resolved => ?_, fun d' alike => ?_, fun d' alike => ?_, ?_⟩
    · obtain ⟨free, bytes, -, here⟩ := rooted.file_here leads resolved
      exact ⟨free, bytes, here⟩
    · exact rooted.readClass leads alike
    · exact rooted.updateClass leads alike
    · exact fun locks tag value ordinal p => rooted.updateClass_outside leads locks tag value ordinal

theorem resolve_inside_link :
    let place : Location := [bytes "p", bytes "s", bytes "a.tsx"]
    let d : Disk := ⟨[([bytes "p"], .directory), ([bytes "p", bytes "s"], .directory),
      (place, .file []), ([bytes "p", bytes "l"], .link (bytes "s"))], []⟩
    let w : Workspace := ⟨[bytes "p"], defaultAttribute, place⟩
    w.Rooted d ∧ w.FileLeads d (bytes "l/a.tsx") ∧
      w.resolve d (some (bytes "l/a.tsx")) = .ok place ∧
      (place.Below w.root ∧ place.Named ∧ d.isFile place.path = .ok true) ∧
      d.LinkFree place ∧ ∃ bytes, d.entry? place = some (.file bytes) := by
  intro place d w
  have rooted : w.Rooted d := by
    refine ⟨?_, (LinkFree.nil d).push (by decide), by decide⟩
    exact List.forall_mem_singleton.mpr ⟨by decide, by decide, by decide⟩
  have resolved : w.resolve d (some (bytes "l/a.tsx")) = .ok place := by
    decide +kernel
  have leads : w.FileLeads d (bytes "l/a.tsx") := by
    have steps : splitSlash (bytes "l/a.tsx") = [bytes "l", bytes "a.tsx"] := by decide
    have target : splitSlash (bytes "s") = [bytes "s"] := by decide
    have goes : GoesDown (bytes "l") ∧ GoesDown (bytes "s") ∧ GoesDown (bytes "a.tsx") := by
      decide
    have link : d.link? ([bytes "p"] ++ [bytes "l"]) = some (bytes "s") := by decide
    have inside : d.Leads 0 [bytes "p"] [bytes "s"] [bytes "p", bytes "s"] :=
      .down goes.2.1 (by decide) (.done _)
    have onward : d.Leads 0 [bytes "p", bytes "s"] [bytes "a.tsx"] place :=
      .down goes.2.2 (by decide) (.done _)
    refine ⟨0 + 0 + 1, place, ?_⟩
    have start : beginning w.root (bytes "l/a.tsx") = [bytes "p"] := by decide
    have start' : beginning [bytes "p"] (bytes "s") = [bytes "p"] := by decide
    rw [start, steps]
    refine .link goes.1 link ?_ onward
    rw [start', target]
    exact inside
  have inside := resolve_inside rooted (bytes "l/a.tsx")
  exact ⟨rooted, leads, resolved, inside.1 place resolved, (inside.2 leads).1 place resolved⟩

/-- A step up from a link that leads back to itself leads to another link, which is not followed. -/
example :
    let d : Disk := ⟨[([bytes "p"], .directory), ([bytes "p", bytes "loop"], .link (bytes "loop")),
      ([bytes "p", bytes "link"], .link (bytes "../a.tsx")), ([bytes "a.tsx"], .file [])], []⟩
    let w : Workspace := ⟨[bytes "p"], defaultAttribute, [bytes "p", bytes "a.tsx"]⟩
    w.resolve d (some (bytes "loop/../link")) = .ok [bytes "p", bytes "link"] := by
  decide +kernel

end Restyle
