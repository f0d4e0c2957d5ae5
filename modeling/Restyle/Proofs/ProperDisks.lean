import Restyle.Proofs.FollowedLinks
import Restyle.Proofs.TidiedPaths

/-!
# Proper disks

On a proper disk everything stands in a directory, under a name that a path can hold. So whatever is there
is found by the path of its location, as long as this is not too long.
-/

namespace Restyle.Disk

variable {d : Disk} {place root : Location} {name : Name} {names rest : List Name} {e : Entry}
  {path : Path}

/-- A name that a path can hold. -/
structure Fits (name : Name) : Prop extends IsName name where
  noNul : 0 ∉ name
  short : name.length ≤ nameLimit

instance (name : Name) : Decidable (Fits name) :=
  decidable_of_iff (¬ staysPut name ∧ name ≠ above ∧ slash ∉ name ∧ 0 ∉ name ∧
      name.length ≤ nameLimit)
    ⟨fun ⟨moves, goesDown, whole, noNul, short⟩ => ⟨⟨moves, goesDown, whole⟩, noNul, short⟩,
      fun ⟨⟨moves, goesDown, whole⟩, noNul, short⟩ => ⟨moves, goesDown, whole, noNul, short⟩⟩

/-- Every entry stands in a directory, and all names on the way to it fit. -/
def Proper (d : Disk) : Prop :=
  ∀ f ∈ d.entries, (∀ name ∈ f.1, Fits name) ∧ d.entry? f.1.dropLast = some .directory

instance (d : Disk) : Decidable d.Proper :=
  inferInstanceAs (Decidable (∀ f ∈ d.entries, _))

theorem mem_joinSlash {c : UInt8} (h : c ∈ joinSlash names) : c = slash ∨ ∃ name ∈ names, c ∈ name := by
  induction names with
  | nil => cases h
  | cons name names ih =>
      by_cases last : names = []
      · subst last
        exact .inr ⟨name, List.mem_cons_self, h⟩
      · rw [joinSlash_cons last, List.mem_append, List.mem_cons] at h
        rcases h with h | cut | h
        · exact .inr ⟨name, List.mem_cons_self, h⟩
        · exact .inl cut
        · refine (ih h).imp_right ?_
          rintro ⟨other, mem, h⟩
          exact ⟨other, List.mem_cons_of_mem _ mem, h⟩

theorem path_noNul (fits : ∀ name ∈ place, Fits name) : ¬ holdsNul place.path := by
  simp only [holdsNul, List.contains_iff_mem, Location.path, List.mem_cons]
  rintro (cut | h)
  · cases cut
  rcases mem_joinSlash h with cut | ⟨name, mem, h⟩
  · cases cut
  · exact (fits name mem).noNul h

theorem tidied_path (named : place.Named) : tidied place.path = place.path := by
  have all : parts (joinSlash place) = place := by
    by_cases root : place = []
    · rw [root]
      rfl
    · rw [parts, splitSlash_joinSlash root fun name mem => (named name mem).whole,
        List.filter_eq_self.mpr fun name mem => by simp [(named name mem).moves]]
  rw [Location.path, tidied_absolute, all]

section Proper

variable (proper : d.Proper)
include proper

theorem Proper.fits (here : d.entry? place = some e) : ∀ name ∈ place, Fits name := by
  unfold entry? at here
  split at here
  · rename_i top
    rw [top]
    exact fun _ => nofun
  · obtain ⟨before, after, entries, -⟩ := List.lookup_eq_some_iff.mp here
    exact (proper (place, e) (by rw [entries]; simp)).1

theorem Proper.directory (here : d.entry? (place ++ [name]) = some e) :
    d.entry? place = some .directory := by
  unfold entry? at here
  rw [if_neg (by simp)] at here
  obtain ⟨before, after, entries, -⟩ := List.lookup_eq_some_iff.mp here
  have above := (proper (place ++ [name], e) (by rw [entries]; simp)).2
  rwa [List.dropLast_concat] at above

theorem Proper.on_the_way (more : names ≠ []) (here : d.entry? (place ++ names) = some e) :
    d.entry? place = some .directory := by
  induction names generalizing place with
  | nil => exact absurd rfl more
  | cons name names ih =>
      by_cases last : names = []
      · subst last
        exact proper.directory here
      · rw [List.append_cons] at here
        exact proper.directory (ih last here)

theorem Proper.linkFree (here : d.entry? place = some e) (noLink : ∀ target, e ≠ .link target) :
    d.LinkFree place := by
  rintro part ⟨names, rfl⟩
  by_cases last : names = []
  · rw [last, List.append_nil] at here
    rw [link?, here]
    cases e with
    | link target => exact absurd rfl (noLink target)
    | file bytes => rfl
    | directory => rfl
  · rw [link?, proper.on_the_way last here]

theorem Proper.move_down (here : d.entry? (place ++ name :: names) = some e)
    (noLink : ∀ target, e ≠ .link target) : d.move place name = .ok (.step (place ++ [name])) := by
  have fits := proper.fits here name (by simp)
  rw [move, proper.on_the_way (List.cons_ne_nil _ _) here]
  dsimp only
  rw [if_neg fits.moves, if_neg fits.goesDown, if_neg (Nat.not_lt.mpr fits.short)]
  rw [List.append_cons] at here
  by_cases last : names = []
  · subst last
    rw [List.append_nil] at here
    rw [here]
    cases e with
    | link target => exact absurd rfl (noLink target)
    | file bytes => rfl
    | directory => rfl
  · rw [proper.on_the_way last here]

private theorem Proper.follow_down {jump : Location → List Name → Except Fault Location}
    (here : d.entry? (place ++ names) = some e) (noLink : ∀ target, e ≠ .link target) :
    follow jump d place (names ++ rest) = follow jump d (place ++ names) rest := by
  induction names generalizing place with
  | nil => rw [List.append_nil, List.nil_append]
  | cons name names ih =>
      have onward := proper.move_down here noLink
      rw [List.append_cons] at here ⊢
      rw [List.cons_append, follow_cons, onward]
      exact ih here

theorem Proper.walk_down {links : Nat} (here : d.entry? (place ++ names) = some e)
    (noLink : ∀ target, e ≠ .link target) :
    d.walk links place (names ++ rest) = d.walk links (place ++ names) rest := by
  cases links with
  | zero => exact proper.follow_down here noLink
  | succ links => exact proper.follow_down here noLink

theorem Proper.find_path (here : d.entry? place = some e) (noLink : ∀ target, e ≠ .link target)
    (short : place.path.length < pathLimit) : d.find place.path = .ok place := by
  have fits := proper.fits here
  rw [Disk.find_path d fun name mem => (fits name mem).toIsName, if_neg (path_noNul fits),
    if_neg (Nat.not_le_of_lt short)]
  split
  · rename_i top
    rw [walk_nowhere, top]
  · have down : d.walk linkLimit [] (place ++ []) = d.walk linkLimit place [] :=
      proper.walk_down here noLink
    rw [List.append_nil] at down
    rw [down]
    rfl

end Proper

end Restyle.Disk
