import Restyle.Disk.Resolve

/-!
# Disks and paths

What an entry that is put on a disk changes, and where the path of a location leads. A path that
passes no link leads to the location that it names, if it leads anywhere.
-/

namespace Restyle.Disk

/-- A name that a directory can hold. -/
structure IsName (name : Name) : Prop where
  moves : ¬ staysPut name
  goesDown : name ≠ above
  whole : slash ∉ name

/-- A location all of whose names are names. -/
def Location.Named (place : Location) : Prop :=
  ∀ name ∈ place, IsName name

theorem splitSlash_ne_nil (path : Path) : splitSlash path ≠ [] := by
  cases path with
  | nil => exact List.cons_ne_nil _ _
  | cons c path =>
      rw [splitSlash]
      split
      · exact List.cons_ne_nil _ _
      · split <;> exact List.cons_ne_nil _ _

theorem splitSlash_whole {path : Path} {part : Name} (h : part ∈ splitSlash path) :
    slash ∉ part := by
  induction path generalizing part with
  | nil =>
      rw [splitSlash, List.mem_singleton] at h
      rw [h]
      exact List.not_mem_nil
  | cons c path ih =>
      rw [splitSlash] at h
      by_cases cut : c = slash
      · rw [if_pos cut] at h
        rcases List.mem_cons.mp h with rfl | h
        · exact List.not_mem_nil
        · exact ih h
      · rw [if_neg cut] at h
        cases split : splitSlash path with
        | nil => exact absurd split (splitSlash_ne_nil path)
        | cons first more =>
            rw [split] at h ih
            rcases List.mem_cons.mp h with rfl | h
            · intro mem
              rcases List.mem_cons.mp mem with same | mem
              · exact cut same.symm
              · exact ih List.mem_cons_self mem
            · exact ih (List.mem_cons_of_mem _ h)

theorem splitSlash_append {name : Name} (whole : slash ∉ name) (path : Path) :
    splitSlash (name ++ slash :: path) = name :: splitSlash path := by
  induction name with
  | nil => rw [List.nil_append, splitSlash, if_pos rfl]
  | cons c name ih =>
      obtain ⟨different, whole⟩ := not_or.mp (mt List.mem_cons.mpr whole)
      rw [List.cons_append, splitSlash, if_neg (Ne.symm different), ih whole]

theorem splitSlash_name {name : Name} (whole : slash ∉ name) : splitSlash name = [name] := by
  induction name with
  | nil => rfl
  | cons c name ih =>
      obtain ⟨different, whole⟩ := not_or.mp (mt List.mem_cons.mpr whole)
      rw [splitSlash, if_neg (Ne.symm different), ih whole]

theorem splitSlash_joinSlash {names : List Name} (some : names ≠ [])
    (whole : ∀ name ∈ names, slash ∉ name) : splitSlash (joinSlash names) = names := by
  induction names with
  | nil => exact absurd rfl some
  | cons name names ih =>
      obtain ⟨first, rest⟩ := List.forall_mem_cons.mp whole
      cases names with
      | nil => exact splitSlash_name first
      | cons next names =>
          rw [joinSlash, splitSlash_append first, ih (List.cons_ne_nil _ _) rest]
          exact List.cons_ne_nil _ _

variable {d d' : Disk} {place q : Location}

section Put

theorem entry?_nil (d : Disk) : d.entry? [] = some .directory :=
  if_pos rfl

theorem ne_nil_of_entry {e : Entry} (here : d.entry? place = some e) (other : e ≠ .directory) :
    place ≠ [] := by
  rintro rfl
  rw [entry?_nil] at here
  exact other (Option.some.inj here).symm

theorem entry?_put_self (d : Disk) (e : Entry) (h : place ≠ []) :
    entry? (d.put place e) place = some e := by
  unfold entry?
  rw [if_neg h, put, List.lookup_cons_self]

private theorem lookup_filter {entries : List (Location × Entry)} (h : q ≠ place) :
    (entries.filter fun f => f.1 != place).lookup q = entries.lookup q := by
  induction entries with
  | nil => rfl
  | cons f entries ih =>
      obtain ⟨key, e⟩ := f
      by_cases kept : key = place
      · subst kept
        rw [List.filter_cons_of_neg (by simp), List.lookup_cons, beq_false_of_ne h, ih]
      · rw [List.filter_cons_of_pos (by simpa using kept), List.lookup_cons, List.lookup_cons, ih]

theorem entry?_put_of_ne (d : Disk) (e : Entry) (h : q ≠ place) :
    entry? (d.put place e) q = d.entry? q := by
  unfold entry?
  split
  · rfl
  · rw [put, List.lookup_cons, beq_false_of_ne h]
    exact lookup_filter h

end Put

/-- No part of the way to a place is a link. -/
def LinkFree (d : Disk) (place : Location) : Prop :=
  ∀ part, part <+: place → d.link? part = none

theorem LinkFree.nil (d : Disk) : d.LinkFree [] := by
  intro part h
  rw [List.prefix_nil.mp h, link?, entry?_nil]

theorem LinkFree.of_prefix (h : d.LinkFree place) (front : q <+: place) : d.LinkFree q :=
  fun part h' => h part (h'.trans front)

theorem LinkFree.push {name : Name} (h : d.LinkFree place) (last : d.link? (place ++ [name]) = none) :
    d.LinkFree (place ++ [name]) := by
  intro part front
  rcases List.prefix_concat_iff.mp front with rfl | front
  · exact last
  · exact h part front

theorem link?_eq_some {target : Path} :
    d.link? place = some target ↔ d.entry? place = some (.link target) := by
  rw [link?]
  split
  · rename_i other h
    rw [h, Option.some.injEq, Option.some.injEq, Entry.link.injEq]
  · rename_i h
    constructor
    · exact nofun
    · exact fun same => absurd same (h target)

theorem link?_congr (same : d.entry? place = d'.entry? place ∨
    ∃ bytes bytes', d.entry? place = some (.file bytes) ∧ d'.entry? place = some (.file bytes')) :
    d.link? place = d'.link? place := by
  rw [link?, link?]
  rcases same with same | ⟨bytes, bytes', here, there⟩
  · rw [same]
  · rw [here, there]

private theorem follow_linkFree {jump : Location → List Name → Except Fault Location}
    {front names : List Name} (named : Location.Named names)
    (free : d.LinkFree (front ++ names)) (found : follow jump d front names = .ok q) :
    q = front ++ names := by
  induction names generalizing front with
  | nil =>
      cases found
      exact (List.append_nil q).symm
  | cons name names ih =>
      obtain ⟨first, named⟩ := List.forall_mem_cons.mp named
      have onward : front ++ name :: names = front ++ [name] ++ names := List.append_cons ..
      rw [onward] at free ⊢
      have noLink : d.link? (front ++ [name]) = none := free _ (List.prefix_append _ names)
      rw [follow] at found
      split at found
      · cases found
      · cases found
      · cases found
      · rw [if_neg first.moves, if_neg first.goesDown] at found
        by_cases long : nameLimit < name.length
        · rw [if_pos long] at found
          cases found
        · rw [if_neg long] at found
          dsimp only at found
          split at found
          · cases found
          · rename_i h
            rw [link?_eq_some.mpr h] at noLink
            cases noLink
          · exact ih named free found

private theorem walk_linkFree {links : Nat} (named : place.Named)
    (free : d.LinkFree place) (found : d.walk links [] place = .ok q) : q = place := by
  cases links with
  | zero => exact follow_linkFree named free found
  | succ links => exact follow_linkFree named free found

theorem walk_root (d : Disk) (links : Nat) (names : List Name) :
    d.walk links [] ([] :: names) = d.walk links [] names := by
  cases links with
  | zero => rfl
  | succ links => rfl

theorem splitSlash_path (named : place.Named) :
    splitSlash place.path = [] :: if place = [] then [[]] else place := by
  rw [Location.path, splitSlash, if_pos rfl]
  by_cases root : place = []
  · rw [root, if_pos rfl]
    rfl
  · rw [if_neg root, splitSlash_joinSlash root fun name mem => (named name mem).whole]

theorem find_path (d : Disk) (named : place.Named) :
    d.find place.path =
      if holdsNul place.path then .error .nulInPath
      else if pathLimit ≤ place.path.length then .error .nameTooLong
      else d.walk linkLimit [] (if place = [] then [[]] else place) := by
  have absolute : isAbsolute place.path = true := rfl
  rw [find, if_neg (by simp [Location.path] : ¬ place.path.isEmpty = true), if_pos absolute,
    splitSlash_path named, walk_root]

theorem walk_nowhere (d : Disk) (links : Nat) : d.walk links [] [[]] = .ok [] := by
  cases links with
  | zero => rfl
  | succ links => rfl

/-- The path of a location leads to it, if no link is on the way and it leads anywhere. -/
theorem find_linkFree (named : place.Named) (free : d.LinkFree place)
    (found : d.find place.path = .ok q) : q = place := by
  rw [find_path d named] at found
  split at found
  · cases found
  · split at found
    · cases found
    · split at found
      · rename_i root
        rw [walk_nowhere] at found
        cases found
        exact root.symm
      · exact walk_linkFree named free found

/-- The entries on the way to a place are the same ones on two disks, but for the bytes of files. -/
def SameWay (d d' : Disk) (place : Location) : Prop :=
  ∀ part, part <+: place → d.entry? part = d'.entry? part ∨
    ∃ bytes bytes', d.entry? part = some (.file bytes) ∧ d'.entry? part = some (.file bytes')

theorem SameWay.linkFree (same : d.SameWay d' place) (free : d.LinkFree place) :
    d'.LinkFree place :=
  fun part h => link?_congr (same part h) ▸ free part h

private theorem follow_sameWay {jump jump' : Location → List Name → Except Fault Location}
    {front names : List Name} (named : Location.Named names)
    (free : d.LinkFree (front ++ names)) (same : d.SameWay d' (front ++ names))
    (found : follow jump d front names = .ok q) : follow jump' d' front names = .ok q := by
  induction names generalizing front with
  | nil => exact found
  | cons name names ih =>
      obtain ⟨first, named⟩ := List.forall_mem_cons.mp named
      rw [List.append_cons] at free same
      have noLink : d.link? (front ++ [name]) = none := free _ (List.prefix_append _ names)
      have directory := same front ((List.prefix_append front _).trans (List.prefix_append _ names))
      have next := same (front ++ [name]) (List.prefix_append _ names)
      rw [follow] at found ⊢
      split at found
      · cases found
      · cases found
      · cases found
      · rename_i here
        rw [here] at directory
        have there : d'.entry? front = some .directory := by
          rcases directory with same | ⟨bytes, bytes', h, -⟩
          · exact same.symm
          · cases h
        rw [there]
        rw [if_neg first.moves, if_neg first.goesDown] at found ⊢
        by_cases long : nameLimit < name.length
        · rw [if_pos long] at found
          cases found
        · rw [if_neg long] at found ⊢
          dsimp only at found ⊢
          have onward := ih named free same
          split at found
          · cases found
          · rename_i h
            rw [link?_eq_some.mpr h] at noLink
            cases noLink
          · rename_i e notLink h
            rw [h] at next
            rcases next with same | ⟨bytes, bytes', -, h'⟩
            · rw [← same]
              cases e with
              | link target => exact absurd rfl (notLink target)
              | file bytes => exact onward found
              | directory => exact onward found
            · rw [h']
              exact onward found

/-- A path that leads to its location without a link does so on any disk with the same way to it. -/
theorem find_sameWay (named : place.Named) (free : d.LinkFree place) (same : d.SameWay d' place)
    (found : d.find place.path = .ok q) : d'.find place.path = .ok q := by
  rw [find_path _ named] at found ⊢
  split at found
  · cases found
  · rename_i noNul
    rw [if_neg noNul]
    split at found
    · cases found
    · rename_i short
      rw [if_neg short]
      split at found
      · rename_i root
        rw [walk_nowhere] at found
        rw [if_pos root, walk_nowhere]
        exact found
      · rename_i below
        rw [if_neg below]
        exact follow_sameWay named free same found

variable {path : Path} {bytes : List UInt8}

theorem status_eq_ok {e : Entry} :
    d.status path = .ok e ↔ ∃ q, d.find path = .ok q ∧ d.entry? q = some e := by
  simp only [status, bind, Except.bind, pure, Except.pure]
  cases found : d.find path with
  | error fault => exact ⟨nofun, nofun⟩
  | ok q =>
      constructor
      · intro h
        refine ⟨q, rfl, ?_⟩
        dsimp only at h
        split at h
        · rename_i here
          cases h
          exact here
        · cases h
      · rintro ⟨q', same, here⟩
        cases same
        dsimp only
        rw [here]

theorem test_eq_true {holds : Entry → Bool} :
    d.test holds path = .ok true ↔
      ∃ q e, d.find path = .ok q ∧ d.entry? q = some e ∧ holds e = true := by
  rw [test]
  constructor
  · intro h
    split at h
    · rename_i e leads
      obtain ⟨q, found, here⟩ := status_eq_ok.mp leads
      exact ⟨q, e, found, here, Except.ok.inj h⟩
    · cases h
    · cases h
  · rintro ⟨q, e, found, here, yes⟩
    rw [status_eq_ok.mpr ⟨q, found, here⟩]
    exact congrArg Except.ok yes

theorem isFile_eq_true :
    d.isFile path = .ok true ↔ ∃ q bytes, d.find path = .ok q ∧ d.entry? q = some (.file bytes) := by
  rw [isFile, test_eq_true]
  constructor
  · rintro ⟨q, e, found, here, yes⟩
    cases e with
    | file bytes => exact ⟨q, bytes, found, here⟩
    | directory => cases yes
    | link target => cases yes
  · rintro ⟨q, bytes, found, here⟩
    exact ⟨q, _, found, here, rfl⟩

theorem isDirectory_eq_true :
    d.isDirectory path = .ok true ↔ ∃ q, d.find path = .ok q ∧ d.entry? q = some .directory := by
  rw [isDirectory, test_eq_true]
  constructor
  · rintro ⟨q, e, found, here, yes⟩
    cases e with
    | file bytes => cases yes
    | directory => exact ⟨q, found, here⟩
    | link target => cases yes
  · rintro ⟨q, found, here⟩
    exact ⟨q, _, found, here, rfl⟩

theorem contents_eq_ok :
    d.contents path = .ok bytes ↔ ∃ q, d.find path = .ok q ∧ d.entry? q = some (.file bytes) := by
  rw [← status_eq_ok]
  simp only [contents, bind, Except.bind, pure, Except.pure]
  cases d.status path with
  | error fault => simp
  | ok e => cases e <;> simp [throw, throwThe, MonadExceptOf.throw]

/-- The path of a location leads to a file with these bytes. -/
def Reaches (d : Disk) (place q : Location) (bytes : List UInt8) : Prop :=
  d.find place.path = .ok q ∧ d.entry? q = some (.file bytes)

theorem Reaches.ne_nil (leads : d.Reaches place q bytes) : q ≠ [] :=
  ne_nil_of_entry leads.2 nofun

theorem overwrite_file (found : d.find path = .ok q) (here : d.entry? q = some (.file bytes))
    (bytes' : List UInt8) : d.overwrite path bytes' = .ok (d.put q (.file bytes')) := by
  simp only [overwrite, bind, Except.bind, found, here, pure, Except.pure]

end Restyle.Disk
