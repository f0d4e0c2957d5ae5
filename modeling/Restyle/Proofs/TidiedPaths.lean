import Restyle.Proofs.Walking

/-!
# Tidied paths

A path without the parts that stay where they are leads to the same place, if the path leads anywhere. It
need not be the other way round: a file is no directory to stay in.
-/

namespace Restyle.Disk

variable {d : Disk} {place q : Location} {path : Path} {names steps spared : List Name}

theorem joinSlash_cons {name : Name} (more : names ≠ []) :
    joinSlash (name :: names) = name ++ slash :: joinSlash names := by
  cases names with
  | nil => exact absurd rfl more
  | cons next names => rfl

theorem joinSlash_splitSlash (path : Path) : joinSlash (splitSlash path) = path := by
  induction path with
  | nil => rfl
  | cons c path ih =>
      have more := splitSlash_ne_nil path
      rw [splitSlash]
      by_cases cut : c = slash
      · rw [if_pos cut, joinSlash_cons more, ih, cut]
        rfl
      · rw [if_neg cut]
        cases split : splitSlash path with
        | nil => exact absurd split more
        | cons first more =>
            rw [split] at ih
            rw [← ih]
            cases more <;> rfl

theorem splitSlash_slash (base rest : Path) :
    splitSlash (base ++ slash :: rest) = splitSlash base ++ splitSlash rest := by
  induction base with
  | nil =>
      have first : splitSlash [] = [[]] := rfl
      rw [first, List.nil_append, splitSlash, if_pos rfl, List.singleton_append]
  | cons c base ih =>
      rw [List.cons_append, splitSlash, splitSlash]
      by_cases cut : c = slash
      · rw [if_pos cut, if_pos cut, ih, List.cons_append]
      · rw [if_neg cut, if_neg cut, ih]
        cases split : splitSlash base with
        | nil => exact absurd split (splitSlash_ne_nil base)
        | cons first more => rfl

theorem joinSlash_sublist (some : spared ≠ []) (h : spared.Sublist names) :
    (joinSlash spared).Sublist (joinSlash names) := by
  induction h with
  | slnil => exact List.Sublist.refl _
  | @cons spared names name h ih =>
      have more : names ≠ [] := fun none => some (List.sublist_nil.mp (none ▸ h))
      rw [joinSlash_cons more]
      exact ((ih some).cons slash).trans (List.sublist_append_right name _)
  | @cons_cons spared names name h ih =>
      by_cases more : names = []
      · subst more
        obtain rfl := List.sublist_nil.mp h
        exact List.Sublist.refl _
      · rw [joinSlash_cons more]
        by_cases last : spared = []
        · rw [last]
          exact List.sublist_append_left name _
        · rw [joinSlash_cons last]
          exact (List.Sublist.refl name).append ((ih last).cons_cons slash)

theorem parts_move {name : Name} (h : name ∈ parts path) : ¬ staysPut name := by
  simpa [parts] using (List.mem_filter.mp h).2

theorem parts_absolute (rest : Path) : parts (slash :: rest) = parts rest := by
  rw [parts, splitSlash, if_pos rfl, List.filter_cons_of_neg (by decide), parts]

theorem tidied_absolute (rest : Path) :
    tidied (slash :: rest) = slash :: joinSlash (parts rest) := by
  rw [tidied, show isAbsolute (slash :: rest) = true from rfl, parts_absolute]

theorem tidied_relative (relative : isAbsolute path = false) :
    tidied path = if parts path = [] then here else joinSlash (parts path) := by
  rw [tidied, relative]
  cases parts path with
  | nil => rfl
  | cons name names => rw [if_neg (List.cons_ne_nil _ _)]

theorem isAbsolute_iff : isAbsolute path = true ↔ ∃ rest, path = slash :: rest := by
  cases path <;> simp [isAbsolute]

private theorem here_sublist (some : path ≠ []) (relative : isAbsolute path = false)
    (stays : parts path = []) : here.Sublist path := by
  cases path with
  | nil => exact absurd rfl some
  | cons c path =>
      have other : c ≠ slash := by
        rintro rfl
        cases relative
      cases split : splitSlash path with
      | nil => exact absurd split (splitSlash_ne_nil path)
      | cons first more =>
          rw [parts, splitSlash, if_neg other, split] at stays
          have put := List.filter_eq_nil_iff.mp stays (c :: first) List.mem_cons_self
          have point : c = dot := by simp_all [staysPut, here]
          rw [point]
          exact List.Sublist.cons_cons dot (List.nil_sublist path)

theorem tidied_sublist (some : path ≠ []) : (tidied path).Sublist path := by
  have within (path : Path) (more : parts path ≠ []) : (joinSlash (parts path)).Sublist path := by
    have sublist := joinSlash_sublist more (List.filter_sublist (l := splitSlash path))
    rwa [joinSlash_splitSlash] at sublist
  by_cases absolute : isAbsolute path
  · obtain ⟨rest, rfl⟩ := isAbsolute_iff.mp absolute
    rw [tidied_absolute]
    apply List.Sublist.cons_cons
    by_cases none : parts rest = []
    · rw [none]
      exact List.nil_sublist rest
    · exact within rest none
  · have relative : isAbsolute path = false := Bool.eq_false_iff.mpr absolute
    rw [tidied_relative relative]
    split
    · rename_i none
      exact here_sublist some relative none
    · rename_i more
      exact within path more

/-- Steps of which some that stay where they are have been left out, and others put in their place. -/
inductive Spares : List Name → List Name → Prop
  | done : Spares [] []
  | keep {spared steps part} (h : Spares spared steps) : Spares (part :: spared) (part :: steps)
  | leave {spared steps part} (stays : staysPut part) (h : Spares spared steps) :
      Spares spared (part :: steps)
  | stay {spared steps part part'} (stays : staysPut part) (stays' : staysPut part')
      (h : Spares spared steps) : Spares (part' :: spared) (part :: steps)

theorem Spares.append (front : List Name) (h : Spares spared steps) :
    Spares (front ++ spared) (front ++ steps) := by
  induction front with
  | nil => exact h
  | cons part front ih => exact ih.keep

theorem spares_filter (steps : List Name) : Spares (steps.filter fun part => !staysPut part) steps := by
  induction steps with
  | nil => exact .done
  | cons part steps ih =>
      by_cases stays : staysPut part
      · rw [List.filter_cons_of_neg (by simp [stays])]
        exact ih.leave stays
      · rw [List.filter_cons_of_pos (by simp [stays])]
        exact ih.keep

theorem spares_single {part : Name} (stays : staysPut part) (none : parts path = []) :
    Spares [part] (splitSlash path) := by
  have all : (splitSlash path).filter (fun part => !staysPut part) = [] := none
  have left := spares_filter (splitSlash path)
  cases split : splitSlash path with
  | nil => exact absurd split (splitSlash_ne_nil path)
  | cons first more =>
      rw [split] at all left
      rw [all] at left
      cases left with
      | leave stays' left => exact left.stay stays' stays

theorem spares_parts (path : Path) :
    Spares (splitSlash (joinSlash (parts path))) (splitSlash path) := by
  by_cases none : parts path = []
  · rw [none]
    exact spares_single rfl none
  · rw [splitSlash_joinSlash none fun _ => parts_whole]
    exact spares_filter (splitSlash path)

theorem spares_tidied (path : Path) : Spares (splitSlash (tidied path)) (splitSlash path) := by
  by_cases absolute : isAbsolute path
  · obtain ⟨rest, rfl⟩ := isAbsolute_iff.mp absolute
    rw [tidied_absolute, splitSlash, splitSlash, if_pos rfl, if_pos rfl]
    exact (spares_parts rest).keep
  · rw [tidied_relative (Bool.eq_false_iff.mpr absolute)]
    split
    · rename_i none
      have one : splitSlash here = [here] := rfl
      exact one ▸ spares_single rfl none
    · exact spares_parts path

private theorem follow_spares (jump jump' : Location → List Name → Except Fault Location)
    (jumps : ∀ place spared steps, Spares spared steps → jump place steps = .ok q →
      jump' place spared = .ok q)
    (h : Spares spared steps) (found : follow jump d place steps = .ok q) :
    follow jump' d place spared = .ok q := by
  induction h generalizing place with
  | done => exact found
  | leave stays h ih =>
      rw [follow_cons] at found
      cases moved : d.move place _ with
      | error fault =>
          rw [moved] at found
          cases found
      | ok m =>
          rw [moved, move_stays stays moved] at found
          exact ih found
  | stay stays stays' h ih =>
      rw [follow_cons, move_stays_congr stays stays'] at found
      rw [follow_cons]
      cases moved : d.move place _ with
      | error fault =>
          rw [moved] at found
          cases found
      | ok m =>
          rw [moved, move_stays stays' moved] at found
          rw [move_stays stays' moved]
          exact ih found
  | keep h ih =>
      rw [follow_cons] at found ⊢
      cases moved : d.move place _ with
      | error fault =>
          rw [moved] at found
          cases found
      | ok m =>
          rw [moved] at found
          cases m with
          | step next => exact ih found
          | link start inside => exact jumps _ _ _ (h.append inside) found

theorem walk_spares {links : Nat} (h : Spares spared steps)
    (found : d.walk links place steps = .ok q) : d.walk links place spared = .ok q := by
  induction links generalizing place spared steps with
  | zero => exact follow_spares (fun _ _ => .error .tooManyLinks) _ (fun _ _ _ _ => nofun) h found
  | succ links ih => exact follow_spares (d.walk links) _ (fun _ _ _ h' => ih h') h found

theorem isAbsolute_tidied (path : Path) : isAbsolute (tidied path) = isAbsolute path := by
  by_cases absolute : isAbsolute path
  · obtain ⟨rest, rfl⟩ := isAbsolute_iff.mp absolute
    rw [tidied_absolute]
    rfl
  · have relative : isAbsolute path = false := Bool.eq_false_iff.mpr absolute
    rw [tidied_relative relative, relative]
    cases h : parts path with
    | nil => rfl
    | cons name names =>
        have first : name ∈ parts path := h ▸ List.mem_cons_self
        rw [if_neg (List.cons_ne_nil _ _)]
        cases name with
        | nil => exact absurd rfl (parts_move first)
        | cons c name =>
            have other : c ≠ slash := fun cut => parts_whole first (cut ▸ List.mem_cons_self)
            cases names <;> simpa [joinSlash, isAbsolute] using other

theorem tidied_ne_nil (path : Path) : tidied path ≠ [] := by
  by_cases absolute : isAbsolute path
  · obtain ⟨rest, rfl⟩ := isAbsolute_iff.mp absolute
    rw [tidied_absolute]
    exact List.cons_ne_nil _ _
  · rw [tidied_relative (Bool.eq_false_iff.mpr absolute)]
    split
    · exact List.cons_ne_nil _ _
    · rename_i some
      intro none
      have same : parts path = [[]] := by
        rw [← splitSlash_joinSlash some fun _ => parts_whole, none]
        rfl
      exact parts_move (same ▸ List.mem_singleton_self []) rfl

theorem find_tidied (found : d.find path = .ok q) : d.find (tidied path) = .ok q := by
  obtain ⟨noNul, some, short, found⟩ := find_eq_ok.mp found
  have sublist := tidied_sublist some
  refine find_eq_ok.mpr ⟨fun nul => noNul ?_, tidied_ne_nil path,
    Nat.lt_of_le_of_lt (sublist.length_le) short, ?_⟩
  · simp only [holdsNul, List.contains_iff_mem] at nul ⊢
    exact sublist.mem nul
  · rw [beginning, isAbsolute_tidied]
    exact walk_spares (spares_tidied path) found

theorem contents_tidied {bytes : List UInt8} (h : d.contents path = .ok bytes) :
    d.contents (tidied path) = .ok bytes := by
  obtain ⟨q, found, here⟩ := contents_eq_ok.mp h
  exact contents_eq_ok.mpr ⟨q, find_tidied found, here⟩

end Restyle.Disk
