import Restyle.Proofs.Resolving

/-!
# Walking in stages

A walk takes one step after another, and a link is one step that brings in the steps of its target. A walk
that is cut in two goes on from where its first part leads, with the links that this has left. The number
of links that may be followed decides only whether a walk comes to an end.
-/

namespace Restyle.Disk

variable {d : Disk} {place q : Location} {steps : List Name} {links more : Nat}
  {jump jump' : Location → List Name → Except Fault Location}

/-- What a step comes to: a place, or a link with the place where its target begins and the steps to take
from there. -/
inductive Move
  | step (next : Location)
  | link (start : Location) (steps : List Name)

def move (d : Disk) (place : Location) (part : Name) : Except Fault Move :=
  match d.entry? place with
  | none => .error .notFound
  | some (.file _) | some (.link _) => .error .notDirectory
  | some .directory =>
      if staysPut part then .ok (.step place)
      else if part = above then .ok (.step place.dropLast)
      else if nameLimit < part.length then .error .nameTooLong
      else
        match d.entry? (place ++ [part]) with
        | none => .error .notFound
        | some (.link target) => .ok (.link (beginning place target) (splitSlash target))
        | some _ => .ok (.step (place ++ [part]))

theorem follow_cons (part : Name) :
    follow jump d place (part :: steps) =
      match d.move place part with
      | .error fault => .error fault
      | .ok (.step next) => follow jump d next steps
      | .ok (.link start inside) => jump start (inside ++ steps) := by
  rw [follow, move]
  cases d.entry? place with
  | none => rfl
  | some e =>
      cases e with
      | file bytes => rfl
      | link target => rfl
      | directory =>
          dsimp only
          by_cases stays : staysPut part
          · rw [if_pos stays, if_pos stays]
          rw [if_neg stays, if_neg stays]
          by_cases up : part = above
          · rw [if_pos up, if_pos up]
          rw [if_neg up, if_neg up]
          by_cases long : nameLimit < part.length
          · rw [if_pos long, if_pos long]
          rw [if_neg long, if_neg long]
          cases d.entry? (place ++ [part]) with
          | none => rfl
          | some e => cases e <;> rfl

theorem move_eq_ok {part : Name} {m : Move} (h : d.move place part = .ok m) :
    (staysPut part ∧ m = .step place) ∨ (part = above ∧ m = .step place.dropLast) ∨
      GoesDown part ∧ ((d.link? (place ++ [part]) = none ∧ m = .step (place ++ [part])) ∨
        ∃ target, d.link? (place ++ [part]) = some target ∧
          m = .link (beginning place target) (splitSlash target)) := by
  rw [move] at h
  split at h
  · cases h
  · cases h
  · cases h
  · split at h
    · rename_i stays
      exact .inl ⟨stays, (Except.ok.inj h).symm⟩
    rename_i moves
    split at h
    · rename_i up
      exact .inr (.inl ⟨up, (Except.ok.inj h).symm⟩)
    rename_i other
    refine .inr (.inr ⟨⟨moves, other⟩, ?_⟩)
    split at h
    · cases h
    cases here : d.entry? (place ++ [part]) with
    | none =>
        rw [here] at h
        cases h
    | some e =>
        rw [here] at h
        rw [link?, here]
        cases e with
        | link target => exact .inr ⟨target, rfl, (Except.ok.inj h).symm⟩
        | file bytes => exact .inl ⟨rfl, (Except.ok.inj h).symm⟩
        | directory => exact .inl ⟨rfl, (Except.ok.inj h).symm⟩

theorem move_directory {part : Name} {m : Move} (h : d.move place part = .ok m) :
    d.entry? place = some .directory := by
  rw [move] at h
  split at h
  · cases h
  · cases h
  · cases h
  · assumption

theorem walk_directory {part : Name} (found : d.walk links place (part :: steps) = .ok q) :
    d.entry? place = some .directory := by
  cases moved : d.move place part with
  | error fault => cases links <;> rw [walk, follow_cons, moved] at found <;> cases found
  | ok m => exact move_directory moved

theorem move_stays {part : Name} {m : Move} (stays : staysPut part) (h : d.move place part = .ok m) :
    m = .step place := by
  rcases move_eq_ok h with ⟨-, same⟩ | ⟨rfl, -⟩ | ⟨⟨moves, -⟩, -⟩
  · exact same
  · cases stays
  · exact absurd stays moves

theorem move_stays_congr {part part' : Name} (stays : staysPut part) (stays' : staysPut part') :
    d.move place part = d.move place part' := by
  rw [move, move, if_pos stays, if_pos stays']

private theorem follow_append {front : List Name}
    (jumps : ∀ start inside, jump start inside = .ok q →
      ∃ left, left ≤ links ∧ ∀ rest, jump start (inside ++ rest) = d.walk left q rest)
    (same : d.walk links = follow jump d) (found : follow jump d place front = .ok q) :
    ∃ left, left ≤ links ∧ ∀ rest, follow jump d place (front ++ rest) = d.walk left q rest := by
  induction front generalizing place with
  | nil =>
      cases found
      exact ⟨links, Nat.le_refl _, fun rest => by rw [same, List.nil_append]⟩
  | cons part front ih =>
      simp only [List.cons_append, follow_cons] at found ⊢
      cases moved : d.move place part with
      | error fault =>
          rw [moved] at found
          cases found
      | ok m =>
          rw [moved] at found
          cases m with
          | step next => exact ih found
          | link start inside =>
              obtain ⟨left, le, onward⟩ := jumps start _ found
              refine ⟨left, le, fun rest => ?_⟩
              dsimp only
              rw [← List.append_assoc, onward rest]

theorem walk_append {front : List Name} (found : d.walk links place front = .ok q) :
    ∃ left, left ≤ links ∧ ∀ rest, d.walk links place (front ++ rest) = d.walk left q rest := by
  induction links generalizing place front with
  | zero => exact follow_append (fun _ _ => nofun) rfl found
  | succ links ih =>
      refine follow_append (fun start inside found => ?_) rfl found
      obtain ⟨left, le, onward⟩ := ih found
      exact ⟨left, Nat.le_succ_of_le le, onward⟩

private theorem follow_more
    (jumps : ∀ start inside, jump start inside ≠ .error .tooManyLinks →
      jump' start inside = jump start inside)
    (ends : follow jump d place steps ≠ .error .tooManyLinks) :
    follow jump' d place steps = follow jump d place steps := by
  induction steps generalizing place with
  | nil => rfl
  | cons part steps ih =>
      simp only [follow_cons] at ends ⊢
      cases moved : d.move place part with
      | error fault => rfl
      | ok m =>
          rw [moved] at ends
          cases m with
          | step next => exact ih ends
          | link start inside => exact jumps start _ ends

/-- A walk that does not run out of links ends in the same way with more of them. -/
theorem walk_more (le : links ≤ more) (ends : d.walk links place steps ≠ .error .tooManyLinks) :
    d.walk more place steps = d.walk links place steps := by
  induction links generalizing more place steps with
  | zero =>
      cases more with
      | zero => rfl
      | succ more => exact follow_more (fun _ _ h => absurd rfl h) ends
  | succ links ih =>
      cases more with
      | zero => cases le
      | succ more => exact follow_more (fun _ _ h => ih (Nat.le_of_succ_le_succ le) h) ends

variable {path : Path}

theorem find_eq_walk (noNul : ¬ holdsNul path) (some : path ≠ [])
    (short : path.length < pathLimit) :
    d.find path = d.walk linkLimit (beginning d.current path) (splitSlash path) := by
  rw [find, if_neg noNul, if_neg (mt List.isEmpty_iff.mp some), if_neg (Nat.not_le_of_lt short), beginning]

theorem find_eq_ok :
    d.find path = .ok q ↔ ¬ holdsNul path ∧ path ≠ [] ∧ path.length < pathLimit ∧
      d.walk linkLimit (beginning d.current path) (splitSlash path) = .ok q := by
  constructor
  · intro found
    rw [find] at found
    split at found
    · cases found
    rename_i noNul
    split at found
    · cases found
    rename_i some
    split at found
    · cases found
    rename_i short
    exact ⟨noNul, fun none => some (List.isEmpty_iff.mpr none), Nat.lt_of_not_le short, found⟩
  · rintro ⟨noNul, some, short, found⟩
    rw [find_eq_walk noNul some short, found]

end Restyle.Disk
