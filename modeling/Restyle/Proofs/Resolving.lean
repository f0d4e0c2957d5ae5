import Restyle.Proofs.Disks

/-!
# How paths are resolved

Resolving keeps the links that it has met, so that a link that leads back to itself is noticed.
`Resolves` is the procedure without its bound on links inside links: the number of entries of the
disk is a bound that is never reached. So the result depends on the links of the disk only.
-/

namespace Restyle.Disk

/-- Where the target of a link in a directory begins. -/
def beginning (place : Location) (target : Path) : Location :=
  if isAbsolute target then [] else place

/-- A step to a name in a directory. -/
def GoesDown (part : Name) : Prop :=
  ¬ staysPut part ∧ part ≠ above

instance (part : Name) : Decidable (GoesDown part) :=
  inferInstanceAs (Decidable (_ ∧ _))

/-- What resolving some steps from a place comes to, with some links met before. -/
inductive Resolves (d : Disk) : Seen → Location → List Name → Resolution → Prop
  | done (seen : Seen) (place : Location) : Resolves d seen place []
      ⟨place, seen, true, [], [], false⟩
  | stay {seen place part rest r} (stays : staysPut part) (onward : Resolves d seen place rest r) :
      Resolves d seen place (part :: rest) r
  | up {seen place rest r} (onward : Resolves d seen place.dropLast rest r) :
      Resolves d seen place (above :: rest) r
  | down {seen place part rest r} (goes : GoesDown part) (noLink : d.link? (place ++ [part]) = none)
      (onward : Resolves d seen (place ++ [part]) rest r) : Resolves d seen place (part :: rest) r
  | known {seen place part rest target known r} (goes : GoesDown part)
      (link : d.link? (place ++ [part]) = some target)
      (met : seen.lookup (place ++ [part]) = some (some known))
      (onward : Resolves d seen known rest r) : Resolves d seen place (part :: rest) r
  | loop {seen place part rest target} (goes : GoesDown part)
      (link : d.link? (place ++ [part]) = some target)
      (met : seen.lookup (place ++ [part]) = some none) :
      Resolves d seen place (part :: rest) (stopped (place ++ [part]) seen false [] rest)
  | link {seen place part rest target inner r} (goes : GoesDown part)
      (link : d.link? (place ++ [part]) = some target)
      (met : seen.lookup (place ++ [part]) = none)
      (inside : Resolves d ((place ++ [part], none) :: seen) (beginning place target)
        (splitSlash target) inner)
      (finished : inner.finished)
      (onward : Resolves d ((place ++ [part], some inner.place) :: inner.seen) inner.place rest r) :
      Resolves d seen place (part :: rest) r
  | stuck {seen place part rest target inner} (goes : GoesDown part)
      (link : d.link? (place ++ [part]) = some target)
      (met : seen.lookup (place ++ [part]) = none)
      (inside : Resolves d ((place ++ [part], none) :: seen) (beginning place target)
        (splitSlash target) inner)
      (unfinished : ¬ inner.finished) :
      Resolves d seen place (part :: rest)
        (stopped inner.place inner.seen inner.doubled inner.left rest)

variable {d d' : Disk} {seen : Seen} {place next q : Location} {part : Name}
  {rest steps : List Name} {target : Path} {r : Resolution}

@[simp] theorem stopped_seen (place : Location) (seen : Seen) (doubled : Bool)
    (left ahead : List Name) : (stopped place seen doubled left ahead).seen = seen := by
  unfold stopped
  split <;> rfl

@[simp] theorem stopped_finished (place : Location) (seen : Seen) (doubled : Bool)
    (left ahead : List Name) : (stopped place seen doubled left ahead).finished = false := by
  unfold stopped
  split <;> rfl

theorem Resolves.congr (same : d.link? = d'.link?) (h : Resolves d seen place steps r) :
    Resolves d' seen place steps r := by
  induction h with
  | done seen place => exact .done seen place
  | stay stays _ ih => exact .stay stays ih
  | up _ ih => exact .up ih
  | down goes noLink _ ih => exact .down goes (same ▸ noLink) ih
  | known goes link met _ ih => exact .known goes (same ▸ link) met ih
  | loop goes link met => exact .loop goes (same ▸ link) met
  | link goes link met _ finished _ inside onward =>
      exact .link goes (same ▸ link) met inside finished onward
  | stuck goes link met _ unfinished inside => exact .stuck goes (same ▸ link) met inside unfinished

theorem above_not_staysPut : ¬ staysPut above := by
  decide

/-- How many entries of a disk have not been met. -/
def unmet (d : Disk) (seen : Seen) : Nat :=
  d.entries.countP fun e => (seen.lookup e.1).isNone

theorem unmet_le (d : Disk) (seen : Seen) : d.unmet seen ≤ d.entries.length :=
  List.countP_le_length

theorem lookup_seen_cons (seen : Seen) (next : Location) (known : Option Location) (x : Location) :
    List.lookup x ((next, known) :: seen) = if x = next then some known else seen.lookup x := by
  rw [List.lookup_cons]
  by_cases same : x = next
  · rw [if_pos same, beq_iff_eq.mpr same]
  · rw [if_neg same, beq_false_of_ne same]

private theorem lookup_cons_isNone {known : Option Location}
    (h : (((next, known) :: seen).lookup place).isNone) : (seen.lookup place).isNone := by
  rw [lookup_seen_cons] at h
  split at h
  · cases h
  · exact h

theorem unmet_cons_le (d : Disk) (seen : Seen) (next : Location) (known : Option Location) :
    d.unmet ((next, known) :: seen) ≤ d.unmet seen :=
  List.countP_mono_left fun _ _ h => lookup_cons_isNone h

theorem unmet_cons_lt (link : d.link? next = some target) (met : seen.lookup next = none)
    (known : Option Location) : d.unmet ((next, known) :: seen) < d.unmet seen := by
  have here := link?_eq_some.mp link
  have below := ne_nil_of_entry here nofun
  unfold entry? at here
  rw [if_neg below] at here
  obtain ⟨front, back, split, -⟩ := List.lookup_eq_some_iff.mp here
  have fewer (es : List (Location × Entry)) :
      es.countP (fun e => (((next, known) :: seen).lookup e.1).isNone) ≤
        es.countP fun e => (seen.lookup e.1).isNone :=
    List.countP_mono_left fun _ _ h => lookup_cons_isNone h
  have inFront := fewer front
  have inBack := fewer back
  rw [unmet, unmet, split, List.countP_append, List.countP_append,
    List.countP_cons_of_neg (by simp), List.countP_cons_of_pos (by simp [met])]
  omega

private theorem resolveSteps_resolves {jump : Seen → Location → List Name → Resolution}
    (jumps : ∀ seen' next place target, d.link? next = some target → seen'.lookup next = none →
      d.unmet seen' ≤ d.unmet seen →
      let r := jump ((next, none) :: seen') (beginning place target) (splitSlash target)
      Resolves d ((next, none) :: seen') (beginning place target) (splitSlash target) r ∧
        d.unmet r.seen ≤ d.unmet ((next, none) :: seen')) :
    Resolves d seen place steps (resolveSteps jump d seen place steps) ∧
      d.unmet (resolveSteps jump d seen place steps).seen ≤ d.unmet seen := by
  induction steps generalizing seen place with
  | nil => exact ⟨.done seen place, Nat.le_refl _⟩
  | cons part rest ih =>
      rw [resolveSteps]
      by_cases stays : staysPut part
      · rw [if_pos stays]
        exact (ih jumps).imp_left (.stay stays)
      rw [if_neg stays]
      by_cases up : part = above
      · rw [if_pos up]
        subst up
        exact (ih jumps).imp_left .up
      rw [if_neg up]
      dsimp only
      cases link : d.link? (place ++ [part]) with
      | none => exact (ih jumps).imp_left (.down ⟨stays, up⟩ link)
      | some target =>
          dsimp only
          cases met : seen.lookup (place ++ [part]) with
          | some entry =>
              cases entry with
              | some known => exact (ih jumps).imp_left (.known ⟨stays, up⟩ link met)
              | none => exact ⟨.loop ⟨stays, up⟩ link met, Nat.le_of_eq (by rw [stopped_seen])⟩
          | none =>
              dsimp only
              obtain ⟨inside, fewer⟩ := jumps seen _ place target link met (Nat.le_refl _)
              have less := unmet_cons_lt link met none
              rw [← beginning]
              generalize jump ((place ++ [part], none) :: seen) (beginning place target)
                (splitSlash target) = inner at inside fewer ⊢
              by_cases finished : inner.finished
              · rw [if_pos finished]
                have room := unmet_cons_le d inner.seen (place ++ [part]) (some inner.place)
                have smaller : d.unmet ((place ++ [part], some inner.place) :: inner.seen) ≤
                    d.unmet seen := by omega
                obtain ⟨onward, room'⟩ := ih fun seen' next place target link met within =>
                  jumps seen' next place target link met (Nat.le_trans within smaller)
                exact ⟨.link ⟨stays, up⟩ link met inside finished onward, by omega⟩
              · rw [if_neg finished]
                refine ⟨.stuck ⟨stays, up⟩ link met inside finished, ?_⟩
                rw [stopped_seen]
                omega

theorem resolveWithin_resolves {depth : Nat} (room : d.unmet seen ≤ depth) :
    Resolves d seen place steps (d.resolveWithin depth seen place steps) ∧
      d.unmet (d.resolveWithin depth seen place steps).seen ≤ d.unmet seen := by
  induction depth generalizing seen place steps with
  | zero =>
      apply resolveSteps_resolves
      intro seen' next place target link met within
      have less := unmet_cons_lt link met none
      omega
  | succ depth ih =>
      apply resolveSteps_resolves
      intro seen' next place target link met within
      have less := unmet_cons_lt link met none
      exact ih (by omega)

theorem Resolves.deterministic {r' : Resolution} (h : Resolves d seen place steps r)
    (h' : Resolves d seen place steps r') : r = r' := by
  have moves := above_not_staysPut
  induction h generalizing r' with
  | done seen place =>
      cases h'
      rfl
  | stay stays _ ih =>
      cases h' with
      | stay _ onward => exact ih onward
      | _ => simp_all [GoesDown]
  | up _ ih =>
      cases h' with
      | up onward => exact ih onward
      | _ => simp_all [GoesDown]
  | down goes noLink _ ih =>
      cases h' with
      | down _ _ onward => exact ih onward
      | _ => simp_all [GoesDown]
  | known goes link met _ ih =>
      cases h' with
      | known _ _ met' onward =>
          cases met.symm.trans met'
          exact ih onward
      | _ => simp_all [GoesDown]
  | loop goes link met =>
      cases h' with
      | loop => rfl
      | _ => simp_all [GoesDown]
  | link goes link met _ finished _ inside onward =>
      cases h' with
      | link _ link' _ inside' _ onward' =>
          cases link.symm.trans link'
          cases inside inside'
          exact onward onward'
      | stuck _ link' _ inside' unfinished =>
          cases link.symm.trans link'
          cases inside inside'
          exact absurd finished unfinished
      | _ => simp_all [GoesDown]
  | stuck goes link met _ unfinished inside =>
      cases h' with
      | link _ link' _ inside' finished _ =>
          cases link.symm.trans link'
          cases inside inside'
          exact absurd finished unfinished
      | stuck _ link' _ inside' _ =>
          cases link.symm.trans link'
          cases inside inside'
          rfl
      | _ => simp_all [GoesDown]

theorem Resolves.location_eq (h : Resolves d seen place steps r) (finished : r.finished) :
    r.location = r.place := by
  induction h with
  | done => rfl
  | loop => simp at finished
  | stuck => simp at finished
  | stay _ _ ih => exact ih finished
  | up _ ih => exact ih finished
  | down _ _ _ ih => exact ih finished
  | known _ _ _ _ ih => exact ih finished
  | link _ _ _ _ _ _ _ ih => exact ih finished

theorem resolution_resolves (d : Disk) (place : Location) (path : Path) :
    Resolves d [] [] (stepsOf place path) (d.resolution place path) :=
  (resolveWithin_resolves (unmet_le d [])).1

theorem resolution_congr (same : d.link? = d'.link?) (place : Location) (path : Path) :
    d.resolution place path = d'.resolution place path :=
  ((d.resolution_resolves place path).congr same).deterministic (d'.resolution_resolves place path)

/-- Every location that is known is right for its link. -/
def KnownAs (right : Location → Location → Prop) (seen : Seen) : Prop :=
  ∀ next q, seen.lookup next = some (some q) → right next q

section Known

variable {right : Location → Location → Prop}

theorem KnownAs.nil : KnownAs right [] :=
  fun _ _ => nofun

theorem KnownAs.cons (h : KnownAs right seen) {known : Option Location}
    (first : ∀ q, known = some q → right next q) : KnownAs right ((next, known) :: seen) := by
  intro next' q met
  rw [lookup_seen_cons] at met
  split at met
  · rename_i same
    exact same ▸ first q (Option.some.inj met)
  · exact h next' q met

theorem KnownAs.pending (h : KnownAs right seen) (next : Location) :
    KnownAs right ((next, none) :: seen) :=
  h.cons fun _ => nofun

theorem KnownAs.known (h : KnownAs right seen) (first : right next q) :
    KnownAs right ((next, some q) :: seen) :=
  h.cons fun _ same => Option.some.inj same ▸ first

end Known

section Names

theorem Location.Named.push (named : place.Named) (goes : GoesDown part) (whole : slash ∉ part) :
    Location.Named (place ++ [part]) :=
  List.forall_mem_append.mpr ⟨named, List.forall_mem_singleton.mpr ⟨goes.1, goes.2, whole⟩⟩

theorem Location.Named.dropLast (named : place.Named) : Location.Named place.dropLast :=
  fun name mem => named name ((List.dropLast_sublist place).mem mem)

theorem Location.Named.beginning (named : place.Named) (target : Path) :
    (beginning place target).Named := by
  rw [Disk.beginning]
  split
  · exact fun _ => nofun
  · exact named

theorem lexical_named (named : place.Named) (whole : ∀ step ∈ steps, slash ∉ step) :
    (lexical place steps).Named := by
  induction steps generalizing place with
  | nil => exact named
  | cons part rest ih =>
      obtain ⟨first, whole⟩ := List.forall_mem_cons.mp whole
      rw [lexical]
      by_cases stays : staysPut part
      · rw [if_pos stays]
        exact ih named whole
      rw [if_neg stays]
      by_cases up : part = above
      · rw [if_pos up]
        exact ih named.dropLast whole
      · rw [if_neg up]
        exact ih (named.push ⟨stays, up⟩ first) whole

theorem stopped_named {doubled : Bool} {left ahead : List Name} (named : place.Named)
    (before : ∀ step ∈ left, slash ∉ step) (after : ∀ step ∈ ahead, slash ∉ step) :
    (stopped place seen doubled left ahead).place.Named ∧
      ∀ step ∈ (stopped place seen doubled left ahead).left, slash ∉ step := by
  unfold stopped
  split
  · exact ⟨fun _ => nofun, after⟩
  · exact ⟨named, List.forall_mem_append.mpr ⟨before, after⟩⟩

theorem Resolves.named (h : Resolves d seen place steps r) (named : place.Named)
    (known : KnownAs (fun _ q => q.Named) seen) (whole : ∀ step ∈ steps, slash ∉ step) :
    (r.place.Named ∧ ∀ step ∈ r.left, slash ∉ step) ∧ KnownAs (fun _ q => q.Named) r.seen := by
  induction h with
  | done seen place => exact ⟨⟨named, whole⟩, known⟩
  | stay _ _ ih => exact ih named known (List.forall_mem_cons.mp whole).2
  | up _ ih => exact ih named.dropLast known (List.forall_mem_cons.mp whole).2
  | down goes _ _ ih =>
      obtain ⟨first, whole⟩ := List.forall_mem_cons.mp whole
      exact ih (named.push goes first) known whole
  | known goes _ met _ ih => exact ih (known _ _ met) known (List.forall_mem_cons.mp whole).2
  | loop goes _ _ =>
      obtain ⟨first, whole⟩ := List.forall_mem_cons.mp whole
      refine ⟨stopped_named (named.push goes first) (fun _ => nofun) whole, ?_⟩
      rw [stopped_seen]
      exact known
  | link goes _ _ _ _ _ ihInside ihOnward =>
      obtain ⟨first, whole⟩ := List.forall_mem_cons.mp whole
      obtain ⟨⟨there, -⟩, known⟩ := ihInside (named.beginning _) (known.pending _)
        fun _ => splitSlash_whole
      exact ihOnward there (known.known there) whole
  | stuck goes _ _ _ _ ih =>
      obtain ⟨first, whole⟩ := List.forall_mem_cons.mp whole
      obtain ⟨⟨there, left⟩, known⟩ := ih (named.beginning _) (known.pending _)
        fun _ => splitSlash_whole
      refine ⟨stopped_named there left whole, ?_⟩
      rw [stopped_seen]
      exact known

theorem parts_whole {path : Path} {name : Name} (h : name ∈ parts path) : slash ∉ name :=
  splitSlash_whole (List.mem_filter.mp h).1

theorem stepsOf_eq (place : Location) (path : Path) :
    stepsOf place path = beginning place path ++ parts path := by
  rw [stepsOf, Disk.beginning]
  split <;> rfl

theorem stepsOf_whole (named : place.Named) (path : Path) : ∀ step ∈ stepsOf place path, slash ∉ step := by
  rw [stepsOf_eq]
  refine List.forall_mem_append.mpr ⟨?_, fun step => parts_whole⟩
  exact fun name mem => (named.beginning path name mem).whole

/-- The location of a path consists of names, whether there is anything or not, unless two slashes
begin it. -/
theorem realLocation_named (named : place.Named) (path : Path)
    (single : (d.realLocation place path).head? ≠ some []) : (d.realLocation place path).Named := by
  have resolved := d.resolution_resolves place path
  obtain ⟨there, left⟩ := (resolved.named (fun _ => nofun) .nil (stepsOf_whole named path)).1
  rw [realLocation, Resolution.location] at single ⊢
  cases doubled : (d.resolution place path).doubled with
  | false => exact lexical_named there left
  | true =>
      rw [doubled] at single
      exact absurd rfl single

end Names

end Restyle.Disk
