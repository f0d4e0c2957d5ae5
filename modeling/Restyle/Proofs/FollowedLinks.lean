import Restyle.Proofs.Walking

/-!
# Following links

Where steps lead if every link on the way is followed and none is remembered. Resolving gets to the
end of a path exactly if it leads anywhere in this sense, and then to the same place, which no link
is on the way to. Walking the disk leads there as well, if it leads anywhere.
-/

namespace Restyle.Disk

variable {d : Disk} {seen : Seen} {place next q : Location} {part : Name} {rest steps : List Name}
  {target : Path} {r : Resolution}

/-- Where steps lead from a place, with so many links followed on the way. Names that are not there
are kept. -/
inductive Leads (d : Disk) : Nat → Location → List Name → Location → Prop
  | done (place : Location) : Leads d 0 place [] place
  | stay {n place part rest q} (stays : staysPut part) (onward : Leads d n place rest q) :
      Leads d n place (part :: rest) q
  | up {n place rest q} (onward : Leads d n place.dropLast rest q) :
      Leads d n place (above :: rest) q
  | down {n place part rest q} (goes : GoesDown part) (noLink : d.link? (place ++ [part]) = none)
      (onward : Leads d n (place ++ [part]) rest q) : Leads d n place (part :: rest) q
  | link {m n place part rest target p q} (goes : GoesDown part)
      (link : d.link? (place ++ [part]) = some target)
      (inside : Leads d m (beginning place target) (splitSlash target) p)
      (onward : Leads d n p rest q) : Leads d (m + n + 1) place (part :: rest) q

theorem Leads.deterministic {m n : Nat} {p : Location} (h : Leads d n place steps q)
    (h' : Leads d m place steps p) : n = m ∧ q = p := by
  have moves := above_not_staysPut
  induction h generalizing m p with
  | done place =>
      cases h'
      exact ⟨rfl, rfl⟩
  | stay stays _ ih =>
      cases h' with
      | stay _ onward => exact ih onward
      | _ => simp_all [GoesDown]
  | up _ ih =>
      cases h' with
      | up onward => exact ih onward
      | _ => simp_all [GoesDown]
  | down goes noLink _ ih =>
      cases h' with
      | down _ _ onward => exact ih onward
      | _ => simp_all [GoesDown]
  | link goes link _ _ inside onward =>
      cases h' with
      | link _ link' inside' onward' =>
          cases link.symm.trans link'
          obtain ⟨rfl, rfl⟩ := inside inside'
          obtain ⟨rfl, rfl⟩ := onward onward'
          exact ⟨rfl, rfl⟩
      | _ => simp_all [GoesDown]

theorem Leads.congr {d' : Disk} {n : Nat} (same : d.link? = d'.link?) (h : Leads d n place steps q) :
    Leads d' n place steps q := by
  induction h with
  | done place => exact .done place
  | stay stays _ ih => exact .stay stays ih
  | up _ ih => exact .up ih
  | down goes noLink _ ih => exact .down goes (same ▸ noLink) ih
  | link goes link _ _ inside onward => exact .link goes (same ▸ link) inside onward

theorem LinkFree.beginning (free : d.LinkFree place) (target : Path) :
    d.LinkFree (beginning place target) := by
  rw [Disk.beginning]
  split
  · exact .nil d
  · exact free

theorem Leads.linkFree {n : Nat} (h : Leads d n place steps q) (free : d.LinkFree place) :
    d.LinkFree q := by
  induction h with
  | done place => exact free
  | stay _ _ ih => exact ih free
  | up _ ih => exact ih (free.of_prefix (List.dropLast_prefix _))
  | down _ noLink _ ih => exact ih (free.push noLink)
  | link _ _ _ _ inside onward => exact onward (inside (free.beginning _))

def LinkLeads (d : Disk) (n : Nat) (next q : Location) : Prop :=
  ∃ target, d.link? next = some target ∧
    Leads d n (beginning next.dropLast target) (splitSlash target) q

theorem linkLeads_iff {n : Nat} (link : d.link? (place ++ [part]) = some target) :
    d.LinkLeads n (place ++ [part]) q ↔ Leads d n (beginning place target) (splitSlash target) q := by
  rw [LinkLeads, List.dropLast_concat]
  constructor
  · rintro ⟨target', link', leads⟩
    cases link.symm.trans link'
    exact leads
  · exact fun leads => ⟨target, link, leads⟩

/-- The links that are known lead where they are known to. -/
def Right (d : Disk) (seen : Seen) : Prop :=
  KnownAs (fun next q => ∃ n, d.LinkLeads n next q) seen

theorem Resolves.leads (h : Resolves d seen place steps r) (right : d.Right seen)
    (finished : r.finished) : (∃ n, Leads d n place steps r.place) ∧ d.Right r.seen := by
  induction h with
  | done seen place => exact ⟨⟨0, .done place⟩, right⟩
  | stay stays _ ih =>
      obtain ⟨⟨n, leads⟩, right⟩ := ih right finished
      exact ⟨⟨n, .stay stays leads⟩, right⟩
  | up _ ih =>
      obtain ⟨⟨n, leads⟩, right⟩ := ih right finished
      exact ⟨⟨n, .up leads⟩, right⟩
  | down goes noLink _ ih =>
      obtain ⟨⟨n, leads⟩, right⟩ := ih right finished
      exact ⟨⟨n, .down goes noLink leads⟩, right⟩
  | known goes link met _ ih =>
      obtain ⟨m, inside⟩ := right _ _ met
      obtain ⟨⟨n, leads⟩, right⟩ := ih right finished
      exact ⟨⟨m + n + 1, .link goes link ((linkLeads_iff link).mp inside) leads⟩, right⟩
  | loop => simp at finished
  | link goes link _ _ finished' _ inside onward =>
      obtain ⟨⟨m, within⟩, right⟩ := inside (KnownAs.pending right _) finished'
      have known := KnownAs.known right ⟨m, (linkLeads_iff link).mpr within⟩
      obtain ⟨⟨n, leads⟩, right⟩ := onward known finished
      exact ⟨⟨m + n + 1, .link goes link within leads⟩, right⟩
  | stuck => simp at finished

/-- The links under way, each of which leads somewhere with more links than are left to follow. -/
def Within (d : Disk) (seen : Seen) (n : Nat) : Prop :=
  ∀ next m q, seen.lookup next = some none → d.LinkLeads m next q → n ≤ m

theorem Within.of_le {m n : Nat} (h : d.Within seen n) (le : m ≤ n) : d.Within seen m :=
  fun next k q met leads => Nat.le_trans le (h next k q met leads)

/-- With one more link under way, a link that is under way is that one or was so before. -/
private theorem lookup_pending {x : Location}
    (h : List.lookup x ((next, none) :: seen) = some none) :
    x = next ∨ seen.lookup x = some none := by
  rw [lookup_seen_cons] at h
  split at h
  · rename_i same
    exact .inl same
  · exact .inr h

private theorem lookup_known {x p : Location}
    (h : List.lookup x ((next, some p) :: seen) = some none) :
    x ≠ next ∧ seen.lookup x = some none := by
  rw [lookup_seen_cons] at h
  split at h
  · cases h
  · rename_i different
    exact ⟨different, h⟩

theorem Within.enter {m n : Nat} (h : d.Within seen (m + n + 1)) (leads : d.LinkLeads m next q) :
    d.Within ((next, none) :: seen) m := by
  intro x k p met leads'
  rcases lookup_pending met with rfl | met
  · obtain ⟨target, link, leads⟩ := leads
    obtain ⟨target', link', leads'⟩ := leads'
    cases link.symm.trans link'
    exact Nat.le_of_eq (leads.deterministic leads').1
  · have := h x k p met leads'
    omega

/-- Where steps lead, resolving them gets to the end. A link that was met again while it is followed
would lead to its end with fewer links than it does. -/
theorem Resolves.finishes {n : Nat} (h : Resolves d seen place steps r)
    (leads : Leads d n place steps q) (right : d.Right seen) (within : d.Within seen n) :
    r.finished ∧ r.place = q ∧
      ∀ next, r.seen.lookup next = some none → seen.lookup next = some none := by
  have moves := above_not_staysPut
  induction h generalizing n q with
  | done seen place =>
      cases leads
      exact ⟨rfl, rfl, fun _ => id⟩
  | stay stays _ ih =>
      cases leads with
      | stay _ leads => exact ih leads right within
      | _ => simp_all [GoesDown]
  | up _ ih =>
      cases leads with
      | up leads => exact ih leads right within
      | _ => simp_all [GoesDown]
  | down goes noLink _ ih =>
      cases leads with
      | down _ _ leads => exact ih leads right within
      | _ => simp_all [GoesDown]
  | known goes link met _ ih =>
      cases leads with
      | link _ link' inside leads =>
          cases link.symm.trans link'
          obtain ⟨m, leads'⟩ := right _ _ met
          obtain ⟨-, rfl⟩ := inside.deterministic ((linkLeads_iff link).mp leads')
          exact ih leads right (within.of_le (by omega))
      | _ => simp_all [GoesDown]
  | loop goes link met =>
      cases leads with
      | link _ link' inside leads =>
          cases link.symm.trans link'
          have fewer := within _ _ _ met ((linkLeads_iff link).mpr inside)
          omega
      | _ => simp_all [GoesDown]
  | @link seen place part rest target inner r goes link met resolved _ _ ihInside ihOnward =>
      cases leads with
      | link _ link' inside leads =>
          cases link.symm.trans link'
          have inside' := (linkLeads_iff link).mpr inside
          obtain ⟨finished, rfl, pending⟩ :=
            ihInside inside (KnownAs.pending right _) (within.enter inside')
          have before {x : Location}
              (h : List.lookup x ((place ++ [part], some inner.place) :: inner.seen) = some none) :
              seen.lookup x = some none := by
            obtain ⟨different, h⟩ := lookup_known h
            exact (lookup_pending (pending x h)).resolve_left different
          have right' := (resolved.leads (KnownAs.pending right _) finished).2
          obtain ⟨finished', there, pending'⟩ := ihOnward leads (KnownAs.known right' ⟨_, inside'⟩)
            fun next m q met leads' => Nat.le_trans (by omega) (within next m q (before met) leads')
          exact ⟨finished', there, fun x h => before (pending' x h)⟩
      | _ => simp_all [GoesDown]
  | @stuck seen place part rest target inner goes link met resolved unfinished ih =>
      cases leads with
      | link _ link' inside leads =>
          cases link.symm.trans link'
          have inside' := (linkLeads_iff link).mpr inside
          exact absurd (ih inside (KnownAs.pending right _) (within.enter inside')).1 unfinished
      | _ => simp_all [GoesDown]

theorem Leads.moves {n : Nat} (h : Leads d n place steps q) :
    Leads d n place (steps.filter fun part => !staysPut part) q := by
  induction h with
  | done place => exact .done place
  | stay stays _ ih =>
      rw [List.filter_cons_of_neg (by simp [stays])]
      exact ih
  | up _ ih => exact .up ih
  | down goes noLink _ ih =>
      rw [List.filter_cons_of_pos (by simp [goes.1])]
      exact .down goes noLink ih
  | link goes link inside _ _ onward =>
      rw [List.filter_cons_of_pos (by simp [goes.1])]
      exact .link goes link inside onward

theorem Leads.descend {n : Nat} {names : List Name} (named : Location.Named names)
    (free : d.LinkFree (place ++ names)) (h : Leads d n (place ++ names) steps q) :
    Leads d n place (names ++ steps) q := by
  induction names generalizing place with
  | nil =>
      rw [List.append_nil] at h
      exact h
  | cons name names ih =>
      obtain ⟨first, named⟩ := List.forall_mem_cons.mp named
      rw [List.append_cons] at free h
      have noLink : d.link? (place ++ [name]) = none := free _ (List.prefix_append _ names)
      exact .down ⟨first.moves, first.goesDown⟩ noLink (ih named free h)

/-- A path that leads anywhere leads to the location that it stands for, if no link is on the way to
where it begins. -/
theorem realLocation_of_leads {n : Nat} {path : Path} (named : (beginning place path).Named)
    (free : d.LinkFree (beginning place path))
    (leads : Leads d n (beginning place path) (splitSlash path) q) :
    d.realLocation place path = q := by
  have resolved := d.resolution_resolves place path
  have descends : Leads d n [] (stepsOf place path) q := by
    rw [stepsOf_eq]
    apply Leads.descend named
    · rwa [List.nil_append]
    · exact leads.moves
  obtain ⟨finished, there, -⟩ := resolved.finishes descends .nil fun _ _ _ => nofun
  rw [realLocation, resolved.location_eq finished, there]

theorem Leads.split {n : Nat} (h : Leads d n place (steps ++ rest) q) :
    ∃ m k p, Leads d m place steps p ∧ Leads d k p rest q := by
  induction steps generalizing n place with
  | nil => exact ⟨0, n, place, .done place, h⟩
  | cons part steps ih =>
      cases h with
      | stay stays h =>
          obtain ⟨m, k, p, front, back⟩ := ih h
          exact ⟨m, k, p, .stay stays front, back⟩
      | up h =>
          obtain ⟨m, k, p, front, back⟩ := ih h
          exact ⟨m, k, p, .up front, back⟩
      | down goes noLink h =>
          obtain ⟨m, k, p, front, back⟩ := ih h
          exact ⟨m, k, p, .down goes noLink front, back⟩
      | link goes link inside h =>
          obtain ⟨m, k, p, front, back⟩ := ih h
          exact ⟨_, k, p, .link goes link inside front, back⟩

private theorem follow_leads {jump : Location → List Name → Except Fault Location}
    (jumps : ∀ place steps, jump place steps = .ok q → ∃ n, Leads d n place steps q)
    (found : follow jump d place steps = .ok q) : ∃ n, Leads d n place steps q := by
  induction steps generalizing place with
  | nil =>
      cases found
      exact ⟨0, .done _⟩
  | cons part rest ih =>
      rw [follow_cons] at found
      cases moved : d.move place part with
      | error fault =>
          rw [moved] at found
          cases found
      | ok m =>
          rw [moved] at found
          rcases move_eq_ok moved with ⟨stays, rfl⟩ | ⟨rfl, rfl⟩ |
            ⟨goes, ⟨noLink, rfl⟩ | ⟨target, link, rfl⟩⟩
          · obtain ⟨n, leads⟩ := ih found
            exact ⟨n, .stay stays leads⟩
          · obtain ⟨n, leads⟩ := ih found
            exact ⟨n, .up leads⟩
          · obtain ⟨n, leads⟩ := ih found
            exact ⟨n, .down goes noLink leads⟩
          · obtain ⟨n, leads⟩ := jumps _ _ found
            obtain ⟨m, k, p, inside, onward⟩ := leads.split
            exact ⟨_, .link goes link inside onward⟩

theorem walk_leads {links : Nat} (found : d.walk links place steps = .ok q) :
    ∃ n, Leads d n place steps q := by
  induction links generalizing place steps with
  | zero =>
      rw [walk] at found
      refine follow_leads ?_ found
      intro _ _ failed
      cases failed
  | succ links ih =>
      rw [walk] at found
      exact follow_leads (fun _ _ => ih) found

/-- What the path of a location leads to is the location that the path stands for. No link is on the way
to it. -/
theorem find_real {p : Location} (found : d.find p.path = .ok q) :
    d.realLocation [] p.path = q ∧ d.LinkFree q := by
  obtain ⟨n, leads⟩ := walk_leads (find_eq_ok.mp found).2.2.2
  have start (place : Location) : beginning place p.path = [] := rfl
  rw [start, ← start []] at leads
  exact ⟨realLocation_of_leads (fun _ => nofun) (.nil d) leads,
    leads.linkFree (start [] ▸ .nil d)⟩

end Restyle.Disk
