import Mathlib.Data.List.Forall2
import Restyle.Proofs.Addresses
import Restyle.Proofs.NestedTrees
import Restyle.Proofs.Ways

/-!
# What a walk visits

A walk is a loop with a stack: the node at the end of the stack is taken off and visited, and its
children are put on, last to first. A mapping gives some types of nodes a callback, which may change a
state. The loop ends after as many turns as there are nodes, and the callbacks have been run at every
node of their types once, in the order of the ways to them. So the outline of a document and the
search for an address list opening constructs in document order, and leave none out.
-/

namespace Restyle.Syntax.Tree

variable {α β τ σ : Type}

/-- What a visit of a node does to a state: the callback of the node's type is run, if it has one. -/
def visited (type : α → τ) (callbacks : τ → Option (Tree α → σ → σ)) (s : σ) (t : Tree α) : σ :=
  match callbacks (type t.label) with
  | some call => call t s
  | none => s

/-- One turn of the loop of a walk, if the stack is not empty. -/
def turn (visit : σ → Tree α → σ) (state : List (Tree α) × σ) : Option (List (Tree α) × σ) :=
  state.1.getLast?.map fun t => (state.1.dropLast ++ t.children.reverse, visit state.2 t)

/-- So many turns of the loop, if it goes on for so long. -/
def turns (visit : σ → Tree α → σ) : Nat → List (Tree α) × σ → Option (List (Tree α) × σ)
  | 0, state => some state
  | n + 1, state => (turn visit state).bind (turns visit n)

/-- The ways to the nodes at which a visit gives something, in the order of a walk. -/
def ways (visit : Tree α → Option β) (t : Tree α) : List (List Nat) :=
  (t.withPaths []).walk fun n => (visit (n.map Prod.snd)).map fun _ => n.label.1

theorem turn_reverse (visit : σ → Tree α → σ) (t : Tree α) (agenda : List (Tree α)) (s : σ) :
    turn visit ((t :: agenda).reverse, s) = some ((t.children ++ agenda).reverse, visit s t) := by
  rw [turn, List.reverse_cons, List.getLast?_concat, List.dropLast_concat, List.reverse_append]
  rfl

theorem turns_reverse (visit : σ → Tree α → σ) (agenda : List (Tree α)) (s : σ) :
    turns visit (sizeAll agenda) (agenda.reverse, s) =
      some ([], (subtreesAll agenda).foldl visit s) := by
  generalize left : sizeAll agenda = n
  induction n generalizing agenda s with
  | zero =>
      cases agenda with
      | nil => rfl
      | cons t agenda =>
          rw [sizeAll_cons] at left
          omega
  | succ n ih =>
      cases agenda with
      | nil =>
          rw [sizeAll] at left
          omega
      | cons t agenda =>
          rw [sizeAll_cons] at left
          rw [turns, turn_reverse, Option.bind_some, ih _ _ (Nat.succ.inj left), subtreesAll_cons,
            List.foldl_cons]

/-- The loop takes one turn a node, and the nodes are visited in document order. -/
theorem turns_size (visit : σ → Tree α → σ) (t : Tree α) (s : σ) :
    turns visit t.size ([t], s) = some ([], t.subtrees.foldl visit s) := by
  have loop := turns_reverse visit [t] s
  rwa [sizeAll, sizeAll, Nat.add_zero, subtreesAll, subtreesAll, List.append_nil] at loop

theorem turns_walk (type : α → τ) (callbacks : τ → Option (Tree α → σ → σ)) (t : Tree α) (s : σ) :
    turns (visited type callbacks) t.size ([t], s) =
      some ([], (t.walk fun u => (callbacks (type u.label)).map (· u)).foldl (fun s call => call s) s) := by
  rw [turns_size, walk_eq, List.foldl_filterMap]
  congr 3
  funext s u
  rw [visited]
  cases callbacks (type u.label) <;> rfl

theorem ways_pairwise (visit : Tree α → Option β) (t : Tree α) :
    (t.ways visit).Pairwise (· < ·) := by
  rw [ways, walk_eq, List.pairwise_filterMap]
  refine (ways_ascend t []).imp fun {n m} ascend way called later onward => ?_
  obtain ⟨-, -, rfl⟩ := Option.map_eq_some_iff.mp called
  obtain ⟨-, -, rfl⟩ := Option.map_eq_some_iff.mp onward
  exact ascend

theorem mem_ways {visit : Tree α → Option β} {t : Tree α} {way : List Nat} :
    way ∈ t.ways visit ↔ ∃ u, t.at? way = some u ∧ (visit u).isSome := by
  rw [ways, walk_eq, List.mem_filterMap]
  constructor
  · rintro ⟨n, mem, called⟩
    obtain ⟨_, u, there, rfl⟩ := mem_subtrees_withPaths.mp mem
    obtain ⟨given, visited, rfl⟩ := Option.map_eq_some_iff.mp called
    rw [map_withPaths] at visited
    rw [label_withPaths]
    exact ⟨u, there, Option.isSome_of_eq_some visited⟩
  · rintro ⟨u, there, called⟩
    obtain ⟨given, visited⟩ := Option.isSome_iff_exists.mp called
    refine ⟨u.withPaths way, mem_subtrees_withPaths.mpr ⟨way, u, there, rfl⟩, ?_⟩
    rw [label_withPaths, map_withPaths, visited]
    rfl

theorem map_ways (visit : Tree α → Option β) (t : Tree α) :
    (t.ways visit).map (fun way => (t.at? way).bind visit) = (t.walk visit).map some := by
  rw [ways, walk_eq, walk_eq, ← subtrees_withoutPaths t [], List.filterMap_map, List.map_filterMap,
    List.map_filterMap]
  apply List.filterMap_congr
  intro n mem
  obtain ⟨way, u, there, rfl⟩ := mem_subtrees_withPaths.mp mem
  rw [Function.comp_apply, map_withPaths, label_withPaths, List.nil_append]
  cases given : visit u with
  | none => rfl
  | some b => simp [there, given]

end Restyle.Syntax.Tree

namespace Restyle

open Syntax Text

/-- A mapping that runs a callback at opening constructs, if they have a name. -/
def onOpenings {σ : Type} (call : Opening → σ → σ) (kind : Kind) : Option (Node → σ → σ) :=
  if kind.isTag then some fun n s => (opening? n).elim s fun o => call o s
  else none

theorem opening?_isSome {n : Node} :
    (opening? n).isSome ↔ n.kind.isTag ∧ ∃ c ∈ n.children, Node.kind c = .tagName := by
  rw [opening?]
  cases n.kind with
  | opening | selfClosing => simp [Kind.isTag]
  | _ => simp [Kind.isTag]

private theorem visited_onOpenings {σ : Type} (call : Opening → σ → σ) (s : σ) (n : Node) :
    Tree.visited Label.kind (onOpenings call) s n = (opening? n).elim s fun o => call o s := by
  rw [Tree.visited, onOpenings]
  cases tag : n.label.kind.isTag with
  | true => rfl
  | false =>
      cases named : opening? n with
      | none => rfl
      | some o =>
          have kind := (opening?_eq_some named).2.1
          rw [Node.kind, tag] at kind
          cases kind

namespace Document

variable {d : Document}

/-- An opening construct is put on an outline; `s` are the names before it, and the outline so far. -/
def enlist (d : Document) (o : Opening) (s : List (List Char) × List Element) :
    List (List Char) × List Element :=
  let name := d.nodeText o.name
  (name :: s.1, s.2 ++ [d.elementAt o (s.1.count name)])

/-- An opening construct is compared with an address; `s` are the number of its name before it, and
what has been found so far. -/
def seek (d : Document) (tag : List Char) (ordinal : Option Int) (o : Opening)
    (s : Nat × List Element) : Nat × List Element :=
  if d.nodeText o.name = tag then
    (s.1 + 1, if ordinal.all (· = (s.1 : Int)) then s.2 ++ [d.elementAt o s.1] else s.2)
  else s

private theorem foldl_enlist (os : List Opening) (before : List (List Char)) (es : List Element) :
    ∃ names, os.foldl (fun s o => d.enlist o s) (before, es) =
      (names, es ++ d.outlineFrom before os) := by
  induction os generalizing before es with
  | nil => exact ⟨before, by rw [outlineFrom, List.append_nil]; rfl⟩
  | cons o os ih =>
      obtain ⟨names, rest⟩ := ih (d.nodeText o.name :: before)
        (es ++ [d.elementAt o (before.count (d.nodeText o.name))])
      refine ⟨names, ?_⟩
      rw [List.foldl_cons, enlist, rest, outlineFrom, List.append_assoc]
      rfl

private theorem foldl_seek (tag : List Char) (ordinal : Option Int) (os : List Opening) (before : Nat)
    (es : List Element) :
    ∃ seen, os.foldl (fun s o => d.seek tag ordinal o s) (before, es) =
      (seen, es ++ d.locateFrom tag ordinal before os) := by
  induction os generalizing before es with
  | nil => exact ⟨before, by rw [locateFrom, List.append_nil]; rfl⟩
  | cons o os ih =>
      rw [List.foldl_cons, seek, locateFrom]
      by_cases called : d.nodeText o.name = tag
      · rw [if_pos called, if_pos called]
        cases ordinal with
        | none => simpa using ih (before + 1) (es ++ [d.elementAt o before])
        | some n =>
            by_cases here : n = before
            · simpa [here] using ih (before + 1) (es ++ [d.elementAt o before])
            · simpa [here] using ih (before + 1) es
      · rw [if_neg called, if_neg called]
        exact ih before es

/-- A loop over a document's tree runs a callback at its opening constructs with a name. -/
theorem turns_openings {σ : Type} (d : Document) (call : Opening → σ → σ) (s : σ) :
    Tree.turns (Tree.visited Label.kind (onOpenings call)) d.root.size ([d.root], s) =
      some ([], d.openings.foldl (fun s o => call o s) s) := by
  have visit : Tree.visited Label.kind (onOpenings call) =
      fun s n => (opening? n).elim s fun o => call o s := by
    funext s n
    exact visited_onOpenings call s n
  rw [Tree.turns_size, openings, Tree.walk_eq, List.foldl_filterMap, visit]
  congr 3
  funext s n
  cases opening? n <;> rfl

theorem outline_openings (d : Document) :
    List.Forall₂ (fun o e => e = d.elementAt o e.ordinal) d.openings d.outline := by
  rw [outline]
  generalize d.openings = os
  generalize ([] : List (List Char)) = before
  induction os generalizing before with
  | nil => exact .nil
  | cons o os ih => exact .cons rfl (ih _)

theorem outline_order (h : d.NestedTree) : d.outline.Pairwise fun e f => e.start ≤ f.start := by
  have starts : d.outline.map Element.start = d.openings.map fun o => o.node.start := by
    symm
    rw [← List.forall₂_eq_eq_eq, List.forall₂_map_left_iff, List.forall₂_map_right_iff]
    exact (outline_openings d).imp fun o e made => by rw [made]; rfl
  rw [← List.pairwise_map (f := Element.start) (R := (· ≤ ·)), starts, List.pairwise_map]
  exact openings_order h

/-- The elements of the outline are those of the opening constructs with a name, by their ways. -/
theorem outline_ways (d : Document) :
    List.Forall₂ (fun way e => ∃ o, (d.root.at? way).bind opening? = some o ∧
      e = d.elementAt o e.ordinal) (d.root.ways opening?) d.outline := by
  rw [← List.forall₂_map_left_iff (f := fun way => (d.root.at? way).bind opening?)
    (R := fun found e => ∃ o, found = some o ∧ e = d.elementAt o e.ordinal), Tree.map_ways,
    List.forall₂_map_left_iff]
  exact (outline_openings d).imp fun o e made => ⟨o, rfl, made⟩

/-- Of every tree and every mapping from types of nodes to callbacks, the loop of a walk ends after as
many turns as there are nodes, with the callbacks run that a walk collects. These are the callbacks of
the nodes whose types have one, each at its node, once and in the order of the recursive traversal; the
ways to the nodes ascend. The outline of a document and the search for an address are such loops, with a
callback for opening constructs. The outline has one element for each of those with a name, in the order
of their ways, and an address finds those of the outline that have its name and its ordinal. Where spans
are nested and follow one another, elements come in the order in which they begin. -/
theorem walk_visits :
    (∀ {α τ σ : Type} (type : α → τ) (callbacks : τ → Option (Syntax.Tree α → σ → σ))
        (t : Syntax.Tree α) (s : σ),
      let visit : Syntax.Tree α → Option (σ → σ) := fun u => (callbacks (type u.label)).map (· u)
      Tree.turns (Tree.visited type callbacks) t.size ([t], s) =
          some ([], (t.walk visit).foldl (fun s call => call s) s) ∧
        t.walk visit = t.subtrees.filterMap visit ∧
        (t.ways visit).map (fun way => (t.at? way).bind visit) = (t.walk visit).map some ∧
        (t.ways visit).Pairwise (· < ·) ∧
        ∀ way, way ∈ t.ways visit ↔
          ∃ u, t.at? way = some u ∧ (callbacks (type u.label)).isSome) ∧
    ∀ d : Document,
      (∃ names, Tree.turns (Tree.visited Label.kind (onOpenings d.enlist)) d.root.size
        ([d.root], [], []) = some ([], names, d.outline)) ∧
      (∀ tag ordinal, ∃ seen, Tree.turns (Tree.visited Label.kind (onOpenings (d.seek tag ordinal)))
        d.root.size ([d.root], 0, []) = some ([], seen, d.locate tag ordinal)) ∧
      (d.root.ways opening?).Pairwise (· < ·) ∧
      (∀ way, way ∈ d.root.ways opening? ↔ ∃ n : Node, d.root.at? way = some n ∧ n.kind.isTag ∧
        ∃ c ∈ n.children, Node.kind c = .tagName) ∧
      List.Forall₂ (fun way e => ∃ o, (d.root.at? way).bind opening? = some o ∧
        e = d.elementAt o e.ordinal) (d.root.ways opening?) d.outline ∧
      (∀ tag ordinal, d.locate tag ordinal =
        d.outline.filter fun e => e.tagName = tag ∧ ordinal.all (· = e.ordinal)) ∧
      (d.NestedTree → d.outline.Pairwise (fun e f => e.start ≤ f.start) ∧
        ∀ tag ordinal, (d.locate tag ordinal).Pairwise fun e f => e.start ≤ f.start) := by
  constructor
  · intro α τ σ type callbacks t s visit
    have calls (u : Syntax.Tree α) : (visit u).isSome = (callbacks (type u.label)).isSome :=
      Option.isSome_map
    refine ⟨Tree.turns_walk type callbacks t s, Tree.walk_eq visit t, Tree.map_ways visit t,
      Tree.ways_pairwise visit t, fun way => ?_⟩
    simp only [Tree.mem_ways, calls]
  · intro d
    refine ⟨?_, fun tag ordinal => ?_, Tree.ways_pairwise opening? d.root, fun way => ?_,
      outline_ways d, locate_filter d,
      fun nested => ⟨outline_order nested, fun tag ordinal => ?_⟩⟩
    · obtain ⟨names, gathered⟩ := foldl_enlist (d := d) d.openings [] []
      refine ⟨names, ?_⟩
      rw [turns_openings, gathered]
      rfl
    · obtain ⟨seen, found⟩ := foldl_seek (d := d) tag ordinal d.openings 0 []
      refine ⟨seen, ?_⟩
      rw [turns_openings, found]
      rfl
    · simp only [Tree.mem_ways, opening?_isSome]
    · exact locate_order nested tag ordinal

set_option maxRecDepth 100000 in
theorem walk_visits_list :
    ∃ d, parse .tsx "<p><b/><p/></p>".toList = .ok d ∧ d.NestedTree ∧
      d.outline.map Element.start = [0, 3, 7] ∧
      (d.outline.Pairwise fun e f => e.start ≤ f.start) ∧
      (d.locate "p".toList none).Pairwise fun e f => e.start ≤ f.start := by
  have listed : (parse .tsx "<p><b/><p/></p>".toList).toOption.any fun d =>
      d.outline.map Element.start = [0, 3, 7] := by
    decide +kernel
  cases parsed : parse .tsx "<p><b/><p/></p>".toList with
  | error e =>
      rw [parsed] at listed
      cases listed
  | ok d =>
      rw [parsed] at listed
      obtain ⟨-, -, -, sound⟩ := parse_spec parsed
      obtain ⟨-, -, -, -, -, -, inOrder⟩ := walk_visits.2 d
      obtain ⟨outline, locate⟩ := inOrder sound.nested
      exact ⟨d, rfl, sound.nested, of_decide_eq_true listed, outline, locate _ _⟩

end Document

end Restyle
