import Mathlib.Data.List.Basic
import Mathlib.Data.List.Find
import Restyle.Proofs.Ways

/-!
# The first problem of a tree

The search for a problem looks at the children of suspect nodes only. What it finds is the first problem
in document order among those that lie under suspect nodes only. Where nothing that holds a problem is
above suspicion, this is the first problem of all.
-/

namespace Restyle.Syntax.Tree

variable {α β : Type} {problem suspect : α → Bool}

/-- Whether all proper ancestors of the node at the end of a way are suspect. -/
def underSuspects (suspect : α → Bool) (t : Tree α) (path : List Nat) : Bool :=
  (List.range path.length).all fun n => (t.at? (path.take n)).all fun u => suspect u.label

@[simp] theorem underSuspects_nil (t : Tree α) : t.underSuspects suspect [] = true := rfl

theorem underSuspects_cons {a : α} {ts : List (Tree α)} {u : Tree α} {i : Nat} (h : ts[i]? = some u)
    (path : List Nat) :
    (node a ts).underSuspects suspect (i :: path) = (suspect a && u.underSuspects suspect path) := by
  simp [underSuspects, List.range_succ_eq_map, List.all_map, Function.comp_def, at?, h]

/-- What is found on an agenda is what is found in the first of its trees that holds anything, if there
are steps enough. -/
private theorem searchAgenda_eq {steps : Nat} {agenda : List (Tree α)}
    (enough : sizeAll agenda ≤ steps) :
    searchAgenda problem suspect steps agenda = agenda.findSome? (firstProblem problem suspect) := by
  induction steps using Nat.strongRecOn generalizing agenda with
  | ind steps ih =>
      cases agenda with
      | nil => cases steps <;> rfl
      | cons t agenda =>
          cases steps with
          | zero =>
              rw [sizeAll, size_eq] at enough
              omega
          | succ steps =>
              rw [sizeAll, size_eq] at enough
              have inside : sizeAll (t.children ++ []) = sizeAll t.children := by
                rw [List.append_nil]
              have both : sizeAll (t.children ++ agenda) ≤ steps := by
                rw [sizeAll_append]
                omega
              rw [List.findSome?_cons, firstProblem, size_eq, searchAgenda, searchAgenda]
              split
              · rfl
              · split
                · rw [ih steps (by omega) both, ih _ (by omega) (Nat.le_of_eq inside), List.append_nil,
                    List.findSome?_append]
                  cases t.children.findSome? (firstProblem problem suspect) <;> rfl
                · rw [ih steps (by omega) (by omega)]
                  cases sizeAll t.children <;> rfl

/-- A problem hides all that is under it, and what is not suspect hides it too. -/
theorem firstProblem_node (a : α) (ts : List (Tree α)) :
    (node a ts).firstProblem problem suspect =
      if problem a then some (node a ts)
      else if suspect a then ts.findSome? (firstProblem problem suspect)
      else none := by
  have enough : sizeAll (ts ++ []) = sizeAll ts := by
    rw [List.append_nil]
  rw [firstProblem, size_eq, children_mk, searchAgenda, label_mk, children_mk,
    searchAgenda_eq (Nat.le_of_eq enough), List.append_nil]
  cases sizeAll ts <;> rfl

private theorem findSome?_congr {f g : β → Option α} {l : List β} (h : ∀ b ∈ l, f b = g b) :
    l.findSome? f = l.findSome? g := by
  induction l with
  | nil => rfl
  | cons b l ih =>
      obtain ⟨first, rest⟩ := List.forall_mem_cons.mp h
      rw [List.findSome?_cons, List.findSome?_cons, first, ih rest]

theorem firstProblem_map (f : β → α) (t : Tree β) :
    (t.map f).firstProblem problem suspect =
      (t.firstProblem (fun b => problem (f b)) fun b => suspect (f b)).map (map f) := by
  induction t using induct with
  | step b ts ih =>
      have children : (ts.map (map f)).findSome? (firstProblem problem suspect) =
          (ts.findSome? (firstProblem (fun b => problem (f b)) fun b => suspect (f b))).map (map f) := by
        rw [List.findSome?_map, List.map_findSome?]
        exact findSome?_congr ih
      rw [map, mapAll_eq, firstProblem_node, firstProblem_node, children]
      split
      · rw [Option.map_some, map, mapAll_eq]
      · split <;> rfl

private theorem underSuspects_child {a : α} {ts : List (Tree α)} {path : List Nat} {u : Tree α × Nat}
    (child : u ∈ ts.zipIdx) {n : List Nat × α} (below : n ∈ (u.1.withPaths (path ++ [u.2])).preorder) :
    (node a ts).underSuspects suspect (n.1.drop path.length) =
      (suspect a && u.1.underSuspects suspect (n.1.drop (path ++ [u.2]).length)) := by
  obtain ⟨rest, onward⟩ := path_of_mem_preorder below
  rw [← onward, List.drop_left, List.append_assoc, List.drop_left]
  exact underSuspects_cons (List.mem_zipIdx_iff_getElem?.mp child) rest

theorem firstProblem_withPaths (t : Tree α) (path : List Nat) :
    ((t.withPaths path).firstProblem (fun n => problem n.2) fun n => suspect n.2).map label =
      (t.withPaths path).preorder.find? fun n =>
        problem n.2 && t.underSuspects suspect (n.1.drop path.length) := by
  induction t using induct generalizing path with
  | step a ts ih =>
      have member {u : Tree α × Nat} (child : u ∈ ts.zipIdx) : u.1 ∈ ts :=
        List.mem_of_getElem? (List.mem_zipIdx_iff_getElem?.mp child)
      have inside : (if suspect a then ((withPathsAll path 0 ts).findSome?
            (firstProblem (fun n => problem n.2) fun n => suspect n.2)).map label else none) =
          ts.zipIdx.findSome? fun u => (u.1.withPaths (path ++ [u.2])).preorder.find? fun n =>
            problem n.2 && (node a ts).underSuspects suspect (n.1.drop path.length) := by
        rw [withPathsAll_eq, List.findSome?_map, List.map_findSome?]
        cases flagged : suspect a with
        | true =>
            rw [if_pos rfl]
            apply findSome?_congr
            intro u child
            refine (ih u.1 (member child) _).trans (List.find?_congr fun n below => ?_)
            rw [underSuspects_child child below, flagged, Bool.true_and]
        | false =>
            symm
            rw [if_neg Bool.false_ne_true, List.findSome?_eq_none_iff]
            intro u child
            rw [List.find?_eq_none]
            intro n below
            rw [underSuspects_child child below, flagged, Bool.false_and, Bool.and_false]
            exact Bool.false_ne_true
      rw [preorder_withPaths, List.find?_cons, List.find?_flatMap, ← inside, withPaths, firstProblem_node,
        List.drop_length, underSuspects_nil, Bool.and_true]
      cases problem a with
      | true => rfl
      | false => cases suspect a <;> rfl

/-- The search finds the first problem in document order whose proper ancestors are all suspect. If all
proper ancestors of problems are suspect, it finds the first problem, and nothing only if there is
none. -/
theorem firstProblem_first (problem suspect : α → Bool) (t : Tree α) :
    let nodes := (t.withPaths []).preorder
    let found := (t.withPaths []).firstProblem (fun n => problem n.2) fun n => suspect n.2
    t.firstProblem problem suspect = found.map (map Prod.snd) ∧
      found.map label = nodes.find? (fun n => problem n.2 && t.underSuspects suspect n.1) ∧
      ((∀ n ∈ nodes, problem n.2 → t.underSuspects suspect n.1) →
        found.map label = nodes.find? (fun n => problem n.2) ∧
          (t.firstProblem problem suspect = none ↔ ∀ a ∈ t.preorder, ¬ problem a)) := by
  intro nodes found
  have same : t.firstProblem problem suspect = found.map (map Prod.snd) := by
    conv_lhs => rw [← map_withPaths t []]
    exact firstProblem_map Prod.snd _
  have first : found.map label =
      nodes.find? fun n => problem n.2 && t.underSuspects suspect n.1 :=
    firstProblem_withPaths t []
  refine ⟨same, first, fun guarded => ?_⟩
  have all : found.map label = nodes.find? fun n => problem n.2 := by
    rw [first]
    apply List.find?_congr
    intro n mem
    cases flagged : problem n.2 with
    | true => exact guarded n mem flagged
    | false => rfl
  refine ⟨all, ?_⟩
  have labels : nodes.map Prod.snd = t.preorder := preorder_withoutPaths t []
  rw [same, Option.map_eq_none_iff, ← Option.map_eq_none_iff (f := label), all, List.find?_eq_none,
    ← labels, List.forall_mem_map]

theorem firstProblem_first_nested :
    let t : Tree (Bool × Bool) :=
      node (false, true) [node (false, true) [node (false, false) []],
        node (false, true) [node (true, false) [], node (true, true) [node (true, false) []]]]
    (∀ n ∈ (t.withPaths []).preorder, n.2.1 → t.underSuspects Prod.snd n.1) ∧
      ((t.withPaths []).firstProblem (fun n => n.2.1) fun n => n.2.2).map label =
        some ([1, 0], true, false) := by
  intro t
  have guarded : ∀ n ∈ (t.withPaths []).preorder, n.2.1 → t.underSuspects Prod.snd n.1 := by decide
  have first := ((firstProblem_first Prod.fst Prod.snd t).2.2 guarded).1
  refine ⟨guarded, first.trans ?_⟩
  decide

/-- A problem that is not under suspects only is passed over. -/
example :
    let t : Tree (Bool × Bool) :=
      node (false, true) [node (false, false) [node (true, false) []], node (true, false) []]
    ((t.withPaths []).firstProblem (fun n => n.2.1) fun n => n.2.2).map label =
      some ([1], true, false) := by
  decide

end Restyle.Syntax.Tree
