import Mathlib.Data.List.Basic
import Restyle.Proofs.Trees

/-!
# Ways

A node of a tree is told from all others by the way to it from the root: the positions among the
children on the way down. In document order the ways ascend lexicographically, so that a way comes
before those that go on from it, and what is under one child before what is under a later one.
-/

namespace Restyle.Syntax.Tree

variable {α β : Type}

mutual

/-- A tree with other labels. -/
def map (f : α → β) : Tree α → Tree β
  | node a ts => node (f a) (mapAll f ts)

/-- Several trees with other labels. -/
def mapAll (f : α → β) : List (Tree α) → List (Tree β)
  | [] => []
  | t :: ts => map f t :: mapAll f ts

end

theorem mapAll_eq (f : α → β) (ts : List (Tree α)) : mapAll f ts = ts.map (map f) := by
  induction ts with
  | nil => rfl
  | cons t ts ih => rw [mapAll, ih, List.map_cons]

/-- The node at the end of a way from the root. -/
def at? (t : Tree α) : List Nat → Option (Tree α)
  | [] => some t
  | i :: path => t.children[i]?.bind fun u => u.at? path

theorem withPathsAll_eq (path : List Nat) (ts : List (Tree α)) (n : Nat) :
    withPathsAll path n ts = (ts.zipIdx n).map fun u => u.1.withPaths (path ++ [u.2]) := by
  induction ts generalizing n with
  | nil => rfl
  | cons t ts ih => rw [withPathsAll, ih, List.zipIdx_cons, List.map_cons]

theorem preorderAll_eq (ts : List (Tree α)) : preorderAll ts = ts.flatMap preorder := by
  induction ts with
  | nil => rfl
  | cons t ts ih => rw [preorderAll, ih, List.flatMap_cons]

theorem preorder_withPaths (path : List Nat) (a : α) (ts : List (Tree α)) :
    ((node a ts).withPaths path).preorder =
      (path, a) :: ts.zipIdx.flatMap fun u => (u.1.withPaths (path ++ [u.2])).preorder := by
  rw [withPaths, preorder, preorderAll_eq, withPathsAll_eq, List.flatMap_map]

theorem path_of_mem_preorder {t : Tree α} {path : List Nat} {n : List Nat × α}
    (h : n ∈ (t.withPaths path).preorder) : path <+: n.1 := by
  induction t using induct generalizing path with
  | step a ts ih =>
      rw [preorder_withPaths, List.mem_cons, List.mem_flatMap] at h
      rcases h with rfl | ⟨⟨u, i⟩, child, h⟩
      · exact List.prefix_rfl
      · have below := ih u (List.mem_of_getElem? (List.mem_zipIdx_iff_getElem?.mp child)) h
        exact (List.prefix_append path [i]).trans below

theorem preorder_withoutPaths (t : Tree α) (path : List Nat) :
    (t.withPaths path).preorder.map Prod.snd = t.preorder := by
  induction t using induct generalizing path with
  | step a ts ih =>
      rw [preorder_withPaths, List.map_cons, List.map_flatMap, preorder, preorderAll_eq]
      congr 1
      calc ts.zipIdx.flatMap (fun u => (u.1.withPaths (path ++ [u.2])).preorder.map Prod.snd)
          = ts.zipIdx.flatMap (fun u => u.1.preorder) := List.flatMap_congr fun u child =>
            ih u.1 (List.mem_of_getElem? (List.mem_zipIdx_iff_getElem?.mp child)) _
        _ = (ts.zipIdx.map Prod.fst).flatMap preorder := (List.flatMap_map ..).symm
        _ = ts.flatMap preorder := by rw [List.zipIdx_map_fst]

theorem map_withPaths (t : Tree α) (path : List Nat) : (t.withPaths path).map Prod.snd = t := by
  induction t using induct generalizing path with
  | step a ts ih =>
      rw [withPaths, withPathsAll_eq, map, mapAll_eq, List.map_map]
      congr 1
      calc ts.zipIdx.map (map Prod.snd ∘ fun u => u.1.withPaths (path ++ [u.2]))
          = ts.zipIdx.map Prod.fst := List.map_congr_left fun u child =>
            ih u.1 (List.mem_of_getElem? (List.mem_zipIdx_iff_getElem?.mp child)) _
        _ = ts := List.zipIdx_map_fst ..

@[simp] theorem label_withPaths (t : Tree α) (path : List Nat) :
    (t.withPaths path).label = (path, t.label) := by
  cases t
  rfl

theorem children_withPaths (t : Tree α) (path : List Nat) :
    (t.withPaths path).children =
      t.children.zipIdx.map fun u => u.1.withPaths (path ++ [u.2]) := by
  cases t
  rw [withPaths, children_mk, withPathsAll_eq]
  rfl

theorem mem_children_withPaths {t : Tree α} {path : List Nat} {c : Tree (List Nat × α)} :
    c ∈ (t.withPaths path).children ↔
      ∃ (i : Nat) (u : Tree α), t.children[i]? = some u ∧ c = u.withPaths (path ++ [i]) := by
  rw [children_withPaths, List.mem_map]
  constructor
  · rintro ⟨⟨u, i⟩, child, rfl⟩
    exact ⟨i, u, List.mem_zipIdx_iff_getElem?.mp child, rfl⟩
  · rintro ⟨i, u, child, rfl⟩
    exact ⟨(u, i), List.mem_zipIdx_iff_getElem?.mpr child, rfl⟩

theorem mem_subtrees_withPaths {t : Tree α} {path : List Nat} {n : Tree (List Nat × α)} :
    n ∈ (t.withPaths path).subtrees ↔
      ∃ way u, t.at? way = some u ∧ n = u.withPaths (path ++ way) := by
  constructor
  · intro h
    induction t using induct generalizing path with
    | step a ts ih =>
        rw [subtrees_eq, List.mem_cons, mem_subtreesAll] at h
        rcases h with rfl | ⟨c, hc, h⟩
        · exact ⟨[], node a ts, rfl, by rw [List.append_nil]⟩
        · obtain ⟨i, u, child, rfl⟩ := mem_children_withPaths.mp hc
          obtain ⟨way, v, there, rfl⟩ := ih u (List.mem_of_getElem? child) h
          refine ⟨i :: way, v, ?_, by rw [List.append_assoc]; rfl⟩
          rw [at?, child]
          exact there
  · rintro ⟨way, u, there, rfl⟩
    induction way generalizing t path with
    | nil =>
        cases there
        rw [List.append_nil]
        exact self_mem_subtrees _
    | cons i way ih =>
        rw [at?] at there
        obtain ⟨c, child, there⟩ := Option.bind_eq_some_iff.mp there
        have below : u.withPaths (path ++ [i] ++ way) ∈ (c.withPaths (path ++ [i])).subtrees := ih there
        rw [List.append_assoc] at below
        exact mem_subtrees_of_mem_children (mem_children_withPaths.mpr ⟨i, c, child, rfl⟩) below

theorem subtrees_map (f : α → β) (t : Tree α) : (t.map f).subtrees = t.subtrees.map (map f) := by
  induction t using induct with
  | step a ts ih =>
      rw [subtrees_eq, subtrees_eq, List.map_cons, subtreesAll_eq, subtreesAll_eq, List.map_flatMap,
        map, children_mk, mapAll_eq, List.flatMap_map]
      exact congrArg _ (List.flatMap_congr ih)

theorem subtrees_withoutPaths (t : Tree α) (path : List Nat) :
    (t.withPaths path).subtrees.map (map Prod.snd) = t.subtrees := by
  rw [← subtrees_map, map_withPaths]

private theorem way_lt_onward (way : List Nat) (i : Nat) (rest : List Nat) :
    way < way ++ [i] ++ rest := by
  have onward : way ++ [] < way ++ (i :: rest) := List.append_left_lt (List.nil_lt_cons i rest)
  rw [List.append_nil] at onward
  rwa [List.append_assoc]

private theorem way_lt_later (way : List Nat) {i j : Nat} (h : i < j) (front back : List Nat) :
    way ++ [i] ++ front < way ++ [j] ++ back := by
  rw [List.append_assoc, List.append_assoc]
  exact List.append_left_lt (List.cons_lt_cons_iff.mpr (.inl h))

private theorem pairwise_zipIdx (ts : List α) : ts.zipIdx.Pairwise fun u v => u.2 < v.2 := by
  have positions : (ts.zipIdx.map Prod.snd).Pairwise (· < ·) := by
    rw [List.zipIdx_map_snd]
    exact List.pairwise_lt_range'
  exact List.pairwise_map.mp positions

theorem ways_ascend (t : Tree α) (path : List Nat) :
    (t.withPaths path).subtrees.Pairwise fun n m => n.label.1 < m.label.1 := by
  refine subtrees_pairwise _ (fun n hn m hm => ?_) fun n hn => ?_
  · obtain ⟨way, u, -, rfl⟩ := mem_subtrees_withPaths.mp hn
    obtain ⟨c, hc, hm⟩ := mem_subtreesAll.mp hm
    obtain ⟨i, v, -, rfl⟩ := mem_children_withPaths.mp hc
    obtain ⟨rest, w, -, rfl⟩ := mem_subtrees_withPaths.mp hm
    rw [label_withPaths, label_withPaths]
    exact way_lt_onward (path ++ way) i rest
  · obtain ⟨way, u, -, rfl⟩ := mem_subtrees_withPaths.mp hn
    rw [children_withPaths, List.pairwise_map]
    refine (pairwise_zipIdx u.children).imp fun earlier n hn m hm => ?_
    obtain ⟨front, v, -, rfl⟩ := mem_subtrees_withPaths.mp hn
    obtain ⟨back, w, -, rfl⟩ := mem_subtrees_withPaths.mp hm
    rw [label_withPaths, label_withPaths]
    exact way_lt_later (path ++ way) earlier front back

end Restyle.Syntax.Tree
