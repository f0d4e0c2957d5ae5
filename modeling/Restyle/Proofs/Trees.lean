import Restyle.Syntax.Tree

/-!
# Trees in document order

A walk calls at every node once, parents before children and children from first to last. Of two
nodes in that order, the second is under the first or comes after all that is under it.
-/

namespace Restyle.Syntax.Tree

variable {α β : Type}

theorem induct {P : Tree α → Prop} (step : ∀ a ts, (∀ t ∈ ts, P t) → P (node a ts)) (t : Tree α) :
    P t :=
  Tree.rec (motive_1 := P) (motive_2 := fun ts => ∀ t ∈ ts, P t) step (by simp)
    (fun t ts ht hts u hu => by
      rcases List.mem_cons.mp hu with rfl | hu
      · exact ht
      · exact hts u hu) t

theorem subtrees_eq (t : Tree α) : subtrees t = t :: subtreesAll t.children := by
  cases t
  rw [subtrees]
  rfl

theorem subtreesAll_eq (ts : List (Tree α)) : subtreesAll ts = ts.flatMap subtrees := by
  induction ts with
  | nil => rfl
  | cons t ts ih => rw [subtreesAll, ih, List.flatMap_cons]

@[simp] theorem subtreesAll_append (ts us : List (Tree α)) :
    subtreesAll (ts ++ us) = subtreesAll ts ++ subtreesAll us := by
  simp only [subtreesAll_eq, List.flatMap_append]

theorem mem_subtreesAll {ts : List (Tree α)} {u : Tree α} :
    u ∈ subtreesAll ts ↔ ∃ t ∈ ts, u ∈ subtrees t := by
  rw [subtreesAll_eq, List.mem_flatMap]

theorem preorder_eq (t : Tree α) : preorder t = (subtrees t).map label := by
  induction t using induct with
  | step a ts ih =>
      have all : preorderAll ts = (subtreesAll ts).map label := by
        induction ts with
        | nil => rfl
        | cons t ts later =>
            rw [preorderAll, subtreesAll, List.map_append, ih t List.mem_cons_self,
              later fun u hu => ih u (List.mem_cons_of_mem t hu)]
      rw [preorder, subtrees, List.map_cons, all]
      rfl

theorem self_mem_subtrees (t : Tree α) : t ∈ subtrees t := by
  rw [subtrees_eq]
  exact List.mem_cons_self

theorem mem_subtrees_trans {t u v : Tree α} (hu : u ∈ subtrees t) (hv : v ∈ subtrees u) :
    v ∈ subtrees t := by
  induction t using induct with
  | step a ts ih =>
      rw [subtrees_eq, List.mem_cons, mem_subtreesAll] at hu
      rcases hu with rfl | ⟨t, ht, hu⟩
      · exact hv
      · rw [subtrees_eq]
        exact List.mem_cons_of_mem _ (mem_subtreesAll.mpr ⟨t, ht, ih t ht hu⟩)

theorem mem_subtrees_of_mem_children {t u v : Tree α} (hu : u ∈ t.children)
    (hv : v ∈ subtrees u) : v ∈ subtrees t := by
  rw [subtrees_eq]
  exact List.mem_cons_of_mem _ (mem_subtreesAll.mpr ⟨u, hu, hv⟩)

theorem size_eq (t : Tree α) : size t = sizeAll t.children + 1 := by
  cases t
  rw [size]
  rfl

theorem sizeAll_append (ts us : List (Tree α)) :
    sizeAll (ts ++ us) = sizeAll ts + sizeAll us := by
  induction ts with
  | nil => simp [sizeAll]
  | cons t ts ih => simp [sizeAll, ih, Nat.add_assoc]

theorem sizeAll_cons (t : Tree α) (ts : List (Tree α)) :
    sizeAll (t :: ts) = sizeAll (t.children ++ ts) + 1 := by
  rw [sizeAll, size_eq, sizeAll_append, Nat.add_right_comm]

theorem subtreesAll_cons (t : Tree α) (ts : List (Tree α)) :
    subtreesAll (t :: ts) = t :: subtreesAll (t.children ++ ts) := by
  rw [subtreesAll, subtrees_eq, subtreesAll_append, List.cons_append]

private theorem walkAgenda_eq (visit : Tree α → Option β) (steps : Nat) (agenda : List (Tree α))
    (enough : sizeAll agenda ≤ steps) :
    walkAgenda visit steps agenda = (subtreesAll agenda).filterMap visit := by
  induction steps generalizing agenda with
  | zero =>
      cases agenda with
      | nil => rfl
      | cons t agenda =>
          rw [sizeAll_cons] at enough
          omega
  | succ steps ih =>
      cases agenda with
      | nil => rfl
      | cons t agenda =>
          have left : sizeAll (t.children ++ agenda) ≤ steps := by
            rw [sizeAll_cons] at enough
            omega
          rw [walkAgenda, subtreesAll_cons, ih _ left]
          cases hv : visit t with
          | none => rw [List.filterMap_cons_none hv]
          | some b => rw [List.filterMap_cons_some hv]

theorem walk_eq (visit : Tree α → Option β) (t : Tree α) :
    walk visit t = (subtrees t).filterMap visit := by
  rw [walk, walkAgenda_eq visit _ _ (by simp [sizeAll]), subtreesAll, subtreesAll, List.append_nil]

/-- Of two nodes in document order, the second is under the first, or both lie under siblings. -/
theorem subtrees_pairwise {R : Tree α → Tree α → Prop} (t : Tree α)
    (under : ∀ u ∈ subtrees t, ∀ v ∈ subtreesAll u.children, R u v)
    (apart : ∀ u ∈ subtrees t, u.children.Pairwise fun a b =>
      ∀ x ∈ subtrees a, ∀ y ∈ subtrees b, R x y) :
    (subtrees t).Pairwise R := by
  induction t using induct with
  | step a ts ih =>
      rw [subtrees_eq, List.pairwise_cons]
      refine ⟨under _ (self_mem_subtrees _), ?_⟩
      rw [subtreesAll_eq, List.pairwise_flatMap]
      refine ⟨fun t ht => ih t ht (fun u hu => ?_) fun u hu => ?_, apart _ (self_mem_subtrees _)⟩
      · exact under u (mem_subtrees_of_mem_children ht hu)
      · exact apart u (mem_subtrees_of_mem_children ht hu)

end Restyle.Syntax.Tree
