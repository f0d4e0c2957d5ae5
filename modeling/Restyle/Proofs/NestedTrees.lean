import Restyle.Proofs.Locating

/-!
# Nested trees

What follows from the spans of a tree alone, where they are nested and follow one another: elements
are found in the order of their spans, and the edit that gives an element a value lies within its
opening construct. The ends of such an edit are ends of nodes in every tree.
-/

namespace Restyle

open Syntax Text

/-- The parts of a node follow one another within it. -/
def Syntax.Node.Nested (n : Node) : Prop :=
  Ordered n.start n.stop n.children

theorem span_of_nested {n m : Node} (nested : ∀ u ∈ n.subtrees, Node.Nested u)
    (hm : m ∈ n.subtrees) :
    n.start ≤ m.start ∧ m.stop ≤ n.stop := by
  induction n using Tree.induct with
  | step label children ih =>
      have own := nested _ (Tree.self_mem_subtrees _)
      rw [Tree.subtrees_eq, List.mem_cons, Tree.mem_subtreesAll] at hm
      rcases hm with rfl | ⟨c, hc, hm⟩
      · exact ⟨Nat.le_refl _, Nat.le_refl _⟩
      · have inside := ih c hc (fun u hu => nested u (Tree.mem_subtrees_of_mem_children hc hu)) hm
        have bounds := Ordered.mem own hc
        omega

namespace Document

variable {d : Document} {tag name : List Char} {rendered : List CodePoint}

/-- The spans of a document's tree are nested, and those of siblings follow one another. -/
def NestedTree (d : Document) : Prop :=
  ∀ n ∈ d.root.subtrees, Node.Nested n

/-- The spans of a document's tree begin and end between two characters. -/
def CutTree (d : Document) : Prop :=
  ∀ n ∈ d.root.subtrees, IsCut d.source (Node.start n) ∧ IsCut d.source (Node.stop n)

theorem SoundTree.nested (h : d.SoundTree) : d.NestedTree :=
  fun n hn => (h n hn).ordered

theorem SoundTree.cut (h : d.SoundTree) : d.CutTree :=
  fun n hn => ⟨(h n hn).start.isCut, (h n hn).stop⟩

private theorem subtrees_order {n : Node} (nested : ∀ u ∈ n.subtrees, Node.Nested u) :
    n.subtrees.Pairwise fun u v => Node.start u ≤ Node.start v := by
  have within {u v : Node} (hu : u ∈ n.subtrees) (hv : v ∈ u.subtrees) :
      u.start ≤ v.start ∧ v.stop ≤ u.stop :=
    span_of_nested (fun w hw => nested w (Tree.mem_subtrees_trans hu hw)) hv
  refine Tree.subtrees_pairwise n (fun u hu v hv => ?_) fun u hu => ?_
  · refine (within hu ?_).1
    rw [Tree.subtrees_eq]
    exact List.mem_cons_of_mem u hv
  · have child {c : Node} (hc : c ∈ u.children) : c ∈ n.subtrees :=
      Tree.mem_subtrees_trans hu (Tree.mem_subtrees_of_mem_children hc (Tree.self_mem_subtrees c))
    refine (Ordered.pairwise (nested u hu)).imp_of_mem fun {a b} ha hb apart x hx y hy => ?_
    have front := within (child ha) hx
    have back := within (child hb) hy
    have wide := Node.start_le_stop x
    omega

theorem openings_order (h : d.NestedTree) :
    d.openings.Pairwise fun o p => o.node.start ≤ p.node.start := by
  rw [openings, Tree.walk_eq, List.pairwise_filterMap]
  refine (subtrees_order h).imp fun order o ho p hp => ?_
  rw [(opening?_eq_some ho).1, (opening?_eq_some hp).1]
  exact order

theorem locate_order (h : d.NestedTree) (tag : List Char) (ordinal : Option Int) :
    (d.locate tag ordinal).Pairwise fun e f => e.start ≤ f.start := by
  cases ordinal with
  | none =>
      have named : (d.named tag).Pairwise fun o p => o.node.start ≤ p.node.start :=
        (openings_order h).filter _
      rw [← List.zipIdx_map_fst 0 (d.named tag), List.pairwise_map] at named
      rw [locate_none, List.pairwise_map]
      exact named
  | some n =>
      rcases Int.lt_or_le n 0 with negative | natural
      · rw [locate_negative negative]
        exact .nil
      · obtain ⟨k, rfl⟩ := Int.eq_ofNat_of_zero_le natural
        rw [locate_ordinal]
        cases (d.named tag)[k]? with
        | none => exact .nil
        | some o => exact List.pairwise_singleton _ _

private theorem foldl_max_mem (ns : List Node) (start : Nat) :
    ns.foldl (fun stop (c : Node) => max stop c.stop) start = start ∨
      ∃ n ∈ ns, ns.foldl (fun stop (c : Node) => max stop c.stop) start = n.stop := by
  induction ns generalizing start with
  | nil => exact .inl rfl
  | cons n ns ih =>
      rw [List.foldl_cons]
      rcases ih (max start n.stop) with same | ⟨m, hm, same⟩
      · rw [same]
        rcases Nat.le_total start n.stop with le | le
        · exact .inr ⟨n, List.mem_cons_self, Nat.max_eq_right le⟩
        · exact .inl (Nat.max_eq_left le)
      · exact .inr ⟨m, List.mem_cons_of_mem n hm, same⟩

theorem insertionPoint_mem {o : Opening} (name : o.name ∈ o.node.children) :
    ∃ c ∈ o.node.children, insertionPoint o = Node.stop c := by
  rcases foldl_max_mem ((o.node.children.filter fun (c : Node) => c.kind == .typeArguments) ++
    entries o.node) o.name.stop with same | ⟨c, hc, same⟩
  · exact ⟨o.name, name, same⟩
  · refine ⟨c, ?_, same⟩
    rcases List.mem_append.mp hc with hc | hc
    · exact (List.mem_filter.mp hc).1
    · exact (List.mem_filter.mp hc).1

/-- The edit that gives an element a value replaces a node under its opening construct, or inserts at
the end of one. -/
theorem valueEdit_ends (d : Document) {o : Opening} (named : o.name ∈ o.node.children)
    (ordinal : Nat) (rendered : List CodePoint) (name : List Char) :
    ∃ n : Node, n ∈ o.node.subtrees ∧
      (d.valueEdit (d.elementAt o ordinal) rendered name).stop = n.stop ∧
      ((d.valueEdit (d.elementAt o ordinal) rendered name).start = n.start ∨
        (d.valueEdit (d.elementAt o ordinal) rendered name).start = n.stop) := by
  have child {c : Node} (hc : c ∈ o.node.children) : c ∈ o.node.subtrees :=
    Tree.mem_subtrees_of_mem_children hc (Tree.self_mem_subtrees c)
  rw [valueEdit]
  rcases findAttribute_elementAt d o name ordinal with ⟨-, found⟩ | ⟨entry, first, found⟩
  · obtain ⟨c, hc, place⟩ := insertionPoint_mem named
    simp only [found]
    exact ⟨c, child hc, place, .inr place⟩
  · have part {c : Node} (hc : c ∈ entry.parts) : c ∈ o.node.subtrees :=
      Tree.mem_subtrees_trans (child (Opening.mem_entries.mp first.mem).1)
        (Tree.mem_subtrees_of_mem_children (mem_children_of_mem_parts hc)
          (Tree.self_mem_subtrees c))
    obtain ⟨-, -, -, called, -⟩ := id first
    simp only [found]
    rcases attributeAt_called called with
      ⟨nameNode, value, others, parts, valued⟩ | ⟨nameNode, parts, bare, stop⟩
    · simp only [valued]
      exact ⟨value, part (by simp [parts]), rfl, .inl rfl⟩
    · simp only [bare, Edit.insertion, stop]
      exact ⟨nameNode, part (by simp [parts]), rfl, .inr rfl⟩

theorem valueEdit_within (h : d.NestedTree) {ordinal : Option Int} {e : Element}
    (he : e ∈ d.locate tag ordinal) (rendered : List CodePoint) (name : List Char) :
    e.start ≤ (d.valueEdit e rendered name).start ∧ (d.valueEdit e rendered name).stop ≤ e.stop := by
  obtain ⟨o, ho, k, rfl⟩ := mem_locate he
  obtain ⟨mem, -, named, -⟩ := mem_openings ho
  obtain ⟨n, hn, stop, start⟩ := valueEdit_ends d named k rendered name
  have span := span_of_nested (fun u hu => h u (Tree.mem_subtrees_trans mem hu)) hn
  have wide := n.start_le_stop
  have first : (d.elementAt o k).start = o.node.start := rfl
  have last : (d.elementAt o k).stop = o.node.stop := rfl
  omega

theorem valueEdit_uncut (h : d.CutTree) {ordinal : Option Int} {e : Element}
    (he : e ∈ d.locate tag ordinal) (rendered : List CodePoint) (name : List Char) :
    IsCut d.source (d.valueEdit e rendered name).start ∧
      IsCut d.source (d.valueEdit e rendered name).stop := by
  obtain ⟨o, ho, k, rfl⟩ := mem_locate he
  obtain ⟨mem, -, named, -⟩ := mem_openings ho
  obtain ⟨n, hn, stop, start⟩ := valueEdit_ends d named k rendered name
  have cut := h n (Tree.mem_subtrees_trans mem hn)
  rw [stop]
  rcases start with start | start
  · rw [start]
    exact cut
  · rw [start]
    exact ⟨cut.2, cut.2⟩

end Document

end Restyle
