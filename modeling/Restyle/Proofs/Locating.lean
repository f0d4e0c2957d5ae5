import Restyle.Proofs.Placement

/-!
# What an address finds

Without an ordinal the elements of a name are found in document order, numbered from zero; with
one, at most the element of that number. Of two of them, the later one is under the opening
construct of the earlier one or begins after its end.
-/

namespace Restyle

open Syntax Text

/-- What comes later in document order is under what comes before it, or after its end. -/
def Syntax.Node.Precedes (a b : Node) : Prop :=
  b ∈ Tree.subtreesAll a.children ∨ a.stop ≤ b.start

namespace Document

variable {d : Document} {tag name : List Char}

/-- The opening constructs of a name, in document order. -/
def named (d : Document) (tag : List Char) : List Opening :=
  d.openings.filter fun o => d.nodeText o.name = tag

private theorem locateFrom_eq (ordinal : Option Int) (seen : Nat) (os : List Opening) :
    d.locateFrom tag ordinal seen os =
      (((os.filter fun o => d.nodeText o.name = tag).zipIdx seen).filter fun p =>
        ordinal.all (· = p.2)).map fun p => d.elementAt p.1 p.2 := by
  induction os generalizing seen with
  | nil => rfl
  | cons o os ih =>
      rw [locateFrom]
      by_cases called : d.nodeText o.name = tag
      · rw [if_pos called, List.filter_cons_of_pos (by simpa using called), List.zipIdx_cons, ih]
        cases ordinal with
        | none => rfl
        | some n =>
            by_cases here : n = seen
            · rw [List.filter_cons_of_pos (by simpa using here)]
              simp [here]
            · rw [List.filter_cons_of_neg (by simpa using here)]
              simp [here]
      · rw [if_neg called, List.filter_cons_of_neg (by simpa using called), ih]

theorem locate_none :
    d.locate tag none = (d.named tag).zipIdx.map fun p => d.elementAt p.1 p.2 := by
  rw [locate, locateFrom_eq, List.filter_eq_self.mpr (by simp)]
  rfl

private theorem filter_zipIdx {α : Type} (n seen : Nat) (as : List α) :
    ((as.zipIdx seen).filter fun p => decide ((n : Int) = p.2)) =
      if seen ≤ n then (as[n - seen]?.map (·, n)).toList else [] := by
  induction as generalizing seen with
  | nil => simp
  | cons a as ih =>
      rw [List.zipIdx_cons]
      rcases Nat.lt_trichotomy n seen with before | here | after
      · rw [List.filter_cons_of_neg (by simp; omega), ih, if_neg (by omega), if_neg (by omega)]
      · rw [List.filter_cons_of_pos (by simp [here]), ih, if_neg (by omega), if_pos (by omega), here,
          Nat.sub_self]
        rfl
      · have step : n - seen = n - (seen + 1) + 1 := by omega
        rw [List.filter_cons_of_neg (by simp; omega), ih, if_pos (by omega), if_pos (by omega), step,
          List.getElem?_cons_succ]

/-- With an ordinal, the element is found that so many of its name come before. -/
theorem locate_ordinal (n : Nat) :
    d.locate tag (some n) = ((d.named tag)[n]?.map (d.elementAt · n)).toList := by
  have found := filter_zipIdx n 0 (d.named tag)
  rw [if_pos (Nat.zero_le n), Nat.sub_zero] at found
  rw [locate, locateFrom_eq]
  simp only [Option.all_some]
  rw [← named, found]
  cases (d.named tag)[n]? <;> rfl

theorem locate_negative {n : Int} (h : n < 0) : d.locate tag (some n) = [] := by
  rw [locate, locateFrom_eq, List.map_eq_nil_iff, List.filter_eq_nil_iff]
  intro p _
  simp only [Option.all_some, decide_eq_true_eq]
  omega

theorem mem_locate {ordinal : Option Int} {e : Element} (h : e ∈ d.locate tag ordinal) :
    ∃ o ∈ d.openings, ∃ k, e = d.elementAt o k := by
  rw [locate, locateFrom_eq, List.mem_map] at h
  obtain ⟨⟨o, k⟩, h, rfl⟩ := h
  have mem := List.fst_mem_of_mem_zipIdx (List.mem_filter.mp h).1
  exact ⟨o, (List.mem_filter.mp mem).1, k, rfl⟩

theorem subtrees_precedes {source : List Char} {n : Node}
    (h : ∀ u ∈ n.subtrees, Syntax.Sound source u) : n.subtrees.Pairwise Node.Precedes := by
  refine Tree.subtrees_pairwise n (fun u _ v hv => .inl hv) fun u hu => ?_
  have within {t c : Node} (hc : c ∈ u.children) (ht : t ∈ c.subtrees) :
      c.start ≤ t.start ∧ t.stop ≤ c.stop := by
    have sound : ∀ v ∈ c.subtrees, Syntax.Sound source v := fun v hv =>
      h v (Tree.mem_subtrees_trans hu (Tree.mem_subtrees_of_mem_children hc hv))
    exact span_of_mem_subtrees sound ht
  refine (h u hu).ordered.pairwise.imp_of_mem ?_
  intro a b ha hb apart x hx y hy
  have front := within ha hx
  have back := within hb hy
  exact .inr (by omega)

theorem openings_precedes (h : d.SoundTree) :
    d.openings.Pairwise fun o p => o.node.Precedes p.node := by
  rw [openings, Tree.walk_eq, List.pairwise_filterMap]
  refine (subtrees_precedes h).imp fun order o ho p hp => ?_
  rw [(opening?_eq_some ho).1, (opening?_eq_some hp).1]
  exact order

/-- Elements that are found one after another are at opening constructs in document order. -/
theorem locate_precedes (h : d.SoundTree) {ordinal : Option Int} :
    (d.locate tag ordinal).Pairwise fun e f => ∃ o ∈ d.openings, ∃ p ∈ d.openings, ∃ j k,
      e = d.elementAt o j ∧ f = d.elementAt p k ∧ o.node.Precedes p.node := by
  have order : (d.named tag).zipIdx.Pairwise fun p q => p.1.node.Precedes q.1.node := by
    have named : (d.named tag).Pairwise fun o p => o.node.Precedes p.node :=
      (openings_precedes h).filter _
    rw [← List.zipIdx_map_fst 0 (d.named tag), List.pairwise_map] at named
    exact named
  rw [locate, locateFrom_eq, List.pairwise_map]
  refine (order.filter _).imp_of_mem fun {p q} hp hq before => ?_
  have mem {x : Opening × Nat} (hx : x ∈ (d.named tag).zipIdx.filter fun p =>
      ordinal.all (· = p.2)) : x.1 ∈ d.openings :=
    (List.mem_filter.mp (List.fst_mem_of_mem_zipIdx (List.mem_filter.mp hx).1)).1
  exact ⟨p.1, mem hp, q.1, mem hq, p.2, q.2, rfl, rfl, before⟩

theorem exists_located (dialect : Dialect) (source tag : List Char) (es : List Element)
    (h : (parse dialect source).toOption.any fun d => d.locate tag none = es) :
    ∃ d, parse dialect source = .ok d ∧ d.locate tag none = es := by
  cases parsed : parse dialect source with
  | error e =>
      rw [parsed] at h
      cases h
  | ok d =>
      rw [parsed] at h
      exact ⟨d, rfl, of_decide_eq_true h⟩

end Document

end Restyle
