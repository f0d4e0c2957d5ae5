import Restyle.Element.Locate
import Restyle.Proofs.Spans

/-!
# Opening constructs

Where the parts of an opening construct lie: its name, its type arguments and its entries follow one
another strictly between its ends. A new attribute goes after the last of them. What is under such a
construct lies inside one of its parts.
-/

namespace Restyle.Syntax

open Text

theorem Ordered.eq_or_apart {low high : Nat} {ns : List Node} (h : Ordered low high ns) {a b : Node}
    (ha : a ∈ ns) (hb : b ∈ ns) : a = b ∨ a.stop ≤ b.start ∨ b.stop ≤ a.start := by
  have order := h.pairwise
  induction ns generalizing low with
  | nil => cases ha
  | cons n ns ih =>
      obtain ⟨first, order⟩ := List.pairwise_cons.mp order
      rcases List.mem_cons.mp ha with rfl | ha' <;> rcases List.mem_cons.mp hb with rfl | hb'
      · exact .inl rfl
      · exact .inr (.inl (first b hb'))
      · exact .inr (.inr (first a ha'))
      · exact ih h.2 ha' hb' order

theorem span_of_mem_subtrees {text : List Char} {n m : Node} (h : ∀ u ∈ n.subtrees, Sound text u)
    (hm : m ∈ n.subtrees) : n.start ≤ m.start ∧ m.stop ≤ n.stop := by
  induction n using Tree.induct with
  | step label children ih =>
      have own := h _ (Tree.self_mem_subtrees _)
      rw [Tree.subtrees_eq, List.mem_cons, Tree.mem_subtreesAll] at hm
      rcases hm with rfl | ⟨c, hc, hm⟩
      · exact ⟨Nat.le_refl _, Nat.le_refl _⟩
      · have inside := ih c hc (fun u hu => h u (Tree.mem_subtrees_of_mem_children hc hu)) hm
        have bounds := own.ordered.mem hc
        omega

namespace TagLayout

variable {low high : Nat} {parts : List Node} {a b : Node}

theorem inTurn (h : TagLayout parts) : parts.Pairwise Node.InTurn := by
  obtain ⟨first, middle, last, rfl, hfirst, -, hlast, -, turns⟩ := h
  have firstSilent : first.kind.turn? = none := by
    rw [hfirst]
    rfl
  have lastSilent : last.kind.turn? = none := by
    rcases hlast with hlast | hlast
    all_goals
      rw [hlast]
      rfl
  refine List.pairwise_cons.mpr ⟨fun n _ i hi => by simp [firstSilent] at hi, ?_⟩
  refine List.pairwise_append.mpr ⟨turns, List.pairwise_singleton _ _, fun m _ n hn i _ j hj => ?_⟩
  rw [List.mem_singleton.mp hn, lastSilent] at hj
  cases hj

theorem inside (h : TagLayout parts) (order : Ordered low high parts) (ha : a ∈ parts)
    (turn : a.kind.turn? ≠ none) : low < a.start ∧ a.stop < high := by
  obtain ⟨first, middle, last, rfl, hfirst, fwidth, hlast, lwidth, -⟩ := h
  have notFirst : a ≠ first := by
    rintro rfl
    exact turn (by rw [hfirst]; rfl)
  have notLast : a ≠ last := by
    rintro rfl
    refine turn ?_
    rcases hlast with hlast | hlast
    all_goals
      rw [hlast]
      rfl
  have ha : a ∈ middle := by
    simpa [notFirst, notLast] using ha
  have follow := order.pairwise
  rw [List.pairwise_cons, List.pairwise_append] at follow
  have afterFirst := follow.1 a (List.mem_append_left _ ha)
  have beforeLast := follow.2.2.2 a ha last (List.mem_singleton_self last)
  have lowest := (order.mem (List.mem_cons_self : first ∈ _)).1
  have highest := (order.mem (n := last) (by simp)).2
  omega

theorem stop_le_start (h : TagLayout parts) (order : Ordered low high parts) (ha : a ∈ parts)
    (hb : b ∈ parts) {i j : Nat} (hi : a.kind.turn? = some i) (hj : b.kind.turn? = some j)
    (lt : i < j) : a.stop ≤ b.start := by
  have both := order.pairwise.and h.inTurn
  clear order h
  induction parts with
  | nil => cases ha
  | cons n parts ih =>
      obtain ⟨first, rest⟩ := List.pairwise_cons.mp both
      rcases List.mem_cons.mp ha with rfl | ha' <;> rcases List.mem_cons.mp hb with rfl | hb'
      · rw [hi] at hj
        cases hj
        omega
      · exact (first b hb').1
      · have := (first a ha').2 j hj i hi
        omega
      · exact ih ha' hb' rest

end TagLayout

end Restyle.Syntax

namespace Restyle

open Syntax Text

/-- A node with a name for its element is an opening construct, and its name is one of its parts. -/
theorem opening?_eq_some {n : Node} {o : Opening} (h : opening? n = some o) :
    o.node = n ∧ n.kind.isTag ∧ o.name ∈ n.children ∧ o.name.kind = .tagName := by
  have named (h : (n.children.find? fun (c : Node) => c.kind = .tagName).map (Opening.mk n) = some o) :
      o.node = n ∧ o.name ∈ n.children ∧ o.name.kind = .tagName := by
    obtain ⟨name, found, rfl⟩ := Option.map_eq_some_iff.mp h
    exact ⟨rfl, List.mem_of_find?_eq_some found, by simpa using List.find?_some found⟩
  rw [opening?] at h
  split at h
  · rename_i kind
    exact ⟨(named h).1, by rw [kind]; rfl, (named h).2⟩
  · rename_i kind
    exact ⟨(named h).1, by rw [kind]; rfl, (named h).2⟩
  · cases h

namespace Document

/-- Every node of a document's tree is sound. -/
def SoundTree (d : Document) : Prop :=
  ∀ n ∈ d.root.subtrees, Sound d.source n

/-- A text that parses gives a document of it, with a sound tree and no edits. -/
theorem parse_spec {dialect : Dialect} {source : List Char} {d : Document}
    (h : parse dialect source = .ok d) :
    d.source = source ∧ d.dialect = dialect ∧ d.edits = [] ∧ d.SoundTree := by
  rw [parse] at h
  split at h
  · rename_i root parsed
    cases h
    exact ⟨rfl, rfl, rfl, Grammar.parse_sound parsed⟩
  · cases h

theorem parse_refused {dialect : Dialect} {source : List Char} {e : Failure}
    (h : parse dialect source = .error e) : ∃ reason, e = .refused reason := by
  rw [parse] at h
  split at h
  · cases h
  · cases h
    exact ⟨_, rfl⟩

theorem mem_openings {d : Document} {o : Opening} (h : o ∈ d.openings) :
    o.node ∈ d.root.subtrees ∧ o.node.kind.isTag ∧ o.name ∈ o.node.children ∧
      o.name.kind = .tagName := by
  rw [openings, Tree.walk_eq, List.mem_filterMap] at h
  obtain ⟨n, hn, ho⟩ := h
  obtain ⟨rfl, rest⟩ := opening?_eq_some ho
  exact ⟨hn, rest⟩

end Document

/-- An opening construct with a name, laid out as such, with sound parts. -/
structure Opening.Sound (source : List Char) (o : Opening) : Prop where
  sound : ∀ n ∈ o.node.subtrees, Syntax.Sound source n
  layout : TagLayout o.node.children
  name_mem : o.name ∈ o.node.children
  name_kind : o.name.kind = .tagName

theorem Document.opening_sound {d : Document} (h : d.SoundTree) {o : Opening}
    (ho : o ∈ d.openings) : o.Sound d.source := by
  obtain ⟨mem, tag, name, kind⟩ := mem_openings ho
  exact
    { sound := fun n hn => h n (Tree.mem_subtrees_trans mem hn)
      layout := (h _ mem).layout tag
      name_mem := name
      name_kind := kind }

namespace Opening

/-- The type arguments of an element. -/
def types (o : Opening) : List Node :=
  o.node.children.filter fun (c : Node) => c.kind == .typeArguments

/-- The entries of a tag: attributes, and braces. -/
def entries (o : Opening) : List Node :=
  Document.entries o.node

/-- The part after which a new attribute goes: the last entry, else the type arguments, else the
name. -/
def tail (o : Opening) : Node :=
  match o.entries.getLast?, o.types.getLast? with
  | some entry, _ => entry
  | none, some types => types
  | none, none => o.name

variable {source : List Char} {o : Opening}

theorem mem_types {c : Node} : c ∈ o.types ↔ c ∈ o.node.children ∧ c.kind = .typeArguments := by
  rw [types, List.mem_filter, beq_iff_eq]

theorem mem_entries {c : Node} : c ∈ o.entries ↔
    c ∈ o.node.children ∧ (c.kind = .attribute ∨ c.kind = .container) := by
  rw [entries, Document.entries, List.mem_filter, Bool.or_eq_true, beq_iff_eq, beq_iff_eq]

theorem turn_of_mem_entries {c : Node} (h : c ∈ o.entries) : c.kind.turn? = some 2 := by
  rcases (mem_entries.mp h).2 with kind | kind
  all_goals
    rw [kind]
    rfl

theorem tail_mem (h : o.name ∈ o.node.children) (kind : o.name.kind = .tagName) :
    o.tail ∈ o.node.children ∧ o.tail.kind.turn? ≠ none := by
  rw [tail]
  split
  · rename_i entry _ last
    have mem := List.mem_of_getLast? last
    exact ⟨(mem_entries.mp mem).1, by simp [turn_of_mem_entries mem]⟩
  · rename_i types _ last
    obtain ⟨mem, kind⟩ := mem_types.mp (List.mem_of_getLast? last)
    exact ⟨mem, by simp [kind, Kind.turn?]⟩
  · exact ⟨h, by simp [kind, Kind.turn?]⟩

end Opening

/-- The farthest end among siblings that follow one another is that of the last one. -/
private theorem foldl_max_stop {start : Nat} {ns : List Node}
    (order : ns.Pairwise fun a b => a.stop ≤ b.start) (past : ∀ n ∈ ns, start ≤ n.start) :
    ns.foldl (fun stop (c : Node) => max stop c.stop) start = (ns.getLast?.map Node.stop).getD start := by
  induction ns generalizing start with
  | nil => rfl
  | cons n ns ih =>
      obtain ⟨first, order⟩ := List.pairwise_cons.mp order
      have wide := n.start_le_stop
      have reached := past n List.mem_cons_self
      rw [List.foldl_cons, Nat.max_eq_right (by omega), ih order first]
      cases ns with
      | nil => rfl
      | cons m ns =>
          rw [List.getLast?_cons_cons]
          obtain ⟨last, hlast⟩ : ∃ last, (m :: ns).getLast? = some last :=
            ⟨_, List.getLast?_eq_some_getLast (List.cons_ne_nil m ns)⟩
          rw [hlast, Option.map_some, Option.getD_some, Option.getD_some]

theorem insertionPoint_eq {source : List Char} {o : Opening} (h : o.Sound source) :
    Document.insertionPoint o = o.tail.stop := by
  have order := (h.sound _ (Tree.self_mem_subtrees _)).ordered
  have nameTurn : o.name.kind.turn? = some 0 := by
    rw [h.name_kind]
    rfl
  have typesTurn : ∀ t ∈ o.types, t.kind.turn? = some 1 := by
    intro t ht
    rw [(Opening.mem_types.mp ht).2]
    rfl
  have follow : (o.types ++ o.entries).Pairwise fun a b => a.stop ≤ b.start := by
    refine List.pairwise_append.mpr ⟨order.pairwise.filter _, order.pairwise.filter _, ?_⟩
    intro t ht e he
    exact h.layout.stop_le_start order (Opening.mem_types.mp ht).1 (Opening.mem_entries.mp he).1
      (typesTurn t ht) (Opening.turn_of_mem_entries he) (by decide)
  have past : ∀ n ∈ o.types ++ o.entries, o.name.stop ≤ n.start := by
    intro n hn
    rcases List.mem_append.mp hn with hn | hn
    · exact h.layout.stop_le_start order h.name_mem (Opening.mem_types.mp hn).1 nameTurn
        (typesTurn n hn) (by decide)
    · exact h.layout.stop_le_start order h.name_mem (Opening.mem_entries.mp hn).1 nameTurn
        (Opening.turn_of_mem_entries hn) (by decide)
  have found := foldl_max_stop follow past
  rw [List.getLast?_append] at found
  rw [Document.insertionPoint, Opening.tail]
  refine found.trans ?_
  cases o.entries.getLast? with
  | some entry => rfl
  | none => cases o.types.getLast? <;> rfl

namespace Opening.Sound

variable {source : List Char} {o : Opening}

theorem part_sound (h : o.Sound source) {c n : Node} (hc : c ∈ o.node.children)
    (hn : n ∈ c.subtrees) : Syntax.Sound source n :=
  h.sound n (Tree.mem_subtrees_of_mem_children hc hn)

theorem part_inside (h : o.Sound source) {c : Node} (hc : c ∈ o.node.children)
    (turn : c.kind.turn? ≠ none) : o.node.start < c.start ∧ c.stop < o.node.stop :=
  h.layout.inside (h.sound _ (Tree.self_mem_subtrees _)).ordered hc turn

end Opening.Sound

/-- What is under a sound node is under a given child of it or apart from that child. -/
theorem under_or_apart {source : List Char} {n c m : Node} (h : ∀ u ∈ n.subtrees, Sound source u)
    (hc : c ∈ n.children) (hm : m ∈ Tree.subtreesAll n.children) :
    m ∈ c.subtrees ∨ m.stop ≤ c.start ∨ c.stop ≤ m.start := by
  obtain ⟨b, hb, hm⟩ := Tree.mem_subtreesAll.mp hm
  have span := span_of_mem_subtrees (fun u hu => h u (Tree.mem_subtrees_of_mem_children hb hu)) hm
  rcases (h _ (Tree.self_mem_subtrees _)).ordered.eq_or_apart hb hc with rfl | apart | apart
  · exact .inl hm
  · exact .inr (.inl (by omega))
  · exact .inr (.inr (by omega))

end Restyle
