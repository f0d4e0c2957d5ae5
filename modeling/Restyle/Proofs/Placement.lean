import Restyle.Element.Write
import Restyle.Proofs.Printing
import Restyle.Proofs.Tags

/-!
# Where a value is written

The stretch that a new value of an attribute replaces, in terms of the syntax of the element: the
node of the value, the end of the attribute's name, or the end of the part after which attributes
are added. It lies inside the opening construct, and what is under the construct is either part of
a value that is replaced or apart from the stretch.
-/

namespace Restyle

open Syntax Text

namespace Document

variable {d : Document} {o : Opening} {name : List Char}

/-- An entry of a tag is an attribute of a name. -/
def Called (d : Document) (name : List Char) (entry : Node) : Prop :=
  entry.kind = .attribute ∧ ∃ nameNode ∈ entry.parts.head?, d.nodeText nameNode = name

/-- The first attribute of a name. -/
def FirstCalled (d : Document) (o : Opening) (name : List Char) (entry : Node) : Prop :=
  ∃ before after, o.entries = before ++ entry :: after ∧ d.Called name entry ∧
    ∀ other ∈ before, ¬ d.Called name other

/-- The spaces and tabs at the beginning of the line of an offset, as far as the offset. -/
def Indentation (d : Document) (offset : Nat) (blanks : List Char) : Prop :=
  ∃ above line, d.data.take offset = above ++ (encode blanks ++ line) ∧
    (above = [] ∨ above.getLast? = some 10) ∧ 10 ∉ encode blanks ++ line ∧
    (∀ c ∈ blanks, c = ' ' ∨ c = '\t') ∧ ∀ b ∈ line.head?, b ≠ 32 ∧ b ≠ 9

/-- What separates a new attribute from what comes before it: a new line with the indentation of
the last entry, if that is below the name, else a space. -/
inductive Separated (d : Document) (o : Opening) : List Char → Prop
  | newLine {last : Node} {blanks : List Char} : o.entries.getLast? = some last →
      o.name.row < last.row → d.Indentation last.start blanks → Separated d o ('\n' :: blanks)
  | space : (∀ last ∈ o.entries.getLast?, last.row ≤ o.name.row) → Separated d o [' ']

/-- Where the value of an attribute is written on an element: a stretch, and what is written there
before the value. -/
inductive Placement (d : Document) (o : Opening) (name : List Char) :
    Nat → Nat → List Char → Prop
  /-- The attribute has a value, which is replaced. -/
  | replaced {entry nameNode value : Node} {others : List Node} : d.FirstCalled o name entry →
      entry.parts = nameNode :: value :: others → Placement d o name value.start value.stop []
  /-- The attribute has no value, and gets one after its name. -/
  | filled {entry nameNode : Node} : d.FirstCalled o name entry → entry.parts = [nameNode] →
      Placement d o name nameNode.stop nameNode.stop ['=']
  /-- There is no such attribute, and one is added. -/
  | added {separator : List Char} : (∀ entry ∈ o.entries, ¬ d.Called name entry) →
      d.Separated o separator → Placement d o name o.tail.stop o.tail.stop (separator ++ name ++ ['='])

theorem attributeAt_name_iff {entry : Node} (h : entry ∈ o.entries) :
    (d.attributeAt entry).name = some name ↔ d.Called name entry := by
  rw [Called, attributeAt]
  rcases (Opening.mem_entries.mp h).2 with kind | kind
  · rw [kind]
    split <;> simp_all
  · simp [kind]

private theorem find?_attributeAt (entries : List Node) :
    (entries.map d.attributeAt).find? (fun a => a.name = some name) =
      (entries.find? fun c => (d.attributeAt c).name = some name).map d.attributeAt := by
  rw [List.find?_map]
  rfl

/-- An element has an attribute of a name if an entry is called so, and then the first such one. -/
theorem findAttribute_elementAt (d : Document) (o : Opening) (name : List Char) (ordinal : Nat) :
    ((∀ entry ∈ o.entries, ¬ d.Called name entry) ∧
      (d.elementAt o ordinal).findAttribute name = none) ∨
    ∃ entry, d.FirstCalled o name entry ∧
      (d.elementAt o ordinal).findAttribute name = some (d.attributeAt entry) := by
  have found : (d.elementAt o ordinal).findAttribute name =
      (o.entries.find? fun c => (d.attributeAt c).name = some name).map d.attributeAt :=
    find?_attributeAt o.entries
  rw [found]
  cases h : o.entries.find? fun c => (d.attributeAt c).name = some name with
  | none =>
      refine .inl ⟨fun entry he called => ?_, rfl⟩
      have := List.find?_eq_none.mp h entry he
      simp [(attributeAt_name_iff he).mpr called] at this
  | some entry =>
      refine .inr ⟨entry, ?_, rfl⟩
      obtain ⟨called, before, after, split, first⟩ := List.find?_eq_some_iff_append.mp h
      have mem : ∀ other ∈ before, other ∈ o.entries := by
        intro other ho
        rw [split]
        exact List.mem_append_left _ ho
      refine ⟨before, after, split, ?_, fun other ho => ?_⟩
      · exact (attributeAt_name_iff (List.mem_of_find?_eq_some h)).mp (by simpa using called)
      · rw [← attributeAt_name_iff (mem other ho)]
        simpa using first other ho

theorem attributeAt_called {entry : Node} (h : d.Called name entry) :
    (∃ nameNode value others, entry.parts = nameNode :: value :: others ∧
      (d.attributeAt entry).value = some (attributeValue value)) ∨
    ∃ nameNode, entry.parts = [nameNode] ∧ (d.attributeAt entry).value = none ∧
      (d.attributeAt entry).nameStop = nameNode.stop := by
  obtain ⟨kind, nameNode, head, -⟩ := h
  rw [attributeAt, kind]
  cases hparts : entry.parts with
  | nil => simp [hparts] at head
  | cons first others =>
      cases others with
      | nil => exact .inr ⟨first, rfl, rfl, rfl⟩
      | cons value others => exact .inl ⟨first, value, others, rfl, rfl⟩

private theorem encode_blanks {bytes : List UInt8} (h : ∀ b ∈ bytes, b = 32 ∨ b = 9) :
    encode (bytes.map fun b => Char.ofNat b.toNat) = bytes := by
  induction bytes with
  | nil => rfl
  | cons b bytes ih =>
      rw [List.map_cons, encode_cons, ih fun c hc => h c (List.mem_cons_of_mem b hc)]
      rcases h b List.mem_cons_self with rfl | rfl <;> rfl

theorem indent_spec (d : Document) (offset : Nat) : d.Indentation offset (d.indent offset) := by
  let reversed := (d.data.take offset).reverse
  let line := (reversed.takeWhile (· != 10)).reverse
  let isBlank : UInt8 → Bool := fun b => b == 32 || b == 9
  have blank : ∀ b ∈ line.takeWhile isBlank, b = 32 ∨ b = 9 := by
    intro b hb
    simpa [isBlank] using List.all_eq_true.mp List.all_takeWhile b hb
  have blanks : encode (d.indent offset) = line.takeWhile isBlank := encode_blanks blank
  have whole : encode (d.indent offset) ++ line.dropWhile isBlank = line := by
    rw [blanks, List.takeWhile_append_dropWhile]
  refine ⟨(reversed.dropWhile (· != 10)).reverse, line.dropWhile isBlank, ?_, ?_, ?_, ?_, ?_⟩
  · rw [whole, ← List.reverse_append, List.takeWhile_append_dropWhile, List.reverse_reverse]
  · cases h : reversed.dropWhile (· != 10) with
    | nil => exact .inl rfl
    | cons b rest =>
        have head := List.head?_dropWhile_not (· != 10) reversed
        rw [h] at head
        refine .inr ?_
        rw [List.reverse_cons, List.getLast?_concat]
        simpa using head
  · rw [whole]
    intro h
    have := List.all_eq_true.mp List.all_takeWhile 10 (List.mem_reverse.mp h)
    simp at this
  · intro c hc
    obtain ⟨b, hb, rfl⟩ := List.mem_map.mp hc
    rcases blank b hb with rfl | rfl
    · exact .inl rfl
    · exact .inr rfl
  · intro b hb
    have head := List.head?_dropWhile_not isBlank line
    rw [hb] at head
    simpa [isBlank] using head

theorem separator_spec (d : Document) (o : Opening) (ordinal : Nat) :
    d.Separated o (d.separator (d.elementAt o ordinal)) := by
  have attributes : (d.elementAt o ordinal).attributes.getLast? =
      o.entries.getLast?.map d.attributeAt := List.getLast?_map
  have line (entry : Node) : (d.attributeAt entry).line = entry.row + 1 := by
    rw [attributeAt]
    split <;> rfl
  have start (entry : Node) : (d.attributeAt entry).start = entry.start := by
    rw [attributeAt]
    split <;> rfl
  have below (entry : Node) (h : o.entries.getLast? = some entry) :
      (d.elementAt o ordinal).multiline = decide (o.name.row < entry.row) := by
    rw [Element.multiline, attributes, h]
    simp [line, elementAt]
  rw [separator, attributes]
  cases h : o.entries.getLast? with
  | none => exact .space (by simp [h])
  | some entry =>
      simp only [Option.map_some, below entry h, start]
      by_cases lower : o.name.row < entry.row
      · rw [if_pos (by simpa using lower)]
        exact .newLine h lower (indent_spec d entry.start)
      · rw [if_neg (by simpa using lower)]
        exact .space (by simpa [h] using Nat.le_of_not_lt lower)

theorem valueEdit_spec (d : Document) (name : List Char) {source : List Char} (h : o.Sound source)
    (ordinal : Nat) (rendered : List CodePoint) :
    ∃ lead, Placement d o name (d.valueEdit (d.elementAt o ordinal) rendered name).start
        (d.valueEdit (d.elementAt o ordinal) rendered name).stop lead ∧
      (d.valueEdit (d.elementAt o ordinal) rendered name).text = ofChars lead ++ rendered := by
  rw [valueEdit]
  rcases findAttribute_elementAt d o name ordinal with
    ⟨none, found⟩ | ⟨entry, first, found⟩
  · simp only [found]
    refine ⟨_, ?_, rfl⟩
    have place : (d.elementAt o ordinal).insertAt = o.tail.stop := insertionPoint_eq h
    simp only [Edit.insertion, place]
    exact .added none (separator_spec d o ordinal)
  · obtain ⟨-, -, -, called, -⟩ := id first
    simp only [found]
    rcases attributeAt_called called with
      ⟨nameNode, value, others, parts, hvalue⟩ | ⟨nameNode, parts, hvalue, stop⟩
    · simp only [hvalue]
      exact ⟨[], .replaced first parts, rfl⟩
    · simp only [hvalue, Edit.insertion, stop]
      exact ⟨['='], .filled first parts, rfl⟩

theorem FirstCalled.mem {entry : Node} (h : d.FirstCalled o name entry) : entry ∈ o.entries := by
  obtain ⟨before, after, split, -⟩ := h
  rw [split]
  exact List.mem_append_right _ List.mem_cons_self

theorem FirstCalled.kind {entry : Node} (h : d.FirstCalled o name entry) :
    entry.kind = .attribute := by
  obtain ⟨-, -, -, called, -⟩ := h
  exact called.1

theorem mem_children_of_mem_parts {n part : Node} (h : part ∈ n.parts) :
    part ∈ n.children :=
  (List.mem_filter.mp h).1

namespace Placement

variable {source : List Char} {start stop : Nat} {lead : List Char}

private theorem within {entry part : Node} (h : o.Sound source) (he : entry ∈ o.entries)
    (hp : part ∈ entry.children) : o.node.start < part.start ∧ part.stop < o.node.stop := by
  have mem := (Opening.mem_entries.mp he).1
  have outside := h.part_inside mem (by simp [Opening.turn_of_mem_entries he])
  have inside := (h.part_sound mem (Tree.self_mem_subtrees _)).ordered.mem hp
  omega

theorem inside (h : o.Sound source) (p : Placement d o name start stop lead) :
    o.node.start < start ∧ start ≤ stop ∧ stop < o.node.stop := by
  cases p with
  | @replaced entry nameNode value others first parts =>
      have part : value ∈ entry.children := mem_children_of_mem_parts (by simp [parts])
      have bounds := within h first.mem part
      exact ⟨bounds.1, value.start_le_stop, bounds.2⟩
  | @filled entry nameNode first parts =>
      have part : nameNode ∈ entry.children := mem_children_of_mem_parts (by simp [parts])
      have bounds := within h first.mem part
      have wide := nameNode.start_le_stop
      omega
  | added =>
      have tail := Opening.tail_mem h.name_mem h.name_kind
      have bounds := h.part_inside tail.1 tail.2
      have wide := o.tail.start_le_stop
      omega

theorem cut (h : o.Sound source) (p : Placement d o name start stop lead) :
    IsCut source start ∧ IsCut source stop := by
  have grandchild {entry part : Node} (he : entry ∈ o.entries) (hp : part ∈ entry.children) :
      Syntax.Sound source part :=
    h.part_sound (Opening.mem_entries.mp he).1
      (Tree.mem_subtrees_of_mem_children hp (Tree.self_mem_subtrees _))
  cases p with
  | @replaced entry nameNode value others first parts =>
      have part : value ∈ entry.children := mem_children_of_mem_parts (by simp [parts])
      have sound := grandchild first.mem part
      exact ⟨sound.start.isCut, sound.stop⟩
  | @filled entry nameNode first parts =>
      have part : nameNode ∈ entry.children := mem_children_of_mem_parts (by simp [parts])
      have sound := grandchild first.mem part
      exact ⟨sound.stop, sound.stop⟩
  | added =>
      have tail := Opening.tail_mem h.name_mem h.name_kind
      have sound := h.part_sound tail.1 (Tree.self_mem_subtrees _)
      exact ⟨sound.stop, sound.stop⟩

/-- What is under an entry of a tag is under a given part of it or apart from that part, if it is
an opening construct. -/
private theorem under_part_or_apart {entry part m : Node} (h : o.Sound source)
    (first : d.FirstCalled o name entry) (hp : part ∈ entry.children)
    (hm : m ∈ Tree.subtreesAll o.node.children) (tag : m.kind.isTag) :
    m ∈ part.subtrees ∨ m.stop ≤ part.start ∨ part.stop ≤ m.start := by
  have mem := (Opening.mem_entries.mp first.mem).1
  have sound := fun u hu => h.part_sound (c := entry) (n := u) mem hu
  have bounds := (sound _ (Tree.self_mem_subtrees _)).ordered.mem hp
  rcases under_or_apart h.sound mem hm with under | apart | apart
  · rw [Tree.subtrees_eq, List.mem_cons] at under
    rcases under with rfl | under
    · rw [first.kind] at tag
      cases tag
    · exact under_or_apart sound hp under
  · exact .inr (.inl (by omega))
  · exact .inr (.inr (by omega))

/-- An opening construct under another one lies in the stretch that is replaced there, or before
it, or after it. -/
theorem holds_or_apart {m : Node} (h : o.Sound source) (p : Placement d o name start stop lead)
    (hm : m ∈ Tree.subtreesAll o.node.children) (tag : m.kind.isTag) :
    (start ≤ m.start ∧ m.stop ≤ stop) ∨ m.stop ≤ start ∨ stop ≤ m.start := by
  cases p with
  | @replaced entry nameNode value others first parts =>
      have part : value ∈ entry.children := mem_children_of_mem_parts (by simp [parts])
      have sound : ∀ u ∈ value.subtrees, Syntax.Sound source u := fun u hu =>
        h.part_sound (Opening.mem_entries.mp first.mem).1
          (Tree.mem_subtrees_of_mem_children part hu)
      rcases under_part_or_apart h first part hm tag with under | apart
      · exact .inl (span_of_mem_subtrees sound under)
      · exact .inr apart
  | @filled entry nameNode first parts =>
      have part : nameNode ∈ entry.children := mem_children_of_mem_parts (by simp [parts])
      have sound : ∀ u ∈ nameNode.subtrees, Syntax.Sound source u := fun u hu =>
        h.part_sound (Opening.mem_entries.mp first.mem).1
          (Tree.mem_subtrees_of_mem_children part hu)
      rcases under_part_or_apart h first part hm tag with under | apart | apart
      · exact .inr (.inl (span_of_mem_subtrees sound under).2)
      · have wide := nameNode.start_le_stop
        exact .inr (.inl (by omega))
      · exact .inr (.inr apart)
  | added =>
      have tail := Opening.tail_mem h.name_mem h.name_kind
      have sound : ∀ u ∈ o.tail.subtrees, Syntax.Sound source u := fun u hu =>
        h.part_sound tail.1 hu
      rcases under_or_apart h.sound tail.1 hm with under | apart | apart
      · exact .inr (.inl (span_of_mem_subtrees sound under).2)
      · have wide := o.tail.start_le_stop
        exact .inr (.inl (by omega))
      · exact .inr (.inr apart)

end Placement

end Document

end Restyle
