import Restyle.ClassName
import Restyle.Proofs.Placement

/-!
# Reading attributes

What an attribute of a parsed text reads as: the text between the quotes of a string, the text between
braces without surrounding blanks. It can always be read.
-/

namespace Restyle

open Syntax Text

theorem Syntax.Sound.inner {source : List Char} {n : Node} (h : Syntax.Sound source n)
    (kind : n.kind = .container) : innerStart n = n.start + 1 ∧ innerStop n + 1 = n.stop := by
  obtain ⟨first, middle, last, parts, opens, one, closes, one'⟩ := h.braces kind
  obtain ⟨begins, ends⟩ := h.ends (by rw [kind]; nofun)
  have head : n.children.head? = some first := by rw [parts]; rfl
  have tail : n.children.getLast? = some last := by
    rw [parts, ← List.cons_append, List.getLast?_concat]
  have atStart := begins first head
  have atStop := ends last tail
  rw [innerStart, innerStop, head, tail]
  simp only [opens, closes, if_true]
  omega

theorem innerStart_cut {source : List Char} {n : Node} (h : ∀ m ∈ n.subtrees, Syntax.Sound source m) :
    IsCut source (innerStart n) := by
  have own := h n (Tree.self_mem_subtrees n)
  rw [innerStart]
  split
  · rename_i c head
    have child := Tree.mem_subtrees_of_mem_children (List.mem_of_head? head) (Tree.self_mem_subtrees c)
    split
    · exact (h c child).stop
    · exact own.start.isCut
  · exact own.start.isCut

theorem innerStop_cut {source : List Char} {n : Node} (h : ∀ m ∈ n.subtrees, Syntax.Sound source m) :
    IsCut source (innerStop n) := by
  have own := h n (Tree.self_mem_subtrees n)
  rw [innerStop]
  split
  · rename_i c last
    have child := Tree.mem_subtrees_of_mem_children (List.mem_of_getLast? last) (Tree.self_mem_subtrees c)
    split
    · exact (h c child).start.isCut
    · exact own.stop
  · exact own.stop

namespace Document

variable {d : Document} {o : Opening} {name inside : List Char} {start stop : Nat}

section Fresh

variable (fresh : d.edits = [])
include fresh

theorem printSpan_fresh (start stop : Nat) : (d.printSpan start stop).result = d.text start stop := by
  have none : d.editsIn start stop = [] := by rw [editsIn, fresh]; rfl
  have whole : (d.printBytes stop start []).result = .ok (d.bytes start stop) := rfl
  rw [printSpan, none, Report.result_bind whole, text]
  cases decode (d.bytes start stop) <;> rfl

theorem printSpan_slice (h : IsSlice d.source start stop inside) :
    (d.printSpan start stop).result = .ok inside := by
  rw [printSpan_fresh fresh, text, bytes_slice h, decode_encode]

theorem printSpan_cut (hs : IsCut d.source start) (ht : IsCut d.source stop) :
    ∃ text, (d.printSpan start stop).result = .ok text := by
  obtain ⟨inside, whole⟩ := bytes_eq_encode hs ht
  exact ⟨inside, by rw [printSpan_fresh fresh, text, whole, decode_encode]⟩

theorem printInside_quoted {q : Char} (hq : isQuote q)
    (h : IsSlice d.source start stop (q :: (inside ++ [q]))) :
    (d.printInside start stop).result = .ok inside := by
  have narrow : charWidth q = 1 := by
    rcases isQuote_iff.mp hq with rfl | rfl <;> rfl
  obtain ⟨last, rfl, inner⟩ := h.inner narrow narrow
  exact printSpan_slice fresh inner

theorem readAs_string {n : Node} {q : Char} (kind : n.kind = .string) (hq : isQuote q)
    (h : IsSlice d.source n.start n.stop (q :: (inside ++ [q]))) (inner : Option (Nat × Nat)) :
    (d.readAs (valueKind n) n.start n.stop inner).result = .ok (some inside) := by
  have literal : valueKind n = .literal := by rw [valueKind, kind]
  rw [literal]
  exact Report.result_map some (printInside_quoted fresh hq h)

omit fresh in
theorem printExpression_result (h : (d.printSpan start stop).result = .ok inside) :
    (d.printExpression start stop).result =
      .ok (if (trim inside).isEmpty then none else some (trim inside)) :=
  Report.result_bind h

theorem readAs_container {n : Node} (own : Syntax.Sound d.source n) (kind : n.kind = .container)
    (h : IsSlice d.source n.start n.stop ('\x7b' :: (inside ++ ['\x7d']))) :
    (d.readAs (valueKind n) n.start n.stop (some (innerStart n, innerStop n))).result =
      .ok (if (trim inside).isEmpty then none else some (trim inside)) := by
  have expression : valueKind n = .expression := by rw [valueKind, kind]
  obtain ⟨first, last⟩ := own.inner kind
  obtain ⟨stop, same, inner⟩ := h.inner rfl rfl
  have here : innerStop n = stop := by omega
  rw [expression, first, here]
  exact printExpression_result (printSpan_slice fresh inner)

end Fresh

variable {entry nameNode value : Node} {others : List Node}

theorem FirstCalled.findAttribute (h : d.FirstCalled o name entry) (ordinal : Nat) :
    (d.elementAt o ordinal).findAttribute name = some (d.attributeAt entry) := by
  have mem := h.mem
  obtain ⟨before, after, split, called, first⟩ := h
  have attributes : (d.elementAt o ordinal).attributes =
      before.map d.attributeAt ++ d.attributeAt entry :: after.map d.attributeAt := by
    rw [← List.map_cons, ← List.map_append, ← split]
    rfl
  have earlier : ∀ other ∈ before, (d.attributeAt other).name ≠ some name := by
    intro other ho
    have entered : other ∈ o.entries := by
      rw [split]
      exact List.mem_append_left _ ho
    rw [Ne, attributeAt_name_iff entered]
    exact first other ho
  have none : (before.map d.attributeAt).find? (fun a => a.name = some name) = none := by
    simpa using earlier
  rw [Element.findAttribute, attributes, List.find?_append, none, Option.none_or,
    List.find?_cons_of_pos (by simp [(attributeAt_name_iff mem).mpr called])]

theorem readAttribute_valued (h : d.FirstCalled o name entry)
    (parts : entry.parts = nameNode :: value :: others) (ordinal : Nat) :
    d.readAttribute (d.elementAt o ordinal) name =
      d.readAs (valueKind value) value.start value.stop (some (innerStart value, innerStop value)) := by
  rw [readAttribute, h.findAttribute, attributeAt, h.kind, parts]
  rfl

theorem FirstCalled.value_sound {source : List Char} (h : d.FirstCalled o name entry)
    (osound : o.Sound source) (parts : entry.parts = nameNode :: value :: others) :
    ∀ m ∈ value.subtrees, Syntax.Sound source m := by
  have part : value ∈ entry.children := mem_children_of_mem_parts (by simp [parts])
  intro m hm
  exact osound.part_sound (Opening.mem_entries.mp h.mem).1 (Tree.mem_subtrees_of_mem_children part hm)

theorem readAttribute_reads (h : d.SoundTree) (fresh : d.edits = []) (ho : o ∈ d.openings)
    (ordinal : Nat) (name : List Char) :
    ∃ value, (d.readAttribute (d.elementAt o ordinal) name).result = .ok value := by
  have osound := opening_sound h ho
  rcases findAttribute_elementAt d o name ordinal with ⟨-, none⟩ | ⟨entry, first, found⟩
  · exact ⟨.none, by rw [readAttribute, none]; rfl⟩
  obtain ⟨-, -, -, called, -⟩ := id first
  rcases attributeAt_called called with ⟨nameNode, value, others, parts, -⟩ | ⟨nameNode, -, none, -⟩
  · have sound := first.value_sound osound parts
    have own := sound value (Tree.self_mem_subtrees value)
    rw [readAttribute_valued first parts]
    cases kind : valueKind value with
    | absent | spread => exact ⟨_, rfl⟩
    | literal =>
        have string : value.kind = .string := by
          rw [valueKind] at kind
          split at kind <;> simp_all
        obtain ⟨_, slice, q, inside, hq, rfl⟩ := own.quoted string
        exact ⟨_, kind ▸ readAs_string fresh string hq slice _⟩
    | expression =>
        obtain ⟨inside, printed⟩ := printSpan_cut fresh (innerStart_cut sound) (innerStop_cut sound)
        exact ⟨_, printExpression_result printed⟩
    | element =>
        obtain ⟨inside, printed⟩ := printSpan_cut fresh own.start.isCut own.stop
        exact ⟨_, Report.result_map some printed⟩
  · exact ⟨.none, by simp only [readAttribute, found, readValue, none, Report.result_pure]⟩

end Document

theorem Document.read_unlocated {d : Document} {tag name : List Char} {ordinal : Option Int}
    (none : d.locate tag ordinal = []) : (d.read tag ordinal name).result = .ok .none := by
  rw [Document.read, none]
  rfl

theorem Document.read_located {d : Document} {tag name : List Char} {ordinal : Option Int}
    {e : Element} (last : (d.locate tag ordinal).getLast? = some e) :
    (d.read tag ordinal name).result = (d.readAttribute e name).result := by
  rw [Document.read]
  simp only [last]
  split
  · exact Report.result_bind (Report.result_note _)
  · rfl

theorem readClass_parsed {dialect : Dialect} {source : List Char} {d : Document}
    (parsed : Document.parse dialect source = .ok d) (tag name : List Char) (ordinal : Option Int) :
    (readClass dialect source tag ordinal name).result = (d.read tag ordinal name).result :=
  Report.result_bind (Report.result_ofExcept _ |>.trans parsed)

end Restyle
