import Restyle.Proofs.QuotedStrings
import Restyle.Proofs.ReadAttributes
import Restyle.Proofs.Rendering
import Restyle.Proofs.Update

/-!
# Values read back

What a value that was written reads as. A conditional comes back without surrounding blanks. All
else comes back as the text that was stored, or as the source of a string with escapes if that text
holds both quotes.
-/

namespace Restyle

open Syntax Text

namespace Value

variable {dialect : Dialect} {value text stored : List Char} {shape : Shape}

/-- What reading gives for a stored text. -/
def storedAs (points : List CodePoint) : List CodePoint :=
  if points.contains (.ofChar '"') && points.contains (.ofChar '\'') then encode points else points

/-- What reading gives for a value of a shape. -/
def readBack (value : List Char) : Shape → List CodePoint
  | .ternary _ => ofChars (trim value)
  | .string points => storedAs points
  | .other => storedAs (ofChars value)
  | .invalid _ => storedAs (ofChars value)

/-- How a value of a shape is written. -/
inductive RenderedAs (value : List Char) : Shape → List Char → Prop
  | ternary (commentAtEnd : Bool) : trim value ≠ [] →
      RenderedAs value (.ternary commentAtEnd) (braced commentAtEnd (trim value))
  | string {stored text : List Char} : Written stored text →
      RenderedAs value (.string (ofChars stored)) text
  | other {text : List Char} : Written value text → RenderedAs value .other text
  | invalid {text : List Char} (why : Obstacle) : Written value text →
      RenderedAs value (.invalid why) text

private theorem written_of_literal {points : List CodePoint} (h : literal points = ofChars text) :
    ∃ stored, points = ofChars stored ∧ Written stored text := by
  cases chars : toChars? points with
  | none =>
      have surrogate := (surrogate_mem_literal points).mpr (toChars?_eq_none.mp chars)
      rw [h] at surrogate
      exact absurd surrogate (not_surrogate_ofChars text)
  | some stored =>
      have same := toChars?_eq_some.mp chars
      obtain ⟨written, literal, how⟩ := literal_written stored
      rw [same, literal] at h
      exact ⟨stored, same, ofChars_injective h ▸ how⟩

private theorem written_of_verbatim (h : literal (ofChars value) = ofChars text) :
    Written value text := by
  obtain ⟨stored, same, written⟩ := written_of_literal h
  exact ofChars_injective same ▸ written

/-- A value that is rendered has a shape, and is written as it goes with that shape. -/
theorem render_spec (shown : (render dialect (ofChars value)).result = .ok (ofChars text)) :
    ∃ shape, classify dialect value = .ok shape ∧ RenderedAs value shape text := by
  unfold render at shown
  simp only [toChars?_ofChars] at shown
  cases classified : classify dialect value with
  | error e =>
      rw [Report.result_bind_error (Report.result_ofExcept _ |>.trans classified)] at shown
      cases shown
  | ok shape =>
      rw [Report.result_bind (Report.result_ofExcept _ |>.trans classified)] at shown
      refine ⟨shape, rfl, ?_⟩
      cases shape with
      | ternary commentAtEnd =>
          have some : trim value ≠ [] := by
            intro empty
            rw [classify] at classified
            simp [empty] at classified
          cases ofChars_injective (Except.ok.inj shown)
          exact .ternary commentAtEnd some
      | string points =>
          obtain ⟨stored, rfl, written⟩ := written_of_literal (Except.ok.inj shown)
          exact .string written
      | other => exact .other (written_of_verbatim (Except.ok.inj shown))
      | invalid why =>
          rw [renderAs, Report.result_bind (Report.result_note _)] at shown
          exact .invalid why (written_of_verbatim (Except.ok.inj shown))

end Value

/-- A node that covers some source text, and is the string or the braces that the text begins as. -/
structure Covers (source text : List Char) (n : Node) : Prop where
  slice : IsSlice source n.start n.stop text
  string : ∀ q ∈ text.head?, isQuote q → n.kind = .string
  container : text.head? = some '\x7b' → n.kind = .container

/-- A node holds a text that reads as `back`: as a string or, if the text has both quotes, in braces,
as a string literal that has it as its value. -/
inductive HoldsText (n : Node) (stored back : List Char) : Prop
  | string : n.kind = .string → back = stored → HoldsText n stored back
  | container : n.kind = .container → '"' ∈ stored → '\'' ∈ stored →
      takeString back = some (back, []) → Value.decode back = .ok (ofChars stored) →
      HoldsText n stored back

/-- What a node for a value of a shape holds: the conditional in braces, or the text that is stored for
the value. -/
def Value.Holds (value : List Char) (n : Node) (back : List Char) : Value.Shape → Prop
  | .ternary _ => n.kind = .container ∧ back = trim value
  | .string points => ∃ stored, points = ofChars stored ∧ HoldsText n stored back
  | .other => HoldsText n value back
  | .invalid _ => HoldsText n value back

namespace Document

variable {w : Document} {n : Node} {value text stored : List Char} {shape : Value.Shape}

section Fresh

variable (fresh : w.edits = []) (own : Syntax.Sound w.source n) (covers : Covers w.source text n)
include fresh own covers

/-- A text that was written as a literal is read as it is, or as a string with escapes. -/
theorem readAs_written (written : Value.Written stored text) :
    ∃ back, (w.readAs (valueKind n) n.start n.stop (some (innerStart n, innerStop n))).result =
        .ok (some back) ∧
      ofChars back = Value.storedAs (ofChars stored) ∧ HoldsText n stored back := by
  have slice := covers.slice
  cases written with
  | @quoted q hq free =>
      have kind : n.kind = .string := covers.string q rfl hq
      refine ⟨stored, readAs_string fresh kind hq slice _, ?_, .string kind rfl⟩
      rw [Value.storedAs, if_neg]
      rw [Bool.and_eq_true, List.contains_iff_mem, List.contains_iff_mem, mem_ofChars, mem_ofChars]
      rintro ⟨double, single⟩
      rcases isQuote_iff.mp hq with rfl | rfl
      · exact free double
      · exact free single
  | @braced inside double single encoded string =>
      have kind : n.kind = .container := covers.container rfl
      have trimmed : trim ('"' :: (inside ++ ['"'])) = '"' :: (inside ++ ['"']) := by
        refine trim_eq_self (fun c hc => ?_) fun c hc => ?_
        · cases hc
          rfl
        · rw [← List.cons_append, List.getLast?_concat] at hc
          cases hc
          rfl
      have pieces : '\x7b' :: '"' :: (inside ++ ['"', '\x7d']) =
          '\x7b' :: (('"' :: (inside ++ ['"'])) ++ ['\x7d']) := by simp
      rw [pieces] at slice
      have read := readAs_container fresh own kind slice
      rw [trimmed] at read
      have both : (ofChars stored).contains (.ofChar '"') && (ofChars stored).contains (.ofChar '\'') := by
        rw [Bool.and_eq_true, List.contains_iff_mem, List.contains_iff_mem, mem_ofChars, mem_ofChars]
        exact ⟨double, single⟩
      obtain ⟨inside', encoded', -, decoded⟩ := Value.encode_ofChars stored
      have same := ofChars_injective (encoded.symm.trans encoded')
      refine ⟨_, read, ?_, .container kind double single (string []) ?_⟩
      · rw [Value.storedAs, if_pos both, encoded]
      · rw [same, decoded]

/-- A conditional is read without surrounding blanks, also if a comment ends it. -/
theorem readAs_conditional {commentAtEnd : Bool} (some : trim value ≠ [])
    (written : text = Value.braced commentAtEnd (trim value)) :
    n.kind = .container ∧
      (w.readAs (valueKind n) n.start n.stop (.some (innerStart n, innerStop n))).result =
        .ok (.some (trim value)) := by
  subst written
  have kind : n.kind = .container := covers.container rfl
  have slice := covers.slice
  have whole (inside : List Char) (trimmed : trim inside = trim value)
      (pieces : Value.braced commentAtEnd (trim value) = '\x7b' :: (inside ++ ['\x7d'])) :
      (w.readAs (valueKind n) n.start n.stop (.some (innerStart n, innerStop n))).result =
        .ok (.some (trim value)) := by
    rw [pieces] at slice
    rw [readAs_container fresh own kind slice, trimmed, if_neg (by simpa using some)]
  refine ⟨kind, ?_⟩
  cases commentAtEnd with
  | false => exact whole (trim value) (trim_trim value) rfl
  | true =>
      refine whole (trim value ++ ['\n']) ((trim_append_blank rfl).trans (trim_trim value)) ?_
      simp [Value.braced]

theorem readAs_rendered (rendered : Value.RenderedAs value shape text) :
    ∃ back, (w.readAs (valueKind n) n.start n.stop (some (innerStart n, innerStop n))).result =
        .ok (some back) ∧
      ofChars back = Value.readBack value shape ∧ Value.Holds value n back shape := by
  cases rendered with
  | ternary commentAtEnd some =>
      obtain ⟨kind, read⟩ := readAs_conditional fresh own covers some rfl
      exact ⟨_, read, rfl, kind, rfl⟩
  | @string stored _ written =>
      obtain ⟨back, read, same, holds⟩ := readAs_written fresh own covers written
      exact ⟨back, read, same, stored, rfl, holds⟩
  | other written => exact readAs_written fresh own covers written
  | invalid why written => exact readAs_written fresh own covers written

end Fresh

/-- An attribute whose value is the source of a value reads as the value comes back. -/
theorem readAttribute_rendered {name : List Char} {o : Opening} {entry nameNode : Node}
    {others : List Node} (h : w.SoundTree) (fresh : w.edits = [])
    (ho : o ∈ w.openings) (first : w.FirstCalled o name entry)
    (parts : entry.parts = nameNode :: n :: others) (covers : Covers w.source text n)
    (rendered : Value.RenderedAs value shape text) (ordinal : Nat) :
    ∃ back, (w.readAttribute (w.elementAt o ordinal) name).result = .ok (some back) ∧
      ofChars back = Value.readBack value shape ∧ Value.Holds value n back shape := by
  have own := first.value_sound (opening_sound h ho) parts n (Tree.self_mem_subtrees n)
  rw [readAttribute_valued first parts]
  exact readAs_rendered fresh own covers rendered

end Document

/-- The one attribute of a tag with its value, if that is all there is in the tag. -/
def soleAttribute? (w : Document) (o : Opening) : Option (Node × Node × Node) :=
  match o.entries with
  | [entry] =>
      match entry.parts with
      | [nameNode, valueNode] =>
          if entry.kind = .attribute ∧ w.nodeText nameNode = defaultAttribute then
            some (entry, nameNode, valueNode)
          else none
      | _ => none
  | _ => none

private theorem soleAttribute?_eq_some {w : Document} {o : Opening} {entry nameNode valueNode : Node}
    (h : soleAttribute? w o = some (entry, nameNode, valueNode)) :
    w.FirstCalled o defaultAttribute entry ∧ entry.parts = [nameNode, valueNode] := by
  rw [soleAttribute?] at h
  split at h
  · rename_i entry sole
    split at h
    · rename_i nameNode valueNode parts
      split at h
      · rename_i called
        cases h
        exact ⟨⟨[], [], sole, ⟨called.1, nameNode, by simp [parts], called.2⟩, by simp⟩, parts⟩
      · cases h
    · cases h
  · cases h

/-- In a text with one tag and one attribute that has a value, the value is covered by the source that
stands there. -/
theorem exists_covers (out front text back : List Char) (kind : Kind)
    (split : out = front ++ text ++ back)
    (place : (Document.parse .tsx out).toOption.any fun w => w.openings.any fun o =>
      (soleAttribute? w o).any fun (_, _, n) => n.kind = kind ∧ n.start = byteLength front ∧
        n.stop = byteLength front + byteLength text)
    (string : ∀ q ∈ text.head?, isQuote q → kind = .string)
    (container : text.head? = some '\x7b' → kind = .container) :
    ∃ w, Document.parse .tsx out = .ok w ∧ ∃ o ∈ w.openings, ∃ entry nameNode valueNode,
      w.FirstCalled o defaultAttribute entry ∧ entry.parts = [nameNode, valueNode] ∧
      Covers out text valueNode := by
  cases parsed : Document.parse .tsx out with
  | error e =>
      rw [parsed] at place
      cases place
  | ok w =>
      rw [parsed] at place
      obtain ⟨o, ho, found⟩ := List.any_eq_true.mp (place : w.openings.any _)
      cases sole : soleAttribute? w o with
      | none =>
          rw [sole] at found
          cases found
      | some triple =>
          obtain ⟨entry, nameNode, valueNode⟩ := triple
          rw [sole] at found
          obtain ⟨rfl, start, stop⟩ := of_decide_eq_true found
          obtain ⟨first, parts⟩ := soleAttribute?_eq_some sole
          refine ⟨w, rfl, o, ho, entry, nameNode, valueNode, first, parts, ?_, string, container⟩
          exact ⟨front, back, split, start.symm, by rw [start, stop]⟩

/-- An update writes the source of the value into a text, alone or after the name of the attribute.
Wherever the new text has that source as the value of the attribute, the attribute reads as follows
from the shape of the value: a conditional without surrounding blanks, and the value of a string
literal or else the value as it is, given as a string with escapes if it holds both quotes. -/
theorem Document.update_read_back {d : Document} {value text : List Char} (h : d.SoundTree)
    (fresh : d.edits = []) (tag name : List Char) (ordinal : Option Int)
    (shown : (Value.render d.dialect (ofChars value)).result = .ok (ofChars text)) :
    ∃ shape out, Value.classify d.dialect value = .ok shape ∧
      (d.update tag (ofChars value) ordinal name).result = .ok out ∧
      (∀ e ∈ (d.written tag name ordinal (ofChars text)).edits,
        ∃ lead, e.text = ofChars (lead ++ text)) ∧
      ∀ w : Document, w.SoundTree → w.edits = [] → w.source = out → ∀ o ∈ w.openings,
        ∀ k entry nameNode valueNode others, w.FirstCalled o name entry →
          entry.parts = nameNode :: valueNode :: others → Covers out text valueNode →
          ∃ back, (w.readAttribute (w.elementAt o k) name).result = .ok (some back) ∧
            ofChars back = Value.readBack value shape := by
  obtain ⟨shape, classified, rendered⟩ := Value.render_spec shown
  obtain ⟨out, printed, -⟩ := print_written h tag name ordinal text
  refine ⟨shape, out, classified, (update_eq fresh shown).trans printed,
    fun e he => mem_written h he, ?_⟩
  rintro w sound again rfl o ho k entry nameNode valueNode others first parts covers
  obtain ⟨back, read, same, -⟩ := readAttribute_rendered sound again ho first parts covers rendered k
  exact ⟨back, read, same⟩

variable {dialect : Dialect} {source value text : List Char} {d : Document}

/-- The same of a text that parses and of what it parses as after the update. -/
theorem updateClass_read_back (tag name : List Char) (ordinal : Option Int)
    (parsed : Document.parse dialect source = .ok d)
    (shown : (Value.render dialect (ofChars value)).result = .ok (ofChars text)) :
    ∃ shape out, Value.classify dialect value = .ok shape ∧
      (updateClass dialect source tag (ofChars value) ordinal name).result = .ok out ∧
      (∀ e ∈ (d.written tag name ordinal (ofChars text)).edits,
        ∃ lead, e.text = ofChars (lead ++ text)) ∧
      ∀ w, Document.parse dialect out = .ok w → ∀ o ∈ w.openings,
        ∀ k entry nameNode valueNode others, w.FirstCalled o name entry →
          entry.parts = nameNode :: valueNode :: others → Covers out text valueNode →
          ∃ back, (w.readAttribute (w.elementAt o k) name).result = .ok (some back) ∧
            ofChars back = Value.readBack value shape := by
  obtain ⟨rfl, rfl, fresh, sound⟩ := Document.parse_spec parsed
  obtain ⟨shape, out, classified, updated, written, reads⟩ :=
    Document.update_read_back sound fresh tag name ordinal shown
  refine ⟨shape, out, classified, (updateClass_parsed parsed ..).trans updated, written, ?_⟩
  intro w reparsed
  obtain ⟨source, -, again, sound⟩ := Document.parse_spec reparsed
  exact reads w sound again source

set_option maxRecDepth 100000 in
theorem updateClass_read_back_paragraph :
    ∃ d, Document.parse .tsx "<p/>".toList = .ok d ∧
      (Value.render .tsx (ofChars "a".toList)).result = .ok (ofChars "\"a\"".toList) ∧
      ∃ w, Document.parse .tsx "<p className=\"a\"/>".toList = .ok w ∧
        (updateClass .tsx "<p/>".toList "p".toList (ofChars "a".toList) (some 0)
          defaultAttribute).result = .ok w.source ∧
        ∃ o ∈ w.openings, (w.readAttribute (w.elementAt o 0) defaultAttribute).result =
          .ok (some "a".toList) := by
  have accepted : (Document.parse .tsx "<p/>".toList).toOption.isSome := by
    decide +kernel
  have shown : (Value.render .tsx (ofChars "a".toList)).result = .ok (ofChars "\"a\"".toList) := by
    decide +kernel
  have updated : (updateClass .tsx "<p/>".toList "p".toList (ofChars "a".toList) (some 0)
      defaultAttribute).result = .ok "<p className=\"a\"/>".toList := by
    decide +kernel
  have classified : Value.classify .tsx "a".toList = .ok .other := by
    decide +kernel
  obtain ⟨w, reparsed, o, ho, entry, nameNode, valueNode, first, parts, covers⟩ :=
    exists_covers "<p className=\"a\"/>".toList "<p className=".toList "\"a\"".toList "/>".toList
      .string rfl (by decide +kernel)
      (by simp) (by simp)
  cases parsed : Document.parse .tsx "<p/>".toList with
  | error e =>
      rw [parsed] at accepted
      cases accepted
  | ok d =>
      obtain ⟨shape, out, classified', updated', -, reads⟩ :=
        updateClass_read_back "p".toList defaultAttribute (some 0) parsed shown
      rw [classified] at classified'
      rw [updated] at updated'
      cases classified'
      cases updated'
      obtain ⟨back, read, same⟩ := reads w reparsed o ho 0 entry nameNode valueNode [] first parts covers
      have text : back = "a".toList := ofChars_injective same
      obtain ⟨source, -⟩ := Document.parse_spec reparsed
      exact ⟨d, rfl, shown, w, reparsed, by rw [updated, source], o, ho, by rw [read, text]⟩

end Restyle
