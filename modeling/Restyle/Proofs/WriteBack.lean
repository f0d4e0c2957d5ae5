import Restyle.Proofs.ReadBack

/-!
# Writing back what was read

What becomes of an attribute if the value that it reads as is written to it. Reading does not tell a
text from an expression, and writing goes by what the value parses as: a conditional is put into
braces, and all else is stored as a text.
-/

namespace Restyle

open Syntax Text

variable {dialect : Dialect} {source tag name value : List Char} {d : Document}

theorem Document.printExpression_trim {start stop : Nat}
    (h : (d.printExpression start stop).result = .ok (some value)) : trim value = value := by
  cases printed : (d.printSpan start stop).result with
  | error e =>
      rw [printExpression, Report.result_bind_error printed] at h
      cases h
  | ok inside =>
      rw [printExpression_result printed] at h
      split at h
      · cases h
      · cases h
        exact trim_trim inside

theorem Document.readAttribute_trim {e : Element} {a : Attribute} (found : e.findAttribute name = some a)
    (kind : a.kind = .expression) (read : (d.readAttribute e name).result = .ok (some value)) :
    trim value = value := by
  rw [readAttribute, found] at read
  simp only [readValue, kind] at read
  split at read
  · exact printExpression_trim read
  · cases read

theorem Document.readAttribute_value {e : Element}
    (read : (d.readAttribute e name).result = .ok (some value)) :
    ∃ a v, e.findAttribute name = some a ∧ a.value = some v := by
  rw [readAttribute] at read
  split at read
  · rename_i a found
    rw [readValue] at read
    split at read
    · rename_i v valued
      exact ⟨a, v, found, valued⟩
    · cases read
  · cases read

namespace Document

theorem update_valued {n : Int} {e : Element} {a : Attribute} {v : AttributeValue}
    {points : List CodePoint} {text : List Char} (h : d.SoundTree) (fresh : d.edits = [])
    (found : d.locate tag (some n) = [e]) (named : e.findAttribute name = some a)
    (valued : a.value = some v)
    (shown : (Value.render d.dialect points).result = .ok (ofChars text)) :
    ∃ out, (d.update tag points (some n) name).result = .ok out ∧
      encode out = d.data.take v.start ++ encode text ++ d.data.drop v.stop := by
  have edit : d.valueEdit e (ofChars text) name = ⟨v.start, v.stop, ofChars text, v.start_le_stop⟩ := by
    simp only [valueEdit, named, valued]
  have only : (d.written tag name (some n) (ofChars text)).edits =
      [⟨v.start, v.stop, ofChars text, v.start_le_stop⟩] := by
    rw [written, found, List.map_singleton, edit]
  obtain ⟨o, ho, k, rfl⟩ := mem_locate (found ▸ List.mem_singleton_self e)
  have cut := valueEdit_cut h ho k (ofChars text) name
  rw [edit] at cut
  obtain ⟨out, printed, spliced⟩ := print_singleton only cut.1 cut.2 rfl
  exact ⟨out, (update_eq fresh shown).trans printed, spliced⟩

/-- An attribute of an element is given the value that it reads as. If every escape of the value
names a character, this gives a text, with the source of the value in the place of what was there.
Where that has this source as the value of the attribute, a conditional stands in braces, the same
one as before if the attribute was an expression; a string literal has become its value and anything
else a text of its own source, in quotes or as a string literal in braces. -/
theorem update_write_back {n : Int} {e : Element} (h : d.SoundTree) (fresh : d.edits = [])
    (found : d.locate tag (some n) = [e])
    (read : (d.readAttribute e name).result = .ok (some value))
    (names : Value.EscapesNameCharacters d.dialect value) :
    ∃ a v shape text out, e.findAttribute name = some a ∧ a.value = some v ∧
      (a.kind = .expression → trim value = value) ∧ Value.classify d.dialect value = .ok shape ∧
      (Value.render d.dialect (ofChars value)).result = .ok (ofChars text) ∧
      (d.update tag (ofChars value) (some n) name).result = .ok out ∧
      encode out = d.data.take v.start ++ encode text ++ d.data.drop v.stop ∧
      ∀ w : Document, w.SoundTree → w.edits = [] → w.source = out → ∀ o ∈ w.openings,
        ∀ k entry nameNode valueNode others, w.FirstCalled o name entry →
          entry.parts = nameNode :: valueNode :: others → Covers out text valueNode →
          ∃ back, (w.readAttribute (w.elementAt o k) name).result = .ok (some back) ∧
            Value.Holds value valueNode back shape := by
  obtain ⟨a, v, named, valued⟩ := readAttribute_value read
  obtain ⟨text, shown⟩ := Value.render_text names
  obtain ⟨shape, classified, rendered⟩ := Value.render_spec shown
  obtain ⟨out, updated, replaced⟩ := update_valued h fresh found named valued shown
  refine ⟨a, v, shape, text, out, named, valued, ?_, classified, shown, updated, replaced, ?_⟩
  · intro kind
    exact readAttribute_trim named kind read
  · rintro w sound again rfl o ho k entry nameNode valueNode others first parts covers
    obtain ⟨back, again, -, holds⟩ :=
      readAttribute_rendered sound again ho first parts covers rendered k
    exact ⟨back, again, holds⟩

end Document

/-- The same of a text that parses and of what it parses as after the update. -/
theorem updateClass_write_back {n : Int} {e : Element} (parsed : Document.parse dialect source = .ok d)
    (found : d.locate tag (some n) = [e])
    (read : (d.readAttribute e name).result = .ok (some value))
    (names : Value.EscapesNameCharacters dialect value) :
    ∃ a v shape text out, e.findAttribute name = some a ∧ a.value = some v ∧
      (a.kind = .expression → trim value = value) ∧ Value.classify dialect value = .ok shape ∧
      (Value.render dialect (ofChars value)).result = .ok (ofChars text) ∧
      (updateClass dialect source tag (ofChars value) (some n) name).result = .ok out ∧
      encode out = (encode source).take v.start ++ encode text ++ (encode source).drop v.stop ∧
      ∀ w, Document.parse dialect out = .ok w → ∀ o ∈ w.openings,
        ∀ k entry nameNode valueNode others, w.FirstCalled o name entry →
          entry.parts = nameNode :: valueNode :: others → Covers out text valueNode →
          ∃ back, (w.readAttribute (w.elementAt o k) name).result = .ok (some back) ∧
            Value.Holds value valueNode back shape := by
  obtain ⟨rfl, rfl, fresh, sound⟩ := Document.parse_spec parsed
  obtain ⟨a, v, shape, text, out, named, valued, trimmed, classified, shown, updated, replaced, holds⟩ :=
    Document.update_write_back sound fresh found read names
  rw [d.data_eq] at replaced
  refine ⟨a, v, shape, text, out, named, valued, trimmed, classified, shown,
    (updateClass_parsed parsed ..).trans updated, replaced, ?_⟩
  intro w reparsed
  obtain ⟨source, -, again, sound⟩ := Document.parse_spec reparsed
  exact holds w sound again source

set_option maxRecDepth 100000 in
theorem updateClass_write_back_conditional :
    ∃ d e, Document.parse .tsx "<p className=\x7ba ? b : c\x7d/>".toList = .ok d ∧
      d.locate "p".toList (some 0) = [e] ∧
      (d.readAttribute e defaultAttribute).result = .ok (some "a ? b : c".toList) ∧
      Value.EscapesNameCharacters .tsx "a ? b : c".toList ∧
      (updateClass .tsx "<p className=\x7ba ? b : c\x7d/>".toList "p".toList
        (ofChars "a ? b : c".toList) (some 0) defaultAttribute).result = .ok d.source ∧
      ∃ o ∈ d.openings, (d.readAttribute (d.elementAt o 0) defaultAttribute).result =
        .ok (some "a ? b : c".toList) := by
  have read : (readClass .tsx "<p className=\x7ba ? b : c\x7d/>".toList "p".toList (some 0)
      defaultAttribute).result = .ok (some "a ? b : c".toList) := by
    decide +kernel
  have classified : Value.classify .tsx "a ? b : c".toList = .ok (.ternary false) := by
    decide +kernel
  have rendered : (Value.render .tsx (ofChars "a ? b : c".toList)).result =
      .ok (ofChars "\x7ba ? b : c\x7d".toList) := by
    decide +kernel
  have updated : (updateClass .tsx "<p className=\x7ba ? b : c\x7d/>".toList "p".toList
      (ofChars "a ? b : c".toList) (some 0) defaultAttribute).result =
        .ok "<p className=\x7ba ? b : c\x7d/>".toList := by
    decide +kernel
  obtain ⟨d, parsed, o, ho, entry, nameNode, valueNode, first, parts, covers⟩ :=
    exists_covers "<p className=\x7ba ? b : c\x7d/>".toList "<p className=".toList
      "\x7ba ? b : c\x7d".toList "/>".toList .container rfl
      (by decide +kernel) (by simp [isQuote]) (by simp)
  obtain ⟨source, -, -, -⟩ := Document.parse_spec parsed
  have located : ∃ e, d.locate "p".toList (some 0) = [e] := by
    have here : d.locate "p".toList (some 0) = ((d.named "p".toList)[0]?.map (d.elementAt · 0)).toList :=
      d.locate_ordinal 0
    generalize (d.named "p".toList)[0]? = first at here
    cases first with
    | none =>
        rw [readClass_parsed parsed, Document.read_unlocated here] at read
        cases read
    | some o => exact ⟨_, here⟩
  obtain ⟨e, found⟩ := located
  rw [readClass_parsed parsed, Document.read_located (e := e) (by rw [found]; rfl)] at read
  have names := Value.escapesNameCharacters_of_classify classified (by simp)
  obtain ⟨a, v, shape, text, out, -, -, -, classified', shown, updated', -, holds⟩ :=
    updateClass_write_back parsed found read names
  rw [classified] at classified'
  rw [rendered] at shown
  rw [updated] at updated'
  cases classified'
  cases updated'
  have same := ofChars_injective (Except.ok.inj shown)
  subst same
  obtain ⟨back, again, -, same⟩ := holds d parsed o ho 0 entry nameNode valueNode [] first parts covers
  have trimmed : back = "a ? b : c".toList := same.trans (by decide)
  rw [trimmed] at again
  exact ⟨d, e, parsed, found, read, names, by rw [updated, source], o, ho, again⟩

/-- The kinds of an attribute on the elements at an address, if the text parses. -/
def attributeKinds (dialect : Dialect) (source tag name : List Char) (ordinal : Option Int) :
    Option (List (Option ValueKind)) :=
  (Document.parse dialect source).toOption.map fun d =>
    (d.locate tag ordinal).map fun e => (e.findAttribute name).map Attribute.kind

set_option maxRecDepth 100000 in
/-- Written back, an expression that is no conditional becomes a text of its own source, and a text
that looks like a conditional becomes one. -/
theorem write_back_changes_kind :
    ((readClass .tsx "<p className=\x7bfoo\x7d/>".toList "p".toList (some 0)
        defaultAttribute).result = .ok (some "foo".toList) ∧
      Value.classify .tsx "foo".toList = .ok .other ∧
      (updateClass .tsx "<p className=\x7bfoo\x7d/>".toList "p".toList (ofChars "foo".toList)
        (some 0) defaultAttribute).result = .ok "<p className=\"foo\"/>".toList ∧
      attributeKinds .tsx "<p className=\x7bfoo\x7d/>".toList "p".toList defaultAttribute (some 0) =
        some [some .expression] ∧
      attributeKinds .tsx "<p className=\"foo\"/>".toList "p".toList defaultAttribute (some 0) =
        some [some .literal]) ∧
    (readClass .tsx "<p className=\"a ? b : c\"/>".toList "p".toList (some 0)
        defaultAttribute).result = .ok (some "a ? b : c".toList) ∧
      (updateClass .tsx "<p className=\"a ? b : c\"/>".toList "p".toList
        (ofChars "a ? b : c".toList) (some 0) defaultAttribute).result =
          .ok "<p className=\x7ba ? b : c\x7d/>".toList ∧
      attributeKinds .tsx "<p className=\"a ? b : c\"/>".toList "p".toList defaultAttribute (some 0) =
        some [some .literal] ∧
      attributeKinds .tsx "<p className=\x7ba ? b : c\x7d/>".toList "p".toList defaultAttribute
        (some 0) = some [some .expression] := by
  refine ⟨⟨?_, ?_, ?_, ?_, ?_⟩, ?_, ?_, ?_, ?_⟩
  all_goals decide +kernel

end Restyle
