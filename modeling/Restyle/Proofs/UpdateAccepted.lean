import Restyle.Proofs.OneElement
import Restyle.Proofs.Update

/-!
# When an updated text is accepted

An update leaves the syntax of a text alone as long as the value that it writes is taken as one
value where it stands. A literal is, unless it is in quotes and holds an ampersand that begins no
character reference.
-/

namespace Restyle

open Syntax Text Grammar

theorem Document.parse_accepts {dialect : Dialect} {source : List Char} :
    (∃ d, Document.parse dialect source = .ok d) ↔ ∃ n, Grammar.parse dialect source = .ok n := by
  rw [Document.parse]
  cases Grammar.parse dialect source with
  | ok n => simp
  | error r => simp

set_option maxRecDepth 100000 in
/-- In a file of one element without attributes, the attribute comes after the name. -/
private theorem paragraph_edit {ordinal : Option Int} (first : ordinal = none ∨ ordinal = some 0) :
    ∃ d e, Document.parse .tsx "<p/>".toList = .ok d ∧ d.locate "p".toList ordinal = [e] ∧
      ∀ rendered, d.valueEdit e rendered defaultAttribute =
        .insertion 2 (ofChars " className=".toList ++ rendered) := by
  let place (d : Document) := (d.locate "p".toList ordinal).map fun e =>
    (e.findAttribute defaultAttribute, e.insertAt, d.separator e)
  have found : (Document.parse .tsx "<p/>".toList).toOption.map place = some [(none, 2, [' '])] := by
    rcases first with rfl | rfl
    · decide +kernel
    · decide +kernel
  cases parsed : Document.parse .tsx "<p/>".toList with
  | error e =>
      rw [parsed] at found
      cases found
  | ok d =>
      rw [parsed] at found
      obtain ⟨e, only, same⟩ := List.map_eq_singleton_iff.mp (Option.some.inj found)
      simp only [Prod.mk.injEq] at same
      obtain ⟨none, stop, space⟩ := same
      refine ⟨d, e, rfl, only, fun rendered => ?_⟩
      rw [Document.valueEdit, none, stop, space]
      rfl

variable {value : List CodePoint} {stored written text : List Char} {ordinal : Option Int}

private theorem updateClass_paragraph (first : ordinal = none ∨ ordinal = some 0)
    (shown : (Value.render .tsx value).result = .ok (ofChars text)) :
    (updateClass .tsx "<p/>".toList "p".toList value ordinal defaultAttribute).result =
      .ok (paragraph text) := by
  obtain ⟨d, e, parsed, only, edit⟩ := paragraph_edit first
  obtain ⟨source, -, -, -⟩ := Document.parse_spec parsed
  have edits : (d.written "p".toList defaultAttribute ordinal (ofChars text)).edits =
      [.insertion 2 (ofChars (" className=".toList ++ text))] := by
    rw [Document.written, only, List.map_cons, List.map_nil, edit, ofChars_append]
  have halves : d.source = "<p".toList ++ "/>".toList := source
  have cut : IsCut d.source 2 := ⟨"<p".toList, "/>".toList, halves, rfl⟩
  obtain ⟨out, printed, spliced⟩ := Document.print_singleton edits cut cut rfl
  have whole : encode out = encode (paragraph text) := by
    have data : d.data = encode "<p".toList ++ encode "/>".toList := by
      rw [d.data_eq, halves, encode_append]
    calc encode out
      _ = d.data.take 2 ++ encode (" className=".toList ++ text) ++ d.data.drop 2 := spliced
      _ = encode "<p".toList ++ encode (" className=".toList ++ text) ++ encode "/>".toList := by
          rw [data]
          rfl
      _ = encode (paragraph text) := by
          rw [← encode_append, ← encode_append, List.append_assoc, List.append_assoc]
          rfl
  rw [updateClass_eq parsed shown, printed, encode_injective whole]

/-- An update with a value that is stored as a literal writes one text for it, alone or after the
name of the attribute. Wherever that text stands, it is taken as one value and nothing more exactly
if it reads back. The file that the update makes of a single element is accepted in the same case
only. -/
theorem updateClass_accepted_iff {source : List Char} {d : Document} (tag name : List Char)
    (ordinal : Option Int) (parsed : Document.parse .tsx source = .ok d)
    (shown : (Value.render .tsx value).result = .ok (Value.literal (ofChars stored))) :
    ∃ text, Value.literal (ofChars stored) = ofChars text ∧
      (updateClass .tsx source tag value ordinal name).result =
        (d.written tag name ordinal (ofChars text)).print.result ∧
      (∀ e ∈ (d.written tag name ordinal (ofChars text)).edits,
        ∃ lead, e.text = ofChars (lead ++ text)) ∧
      (∀ depth after, (Grammar.attributeValue (rules .tsx (depth + 2))).Takes (text ++ after) () after ↔
        Value.ReadsBack stored) ∧
      ∀ first ∈ [none, some 0], ∃ out,
        (updateClass .tsx "<p/>".toList "p".toList value first defaultAttribute).result = .ok out ∧
        ((∃ d, Document.parse .tsx out = .ok d) ↔ Value.ReadsBack stored) := by
  obtain ⟨-, -, -, sound⟩ := Document.parse_spec parsed
  obtain ⟨text, literal, written⟩ := Value.literal_written stored
  rw [literal] at shown
  refine ⟨text, literal, updateClass_eq parsed shown, fun e he => Document.mem_written sound he,
    Grammar.attributeValue_written written, fun first hfirst => ?_⟩
  refine ⟨paragraph text, updateClass_paragraph (by simpa using hfirst) shown, ?_⟩
  rw [Document.parse_accepts]
  constructor
  · rintro ⟨n, accepted⟩
    refine Classical.byContradiction fun unread => ?_
    obtain ⟨r, refused⟩ := parse_refuses fun depth =>
      attributeValue_unwritten written unread depth (by decide) (by decide)
    rw [accepted] at refused
    cases refused
  · intro reads
    exact parse_takes fun depth => (attributeValue_written written depth ending).mpr reads

set_option maxRecDepth 100000 in
theorem updateClass_accepted_iff_ampersand :
    (Value.render .tsx (ofChars "a&b".toList)).result =
        .ok (Value.literal (ofChars "a&b".toList)) ∧
      ∃ d out, Document.parse .tsx "<p/>".toList = .ok d ∧
        (updateClass .tsx "<p/>".toList "p".toList (ofChars "a&b".toList) none
          defaultAttribute).result = .ok out ∧
        ¬ ∃ d, Document.parse .tsx out = .ok d := by
  have shown : (Value.render .tsx (ofChars "a&b".toList)).result =
      .ok (Value.literal (ofChars "a&b".toList)) := by
    decide +kernel
  have unread : ¬ Value.ReadsBack "a&b".toList := by
    rintro (⟨double, -⟩ | plain)
    · simp at double
    · have taken : takeAttributeString ('"' :: ("a&b".toList ++ '"' :: [])) = _ :=
        (takeAttributeString_iff rfl _ (by decide)).mpr plain
      cases taken
  obtain ⟨d, -, parsed, -⟩ := paragraph_edit (.inl rfl)
  obtain ⟨text, -, -, -, -, file⟩ :=
    updateClass_accepted_iff "p".toList defaultAttribute none parsed shown
  obtain ⟨out, updated, accepted⟩ := file none (by simp)
  exact ⟨shown, d, out, parsed, updated, fun again => unread (accepted.mp again)⟩

end Restyle
