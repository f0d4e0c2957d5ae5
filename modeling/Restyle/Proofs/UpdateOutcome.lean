import Restyle.Proofs.Rendering
import Restyle.Proofs.Update

/-!
# When an update has a result

A text that does not parse is refused. Of one that parses, an update gives a text unless it would
write a string literal with an escape that names no character.
-/

namespace Restyle

open Syntax Text

variable {tag name value : List Char} {ordinal : Option Int} {d : Document}

namespace Document

theorem update_unrendered {e : Failure} {value : List CodePoint} (found : d.locate tag ordinal ≠ [])
    (failed : (Value.render d.dialect value).result = .error e) :
    (d.update tag value ordinal name).result = .error e := by
  rw [update]
  refine Report.result_bind_error ?_
  rw [write]
  split
  · rename_i none
    exact absurd none found
  · split
    · rw [Report.result_bind (Report.result_note _)]
      exact Report.result_bind_error failed
    · exact Report.result_bind_error failed

/-- An update gives a text exactly if no element is found or every escape of the value names a
character, and else fails because of the escape. -/
theorem update_returns (h : d.SoundTree) (fresh : d.edits = []) (tag value : List Char)
    (ordinal : Option Int) (name : List Char) :
    ((∃ out, (d.update tag (ofChars value) ordinal name).result = .ok out) ↔
      d.locate tag ordinal = [] ∨ Value.EscapesNameCharacters d.dialect value) ∧
    ∀ e, (d.update tag (ofChars value) ordinal name).result = .error e →
      e = .noSuchCodePoint ∨ e = .numberTooLarge ∨ e = .surrogate := by
  by_cases none : d.locate tag ordinal = []
  · rw [update_unlocated none]
    exact ⟨by simp [none], by simp⟩
  by_cases names : Value.EscapesNameCharacters d.dialect value
  · obtain ⟨text, rendered⟩ := Value.render_text names
    obtain ⟨out, printed, -⟩ := print_written h tag name ordinal text
    rw [update_eq fresh rendered, printed]
    exact ⟨by simp [names], by simp⟩
  · have failed : ∃ e, (d.update tag (ofChars value) ordinal name).result = .error e ∧
        (e = .noSuchCodePoint ∨ e = .numberTooLarge ∨ e = .surrogate) := by
      rcases Value.render_no_text names with ⟨points, rendered, surrogate⟩ | ⟨e, rendered, large⟩
      · rw [update_eq fresh rendered, print_unwritten h none surrogate]
        exact ⟨_, rfl, .inr (.inr rfl)⟩
      · exact ⟨e, update_unrendered none rendered, large.imp_right Or.inl⟩
    obtain ⟨e, updated, cause⟩ := failed
    rw [updated]
    refine ⟨by simp [none, names], fun f same => ?_⟩
    cases same
    exact cause

end Document

/-- An update of a text that does not parse is refused. For one that parses, it gives a text exactly
if no element is found or every escape of the value names a character, and else fails because of
the escape. -/
theorem updateClass_returns (dialect : Dialect) (source tag value : List Char)
    (ordinal : Option Int) (name : List Char) :
    (∃ reason, Document.parse dialect source = .error (.refused reason) ∧
      (updateClass dialect source tag (ofChars value) ordinal name).result =
        .error (.refused reason)) ∨
    ∃ d, Document.parse dialect source = .ok d ∧
      ((∃ out, (updateClass dialect source tag (ofChars value) ordinal name).result = .ok out) ↔
        d.locate tag ordinal = [] ∨ Value.EscapesNameCharacters dialect value) ∧
      ∀ e, (updateClass dialect source tag (ofChars value) ordinal name).result = .error e →
        e = .noSuchCodePoint ∨ e = .numberTooLarge ∨ e = .surrogate := by
  cases parsed : Document.parse dialect source with
  | error e =>
      obtain ⟨reason, rfl⟩ := Document.parse_refused parsed
      exact .inl ⟨reason, rfl, Report.result_bind_error parsed⟩
  | ok d =>
      obtain ⟨-, rfl, fresh, sound⟩ := Document.parse_spec parsed
      rw [updateClass_parsed parsed]
      exact .inr ⟨d, rfl, Document.update_returns sound fresh tag value ordinal name⟩

-- a value whose only escape is past the last code point
set_option maxRecDepth 100000 in
example : (updateClass .tsx "<p/>".toList "p".toList (ofChars "\"\\u\x7b110000\x7d\"".toList) none
    defaultAttribute).result = .error .noSuchCodePoint := by
  decide +kernel

end Restyle
