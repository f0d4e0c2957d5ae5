import Restyle.Proofs.Escapes
import Restyle.Value.Render

/-!
# What values render to

A value is rendered as text unless it is a string literal with an escape that names no character:
then the text holds a surrogate, or there is none at all.
-/

namespace Restyle.Value

open Syntax Text

variable {dialect : Dialect} {value raw : List Char}

/-- A value is one string literal, which may stand in parentheses. -/
def IsLiteral (dialect : Dialect) (value raw : List Char) : Prop :=
  trim value ≠ [] ∧ ∃ root e, Grammar.parse dialect (wrapped (trim value)) = .ok root ∧
    wholeExpression? root (Text.encode (wrapped (trim value))).length = some e ∧
    (unwrap e).kind = .string ∧
    raw = decodeLossy (((Text.encode (wrapped (trim value))).drop (unwrap e).start).take
      ((unwrap e).stop - (unwrap e).start))

/-- Every escape of a number names a character, if the value is a string literal. -/
def EscapesNameCharacters (dialect : Dialect) (value : List Char) : Prop :=
  ∀ raw, IsLiteral dialect value raw →
    ∀ n, EscapeNumber (raw.drop 1).dropLast n → n.isValidChar

theorem IsLiteral.unique {other : List Char} (h : IsLiteral dialect value raw)
    (k : IsLiteral dialect value other) : raw = other := by
  obtain ⟨-, root, e, parsed, whole, -, rfl⟩ := h
  obtain ⟨-, root', e', parsed', whole', -, rfl⟩ := k
  rw [parsed] at parsed'
  cases parsed'
  rw [whole] at whole'
  cases whole'
  rfl

private theorem IsLiteral.whole {root : Node} (h : IsLiteral dialect value raw)
    (parsed : Grammar.parse dialect (wrapped (trim value)) = .ok root) :
    ∃ e, wholeExpression? root (Text.encode (wrapped (trim value))).length = some e ∧
      (unwrap e).kind = .string := by
  obtain ⟨-, root', e, parsed', whole, string, -⟩ := h
  rw [parsed] at parsed'
  cases parsed'
  exact ⟨e, whole, string⟩

private theorem surrogate_mem_between (quote : Char) (value : List CodePoint) :
    (∃ p ∈ between quote value, p.IsSurrogate) ↔ ∃ p ∈ value, p.IsSurrogate := by
  simp only [between, List.mem_append, or_and_right, exists_or, not_surrogate_ofChars, false_or,
    or_false]

private theorem surrogate_mem_encodePoint (p : CodePoint) :
    (∃ q ∈ encodePoint p, q.IsSurrogate) ↔ p.IsSurrogate := by
  have written (text : List Char) (small : p.val < 0xD800) :
      (∃ q ∈ ofChars text, q.IsSurrogate) ↔ p.IsSurrogate := by
    refine iff_of_false (not_surrogate_ofChars text) ?_
    rw [CodePoint.IsSurrogate]
    omega
  simp only [encodePoint]
  repeat'
    split
    · exact written _ (by omega)
  · simp

private theorem surrogate_mem_encode (value : List CodePoint) :
    (∃ p ∈ encode value, p.IsSurrogate) ↔ ∃ p ∈ value, p.IsSurrogate := by
  simp only [encode, List.mem_append, or_and_right, exists_or, not_surrogate_ofChars, false_or,
    or_false, List.mem_flatMap]
  constructor
  · rintro ⟨q, ⟨p, hp, hq⟩, surrogate⟩
    exact ⟨p, hp, (surrogate_mem_encodePoint p).mp ⟨q, hq, surrogate⟩⟩
  · rintro ⟨p, hp, surrogate⟩
    obtain ⟨q, hq, surrogate⟩ := (surrogate_mem_encodePoint p).mpr surrogate
    exact ⟨q, ⟨p, hp, hq⟩, surrogate⟩

theorem surrogate_mem_literal (value : List CodePoint) :
    (∃ p ∈ literal value, p.IsSurrogate) ↔ ∃ p ∈ value, p.IsSurrogate := by
  rw [literal]
  split
  · exact surrogate_mem_between '"' value
  · split
    · exact surrogate_mem_between '\'' value
    · simp only [List.mem_append, or_and_right, exists_or, not_surrogate_ofChars, false_or, or_false,
        surrogate_mem_encode]

theorem literal_ofChars (text : List Char) : ∃ written, literal (ofChars text) = ofChars written := by
  cases chars : toChars? (literal (ofChars text)) with
  | some written => exact ⟨written, toChars?_eq_some.mp chars⟩
  | none =>
      rw [toChars?_eq_none, surrogate_mem_literal] at chars
      exact absurd chars (not_surrogate_ofChars text)

/-- A value that is a string literal has the shape of its value, and no other one has. -/
theorem classify_spec (dialect : Dialect) (value : List Char) :
    (∃ raw, IsLiteral dialect value raw ∧
      classify dialect value = (do return .string (← decode raw))) ∨
    (∀ raw, ¬ IsLiteral dialect value raw) ∧
      ∃ shape, classify dialect value = .ok shape ∧ ∀ points, shape ≠ .string points := by
  unfold classify
  by_cases empty : trim value = []
  · refine .inr ⟨fun raw literal => literal.1 empty, .invalid .empty, ?_, by simp⟩
    simp only [empty, List.isEmpty_nil, if_true]
  simp only [List.isEmpty_iff, empty, if_false]
  unfold shapeOf
  simp only
  cases parsed : Grammar.parse dialect (wrapped (trim value)) with
  | error reach =>
      refine .inr ⟨?_, .invalid .unparsed, rfl, by simp⟩
      rintro raw ⟨-, root, e, parsed', -⟩
      rw [parsed] at parsed'
      cases parsed'
  | ok root =>
      simp only
      cases whole : wholeExpression? root (Text.encode (wrapped (trim value))).length with
      | none =>
          refine .inr ⟨?_, .invalid .notSingle, rfl, by simp⟩
          intro raw literal
          obtain ⟨e, whole', -⟩ := literal.whole parsed
          rw [whole] at whole'
          cases whole'
      | some e =>
          have string (raw : List Char) (literal : IsLiteral dialect value raw) :
              (unwrap e).kind = .string := by
            obtain ⟨e', whole', string⟩ := literal.whole parsed
            rw [whole] at whole'
            cases whole'
            exact string
          simp only
          split
          · rename_i kind
            refine .inr ⟨fun raw literal => ?_, .ternary _, rfl, by simp⟩
            rw [string raw literal] at kind
            cases kind
          · rename_i kind
            exact .inl ⟨_, ⟨empty, root, e, parsed, whole, kind, rfl⟩, rfl⟩
          · rename_i kind
            exact .inr ⟨fun raw literal => kind (string raw literal), .other, rfl, by simp⟩

theorem escapesNameCharacters_of_classify {shape : Shape} (classified : classify dialect value = .ok shape)
    (other : ∀ points, shape ≠ .string points) : EscapesNameCharacters dialect value := by
  intro raw literal
  rcases classify_spec dialect value with ⟨raw', -, decoded⟩ | ⟨none, -⟩
  · rw [classified] at decoded
    cases value : decode raw' with
    | error e =>
        rw [value] at decoded
        cases decoded
    | ok points =>
        rw [value] at decoded
        exact absurd (Except.ok.inj decoded) (other points)
  · exact absurd literal (none raw)

private theorem renderAs_text (value : List Char) {shape : Shape} (h : ∀ points, shape ≠ .string points) :
    ∃ text, (renderAs value shape).result = .ok (ofChars text) := by
  obtain ⟨written, stored⟩ := literal_ofChars value
  cases shape with
  | ternary commentAtEnd => exact ⟨_, rfl⟩
  | string points => exact absurd rfl (h points)
  | other => exact ⟨written, congrArg Except.ok stored⟩
  | invalid why =>
      refine ⟨written, ?_⟩
      rw [renderAs, Report.result_bind (Report.result_note _), Report.result_pure, stored]

theorem isValidChar_iff {n : Nat} : n.isValidChar ↔ n < 0x110000 ∧ ¬ IsSurrogateNumber n := by
  rw [Nat.isValidChar, IsSurrogateNumber]
  omega

theorem render_literal (h : IsLiteral dialect value raw) :
    (render dialect (ofChars value)).result = (do return literal (← decode raw)) := by
  rcases classify_spec dialect value with ⟨raw', h', classified⟩ | ⟨none, -⟩
  · rw [h.unique h']
    unfold render
    simp only [toChars?_ofChars]
    cases decoded : decode raw' with
    | ok points =>
        rw [decoded] at classified
        rw [Report.result_bind (Report.result_ofExcept _ |>.trans classified)]
        rfl
    | error e =>
        rw [decoded] at classified
        rw [Report.result_bind_error (Report.result_ofExcept _ |>.trans classified)]
        rfl
  · exact absurd h (none raw)

theorem render_other (h : ∀ raw, ¬ IsLiteral dialect value raw) :
    ∃ text, (render dialect (ofChars value)).result = .ok (ofChars text) := by
  rcases classify_spec dialect value with ⟨raw, literal, -⟩ | ⟨-, shape, classified, other⟩
  · exact absurd literal (h raw)
  · obtain ⟨text, rendered⟩ := renderAs_text value other
    refine ⟨text, ?_⟩
    unfold render
    simp only [toChars?_ofChars]
    rw [Report.result_bind (Report.result_ofExcept _ |>.trans classified), rendered]

theorem render_text (h : EscapesNameCharacters dialect value) :
    ∃ text, (render dialect (ofChars value)).result = .ok (ofChars text) := by
  by_cases some : ∃ raw, IsLiteral dialect value raw
  · obtain ⟨raw, whole⟩ := some
    have names (n : Nat) (number : EscapeNumber (raw.drop 1).dropLast n) :=
      isValidChar_iff.mp (h raw whole n number)
    have decoded := decode_spec raw
    rw [render_literal whole]
    generalize decode raw = result at decoded
    cases decoded with
    | failed number large _ => exact absurd (names _ number).1 (Nat.not_lt.mpr large)
    | @value points _ surrogates =>
        have text : ¬ ∃ p ∈ literal points, p.IsSurrogate := by
          rw [surrogate_mem_literal, surrogates]
          rintro ⟨n, number, surrogate⟩
          exact (names n number).2 surrogate
        cases chars : toChars? (literal points) with
        | none => exact absurd (toChars?_eq_none.mp chars) text
        | some written => exact ⟨written, congrArg Except.ok (toChars?_eq_some.mp chars)⟩
  · exact render_other fun raw literal => some ⟨raw, literal⟩

/-- An escape that names no character leaves a value without a text: what it is rendered as holds a
surrogate, or it is not rendered. -/
theorem render_no_text (h : ¬ EscapesNameCharacters dialect value) :
    (∃ points, (render dialect (ofChars value)).result = .ok points ∧
      ∃ p ∈ points, p.IsSurrogate) ∨
    ∃ e, (render dialect (ofChars value)).result = .error e ∧
      (e = .noSuchCodePoint ∨ e = .numberTooLarge) := by
  obtain ⟨raw, whole, n, number, invalid⟩ : ∃ raw, IsLiteral dialect value raw ∧
      ∃ n, EscapeNumber (raw.drop 1).dropLast n ∧ ¬ n.isValidChar := by
    simpa [EscapesNameCharacters] using h
  have decoded := decode_spec raw
  rw [render_literal whole]
  generalize decode raw = result at decoded
  cases decoded with
  | failed _ _ cause => exact .inr ⟨_, rfl, cause⟩
  | @value points small surrogates =>
      have surrogate : IsSurrogateNumber n := by
        refine Classical.byContradiction fun scalar => invalid ?_
        exact isValidChar_iff.mpr ⟨small n number, scalar⟩
      refine .inl ⟨literal points, rfl, ?_⟩
      rw [surrogate_mem_literal, surrogates]
      exact ⟨n, number, surrogate⟩

end Restyle.Value
