import Restyle.Proofs.ClosingBraces
import Restyle.Proofs.Literals
import Restyle.Proofs.ReadBack

/-!
# Values without escapes

A string literal that is a value lies in it, quotes and all, so that one without a backslash stands for
what is between its quotes. Values without backslashes are always rendered, and none of them gets a
line feed that it does not have, but for the one in front of a closing brace.
-/

namespace Restyle.Value

open Syntax Text

variable {dialect : Dialect} {value raw stored text : List Char} {root n e : Node} {shape : Shape}

theorem unwrapUpTo_mem (depth : Nat) (n : Node) : unwrapUpTo depth n ∈ n.subtrees := by
  induction depth generalizing n with
  | zero => exact Tree.self_mem_subtrees n
  | succ depth ih =>
      rw [unwrapUpTo]
      split
      · rename_i inner _ parts
        have child : inner ∈ n.children := Document.mem_children_of_mem_parts (by simp [parts])
        exact Tree.mem_subtrees_of_mem_children child (ih inner)
      · exact Tree.self_mem_subtrees n

theorem wholeExpression?_mem {size : Nat} (h : wholeExpression? root size = some e) :
    e ∈ root.subtrees := by
  rw [wholeExpression?] at h
  split at h
  · rename_i statement parts
    split at h
    · rename_i inner _ within
      split at h
      · cases h
        have outer : statement ∈ root.children := Document.mem_children_of_mem_parts (by simp [parts])
        have inside : e ∈ statement.children := Document.mem_children_of_mem_parts (by simp [within])
        exact Tree.mem_subtrees_of_mem_children outer
          (Tree.mem_subtrees_of_mem_children inside (Tree.self_mem_subtrees e))
      · cases h
    · cases h
  · cases h

private theorem quoted_inside {front left : List Char} (h : Quoted raw)
    (split : wrapped value = front ++ raw ++ left) : ∃ before after, value = before ++ raw ++ after := by
  obtain ⟨q, inside, hq, rfl⟩ := h
  have apart : '"' ∉ '(' :: closing ∧ '\'' ∉ '(' :: closing := by decide
  have other : ∀ c ∈ '(' :: closing, q ≠ c := by
    rintro c mem rfl
    rcases isQuote_iff.mp hq with rfl | rfl
    · exact apart.1 mem
    · exact apart.2 mem
  obtain ⟨before, rfl, inner⟩ := wrapped_begins split
    (by simp [other '(' (by decide), other '\n' (by decide)]) (by simp)
  rw [← List.append_assoc] at inner
  rcases List.append_eq_append_iff.mp inner with ⟨excess, whole, closed⟩ | ⟨after, whole, -⟩
  · rcases List.eq_nil_or_concat excess with rfl | ⟨init, last, rfl⟩
    · exact ⟨before, [], by rw [whole, List.append_nil, List.append_nil]⟩
    · rw [List.concat_eq_append] at whole closed
      have ends := congrArg List.getLast? whole
      rw [← List.cons_append, ← List.append_assoc, ← List.append_assoc, List.getLast?_concat,
        List.getLast?_concat] at ends
      have mem : last ∈ closing := by simp [closed]
      exact absurd (Option.some.inj ends) (other last (List.mem_cons_of_mem _ mem))
  · exact ⟨before, after, whole⟩

/-- A value that is a string literal has it between two parts, which may hold parentheses. -/
theorem IsLiteral.inside (h : IsLiteral dialect value raw) :
    Quoted raw ∧ ∃ before after, trim value = before ++ raw ++ after := by
  obtain ⟨-, root, e, parsed, whole, string, rfl⟩ := h
  have mem : unwrap e ∈ root.subtrees :=
    Tree.mem_subtrees_trans (wholeExpression?_mem whole) (unwrapUpTo_mem _ e)
  obtain ⟨taken, slice, quoted⟩ := (Grammar.parse_sound parsed _ mem).quoted string
  obtain ⟨front, left, split, -⟩ := id slice
  rw [slice.encode, decodeLossy_encode]
  exact ⟨quoted, quoted_inside quoted split⟩

theorem IsLiteral.subset (h : IsLiteral dialect value raw) {c : Char} (hc : c ∈ raw) : c ∈ value := by
  obtain ⟨-, before, after, split⟩ := h.inside
  apply mem_of_mem_trim
  simp [split, hc]

section Plain

variable (plain : '\\' ∉ value)
include plain

theorem IsLiteral.unescaped (h : IsLiteral dialect value raw) : '\\' ∉ (raw.drop 1).dropLast := by
  intro mem
  exact plain (h.subset (List.mem_of_mem_drop ((List.dropLast_sublist _).mem mem)))

theorem escapesNameCharacters_plain (dialect : Dialect) : EscapesNameCharacters dialect value := by
  intro raw literal n number
  rw [← List.append_nil (raw.drop 1).dropLast, escapeNumber_append (literal.unescaped plain)] at number
  exact absurd number not_escapeNumber_nil

/-- Without a backslash a string literal stands for what is between its quotes. -/
theorem decode_plain (h : IsLiteral dialect value raw) :
    decode raw = .ok (ofChars (raw.drop 1).dropLast) := by
  have whole : decodeFrom 0 ((raw.drop 1).dropLast ++ []) = _ := decodeFrom_plains (h.unescaped plain)
  rw [List.append_nil] at whole
  rw [decode, whole, decodeFrom]
  exact congrArg Except.ok (List.append_nil _)

end Plain

theorem Written.unbroken (h : Written stored text) (line : '\n' ∉ stored) : '\n' ∉ text := by
  cases h with
  | quoted hq _ =>
      rcases isQuote_iff.mp hq with rfl | rfl <;> simp [line]
  | braced _ _ encoded _ => simp [(encoded_spec encoded).2.unbroken.1]

theorem RenderedAs.delimited (h : RenderedAs value shape text) : ∃ a inside b,
    text = a :: (inside ++ [b]) ∧ isSpace a = false ∧ isSpace b = false := by
  have written {stored : List Char} (h : Written stored text) : ∃ a inside b,
      text = a :: (inside ++ [b]) ∧ isSpace a = false ∧ isSpace b = false := by
    cases h with
    | @quoted q hq _ =>
        have solid : isSpace q = false := by
          rcases isQuote_iff.mp hq with rfl | rfl <;> rfl
        exact ⟨q, stored, q, rfl, solid, solid⟩
    | @braced inside _ _ _ _ => exact ⟨'\x7b', '"' :: (inside ++ ['"']), '\x7d', by simp, rfl, rfl⟩
  cases h with
  | ternary commentAtEnd =>
      rw [braced_eq]
      exact ⟨'\x7b', _, '\x7d', rfl, rfl, rfl⟩
  | string how => exact written how
  | other how => exact written how
  | invalid why how => exact written how

/-- A value without backslashes and line feeds is rendered, and no line feed comes in but the one in
front of the closing brace of a conditional. -/
theorem render_plain (dialect : Dialect) (plain : '\\' ∉ value) (line : '\n' ∉ value) : ∃ shape text,
    classify dialect value = .ok shape ∧
    (render dialect (ofChars value)).result = .ok (ofChars text) ∧ RenderedAs value shape text ∧
    (shape ≠ .ternary true → '\n' ∉ text) := by
  obtain ⟨text, shown⟩ := render_text (escapesNameCharacters_plain plain dialect)
  obtain ⟨shape, classified, rendered⟩ := render_spec shown
  refine ⟨shape, text, classified, shown, rendered, fun single => ?_⟩
  cases rendered with
  | ternary commentAtEnd =>
      have trimmed : '\n' ∉ trim value := fun mem => line (mem_of_mem_trim mem)
      cases commentAtEnd with
      | true => exact absurd rfl single
      | false => simp [braced, trimmed]
  | @string stored _ how =>
      apply how.unbroken
      rcases classify_spec dialect value with ⟨raw, literal, found⟩ | ⟨-, kind, found, none⟩
      · rw [classified, decode_plain plain literal] at found
        have same : ofChars stored = ofChars (raw.drop 1).dropLast :=
          Shape.string.inj (Except.ok.inj found)
        rw [ofChars_injective same]
        intro mem
        exact line (literal.subset (List.mem_of_mem_drop ((List.dropLast_sublist _).mem mem)))
      · rw [classified] at found
        exact absurd (Except.ok.inj found).symm (none _)
  | other how => exact how.unbroken line
  | invalid why how => exact how.unbroken line

end Restyle.Value
