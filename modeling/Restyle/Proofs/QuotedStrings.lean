import Restyle.Proofs.AttributeStrings
import Restyle.Proofs.Escapes
import Restyle.Proofs.Utf8
import Restyle.Value.Literal

/-!
# Strings with escapes

A value written as a string with escapes is one string literal, whatever follows it.
-/

namespace Restyle.Value

open Syntax Text

variable {c d : Char} {rest : List Char}

/-- A part of the inside of a string, after which the string goes on. -/
private def Inside (piece : List Char) : Prop :=
  ∀ more, stringTail '"' 0 false (piece ++ more) =
    (stringTail '"' 0 false more).map fun found => (piece ++ found.1, found.2)

private theorem stringTail_skip (skip : Nat) (broken : Bool) :
    stringTail '"' (skip + 1) broken (c :: rest) = inFront c (stringTail '"' skip false rest) := by
  rw [stringTail.eq_def]
  simp only
  cases stringTail '"' skip false rest <;> rfl

private theorem stringTail_cons : stringTail '"' 0 false (c :: rest) = inFront c
    (if c == '"' then some ([], rest)
    else if c == '\\' then
      match escapeLength rest with
      | some n => stringTail '"' n false rest
      | none => none
    else if c == '\n' || c == '\r' then stringTail '"' 0 true rest
    else stringTail '"' 0 false rest) := by
  rw [stringTail.eq_def]
  exact (inFront_eq c _).symm

private theorem inside_char (quote : c ≠ '"') (backslash : c ≠ '\\') (line : c ≠ '\n' ∧ c ≠ '\r') :
    Inside [c] := by
  intro more
  rw [List.singleton_append, stringTail_cons]
  simp [quote, backslash, line, inFront]

private theorem inside_escape (escape : ∀ more, escapeLength (d :: more) = some 1) :
    Inside ['\\', d] := by
  intro more
  have step : stringTail '"' 0 false ('\\' :: d :: more) =
      inFront '\\' (inFront d (stringTail '"' 0 false more)) := by
    rw [stringTail_cons, ← stringTail_skip 0 false]
    simp only [escape]
    rfl
  rw [List.cons_append, List.singleton_append, step]
  cases stringTail '"' 0 false more <;> rfl

/-- A text that stands for another one in a literal. -/
private def StandsFor (piece value : List Char) : Prop :=
  ∀ more, decodeFrom 0 (piece ++ more) = (do return ofChars value ++ (← decodeFrom 0 more))

private theorem standsFor_char (backslash : c ≠ '\\') : StandsFor [c] [c] := by
  intro more
  rw [List.singleton_append, decodeFrom_plain backslash]
  rfl

private theorem standsFor_escape (escape : ∀ more, escape? (d :: more) = some (.ok [.ofChar c], 1)) :
    StandsFor ['\\', d] [c] := by
  intro more
  have taken : escape? ([d] ++ more) = some (.ok [.ofChar c], [d].length) := escape more
  exact decodeFrom_escape taken

section Number

variable {digits : List Char} (four : digits.length = 4) (hex : digits.all isHexDigit)
include four hex

private theorem inside_number : Inside ('\\' :: 'u' :: digits) := by
  intro more
  match digits, four with
  | [a, b, c, d], _ =>
      have notBraced : ∀ rest, a :: b :: c :: d :: more ≠ '\x7b' :: rest := by
        intro rest same
        rw [(List.cons.inj same).1] at hex
        cases hex
      have escape : escapeLength ('u' :: a :: b :: c :: d :: more) = some 5 := by
        rw [escapeLength, if_pos (by simpa [and_assoc] using hex)]
        all_goals simp_all
      have step : stringTail '"' 0 false ('\\' :: 'u' :: a :: b :: c :: d :: more) =
          inFront '\\' (inFront 'u' (inFront a (inFront b (inFront c (inFront d
            (stringTail '"' 0 false more)))))) := by
        rw [stringTail_cons]
        simp only [escape]
        change inFront '\\' (stringTail '"' 5 false _) = _
        rw [stringTail_skip 4, stringTail_skip 3, stringTail_skip 2, stringTail_skip 1,
          stringTail_skip 0]
      simp only [List.cons_append, List.nil_append, step]
      cases stringTail '"' 0 false more <;> rfl

private theorem standsFor_number (number : hexNumber digits = c.toNat) :
    StandsFor ('\\' :: 'u' :: digits) [c] := by
  intro more
  have numeric : numericEscape? ('u' :: digits ++ more) = _ := numericEscape?_unicode hex four
  rw [number] at numeric
  exact decodeFrom_number numeric (CodePoint.ofChar c).isLt

end Number

private theorem Inside.append {front back : List Char} (h : Inside front) (k : Inside back) :
    Inside (front ++ back) := by
  intro more
  rw [List.append_assoc, h, k]
  cases stringTail '"' 0 false more with
  | none => rfl
  | some found => simp

private theorem StandsFor.append {front back value more : List Char} (h : StandsFor front value)
    (k : StandsFor back more) : StandsFor (front ++ back) (value ++ more) := by
  intro rest
  rw [List.append_assoc, h, k, ofChars_append]
  cases decodeFrom 0 rest with
  | error e => rfl
  | ok later =>
      change Except.ok _ = Except.ok _
      rw [List.append_assoc]

/-- A character is written as a part of the inside of a string that stands for it. -/
private theorem encodePoint_spec (c : Char) :
    ∃ piece, encodePoint (.ofChar c) = ofChars piece ∧ Inside piece ∧ StandsFor piece [c] := by
  have value : (CodePoint.ofChar c).val = c.toNat := rfl
  have same {d : Char} (h : c.toNat = d.toNat) : c = d := Char.ext (UInt32.toNat_inj.mp h)
  have escape {d : Char} (inside : ∀ more, escapeLength (d :: more) = some 1)
      (decoded : ∀ more, escape? (d :: more) = some (.ok [.ofChar c], 1)) :
      ∃ piece, ofChars ['\\', d] = ofChars piece ∧ Inside piece ∧ StandsFor piece [c] :=
    ⟨_, rfl, inside_escape inside, standsFor_escape decoded⟩
  rw [encodePoint]
  simp only [value]
  split
  · rename_i h
    cases same (d := '"') h
    exact escape (fun _ => rfl) (fun _ => rfl)
  split
  · rename_i h
    cases same (d := '\\') h
    exact escape (fun _ => rfl) (fun _ => rfl)
  split
  · rename_i h
    cases same (d := '\n') h
    exact escape (fun _ => rfl) (fun _ => rfl)
  split
  · rename_i h
    cases same (d := '\r') h
    exact escape (fun _ => rfl) (fun _ => rfl)
  split
  · rename_i h
    cases same (d := '\t') h
    exact escape (fun _ => rfl) (fun _ => rfl)
  split
  · rename_i h
    cases same (d := '\x0c') h
    exact escape (fun _ => rfl) (fun _ => rfl)
  split
  · rename_i h
    cases same (d := '\x08') h
    exact escape (fun _ => rfl) (fun _ => rfl)
  split
  · rename_i small
    have digits : ∀ n < 0x20, (hexDigits 4 n).all isHexDigit ∧ hexNumber (hexDigits 4 n) = n := by
      decide
    obtain ⟨hex, number⟩ := digits _ small
    exact ⟨_, rfl, inside_number rfl hex, standsFor_number rfl hex number⟩
  · rename_i quote backslash line carriage _ _ _ _
    have other {d : Char} (h : c.toNat ≠ d.toNat) : c ≠ d := fun same => h (congrArg _ same)
    exact ⟨[c], rfl, inside_char (other quote) (other backslash) ⟨other line, other carriage⟩,
      standsFor_char (other backslash)⟩

private theorem flatMap_spec (text : List Char) : ∃ piece,
    (ofChars text).flatMap encodePoint = ofChars piece ∧ Inside piece ∧ StandsFor piece text := by
  induction text with
  | nil =>
      refine ⟨[], rfl, fun more => ?_, fun more => ?_⟩
      · rw [List.nil_append]
        cases stringTail '"' 0 false more <;> rfl
      · rw [List.nil_append]
        cases decodeFrom 0 more <;> rfl
  | cons c text ih =>
      obtain ⟨back, written, inside, value⟩ := ih
      obtain ⟨front, first, begun, char⟩ := encodePoint_spec c
      refine ⟨front ++ back, ?_, begun.append inside, char.append value⟩
      rw [ofChars_append, ← first, ← written]
      rfl

/-- A text written as a string with escapes is read as one, up to its closing quote, and stands for
the text. -/
theorem encode_ofChars (text : List Char) :
    ∃ inside, encode (ofChars text) = ofChars ('"' :: (inside ++ ['"'])) ∧
      (∀ after, takeString ('"' :: (inside ++ '"' :: after)) =
        some ('"' :: (inside ++ ['"']), after)) ∧
      decode ('"' :: (inside ++ ['"'])) = .ok (ofChars text) := by
  obtain ⟨inside, written, whole, value⟩ := flatMap_spec text
  refine ⟨inside, ?_, fun after => ?_, ?_⟩
  · rw [encode, written, ← ofChars_append, ← ofChars_append]
    rfl
  · have closed : stringTail '"' 0 false ('"' :: after) = some (['"'], after) := stringTail_cons
    have tail := whole ('"' :: after)
    rw [closed] at tail
    rw [takeString, if_pos (by decide), tail]
    rfl
  · have decoded := value []
    rw [List.append_nil] at decoded
    have inner : (('"' :: (inside ++ ['"'])).drop 1).dropLast = inside := List.dropLast_concat
    rw [decode, inner, decoded]
    change Except.ok _ = Except.ok _
    rw [List.append_nil]

/-- A text that its literal is read back as: it is written with escapes, as it holds both quotes, or
an attribute string can hold it. -/
def ReadsBack (stored : List Char) : Prop :=
  ('"' ∈ stored ∧ '\'' ∈ stored) ∨ AttributeText stored

/-- What is written for a text: the text between quotes that it does not hold, or a string in
braces. -/
inductive Written (stored : List Char) : List Char → Prop
  | quoted {q : Char} : isQuote q → q ∉ stored → Written stored (q :: (stored ++ [q]))
  | braced {inside : List Char} : '"' ∈ stored → '\'' ∈ stored →
      encode (ofChars stored) = ofChars ('"' :: (inside ++ ['"'])) →
      (∀ after, takeString ('"' :: (inside ++ '"' :: after)) =
        some ('"' :: (inside ++ ['"']), after)) →
      Written stored ('\x7b' :: '"' :: (inside ++ ['"', '\x7d']))

theorem literal_written (stored : List Char) :
    ∃ written, literal (ofChars stored) = ofChars written ∧ Written stored written := by
  rw [literal]
  simp only [mem_ofChars]
  split
  · rename_i free
    refine ⟨_, ?_, .quoted (q := '"') rfl free⟩
    rw [between, ← ofChars_append, ← ofChars_append]
    rfl
  split
  · rename_i free
    refine ⟨_, ?_, .quoted (q := '\'') rfl free⟩
    rw [between, ← ofChars_append, ← ofChars_append]
    rfl
  · rename_i double single
    obtain ⟨inside, encoded, whole, -⟩ := encode_ofChars stored
    refine ⟨_, ?_, .braced (Classical.not_not.mp double) (Classical.not_not.mp single) encoded whole⟩
    rw [encoded, ← ofChars_append, ← ofChars_append]
    simp

theorem readsBack_quoted {q : Char} {stored : List Char} (hq : isQuote q) (free : q ∉ stored) :
    ReadsBack stored ↔ AttributeText stored := by
  have quotes := isQuote_iff.mp hq
  rw [ReadsBack, or_iff_right]
  rintro ⟨double, single⟩
  rcases quotes with rfl | rfl
  · exact free double
  · exact free single

end Restyle.Value
