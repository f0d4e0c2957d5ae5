import Restyle.Proofs.Escapes
import Restyle.Proofs.QuotedStrings

/-!
# Literals cannot be left

The literal of a text ends where its text ends: the quote that closes it is the first one that could.
No text shares its literal with another one.
-/

namespace Restyle.Value

open Syntax Text

/-- A part of the inside of a string in double quotes: a character that may stand there, or an escape. -/
inductive Piece : List Char → Prop
  | char {c : Char} : c ≠ '"' → c ≠ '\\' → c ≠ '\n' → c ≠ '\r' → Piece [c]
  | escape {d : Char} : d ≠ '\n' → d ≠ '\r' → Piece ['\\', d]
  | number {digits : List Char} : (∀ c ∈ digits, isHexDigit c) → Piece ('\\' :: 'u' :: digits)

theorem hexDigits_hex (digits n : Nat) : ∀ c ∈ hexDigits digits n, isHexDigit c := by
  have digit : ∀ d < 16, isHexDigit (hexDigit d) := by decide
  intro c hc
  obtain ⟨d, small, rfl⟩ := exists_of_mem_hexDigits hc
  exact digit d small

theorem encodePoint_piece (c : Char) :
    ∃ piece, encodePoint (.ofChar c) = ofChars piece ∧ Piece piece := by
  have value : (CodePoint.ofChar c).val = c.toNat := rfl
  have other {d : Char} (h : c.toNat ≠ d.toNat) : c ≠ d := fun same => h (congrArg _ same)
  have escape (d : Char) (plain : d ≠ '\n' ∧ d ≠ '\r') :
      ∃ piece, ofChars ['\\', d] = ofChars piece ∧ Piece piece :=
    ⟨_, rfl, .escape plain.1 plain.2⟩
  rw [encodePoint]
  simp only [value]
  split
  · exact escape '"' (by decide)
  split
  · exact escape '\\' (by decide)
  split
  · exact escape 'n' (by decide)
  split
  · exact escape 'r' (by decide)
  split
  · exact escape 't' (by decide)
  split
  · exact escape 'f' (by decide)
  split
  · exact escape 'b' (by decide)
  split
  · exact ⟨_, rfl, .number (hexDigits_hex 4 c.toNat)⟩
  · rename_i quote backslash line carriage _ _ _ _
    exact ⟨[c], rfl, .char (other quote) (other backslash) (other line) (other carriage)⟩

/-- No quote in a text ends the string that the text is a part of: a backslash escapes it. What follows
the text is not escaped. -/
structure Contained (text : List Char) : Prop where
  even : endsEscaping text = false
  escaped : ∀ before after, text = before ++ '"' :: after → endsEscaping before = true
  unbroken : '\n' ∉ text ∧ '\r' ∉ text

theorem endsEscaping_append {front : List Char} (even : endsEscaping front = false)
    (back : List Char) : endsEscaping (front ++ back) = endsEscaping back := by
  rw [endsEscaping, List.foldl_append, ← endsEscaping, even, endsEscaping]

theorem endsEscaping_plain {text : List Char} (plain : '\\' ∉ text) : endsEscaping text = false := by
  have last : text.getLast? ≠ some '\\' := fun h => plain (List.mem_of_getLast? h)
  simpa using endsEscaping_replicate last 0

namespace Contained

theorem nil : Contained [] :=
  ⟨rfl, by simp, by simp⟩

theorem append {front back : List Char} (h : Contained front) (k : Contained back) :
    Contained (front ++ back) where
  even := (endsEscaping_append h.even back).trans k.even
  escaped before after split := by
    rcases List.append_eq_append_iff.mp split with ⟨more, rfl, inBack⟩ | ⟨more, inFront, rest⟩
    · rw [endsEscaping_append h.even]
      exact k.escaped more after inBack
    · cases more with
      | nil =>
          rw [List.append_nil] at inFront
          rw [← inFront, ← List.append_nil front, endsEscaping_append h.even]
          exact k.escaped [] after rest.symm
      | cons c more =>
          obtain ⟨rfl, -⟩ := List.cons.inj rest
          exact h.escaped before more inFront
  unbroken := by simp [h.unbroken, k.unbroken]

end Contained

theorem Piece.contained {piece : List Char} (h : Piece piece) : Contained piece := by
  cases h with
  | char quote backslash line carriage =>
      refine ⟨endsEscaping_plain (by simpa using Ne.symm backslash), fun before after split => ?_, ?_⟩
      · cases before <;> simp_all
      · simp [Ne.symm line, Ne.symm carriage]
  | @escape d line carriage =>
      refine ⟨by simp [endsEscaping], fun before after split => ?_, ?_⟩
      · cases before with
        | nil => simp at split
        | cons b before =>
            cases before with
            | nil =>
                obtain ⟨rfl, -⟩ := List.cons.inj split
                rfl
            | cons b before => simp at split
      · simp [Ne.symm line, Ne.symm carriage]
  | @number digits hex =>
      have absent {c : Char} (notHex : isHexDigit c = false) : c ∉ digits := by
        intro mem
        rw [hex c mem] at notHex
        cases notHex
      have skip : endsEscaping ('\\' :: 'u' :: digits) = endsEscaping digits := rfl
      refine ⟨skip.trans (endsEscaping_plain (absent rfl)), fun before after split => ?_, ?_⟩
      · have quote : '"' ∈ '\\' :: 'u' :: digits := by simp [split]
        have mem : '"' ∈ digits := by simpa using quote
        exact absurd mem (absent rfl)
      · have line : '\n' ∉ digits := absent rfl
        have carriage : '\r' ∉ digits := absent rfl
        simp [line, carriage]

theorem encode_contained (text : List Char) :
    ∃ inside, encode (ofChars text) = ofChars ('"' :: (inside ++ ['"'])) ∧ Contained inside := by
  have written : ∃ inside, (ofChars text).flatMap encodePoint = ofChars inside ∧ Contained inside := by
    induction text with
    | nil => exact ⟨[], rfl, .nil⟩
    | cons c text ih =>
        obtain ⟨back, written, contained⟩ := ih
        obtain ⟨front, first, piece⟩ := encodePoint_piece c
        refine ⟨front ++ back, ?_, piece.contained.append contained⟩
        rw [ofChars_append, ← first, ← written]
        rfl
  obtain ⟨inside, written, contained⟩ := written
  refine ⟨inside, ?_, contained⟩
  rw [encode, written, ← ofChars_append, ← ofChars_append]
  rfl

/-- The string that a text is written as stands for it, and none of its quotes but the last one ends it. -/
theorem encoded_spec {text inside : List Char}
    (encoded : encode (ofChars text) = ofChars ('"' :: (inside ++ ['"']))) :
    decode ('"' :: (inside ++ ['"'])) = .ok (ofChars text) ∧ Contained inside := by
  obtain ⟨inside', written, contained⟩ := encode_contained text
  obtain ⟨inside'', written', -, decoded⟩ := encode_ofChars text
  have same := ofChars_injective (encoded.symm.trans written)
  have same' := ofChars_injective (encoded.symm.trans written')
  refine ⟨by rw [same', decoded], ?_⟩
  obtain ⟨-, tail⟩ := List.cons.inj same
  rw [List.append_cancel_right tail]
  exact contained

/-- Of the quotes in a contained text with a quote after it, the last one is the first that no backslash
escapes. -/
theorem Contained.closes {inside before after : List Char} (h : Contained inside)
    (split : inside ++ ['"'] = before ++ '"' :: after) : endsEscaping before = false ↔ after = [] := by
  constructor
  · intro even
    rcases List.append_eq_append_iff.mp split with ⟨more, rfl, last⟩ | ⟨more, inFront, rest⟩
    · cases more <;> simp_all
    · cases more with
      | nil => simpa using rest
      | cons c more =>
          obtain ⟨rfl, -⟩ := List.cons.inj rest
          rw [h.escaped before more inFront] at even
          cases even
  · rintro rfl
    rw [← List.append_cancel_right split]
    exact h.even

theorem literal_injective {text other : List Char}
    (same : literal (ofChars other) = literal (ofChars text)) : other = text := by
  obtain ⟨written, first, how⟩ := literal_written text
  obtain ⟨written', second, how'⟩ := literal_written other
  rw [first, second] at same
  cases ofChars_injective same
  cases how with
  | @quoted q hq free =>
      generalize string : q :: (text ++ [q]) = written at how'
      cases how' with
      | quoted hq' free' =>
          obtain ⟨rfl, tail⟩ := List.cons.inj string
          exact (List.append_cancel_right tail).symm
      | braced =>
          obtain ⟨rfl, -⟩ := List.cons.inj string
          cases hq
  | @braced inside double single encoded whole =>
      generalize string : '\x7b' :: '"' :: (inside ++ ['"', '\x7d']) = written at how'
      cases how' with
      | quoted hq' free' =>
          obtain ⟨rfl, -⟩ := List.cons.inj string
          cases hq'
      | braced _ _ encoded' _ =>
          obtain ⟨-, tail⟩ := List.cons.inj string
          obtain ⟨-, tail⟩ := List.cons.inj tail
          cases List.append_cancel_right tail
          have value := (encoded_spec encoded).1
          rw [(encoded_spec encoded').1] at value
          exact ofChars_injective (Except.ok.inj value)

/-- The literal of a text is the text between quotes that it does not hold, or else, in braces, a string
with escapes on one line that its last character closes and that stands for the text. Another text has
another literal. -/
theorem literal_closes (text : List Char) :
    ((∃ q, isQuote q ∧ q ∉ text ∧ literal (ofChars text) = ofChars (q :: (text ++ [q]))) ∨
      ('"' ∈ text ∧ '\'' ∈ text) ∧
        ∃ inside, literal (ofChars text) = ofChars ('\x7b' :: '"' :: (inside ++ ['"', '\x7d'])) ∧
          (∀ before after, inside ++ ['"'] = before ++ '"' :: after →
            (endsEscaping before = false ↔ after = [])) ∧
          (∀ after, takeString ('"' :: (inside ++ '"' :: after)) =
            some ('"' :: (inside ++ ['"']), after)) ∧
          '\n' ∉ inside ∧ '\r' ∉ inside ∧
          decode ('"' :: (inside ++ ['"'])) = .ok (ofChars text)) ∧
    ∀ other, literal (ofChars other) = literal (ofChars text) → other = text := by
  refine ⟨?_, fun other same => literal_injective same⟩
  obtain ⟨written, literal, how⟩ := literal_written text
  cases how with
  | @quoted q hq free => exact .inl ⟨q, hq, free, literal⟩
  | @braced inside double single encoded whole =>
      obtain ⟨decoded, contained⟩ := encoded_spec encoded
      exact .inr ⟨⟨double, single⟩, inside, literal, fun _ _ => contained.closes,
        whole, contained.unbroken.1, contained.unbroken.2, decoded⟩

/-- A backslash in front of a quote is escaped, and so is the quote. -/
example : literal (ofChars "\\\"'".toList) = ofChars "\x7b\"\\\\\\\"'\"\x7d".toList := by
  decide

end Restyle.Value
