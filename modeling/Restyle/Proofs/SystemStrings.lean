import Restyle.Proofs.Encodings
import Restyle.Proofs.Utf8

/-!
# Strings of the system

The string of the bytes in a path or in an argument stands for these bytes. It is text exactly if they are
UTF-8.
-/

namespace Restyle.Text

open Encoding

def IsText (bytes : List UInt8) : Prop :=
  ∃ text, bytes = Text.encode text

variable {p : CodePoint} {b : UInt8} {bytes rest : List UInt8} {text : List Char}

theorem first?_length (first : utf8.first? bytes = some (p, rest)) : rest.length < bytes.length := by
  obtain ⟨-, rfl⟩ := first?_eq_some.mp first
  have nonempty := List.length_pos_iff.mpr (point_ne_nil utf8 p)
  rw [List.length_append]
  omega

theorem systemStringWithin_eq {bound bound' : List UInt8} (enough : bytes.length ≤ bound.length)
    (enough' : bytes.length ≤ bound'.length) :
    systemStringWithin bound bytes = systemStringWithin bound' bytes := by
  induction bound generalizing bound' bytes with
  | nil =>
      cases bytes with
      | nil => cases bound' <;> rfl
      | cons b bytes => exact absurd enough (Nat.not_succ_le_zero _)
  | cons _ bound ih =>
      cases bytes with
      | nil => cases bound' <;> rfl
      | cons b bytes =>
          cases bound' with
          | nil => exact absurd enough' (Nat.not_succ_le_zero _)
          | cons _ bound' =>
              have enough := Nat.le_of_succ_le_succ enough
              have enough' := Nat.le_of_succ_le_succ enough'
              have byte := ih enough enough'
              simp only [systemStringWithin]
              cases first : utf8.first? (b :: bytes) with
              | none => simp only [byte]
              | some found =>
                  obtain ⟨p, rest⟩ := found
                  have shorter := Nat.le_of_lt_succ (first?_length first)
                  simp only [byte, ih (Nat.le_trans shorter enough) (Nat.le_trans shorter enough')]

theorem point_ascii (small : b.toNat < 0x80) :
    utf8.point ⟨b.toNat, Nat.lt_trans small (by decide)⟩ = [b] := by
  simp only [point, if_pos small, UInt8.ofNat_toNat]

theorem point_surrogate (surrogate : p.IsSurrogate) (split : b :: bytes = utf8.point p ++ rest) :
    0x80 ≤ b.toNat := by
  obtain ⟨low, high⟩ := surrogate
  simp only [point] at split
  rw [if_neg (by omega), if_neg (by omega), if_pos (by omega)] at split
  cases split
  rw [UInt8.toNat_ofNat']
  omega

theorem systemString_cons (h : ¬ p.IsSurrogate) :
    systemString (utf8.point p ++ rest) = p :: systemString rest := by
  have first : utf8.first? (utf8.point p ++ rest) = some (p, rest) :=
    first?_eq_some.mpr ⟨leading_utf8 p rest, rfl⟩
  have shorter := first?_length first
  cases bytes : utf8.point p ++ rest with
  | nil => exact absurd (List.append_eq_nil_iff.mp bytes).1 (point_ne_nil utf8 p)
  | cons b bytes' =>
      rw [bytes] at first shorter
      simp only [systemString, systemStringWithin, first, if_neg h]
      rw [systemStringWithin_eq (Nat.le_of_lt_succ shorter) (Nat.le_refl _)]

/-- A string begins with a code point that is no surrogate, or with one for a single byte. -/
theorem systemString_cases (b : UInt8) (bytes : List UInt8) :
    (∃ p rest, ¬ p.IsSurrogate ∧ b :: bytes = utf8.point p ++ rest) ∨
      0x80 ≤ b.toNat ∧ systemString (b :: bytes) = Fin.ofNat _ (0xDC00 + b.toNat) :: systemString bytes := by
  cases first : utf8.first? (b :: bytes) with
  | some found =>
      obtain ⟨p, rest⟩ := found
      have split := (first?_eq_some.mp first).2
      by_cases surrogate : p.IsSurrogate
      · refine .inr ⟨point_surrogate surrogate split, ?_⟩
        simp only [systemString, systemStringWithin, first, if_pos surrogate]
      · exact .inl ⟨p, rest, surrogate, split⟩
  | none =>
      by_cases small : b.toNat < 0x80
      · have split : b :: bytes = utf8.point ⟨b.toNat, Nat.lt_trans small (by decide)⟩ ++ bytes := by
          rw [point_ascii small]
          rfl
        have found : utf8.first? (b :: bytes) = some (_, bytes) :=
          first?_eq_some.mpr ⟨split ▸ leading_utf8 _ bytes, split⟩
        rw [first] at found
        cases found
      · refine .inr ⟨Nat.le_of_not_lt small, ?_⟩
        simp only [systemString, systemStringWithin, first]

theorem systemPoint_plain (h : ¬ p.IsSurrogate) : systemPoint p = utf8.point p := by
  rw [systemPoint, if_neg, if_neg h]
  rintro ⟨low, high⟩
  exact h ⟨by omega, by omega⟩

theorem systemPoint_byte (high : 0x80 ≤ b.toNat) :
    systemPoint (Fin.ofNat _ (0xDC00 + b.toNat)) = [b] := by
  have limit := b.toNat_lt
  have value : (Fin.ofNat 0x110000 (0xDC00 + b.toNat)).val = 0xDC00 + b.toNat :=
    Nat.mod_eq_of_lt (by omega)
  rw [systemPoint, value, if_pos (by omega)]
  congr 1
  apply UInt8.toNat_inj.mp
  rw [UInt8.toNat_ofNat']
  omega

theorem systemBytes_systemString (bytes : List UInt8) : systemBytes (systemString bytes) = bytes := by
  induction known : bytes.length using Nat.strong_induction_on generalizing bytes with
  | _ size ih =>
      cases bytes with
      | nil => rfl
      | cons b bytes =>
          rcases systemString_cases b bytes with ⟨p, rest, plain, split⟩ | ⟨high, same⟩
          · have nonempty := List.length_pos_iff.mpr (point_ne_nil utf8 p)
            have shorter : rest.length < size := by
              rw [← known, split, List.length_append]
              omega
            rw [split, systemString_cons plain, systemBytes, List.flatMap_cons, systemPoint_plain plain,
              ← systemBytes, ih _ shorter rest rfl]
          · rw [same, systemBytes, List.flatMap_cons, systemPoint_byte high, ← systemBytes,
              ih _ (known ▸ Nat.lt_succ_self _) bytes rfl]
            rfl

theorem ofChar_not_surrogate (c : Char) : ¬ (CodePoint.ofChar c).IsSurrogate :=
  fun surrogate => not_surrogate_ofChars [c] ⟨_, List.mem_singleton.mpr rfl, surrogate⟩

theorem systemString_append (text : List Char) (bytes : List UInt8) :
    systemString (Text.encode text ++ bytes) = ofChars text ++ systemString bytes := by
  induction text with
  | nil => rfl
  | cons c text ih =>
      have first : encodeChar c = utf8.point (.ofChar c) := rfl
      rw [encode_cons, List.append_assoc, first, systemString_cons (ofChar_not_surrogate c), ih]
      rfl

@[simp] theorem systemString_encode (text : List Char) :
    systemString (Text.encode text) = ofChars text := by
  have whole := systemString_append text []
  rwa [List.append_nil, show systemString [] = [] from rfl, List.append_nil] at whole

@[simp] theorem systemBytes_ofChars (text : List Char) : systemBytes (ofChars text) = Text.encode text := by
  rw [← systemString_encode, systemBytes_systemString]

theorem systemString_isText : (∃ text, systemString bytes = ofChars text) ↔ IsText bytes := by
  constructor
  · rintro ⟨text, same⟩
    refine ⟨text, ?_⟩
    rw [← systemBytes_ofChars, ← same, systemBytes_systemString]
  · rintro ⟨text, rfl⟩
    exact ⟨text, systemString_encode text⟩

theorem isText_iff_isSome : (toChars? (systemString bytes)).isSome ↔ IsText bytes := by
  rw [Option.isSome_iff_exists, ← systemString_isText]
  simp only [toChars?_eq_some]

theorem isText_iff : IsText bytes ↔ ¬ ∃ p ∈ systemString bytes, p.IsSurrogate := by
  rw [← systemString_isText, ← toChars?_eq_none, ← ne_eq, Option.ne_none_iff_exists']
  simp only [toChars?_eq_some]

theorem isText_append (text : List Char) : IsText (Text.encode text ++ bytes) ↔ IsText bytes := by
  rw [isText_iff, isText_iff, systemString_append]
  simp only [List.mem_append, or_and_right, exists_or, not_or]
  exact and_iff_right (not_surrogate_ofChars text)

theorem encodeChar_tail {c : Char} (h : encodeChar c = bytes ++ b :: rest) (some : bytes ≠ []) :
    0x80 ≤ b.toNat := by
  have later : ∀ b ∈ (encodeChar c).tail, 0x80 ≤ b.toNat := by
    simp only [encodeChar]
    split
    · simp
    split
    · simp
      omega
    split
    · simp
      omega
    · simp
      omega
  apply later
  rw [h, List.tail_append_of_ne_nil some]
  exact List.mem_append_right _ List.mem_cons_self

theorem IsText.before (small : b.toNat < 0x80) (h : IsText (bytes ++ b :: rest)) : IsText bytes := by
  obtain ⟨text, same⟩ := h
  induction text generalizing bytes with
  | nil => exact absurd (List.append_eq_nil_iff.mp same).2 (List.cons_ne_nil _ _)
  | cons c text ih =>
      rw [encode_cons] at same
      rcases List.append_eq_append_iff.mp same with ⟨more, own, left⟩ | ⟨more, rfl, left⟩
      · cases more with
        | nil =>
            refine ⟨[c], ?_⟩
            rw [List.append_nil] at own
            rw [← own, encode_cons, encode_nil, List.append_nil]
        | cons d more =>
            obtain ⟨rfl, -⟩ := List.cons.inj left
            by_cases none : bytes = []
            · exact ⟨[], none⟩
            · exact absurd (encodeChar_tail own none) (Nat.not_le_of_lt small)
      · obtain ⟨text, rfl⟩ := ih left.symm
        exact ⟨c :: text, rfl⟩

theorem isText_append_colon (text : List Char) :
    IsText (bytes ++ Text.encode (':' :: text)) ↔ IsText bytes := by
  constructor
  · intro h
    exact h.before (by decide : (0x3A : UInt8).toNat < 0x80)
  · rintro ⟨front, rfl⟩
    exact ⟨front ++ ':' :: text, (encode_append _ _).symm⟩

end Restyle.Text
