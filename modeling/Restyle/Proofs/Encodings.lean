import Restyle.Json.Read
import Restyle.Proofs.Utf16

/-!
# The encodings of JSON

Each encoding decodes exactly the bytes that it encodes a text by. A text that begins as JSON does is
decoded from the bytes of it in any of the encodings, with the mark of that encoding or without.
-/

namespace Restyle.Text.Encoding

variable {e : Encoding} {big : Bool} {p q : CodePoint} {bytes rest : List UInt8}
  {text : List CodePoint} {n : Nat}

/-- The texts that an encoding tells from all others. Two halves of a surrogate pair would be taken
for the code point of the pair. -/
def Fits : Encoding → List CodePoint → Prop
  | utf16 _, text => Unpaired text
  | _, _ => True

@[simp] theorem ordered_ordered (big : Bool) (unit : List UInt8) :
    ordered big (ordered big unit) = unit := by
  cases big
  · exact List.reverse_reverse unit
  · rfl

@[simp] theorem length_ordered (big : Bool) (unit : List UInt8) :
    (ordered big unit).length = unit.length := by
  cases big
  · exact List.length_reverse
  · rfl

@[simp] theorem length_pair (big : Bool) (n : Nat) : (pair big n).length = 2 :=
  length_ordered big _

theorem take_pair (big : Bool) (n : Nat) (rest : List UInt8) :
    (pair big n ++ rest).take 2 = pair big n :=
  List.take_left' (length_pair big n)

theorem drop_pair (big : Bool) (n : Nat) (rest : List UInt8) :
    (pair big n ++ rest).drop 2 = rest :=
  List.drop_left' (length_pair big n)

theorem number_pair (h : n < 0x10000) : number (ordered big (pair big n)) = n := by
  rw [pair, ordered_ordered]
  simp only [number, List.foldl, UInt8.toNat_ofNat']
  omega

theorem pair_bytes (big : Bool) (positive : 0 < n) (small : n < 0x10000) :
    ∃ x y, pair big n = [x, y] ∧ ¬ (x = 0 ∧ y = 0) := by
  have some : ¬ (UInt8.ofNat (n / 256) = 0 ∧ UInt8.ofNat n = 0) := by
    rintro ⟨high, low⟩
    have high := congrArg UInt8.toNat high
    have low := congrArg UInt8.toNat low
    rw [UInt8.toNat_ofNat', UInt8.toNat_zero] at high low
    omega
  cases big with
  | true => exact ⟨_, _, rfl, some⟩
  | false => exact ⟨_, _, rfl, fun zero => some zero.symm⟩

theorem point_ne_nil (e : Encoding) (p : CodePoint) : e.point p ≠ [] := by
  cases e with
  | utf8 =>
      simp only [point]
      split
      · nofun
      · split
        · nofun
        · split <;> nofun
  | utf16 big =>
      rw [point]
      split <;> cases big <;> nofun
  | utf32 big => cases big <;> nofun

theorem leading_utf8 (p : CodePoint) (rest : List UInt8) :
    leading utf8 (point utf8 p ++ rest) = p.val := by
  have limit := p.isLt
  simp only [point]
  split
  · simp [leading]
    rw [if_pos (by omega)]
    omega
  split
  · simp [leading]
    rw [if_neg (by omega), if_pos (by omega)]
    omega
  split
  · simp [leading]
    rw [if_neg (by omega), if_neg (by omega), if_pos (by omega)]
    omega
  · simp [leading]
    rw [if_neg (by omega), if_neg (by omega), if_neg (by omega)]
    omega

theorem leading_utf32 (p : CodePoint) (rest : List UInt8) :
    leading (utf32 big) (point (utf32 big) p ++ rest) = p.val := by
  have limit := p.isLt
  have own : (point (utf32 big) p ++ rest).take 4 = point (utf32 big) p :=
    List.take_left' (length_ordered big _)
  rw [leading, own, point, ordered_ordered]
  simp only [number, List.foldl, UInt8.toNat_ofNat', UInt8.toNat_zero]
  omega

theorem leading_utf16 (alone : ¬ (IsHigh p.val ∧ IsLow (number (ordered big (rest.take 2))))) :
    leading (utf16 big) (point (utf16 big) p ++ rest) = p.val := by
  have limit := p.isLt
  rw [point]
  split
  · rename_i small
    simp only [leading, take_pair, drop_pair, number_pair small]
    exact if_neg alone
  · rename_i large
    have high : 0xD800 + (p.val - 0x10000) / 0x400 < 0x10000 := by omega
    have low : 0xDC00 + (p.val - 0x10000) % 0x400 < 0x10000 := by omega
    simp only [leading, List.append_assoc, take_pair, drop_pair, number_pair high, number_pair low]
    have pair : IsHigh (0xD800 + (p.val - 0x10000) / 0x400) ∧
        IsLow (0xDC00 + (p.val - 0x10000) % 0x400) := by
      rw [IsHigh, IsLow]
      omega
    rw [if_pos pair]
    unfold pairNumber
    omega

/-- The first unit of some text is the second half of a pair only if its first code point is. -/
theorem isLow_unit (q : CodePoint) (rest : List UInt8) :
    IsLow (number (ordered big ((point (utf16 big) q ++ rest).take 2))) ↔ IsLow q.val := by
  have limit := q.isLt
  rw [point]
  split
  · rename_i small
    rw [take_pair, number_pair small]
  · rw [List.append_assoc, take_pair, number_pair (by omega), IsLow, IsLow]
    omega

theorem leading_encode (fits : e.Fits (p :: text)) :
    e.leading (e.point p ++ e.encode text) = p.val := by
  cases e with
  | utf8 => exact leading_utf8 p _
  | utf32 big => exact leading_utf32 p _
  | utf16 big =>
      apply leading_utf16
      cases text with
      | nil =>
          intro pair
          cases big <;> exact absurd pair.2 (by decide)
      | cons q text =>
          rw [encode, List.flatMap_cons, isLow_unit]
          exact (List.isChain_cons_cons.mp fits).1

theorem first?_eq_some :
    e.first? bytes = some (p, rest) ↔ e.leading bytes = p.val ∧ bytes = e.point p ++ rest := by
  rw [first?]
  split
  · rename_i limit
    have same : e.leading bytes = p.val ↔ (⟨e.leading bytes, limit⟩ : CodePoint) = p := by
      rw [Fin.ext_iff]
    rw [same]
    generalize (⟨e.leading bytes, limit⟩ : CodePoint) = q
    by_cases own : e.point q <+: bytes
    · obtain ⟨after, rfl⟩ := own
      simp only [List.isPrefixOf_iff_prefix.mpr (List.prefix_append _ _), if_true, List.drop_left,
        Option.some.injEq, Prod.mk.injEq]
      constructor
      · rintro ⟨rfl, rfl⟩
        exact ⟨rfl, rfl⟩
      · rintro ⟨rfl, split⟩
        exact ⟨rfl, List.append_cancel_left split⟩
    · rw [if_neg fun h => own (List.isPrefixOf_iff_prefix.mp h)]
      refine iff_of_false nofun ?_
      rintro ⟨rfl, rfl⟩
      exact own (List.prefix_append _ _)
  · rename_i limit
    refine iff_of_false nofun ?_
    rintro ⟨same, -⟩
    exact limit (same ▸ p.isLt)

theorem Fits.nil (e : Encoding) : e.Fits [] := by
  cases e with
  | utf16 big => exact List.IsChain.nil
  | _ => trivial

theorem Fits.tail (fits : e.Fits (p :: text)) : e.Fits text := by
  cases e with
  | utf16 big => exact List.IsChain.tail fits
  | _ => trivial

theorem leading_paired (high : IsHigh p.val) (low : IsLow q.val) :
    leading (utf16 big) (point (utf16 big) p ++ (point (utf16 big) q ++ rest)) ≠ p.val := by
  have small : p.val < 0x10000 := by
    rw [IsHigh] at high
    omega
  rw [point, if_pos small]
  simp only [leading, take_pair, drop_pair, number_pair small, isLow_unit]
  rw [if_pos ⟨high, low⟩]
  unfold pairNumber
  omega

theorem Fits.cons (found : e.leading (e.point p ++ e.encode text) = p.val) (fits : e.Fits text) :
    e.Fits (p :: text) := by
  cases e with
  | utf16 big =>
      cases text with
      | nil => exact List.IsChain.singleton p
      | cons q text =>
          refine List.isChain_cons_cons.mpr ⟨?_, fits⟩
          rintro ⟨high, low⟩
          exact leading_paired high low found
  | _ => trivial

theorem decodeWithin_sound {bound : List UInt8} (h : e.decodeWithin bound bytes = some text) :
    bytes = e.encode text ∧ e.Fits text := by
  induction bound generalizing bytes text with
  | nil =>
      cases bytes with
      | nil =>
          cases h
          exact ⟨rfl, .nil e⟩
      | cons b bytes => cases h
  | cons _ bound ih =>
      cases bytes with
      | nil =>
          cases h
          exact ⟨rfl, .nil e⟩
      | cons b bytes =>
          simp only [decodeWithin, Option.bind_eq_bind, Option.bind_eq_some_iff, Prod.exists,
            Option.pure_def, Option.some.injEq] at h
          obtain ⟨p, rest, first, text, later, rfl⟩ := h
          obtain ⟨found, split⟩ := first?_eq_some.mp first
          obtain ⟨rfl, fits⟩ := ih later
          exact ⟨split, .cons (split ▸ found) fits⟩

theorem decodeWithin_encode {bound : List UInt8} (fits : e.Fits text)
    (enough : (e.encode text).length ≤ bound.length) :
    e.decodeWithin bound (e.encode text) = some text := by
  induction text generalizing bound with
  | nil => cases bound <;> rfl
  | cons p text ih =>
      have first : e.first? (e.encode (p :: text)) = some (p, e.encode text) :=
        first?_eq_some.mpr ⟨leading_encode fits, rfl⟩
      have nonempty := List.length_pos_iff.mpr (point_ne_nil e p)
      rw [encode, List.flatMap_cons, List.length_append, ← encode] at enough
      cases bound with
      | nil =>
          rw [List.length_nil] at enough
          omega
      | cons b bound =>
          rw [List.length_cons] at enough
          have later := ih fits.tail (by omega : _ ≤ bound.length)
          cases bytes : e.encode (p :: text) with
          | nil => exact absurd (List.append_eq_nil_iff.mp bytes).1 (point_ne_nil e p)
          | cons c bytes =>
              rw [bytes] at first
              simp only [decodeWithin, first, later, Option.bind_eq_bind, Option.bind_some,
                Option.pure_def]

theorem decode_eq_some : e.decode bytes = some text ↔ bytes = e.encode text ∧ e.Fits text := by
  constructor
  · exact decodeWithin_sound
  · rintro ⟨rfl, fits⟩
    exact decodeWithin_encode fits (Nat.le_refl _)

end Restyle.Text.Encoding

namespace Restyle.Json

open Text Encoding

/-- Some bytes encode a text, in whatever encoding and perhaps after its mark. -/
def Encodes (bytes : List UInt8) (text : List CodePoint) : Prop :=
  ∃ e : Encoding, e.Fits text ∧ (bytes = e.encode text ∨ bytes = e.mark ++ e.encode text)

/-- A text begins with a character of ASCII other than zero, and zero does not come next. -/
def BeginsPlainly : List CodePoint → Prop
  | c :: rest => 0 < c.val ∧ c.val < 0x80 ∧ rest.head? ≠ some 0
  | [] => False

variable {bytes : List UInt8} {text : List CodePoint} {a b x y : UInt8} {more : List UInt8}

theorem mark_utf8 : mark utf8 = [0xEF, 0xBB, 0xBF] := rfl

theorem mark_utf16 (big : Bool) : mark (utf16 big) = ordered big [0xFE, 0xFF] := rfl

theorem mark_utf32 (big : Bool) : mark (utf32 big) = ordered big [0, 0, 0xFE, 0xFF] := rfl

theorem encodingOf_mark {e : Encoding} {n : Nat} (h : encodingOf bytes = (e, n)) :
    n = 0 ∨ ∃ rest, bytes = e.mark ++ rest ∧ n = e.mark.length := by
  rw [encodingOf] at h
  split at h
  · rename_i marked
    obtain ⟨rfl, rfl⟩ := Prod.mk.inj h
    obtain ⟨rest, same⟩ := List.isPrefixOf_iff_prefix.mp (List.find?_some marked :)
    exact .inr ⟨rest, same.symm, rfl⟩
  · exact .inl (Prod.mk.inj h).2.symm

theorem Encodes.of_decode (h : decode bytes = some text) : Encodes bytes text := by
  rw [decode] at h
  generalize found : encodingOf bytes = detected at h
  obtain ⟨e, n⟩ := detected
  obtain ⟨same, fits⟩ := decode_eq_some.mp h
  refine ⟨e, fits, ?_⟩
  rcases encodingOf_mark found with rfl | ⟨rest, rfl, rfl⟩
  · exact .inl same
  · rw [List.drop_left] at same
    exact .inr (congrArg _ same)

section Detection

variable {c : CodePoint} {rest : List CodePoint}

theorem BeginsPlainly.byte (plain : BeginsPlainly (c :: rest)) :
    UInt8.ofNat c.val ≠ 0 ∧ UInt8.ofNat c.val ≠ 0xFF ∧ UInt8.ofNat c.val ≠ 0xFE ∧
      UInt8.ofNat c.val ≠ 0xEF := by
  obtain ⟨positive, ascii, -⟩ := plain
  have byte : (UInt8.ofNat c.val).toNat = c.val := by
    rw [UInt8.toNat_ofNat']
    omega
  have other {b : UInt8} (h : c.val ≠ b.toNat) : UInt8.ofNat c.val ≠ b := by
    rintro rfl
    exact h byte.symm
  exact ⟨other (by simp; omega), other (by simp; omega), other (by simp; omega), other (by simp; omega)⟩

theorem utf8_next (h : rest.head? ≠ some 0) : (utf8.encode rest).head? ≠ some 0 := by
  cases rest with
  | nil => nofun
  | cons d rest =>
      have nonzero : d.val ≠ 0 := fun zero => h (congrArg some (Fin.ext zero))
      intro zero
      have leading := leading_utf8 d (utf8.encode rest)
      have bytes : ∃ more, point utf8 d ++ utf8.encode rest = 0 :: more := List.head?_eq_some_iff.mp zero
      obtain ⟨more, bytes⟩ := bytes
      rw [bytes] at leading
      exact nonzero leading.symm

theorem utf16_next (big : Bool) (h : rest.head? ≠ some 0) :
    Encoding.encode (utf16 big) rest = [] ∨ ∃ x y more,
      Encoding.encode (utf16 big) rest = x :: y :: more ∧ ¬ (x = 0 ∧ y = 0) := by
  cases rest with
  | nil => exact .inl rfl
  | cons d rest =>
      have nonzero : d.val ≠ 0 := fun zero => h (congrArg some (Fin.ext zero))
      have limit := d.isLt
      right
      rw [Encoding.encode, List.flatMap_cons, point]
      split
      · obtain ⟨x, y, unit, some⟩ := pair_bytes big (by omega : 0 < d.val) (by omega)
        rw [unit]
        exact ⟨x, y, _, rfl, some⟩
      · obtain ⟨x, y, unit, some⟩ :=
          pair_bytes big (by omega : 0 < 0xD800 + (d.val - 0x10000) / 0x400) (by omega)
        rw [unit]
        exact ⟨x, y, _, rfl, some⟩

theorem encode_utf16_cons (big : Bool) (plain : BeginsPlainly (c :: rest)) :
    Encoding.encode (utf16 big) (c :: rest) =
      ordered big [0, UInt8.ofNat c.val] ++ Encoding.encode (utf16 big) rest := by
  obtain ⟨-, ascii, -⟩ := plain
  have small : c.val < 0x10000 := by omega
  have zero : c.val / 256 = 0 := by omega
  rw [Encoding.encode, List.flatMap_cons, point, if_pos small, pair, zero]
  rfl

theorem encode_utf32_cons (big : Bool) (plain : BeginsPlainly (c :: rest)) :
    Encoding.encode (utf32 big) (c :: rest) =
      ordered big [0, 0, 0, UInt8.ofNat c.val] ++ Encoding.encode (utf32 big) rest := by
  obtain ⟨-, ascii, -⟩ := plain
  have zeros : c.val / 256 = 0 ∧ c.val / 65536 = 0 := by omega
  rw [Encoding.encode, List.flatMap_cons, point, zeros.1, zeros.2]
  rfl

theorem encode_utf8_cons (plain : BeginsPlainly (c :: rest)) :
    Encoding.encode utf8 (c :: rest) = UInt8.ofNat c.val :: Encoding.encode utf8 rest := by
  obtain ⟨-, ascii, -⟩ := plain
  rw [Encoding.encode, List.flatMap_cons, point, if_pos ascii]
  rfl

theorem encodingOf_unmarked (none : ∀ e : Encoding, ¬ e.mark <+: bytes) :
    encodingOf bytes = (unmarkedEncoding bytes, 0) := by
  have unfound : (markedEncodings.find? fun e => e.mark.isPrefixOf bytes) = Option.none := by
    apply List.find?_eq_none.mpr
    intro e _ marked
    exact none e (List.isPrefixOf_iff_prefix.mp marked)
  rw [encodingOf, unfound]

theorem not_marked_byte (other : a ≠ 0 ∧ a ≠ 0xFF ∧ a ≠ 0xFE ∧ a ≠ 0xEF) (e : Encoding) :
    ¬ e.mark <+: a :: more := by
  obtain ⟨zero, full, even, third⟩ := other
  cases e with
  | utf8 => simp [mark_utf8, third.symm]
  | utf16 big => cases big <;> simp [mark_utf16, ordered, full.symm, even.symm]
  | utf32 big => cases big <;> simp [mark_utf32, ordered, zero.symm, full.symm]

theorem not_marked_zero (other : a ≠ 0 ∨ more.head? = some 0) (e : Encoding) :
    ¬ e.mark <+: 0 :: a :: more := by
  cases e with
  | utf8 => simp [mark_utf8]
  | utf16 big => cases big <;> simp [mark_utf16, ordered]
  | utf32 big =>
      cases big with
      | false => simp [mark_utf32, ordered]
      | true =>
          rcases other with other | zero
          · simp [mark_utf32, ordered, other.symm]
          · obtain ⟨more, rfl⟩ := List.head?_eq_some_iff.mp zero
            simp [mark_utf32, ordered]

theorem not_marked_encode (e : Encoding) (plain : BeginsPlainly (c :: rest)) (other : Encoding) :
    ¬ other.mark <+: e.encode (c :: rest) := by
  have byte := plain.byte
  cases e with
  | utf8 =>
      rw [encode_utf8_cons plain]
      exact not_marked_byte byte other
  | utf16 big =>
      rw [encode_utf16_cons big plain]
      cases big with
      | false => exact not_marked_byte byte other
      | true => exact not_marked_zero (.inl byte.1) other
  | utf32 big =>
      rw [encode_utf32_cons big plain]
      cases big with
      | false => exact not_marked_byte byte other
      | true => exact not_marked_zero (.inr rfl) other

theorem unmarkedEncoding_encode (e : Encoding) (plain : BeginsPlainly (c :: rest)) :
    unmarkedEncoding (e.encode (c :: rest)) = e := by
  have next := plain.2.2
  have byte := plain.byte
  cases e with
  | utf8 =>
      have some := utf8_next next
      rw [encode_utf8_cons plain]
      cases later : utf8.encode rest with
      | nil => rfl
      | cons d more =>
          rw [later] at some
          have nonzero : d ≠ 0 := fun zero => some (congrArg Option.some zero)
          rcases more with _ | ⟨x, _ | ⟨y, more⟩⟩ <;> simp [unmarkedEncoding, byte, nonzero]
  | utf16 big =>
      rw [encode_utf16_cons big plain]
      rcases utf16_next big next with none | ⟨x, y, more, bytes, some⟩
      · rw [none]
        cases big <;> simp [unmarkedEncoding, ordered, byte]
      · rw [bytes]
        cases big <;> simp [unmarkedEncoding, ordered, byte, some]
  | utf32 big =>
      rw [encode_utf32_cons big plain]
      cases big <;> simp [unmarkedEncoding, ordered, byte]

theorem encodingOf_encode (e : Encoding) (plain : BeginsPlainly text) :
    encodingOf (e.encode text) = (e, 0) := by
  cases text with
  | nil => exact plain.elim
  | cons c rest =>
      rw [encodingOf_unmarked (not_marked_encode e plain), unmarkedEncoding_encode e plain]

theorem encodingOf_found
    (found : (markedEncodings.find? fun e => e.mark.isPrefixOf bytes) = some e) :
    encodingOf bytes = (e, e.mark.length) := by
  rw [encodingOf, found]

theorem encodingOf_marked (e : Encoding) (plain : BeginsPlainly text) :
    encodingOf (e.mark ++ e.encode text) = (e, e.mark.length) := by
  cases text with
  | nil => exact plain.elim
  | cons c rest =>
      apply encodingOf_found
      cases e with
      | utf8 => rfl
      | utf16 big =>
          rw [encode_utf16_cons big plain]
          cases big <;> simp [markedEncodings, mark_utf16, mark_utf32, ordered, plain.byte.1.symm]
      | utf32 big => cases big <;> rfl

end Detection

/-- A text that begins as JSON does is decoded from the bytes that encode it, and from no others. -/
theorem decode_iff_encodes (plain : BeginsPlainly text) :
    decode bytes = some text ↔ Encodes bytes text := by
  constructor
  · exact Encodes.of_decode
  · rintro ⟨e, fits, rfl | rfl⟩
    · rw [decode, encodingOf_encode e plain]
      exact Encoding.decode_eq_some.mpr ⟨rfl, fits⟩
    · rw [decode, encodingOf_marked e plain]
      simp only [List.drop_left]
      exact Encoding.decode_eq_some.mpr ⟨rfl, fits⟩

end Restyle.Json
