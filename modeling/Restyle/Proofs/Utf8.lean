import Restyle.Text.Utf8

/-!
# Encoding and decoding

Decoding undoes encoding, strictly and lossily, and encoding undoes strict decoding. The encoding of
a text splits wherever the text does. The offsets at which it splits are the places between two
characters.
-/

namespace Restyle.Text

private theorem byte_toNat {n : Nat} (h : n < 256) : (UInt8.ofNat n).toNat = n := by
  simp [UInt8.toNat_ofNat', Nat.mod_eq_of_lt h]

private theorem pieces_lead {offset : Nat} {b : UInt8} {p : Pending} {rest : List UInt8}
    (h : opening b = .lead p) :
    pieces offset none (b :: rest) = pieces (offset + 1) (some (p, offset)) rest := by
  simp only [pieces, h]

private theorem pieces_more {offset start : Nat} {p : Pending} {b : UInt8} {rest : List UInt8}
    (hb : p.low ≤ b.toNat ∧ b.toNat ≤ p.high) (hm : ¬ p.missing ≤ 1) :
    pieces offset (some (p, start)) (b :: rest) =
      pieces (offset + 1)
        (some (⟨p.value * 64 + (b.toNat - 0x80), p.missing - 1, 0x80, 0xBF⟩, start)) rest := by
  simp only [pieces, hb, hm, and_self, if_true, if_false]

private theorem pieces_last {offset start : Nat} {p : Pending} {b : UInt8} {rest : List UInt8}
    (hb : p.low ≤ b.toNat ∧ b.toNat ≤ p.high) (hm : p.missing ≤ 1) :
    pieces offset (some (p, start)) (b :: rest) =
      .char (Char.ofNat (p.value * 64 + (b.toNat - 0x80))) :: pieces (offset + 1) none rest := by
  simp only [pieces, hb, hm, and_self, if_true]

private theorem opening_two {n : Nat} (low : 0x80 ≤ n) (high : n < 0x800) :
    opening (UInt8.ofNat (0xC0 + n / 64)) = .lead ⟨n / 64, 1, 0x80, 0xBF⟩ := by
  rw [opening, byte_toNat (by omega)]
  rw [if_neg (by omega), if_neg (by omega), if_pos (by omega), Nat.add_sub_cancel_left]

/-- The lead byte of a character of three bytes; the range of the second byte depends on it. -/
private theorem opening_three {n : Nat} (low : 0x800 ≤ n) (high : n < 0x10000)
    (scalar : n < 0xD800 ∨ 0xDFFF < n) :
    ∃ l h, opening (UInt8.ofNat (0xE0 + n / 4096)) = .lead ⟨n / 4096, 2, l, h⟩ ∧
      l ≤ 0x80 + n / 64 % 64 ∧ 0x80 + n / 64 % 64 ≤ h := by
  rw [opening, byte_toNat (by omega)]
  rw [if_neg (by omega), if_neg (by omega), if_neg (by omega)]
  by_cases first : n / 4096 = 0
  · rw [if_pos (by omega), Nat.add_sub_cancel_left]
    exact ⟨_, _, rfl, by omega, by omega⟩
  · rw [if_neg (by omega)]
    by_cases surrogates : n / 4096 = 13
    · rw [if_pos (by omega), Nat.add_sub_cancel_left]
      exact ⟨_, _, rfl, by omega, by omega⟩
    · rw [if_neg (by omega), if_pos (by omega), Nat.add_sub_cancel_left]
      exact ⟨_, _, rfl, by omega, by omega⟩

/-- The lead byte of a character of four bytes; the range of the second byte depends on it. -/
private theorem opening_four {n : Nat} (low : 0x10000 ≤ n) (high : n < 0x110000) :
    ∃ l h, opening (UInt8.ofNat (0xF0 + n / 262144)) = .lead ⟨n / 262144, 3, l, h⟩ ∧
      l ≤ 0x80 + n / 4096 % 64 ∧ 0x80 + n / 4096 % 64 ≤ h := by
  rw [opening, byte_toNat (by omega)]
  rw [if_neg (by omega), if_neg (by omega), if_neg (by omega), if_neg (by omega),
    if_neg (by omega), if_neg (by omega)]
  by_cases first : n / 262144 = 0
  · rw [if_pos (by omega), Nat.add_sub_cancel_left]
    exact ⟨_, _, rfl, by omega, by omega⟩
  · rw [if_neg (by omega)]
    by_cases last : n / 262144 = 4
    · rw [if_neg (by omega), if_pos (by omega), Nat.add_sub_cancel_left]
      exact ⟨_, _, rfl, by omega, by omega⟩
    · rw [if_pos (by omega), Nat.add_sub_cancel_left]
      exact ⟨_, _, rfl, by omega, by omega⟩

theorem pieces_encodeChar (offset : Nat) (c : Char) (rest : List UInt8) :
    pieces offset none (encodeChar c ++ rest) =
      .char c :: pieces (offset + charWidth c) none rest := by
  have scalar : c.toNat < 0xD800 ∨ 0xDFFF < c.toNat := c.valid.imp id And.left
  have limit : c.toNat < 0x110000 := by
    rcases c.valid with h | h
    · exact Nat.lt_trans h (by decide)
    · exact h.2
  have digits (k : Nat) : (UInt8.ofNat (0x80 + k % 64)).toNat = 0x80 + k % 64 :=
    byte_toNat (by omega)
  rw [encodeChar, charWidth]
  by_cases one : c.toNat < 0x80
  · rw [if_pos one, if_pos one]
    have whole : opening (UInt8.ofNat c.toNat) = .whole c := by
      rw [opening, byte_toNat (by omega)]
      rw [if_pos one, Char.ofNat_toNat]
    simp only [List.cons_append, List.nil_append, pieces, whole]
  rw [if_neg one, if_neg one]
  by_cases two : c.toNat < 0x800
  · rw [if_pos two, if_pos two]
    simp only [List.cons_append, List.nil_append]
    rw [pieces_lead (opening_two (by omega) two), pieces_last (by simp only [digits]; omega) (by simp),
      digits]
    have value : c.toNat / 64 * 64 + (0x80 + c.toNat % 64 - 0x80) = c.toNat := by omega
    simp only [value, Char.ofNat_toNat]
  rw [if_neg two, if_neg two]
  by_cases three : c.toNat < 0x10000
  · rw [if_pos three, if_pos three]
    obtain ⟨l, h, hopening, hl, hh⟩ := opening_three (by omega) three scalar
    simp only [List.cons_append, List.nil_append]
    rw [pieces_lead hopening, pieces_more (by simpa only [digits] using ⟨hl, hh⟩) (by simp),
      pieces_last (by simp only [digits]; omega) (by simp), digits, digits]
    have value : (c.toNat / 4096 * 64 + (0x80 + c.toNat / 64 % 64 - 0x80)) * 64 +
        (0x80 + c.toNat % 64 - 0x80) = c.toNat := by omega
    simp only [value, Char.ofNat_toNat]
  · rw [if_neg three, if_neg three]
    obtain ⟨l, h, hopening, hl, hh⟩ := opening_four (by omega) limit
    simp only [List.cons_append, List.nil_append]
    rw [pieces_lead hopening, pieces_more (by simpa only [digits] using ⟨hl, hh⟩) (by simp),
      pieces_more (by simp only [digits]; omega) (by simp),
      pieces_last (by simp only [digits]; omega) (by simp), digits, digits, digits]
    have value : ((c.toNat / 262144 * 64 + (0x80 + c.toNat / 4096 % 64 - 0x80)) * 64 +
        (0x80 + c.toNat / 64 % 64 - 0x80)) * 64 + (0x80 + c.toNat % 64 - 0x80) = c.toNat := by
      omega
    simp only [value, Char.ofNat_toNat]

theorem pieces_encode (offset : Nat) (text : List Char) :
    pieces offset none (encode text) = text.map .char := by
  induction text generalizing offset with
  | nil => rfl
  | cons c text ih =>
      rw [encode, List.flatMap_cons, pieces_encodeChar, List.map_cons]
      exact congrArg _ (ih _)

private theorem collect_chars (text : List Char) : collect (text.map .char) = .ok text := by
  induction text with
  | nil => rfl
  | cons c text ih => rw [List.map_cons, collect, ih]

@[simp] theorem decode_encode (text : List Char) : decode (encode text) = .ok text := by
  rw [decode, pieces_encode, collect_chars]

@[simp] theorem decodeLossy_encode (text : List Char) : decodeLossy (encode text) = text := by
  rw [decodeLossy, pieces_encode, List.map_map]
  exact List.map_id text

@[simp] theorem encode_nil : encode [] = [] := rfl

@[simp] theorem encode_cons (c : Char) (text : List Char) :
    encode (c :: text) = encodeChar c ++ encode text := rfl

@[simp] theorem encode_append (a b : List Char) : encode (a ++ b) = encode a ++ encode b :=
  List.flatMap_append

theorem encode_injective {a b : List Char} (h : encode a = encode b) : a = b := by
  have decoded := congrArg decode h
  simpa using decoded

private theorem toNat_ofNat {n : Nat} (h : n.isValidChar) : (Char.ofNat n).toNat = n := by
  rw [Char.ofNat, dif_pos h]
  rfl

private theorem ofNat_eq {n : Nat} {b : UInt8} (h : n = b.toNat) : UInt8.ofNat n = b := by
  rw [h, UInt8.ofNat_toNat]

private theorem opening_lead {b : UInt8} {p : Pending} (h : opening b = .lead p) :
    (0xC2 ≤ b.toNat ∧ b.toNat < 0xE0 ∧ p = ⟨b.toNat - 0xC0, 1, 0x80, 0xBF⟩) ∨
    (0xE0 ≤ b.toNat ∧ b.toNat < 0xF0 ∧ ∃ l h, p = ⟨b.toNat - 0xE0, 2, l, h⟩ ∧ 0x80 ≤ l ∧ h ≤ 0xBF ∧
      (b.toNat = 0xE0 → l = 0xA0) ∧ (b.toNat = 0xED → h = 0x9F)) ∨
    (0xF0 ≤ b.toNat ∧ b.toNat ≤ 0xF4 ∧ ∃ l h, p = ⟨b.toNat - 0xF0, 3, l, h⟩ ∧ 0x80 ≤ l ∧ h ≤ 0xBF ∧
      (b.toNat = 0xF0 → l = 0x90) ∧ (b.toNat = 0xF4 → h = 0x8F)) := by
  rw [opening] at h
  by_cases whole : b.toNat < 0x80
  · rw [if_pos whole] at h
    cases h
  rw [if_neg whole] at h
  by_cases stray : b.toNat < 0xC2
  · rw [if_pos stray] at h
    cases h
  rw [if_neg stray] at h
  by_cases two : b.toNat < 0xE0
  · rw [if_pos two] at h
    obtain rfl := Opening.lead.inj h
    exact .inl ⟨by omega, two, rfl⟩
  rw [if_neg two] at h
  by_cases three : b.toNat < 0xF0
  · refine .inr (.inl ⟨by omega, three, ?_⟩)
    by_cases first : b.toNat = 0xE0
    · rw [if_pos first] at h
      obtain rfl := Opening.lead.inj h
      exact ⟨_, _, rfl, by omega, by omega, by omega, by omega⟩
    rw [if_neg first] at h
    by_cases surrogates : b.toNat = 0xED
    · rw [if_pos surrogates] at h
      obtain rfl := Opening.lead.inj h
      exact ⟨_, _, rfl, by omega, by omega, by omega, by omega⟩
    rw [if_neg surrogates, if_pos three] at h
    obtain rfl := Opening.lead.inj h
    exact ⟨_, _, rfl, by omega, by omega, by omega, by omega⟩
  rw [if_neg (by omega), if_neg (by omega), if_neg three] at h
  by_cases first : b.toNat = 0xF0
  · rw [if_pos first] at h
    obtain rfl := Opening.lead.inj h
    exact .inr (.inr ⟨by omega, by omega, _, _, rfl, by omega, by omega, by omega, by omega⟩)
  rw [if_neg first] at h
  by_cases inner : b.toNat < 0xF4
  · rw [if_pos inner] at h
    obtain rfl := Opening.lead.inj h
    exact .inr (.inr ⟨by omega, by omega, _, _, rfl, by omega, by omega, by omega, by omega⟩)
  rw [if_neg inner] at h
  by_cases last : b.toNat = 0xF4
  · rw [if_pos last] at h
    obtain rfl := Opening.lead.inj h
    exact .inr (.inr ⟨by omega, by omega, _, _, rfl, by omega, by omega, by omega, by omega⟩)
  · rw [if_neg last] at h
    cases h

private theorem encodeChar_one {b : UInt8} (h : b.toNat < 0x80) :
    encodeChar (Char.ofNat b.toNat) = [b] := by
  have value : (Char.ofNat b.toNat).toNat = b.toNat := toNat_ofNat (Or.inl (by omega))
  rw [encodeChar, value, if_pos h, UInt8.ofNat_toNat]

private theorem encodeChar_two {a b : UInt8} {n : Nat} (lead : 0xC2 ≤ a.toNat ∧ a.toNat < 0xE0)
    (next : 0x80 ≤ b.toNat ∧ b.toNat ≤ 0xBF)
    (number : n = (a.toNat - 0xC0) * 64 + (b.toNat - 0x80)) :
    encodeChar (Char.ofNat n) = [a, b] := by
  have value : (Char.ofNat n).toNat = n := toNat_ofNat (Or.inl (by omega))
  rw [encodeChar, value, if_neg (by omega), if_pos (by omega), ofNat_eq (b := a) (by omega),
    ofNat_eq (b := b) (by omega)]

private theorem encodeChar_three {a b c : UInt8} {n : Nat} (lead : 0xE0 ≤ a.toNat ∧ a.toNat < 0xF0)
    (next : 0x80 ≤ b.toNat ∧ b.toNat ≤ 0xBF) (last : 0x80 ≤ c.toNat ∧ c.toNat ≤ 0xBF)
    (low : a.toNat = 0xE0 → 0xA0 ≤ b.toNat) (high : a.toNat = 0xED → b.toNat ≤ 0x9F)
    (number : n = ((a.toNat - 0xE0) * 64 + (b.toNat - 0x80)) * 64 + (c.toNat - 0x80)) :
    encodeChar (Char.ofNat n) = [a, b, c] := by
  have valid : n.isValidChar := by
    rw [Nat.isValidChar]
    omega
  rw [encodeChar, toNat_ofNat valid, if_neg (by omega), if_neg (by omega), if_pos (by omega),
    ofNat_eq (b := a) (by omega), ofNat_eq (b := b) (by omega), ofNat_eq (b := c) (by omega)]

private theorem encodeChar_four {a b c d : UInt8} {n : Nat}
    (lead : 0xF0 ≤ a.toNat ∧ a.toNat ≤ 0xF4) (next : 0x80 ≤ b.toNat ∧ b.toNat ≤ 0xBF)
    (third : 0x80 ≤ c.toNat ∧ c.toNat ≤ 0xBF) (last : 0x80 ≤ d.toNat ∧ d.toNat ≤ 0xBF)
    (low : a.toNat = 0xF0 → 0x90 ≤ b.toNat) (high : a.toNat = 0xF4 → b.toNat ≤ 0x8F)
    (number : n = (((a.toNat - 0xF0) * 64 + (b.toNat - 0x80)) * 64 + (c.toNat - 0x80)) * 64 +
      (d.toNat - 0x80)) :
    encodeChar (Char.ofNat n) = [a, b, c, d] := by
  have valid : n.isValidChar := by
    rw [Nat.isValidChar]
    omega
  rw [encodeChar, toNat_ofNat valid, if_neg (by omega), if_neg (by omega), if_neg (by omega),
    ofNat_eq (b := a) (by omega), ofNat_eq (b := b) (by omega), ofNat_eq (b := c) (by omega),
    ofNat_eq (b := d) (by omega)]

private theorem collect_char {c : Char} {rest : List Piece} {text : List Char}
    (h : collect (.char c :: rest) = .ok text) :
    ∃ more, text = c :: more ∧ collect rest = .ok more := by
  rw [collect] at h
  cases collected : collect rest with
  | error m =>
      rw [collected] at h
      cases h
  | ok more =>
      rw [collected] at h
      cases h
      exact ⟨more, rfl, rfl⟩

private theorem collect_pending {offset start : Nat} {p : Pending} {bytes : List UInt8}
    {text : List Char} (h : collect (pieces offset (some (p, start)) bytes) = .ok text) :
    ∃ b rest, bytes = b :: rest ∧ p.low ≤ b.toNat ∧ b.toNat ≤ p.high := by
  cases bytes with
  | nil => cases h
  | cons b rest =>
      by_cases allowed : p.low ≤ b.toNat ∧ b.toNat ≤ p.high
      · exact ⟨b, rest, rfl, allowed⟩
      · simp only [pieces, if_neg allowed, collect, reduceCtorEq] at h

private theorem collect_cons {offset : Nat} {b : UInt8} {bytes : List UInt8} {text : List Char}
    (h : collect (pieces offset none (b :: bytes)) = .ok text) :
    ∃ c more rest offset', text = c :: more ∧ b :: bytes = encodeChar c ++ rest ∧
      collect (pieces offset' none rest) = .ok more := by
  cases opened : opening b with
  | stray => simp only [pieces, opened, collect, reduceCtorEq] at h
  | whole c =>
      have ascii : b.toNat < 0x80 ∧ c = Char.ofNat b.toNat := by
        rw [opening] at opened
        by_cases ascii : b.toNat < 0x80
        · rw [if_pos ascii] at opened
          exact ⟨ascii, (Opening.whole.inj opened).symm⟩
        · rw [if_neg ascii] at opened
          repeat' split at opened
          all_goals exact absurd opened (by simp only [reduceCtorEq, not_false_eq_true])
      simp only [pieces, opened] at h
      obtain ⟨more, rfl, rest⟩ := collect_char h
      refine ⟨c, more, bytes, _, rfl, ?_, rest⟩
      rw [ascii.2, encodeChar_one ascii.1]
      rfl
  | lead p =>
      rw [pieces_lead opened] at h
      obtain ⟨b₁, bytes, rfl, range⟩ := collect_pending h
      rcases opening_lead opened with ⟨low, high, rfl⟩ | ⟨low, high, l, u, rfl, hl, hu, first, last⟩ |
        ⟨low, high, l, u, rfl, hl, hu, first, last⟩
      · rw [pieces_last range (by simp)] at h
        obtain ⟨more, rfl, rest⟩ := collect_char h
        refine ⟨_, more, bytes, _, rfl, ?_, rest⟩
        rw [encodeChar_two ⟨low, high⟩ range rfl]
        rfl
      · rw [pieces_more range (by simp)] at h
        obtain ⟨b₂, bytes, rfl, range₂⟩ := collect_pending h
        rw [pieces_last range₂ (by simp)] at h
        obtain ⟨more, rfl, rest⟩ := collect_char h
        refine ⟨_, more, bytes, _, rfl, ?_, rest⟩
        simp only at range
        rw [encodeChar_three ⟨low, high⟩ (by omega) range₂ (by omega) (by omega) rfl]
        rfl
      · rw [pieces_more range (by simp)] at h
        obtain ⟨b₂, bytes, rfl, range₂⟩ := collect_pending h
        rw [pieces_more range₂ (by simp)] at h
        obtain ⟨b₃, bytes, rfl, range₃⟩ := collect_pending h
        rw [pieces_last range₃ (by simp)] at h
        obtain ⟨more, rfl, rest⟩ := collect_char h
        refine ⟨_, more, bytes, _, rfl, ?_, rest⟩
        simp only at range
        rw [encodeChar_four ⟨low, high⟩ (by omega) range₂ range₃ (by omega) (by omega) rfl]
        rfl

private theorem encode_of_collect {offset : Nat} {bytes : List UInt8} {text : List Char}
    (h : collect (pieces offset none bytes) = .ok text) : encode text = bytes := by
  induction text generalizing offset bytes with
  | nil =>
      cases bytes with
      | nil => rfl
      | cons b bytes =>
          obtain ⟨c, more, rest, offset', absurd, -⟩ := collect_cons h
          cases absurd
  | cons c text ih =>
      cases bytes with
      | nil => cases h
      | cons b bytes =>
          obtain ⟨c', more, rest, offset', same, front, h⟩ := collect_cons h
          cases same
          rw [encode_cons, front, ih h]

theorem encode_of_decode {bytes : List UInt8} {text : List Char} (h : decode bytes = .ok text) :
    encode text = bytes :=
  encode_of_collect h

@[simp] theorem byteLength_append (a b : List Char) :
    byteLength (a ++ b) = byteLength a + byteLength b := by
  induction a with
  | nil => simp [byteLength]
  | cons c a ih => simp [byteLength, ih, Nat.add_assoc]

private theorem length_encodeChar (c : Char) : (encodeChar c).length = charWidth c := by
  rw [encodeChar, charWidth]
  split
  · rfl
  split
  · rfl
  split <;> rfl

@[simp] theorem length_encode (text : List Char) : (encode text).length = byteLength text := by
  induction text with
  | nil => rfl
  | cons c text ih => rw [encode_cons, List.length_append, ih, length_encodeChar, byteLength]

theorem charWidth_pos (c : Char) : 0 < charWidth c := by
  rw [charWidth]
  split
  · decide
  split
  · decide
  split <;> decide

theorem CodePoint.toChar?_eq_some {p : CodePoint} {c : Char} (h : p.toChar? = some c) :
    p = .ofChar c := by
  rw [toChar?] at h
  split at h
  · cases h
  · rename_i scalar
    cases h
    have valid : p.val.isValidChar := by
      have := p.isLt
      simp only [IsSurrogate, Nat.isValidChar] at scalar ⊢
      omega
    apply Fin.ext
    change p.val = (Char.ofNat p.val).toNat
    rw [Char.ofNat, dif_pos valid]
    rfl

@[simp] theorem CodePoint.ofChar_inj {c d : Char} : CodePoint.ofChar c = .ofChar d ↔ c = d := by
  constructor
  · intro same
    have chars := congrArg toChar? same
    rw [toChar?_ofChar, toChar?_ofChar] at chars
    exact Option.some.inj chars
  · rintro rfl
    rfl

theorem ofChars_injective {a b : List Char} (h : ofChars a = ofChars b) : a = b := by
  have chars := congrArg toChars? h
  rw [toChars?_ofChars, toChars?_ofChars] at chars
  exact Option.some.inj chars

theorem ofChars_append (front back : List Char) :
    ofChars (front ++ back) = ofChars front ++ ofChars back :=
  List.map_append

theorem toChars?_eq_some {points : List CodePoint} {text : List Char} :
    toChars? points = some text ↔ points = ofChars text := by
  constructor
  · intro h
    induction points generalizing text with
    | nil =>
        cases h
        rfl
    | cons p points ih =>
        simp only [toChars?, List.mapM_cons, Option.bind_eq_bind, Option.bind_eq_some_iff] at h
        obtain ⟨c, hc, rest, hrest, h⟩ := h
        cases h
        rw [ofChars, List.map_cons, CodePoint.toChar?_eq_some hc, ih hrest]
        rfl
  · rintro rfl
    exact toChars?_ofChars text

theorem toChars?_eq_none {points : List CodePoint} :
    toChars? points = none ↔ ∃ p ∈ points, p.IsSurrogate := by
  induction points with
  | nil => simp [toChars?]
  | cons p points ih =>
      simp only [List.mem_cons, exists_eq_or_imp, ← ih]
      by_cases surrogate : p.IsSurrogate
      · simp [toChars?, CodePoint.toChar?, surrogate]
      · cases h : points.mapM CodePoint.toChar? <;>
          simp [toChars?, CodePoint.toChar?, surrogate, h]

theorem not_surrogate_ofChars (text : List Char) : ¬ ∃ p ∈ ofChars text, p.IsSurrogate := by
  rw [← toChars?_eq_none, toChars?_ofChars]
  simp

theorem mem_ofChars {c : Char} {text : List Char} : .ofChar c ∈ ofChars text ↔ c ∈ text := by
  constructor
  · intro h
    obtain ⟨d, hd, same⟩ := List.mem_map.mp h
    have toChar := congrArg CodePoint.toChar? same
    rw [CodePoint.toChar?_ofChar, CodePoint.toChar?_ofChar] at toChar
    cases toChar
    exact hd
  · exact List.mem_map_of_mem

/-- An offset between two characters of a text, with the row there. -/
def IsPlace (text : List Char) (offset row : Nat) : Prop :=
  ∃ before after, text = before ++ after ∧ byteLength before = offset ∧ before.count '\n' = row

/-- An offset between two characters of a text. -/
def IsCut (text : List Char) (offset : Nat) : Prop :=
  ∃ before after, text = before ++ after ∧ byteLength before = offset

theorem IsPlace.isCut {text : List Char} {offset row : Nat} (h : IsPlace text offset row) :
    IsCut text offset := by
  obtain ⟨before, after, split, length, _⟩ := h
  exact ⟨before, after, split, length⟩

theorem IsCut.zero (text : List Char) : IsCut text 0 :=
  ⟨[], text, rfl, rfl⟩

theorem IsCut.length (text : List Char) : IsCut text (encode text).length :=
  ⟨text, [], by simp, by simp⟩

theorem IsCut.le_length {text : List Char} {offset : Nat} (h : IsCut text offset) :
    offset ≤ (encode text).length := by
  obtain ⟨before, after, rfl, rfl⟩ := h
  simp

/-- What begins a text twice, up to a shorter and a longer length, begins it with the shorter part
in the longer one. -/
private theorem append_split {a b c d : List Char} (h : a ++ b = c ++ d)
    (le : byteLength a ≤ byteLength c) : ∃ m, c = a ++ m ∧ b = m ++ d := by
  rcases List.append_eq_append_iff.mp h with ⟨m, rfl, rfl⟩ | ⟨m, rfl, rfl⟩
  · exact ⟨m, rfl, rfl⟩
  · cases m with
    | nil => exact ⟨[], by simp, by simp⟩
    | cons x m =>
        have := charWidth_pos x
        simp only [byteLength_append, byteLength] at le
        omega

theorem append_inj_byteLength {a b c d : List Char} (h : a ++ b = c ++ d)
    (same : byteLength a = byteLength c) : a = c ∧ b = d := by
  obtain ⟨m, rfl, rfl⟩ := append_split h (Nat.le_of_eq same)
  cases m with
  | nil => exact ⟨(List.append_nil a).symm, rfl⟩
  | cons x m =>
      have := charWidth_pos x
      simp only [byteLength_append, byteLength] at same
      omega

/-- What a text holds between two offsets. -/
def IsSlice (text : List Char) (start stop : Nat) (inside : List Char) : Prop :=
  ∃ before after, text = before ++ inside ++ after ∧ byteLength before = start ∧
    start + byteLength inside = stop

theorem IsCut.slice {text : List Char} {start stop : Nat} (hs : IsCut text start)
    (ht : IsCut text stop) (le : start ≤ stop) : ∃ inside, IsSlice text start stop inside := by
  obtain ⟨a, b, rfl, rfl⟩ := hs
  obtain ⟨c, d, h, rfl⟩ := ht
  obtain ⟨m, rfl, rfl⟩ := append_split h le
  exact ⟨m, a, d, by simp, rfl, (byteLength_append a m).symm⟩

theorem IsSlice.inner {text inside : List Char} {start stop : Nat} {a b : Char}
    (h : IsSlice text start stop (a :: (inside ++ [b]))) (ha : charWidth a = 1)
    (hb : charWidth b = 1) : ∃ last, stop = last + 1 ∧ IsSlice text (start + 1) last inside := by
  obtain ⟨before, after, split, length, width⟩ := h
  simp only [byteLength, byteLength_append, ha, hb] at width
  refine ⟨start + 1 + byteLength inside, by omega, before ++ [a], b :: after, ?_, ?_, rfl⟩
  · simp [split]
  · rw [byteLength_append, length, byteLength, byteLength, ha]

theorem IsSlice.encode {text inside : List Char} {start stop : Nat}
    (h : IsSlice text start stop inside) :
    ((Text.encode text).drop start).take (stop - start) = Text.encode inside := by
  obtain ⟨before, after, rfl, rfl, rfl⟩ := h
  rw [Nat.add_sub_cancel_left, encode_append, encode_append, List.append_assoc,
    List.drop_left' (length_encode before), List.take_left' (length_encode inside)]

end Restyle.Text
