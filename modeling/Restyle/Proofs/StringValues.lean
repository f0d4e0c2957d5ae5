import Mathlib.Algebra.Group.Nat.Defs
import Restyle.Proofs.StringGrammar
import Restyle.Proofs.Utf16

/-!
# Values of string literals

What a string literal stands for in the language is a sequence of code units, part by part. The value
that is decoded is this one, read as text, unless the literal has an octal escape other than `\0` or
the halves of a surrogate pair: such an escape is taken for its first digit, and the halves are not
joined.
-/

namespace Restyle.Value

open Syntax Text

namespace StringPart

/-- The character that a single character after a backslash stands for. -/
def single : Char → Char
  | 'b' => '\x08'
  | 't' => '\t'
  | 'n' => '\n'
  | 'v' => '\x0b'
  | 'f' => '\x0c'
  | 'r' => '\r'
  | c => c

/-- The code units that a part stands for. -/
def value : StringPart → List UInt16
  | char c => utf16 c.toNat
  | continuation _ => []
  | escape c => utf16 (single c).toNat
  | octal digits => [(octalNumber digits).toUInt16]
  | hex digits => [(hexNumber digits).toUInt16]
  | unicode digits => [(hexNumber digits).toUInt16]
  | braced digits => utf16 (hexNumber digits)

end StringPart

variable {c q : Char} {rest next digits inside left : List Char} {part : StringPart}
  {parts : List StringPart}

theorem hexValue_lt (h : isHexDigit c) : hexValue c < 16 := by
  simp only [isHexDigit, isDigit, Bool.or_eq_true, Bool.and_eq_true, decide_eq_true_eq] at h
  have range : ((48 ≤ c.toNat ∧ c.toNat ≤ 57) ∨ (97 ≤ c.toNat ∧ c.toNat ≤ 102)) ∨
      (65 ≤ c.toNat ∧ c.toNat ≤ 70) := h
  rw [hexValue]
  split
  · rename_i digit
    simp only [isDigit, Bool.and_eq_true, decide_eq_true_eq] at digit
    have digit : 48 ≤ c.toNat ∧ c.toNat ≤ 57 := digit
    omega
  · rename_i noDigit
    simp only [isDigit, Bool.and_eq_true, decide_eq_true_eq] at noDigit
    have noDigit : ¬ (48 ≤ c.toNat ∧ c.toNat ≤ 57) := noDigit
    split
    · omega
    · rename_i upper
      have upper : ¬ 97 ≤ c.toNat := upper
      omega

theorem hexNumber_lt (hex : digits.all isHexDigit) : hexNumber digits < 16 ^ digits.length := by
  induction digits using List.reverseRecOn with
  | nil => decide
  | append_singleton digits c ih =>
      rw [List.all_append, Bool.and_eq_true] at hex
      have front := ih hex.1
      have last : hexValue c < 16 := hexValue_lt (by simpa using hex.2)
      rw [hexNumber, List.foldl_append, ← hexNumber, List.length_append, Nat.pow_add]
      simp only [List.foldl_cons, List.foldl_nil, List.length_singleton, Nat.pow_one]
      omega

/-- What a part is decoded to, and the code points that it stands for: the same, except for most octal
escapes, where there are no more of these. -/
structure Parted (next : List Char) (part : StringPart) (given own : List CodePoint) : Prop where
  decoded : decodeFrom 0 (part.written ++ next) = (do return given ++ (← decodeFrom 0 next))
  value : part.value = units own
  short : own.length ≤ given.length
  same : own = given ↔ ∀ digits, part = .octal digits → digits = ['0']

theorem Parted.of_same {points : List CodePoint}
    (decoded : decodeFrom 0 (part.written ++ next) = (do return points ++ (← decodeFrom 0 next)))
    (value : part.value = units points) (other : ∀ digits, part ≠ .octal digits) :
    Parted next part points points :=
  ⟨decoded, value, Nat.le_refl _, iff_of_true rfl fun digits same => absurd same (other digits)⟩

theorem Parted.number {front : List Char} {n : Nat} (written : part.written = '\\' :: front)
    (number : numericEscape? (front ++ next) = some (n, front.length)) (small : n < 0x110000)
    (value : part.value = utf16 n) (other : ∀ digits, part ≠ .octal digits) :
    Parted next part [⟨n, small⟩] [⟨n, small⟩] := by
  refine .of_same ?_ (value.trans (List.append_nil _).symm) other
  rw [written]
  exact decodeFrom_number number small

theorem units_ofChar (c : Char) : units [.ofChar c] = utf16 c.toNat :=
  List.append_nil _

theorem units_small {n : Nat} (small : n < 0x10000) (bound : n < 0x110000) :
    units [⟨n, bound⟩] = [n.toUInt16] := by
  rw [units_cons, utf16_small small]
  rfl

theorem numericEscape?_none (hx : c ≠ 'x') (hu : c ≠ 'u') : numericEscape? (c :: rest) = none := by
  unfold numericEscape?
  split
  · rename_i same
    exact absurd (List.cons.inj same).1 hx
  · rename_i same
    exact absurd (List.cons.inj same).1 hu
  · rename_i same
    exact absurd (List.cons.inj same).1 hu
  · rfl

theorem decodeFrom_single (hx : c ≠ 'x') (hu : c ≠ 'u') (pair : c = '\r' → rest.head? ≠ some '\n') :
    decodeFrom 0 ('\\' :: c :: rest) =
      (do return (if isLineEnd c then [] else [.ofChar (escaped c)]) ++ (← decodeFrom 0 rest)) := by
  have found : escape? ([c] ++ rest) =
      some (.ok (if isLineEnd c then [] else [.ofChar (escaped c)]), [c].length) := by
    simp only [List.singleton_append, escape?, numericEscape?_none hx hu]
    split
    · rename_i nil
      cases nil
    · rename_i same
      obtain ⟨rfl, rfl⟩ := List.cons.inj same
      exact absurd rfl (pair rfl)
    · rename_i same
      obtain ⟨rfl, rfl⟩ := List.cons.inj same
      rfl
  exact decodeFrom_escape found

theorem lineBreak_decoded {lineBreak : List Char}
    (stands : (StringPart.continuation lineBreak).MayStand q next) :
    decodeFrom 0 ('\\' :: (lineBreak ++ next)) = (do return [] ++ (← decodeFrom 0 next)) := by
  rcases stands with broken | ⟨rfl, apart⟩
  · simp only [List.mem_cons, List.not_mem_nil, or_false] at broken
    rcases broken with rfl | rfl | rfl | rfl
    · exact decodeFrom_single (by decide) (by decide) nofun
    · have found : escape? (['\r', '\n'] ++ next) = some (.ok [], ['\r', '\n'].length) := rfl
      exact decodeFrom_escape found
    · exact decodeFrom_single (by decide) (by decide) nofun
    · exact decodeFrom_single (by decide) (by decide) nofun
  · exact decodeFrom_single (by decide) (by decide) fun _ => apart

theorem isOctalDigit_range (h : isOctalDigit c) : 48 ≤ c.toNat ∧ c.toNat ≤ 55 := by
  simp only [isOctalDigit, Bool.and_eq_true, decide_eq_true_eq] at h
  exact h

theorem single_eq (notOctal : ¬ isOctalDigit c) : escaped c = StringPart.single c := by
  unfold escaped
  split
  case h_7 => exact absurd rfl notOctal
  case h_8 =>
    unfold StringPart.single
    split
    all_goals simp_all
  all_goals rfl

theorem escaped_octal (h : isOctalDigit c) (other : c ≠ '0') : escaped c = c := by
  unfold escaped
  split
  case h_7 => exact absurd rfl other
  case h_8 => rfl
  all_goals cases h

theorem octalDigits_small (h : OctalDigits next digits) :
    ∃ a more, digits = a :: more ∧ (∀ c ∈ digits, isOctalDigit c) ∧ octalNumber digits ≤ 255 := by
  unfold OctalDigits at h
  split at h
  · rename_i a
    have range := isOctalDigit_range h.1
    refine ⟨a, [], rfl, by simpa using h.1, ?_⟩
    simp only [octalNumber, List.foldl_cons, List.foldl_nil]
    omega
  · rename_i a b
    have first := isOctalDigit_range h.1
    have second := isOctalDigit_range h.2.1
    refine ⟨a, [b], rfl, by simpa using ⟨h.1, h.2.1⟩, ?_⟩
    simp only [octalNumber, List.foldl_cons, List.foldl_nil]
    omega
  · rename_i a b c
    have first := isOctalDigit_range h.1
    have second := isOctalDigit_range h.2.1
    have third := isOctalDigit_range h.2.2.1
    have small : a.toNat ≤ 51 := h.2.2.2
    refine ⟨a, [b, c], rfl, by simpa using ⟨h.1, h.2.1, h.2.2.1⟩, ?_⟩
    simp only [octalNumber, List.foldl_cons, List.foldl_nil]
    omega
  · cases h

theorem octal_decoded {a : Char} {more : List Char} (octal : ∀ c ∈ a :: more, isOctalDigit c) :
    decodeFrom 0 ('\\' :: a :: (more ++ next)) =
      (do return (.ofChar (escaped a) :: ofChars more) ++ (← decodeFrom 0 next)) := by
  have hex := isHexDigit_of_octal (octal a List.mem_cons_self)
  have other {d : Char} (h : isHexDigit d = false) : a ≠ d := ne_of_isHexDigit hex h
  have oneLine : ¬ isLineEnd a := by
    simp only [isLineEnd, Bool.or_eq_true, beq_iff_eq, not_or]
    exact ⟨⟨⟨other rfl, other rfl⟩, other rfl⟩, other rfl⟩
  have plain : '\\' ∉ more := by
    intro mem
    exact ne_of_isHexDigit (isHexDigit_of_octal (octal _ (List.mem_cons_of_mem a mem))) rfl rfl
  have carriage : a ≠ '\r' := other rfl
  rw [decodeFrom_single (other rfl) (other rfl) fun same => absurd same carriage, if_neg oneLine,
    decodeFrom_plains plain]
  cases decodeFrom 0 next with
  | error e => rfl
  | ok later => rfl

theorem octal_same {a : Char} {more : List Char} (digit : isOctalDigit a)
    (bound : octalNumber (a :: more) < 0x110000) :
    [⟨octalNumber (a :: more), bound⟩] = .ofChar (escaped a) :: ofChars more ↔
      a :: more = ['0'] := by
  constructor
  · intro same
    obtain ⟨head, tail⟩ := List.cons.inj same
    cases more with
    | cons b more => cases tail
    | nil =>
        by_contra nonzero
        have value := congrArg Fin.val head
        rw [escaped_octal digit fun zero => nonzero (congrArg (· :: []) zero)] at value
        simp only [octalNumber, List.foldl_cons, List.foldl_nil, CodePoint.ofChar] at value
        have range := isOctalDigit_range digit
        omega
  · rintro ⟨⟩
    rfl

theorem octal_parted (stands : OctalDigits next digits) :
    ∃ given own, Parted next (.octal digits) given own := by
  obtain ⟨a, more, rfl, octal, small⟩ := octalDigits_small stands
  have bound : octalNumber (a :: more) < 0x110000 := by omega
  refine ⟨_, [⟨octalNumber (a :: more), bound⟩], octal_decoded octal, ?_, ?_, ?_⟩
  · exact (units_small (by omega) bound).symm
  · exact Nat.succ_le_succ (Nat.zero_le _)
  · rw [octal_same (octal a List.mem_cons_self) bound]
    exact ⟨fun zero digits part => StringPart.octal.inj part ▸ zero, fun only => only _ rfl⟩

theorem exists_parted (stands : part.MayStand q next) : ∃ given own, Parted next part given own := by
  cases part with
  | char c =>
      have decoded : decodeFrom 0 (c :: next) = (do return [.ofChar c] ++ (← decodeFrom 0 next)) :=
        decodeFrom_plain stands.2.1
      exact ⟨_, _, .of_same decoded (units_ofChar c).symm nofun⟩
  | continuation lineBreak =>
      exact ⟨[], [], .of_same (lineBreak_decoded stands) rfl nofun⟩
  | escape c =>
      obtain ⟨oneLine, notOctal, hx, hu⟩ := stands
      have pair : c = '\r' → next.head? ≠ some '\n' := by
        rintro rfl
        exact absurd rfl oneLine
      have decoded := decodeFrom_single hx hu pair
      rw [if_neg oneLine, single_eq notOctal] at decoded
      exact ⟨_, _, .of_same decoded (units_ofChar _).symm nofun⟩
  | octal digits => exact octal_parted stands
  | hex digits =>
      obtain ⟨two, hex⟩ := stands
      have small := hexNumber_lt hex
      rw [two] at small
      have value := (utf16_small (Nat.lt_trans small (by decide))).symm
      exact ⟨_, _, .number rfl (numericEscape?_hex hex two) (by omega) value nofun⟩
  | unicode digits =>
      obtain ⟨four, hex⟩ := stands
      have small := hexNumber_lt hex
      rw [four] at small
      exact ⟨_, _, .number rfl (numericEscape?_unicode hex four) (by omega) (utf16_small small).symm
        nofun⟩
  | braced digits =>
      obtain ⟨some, hex, bound⟩ := stands
      exact ⟨_, _, .number rfl (numericEscape?_braced hex some) bound rfl nofun⟩

theorem Spelled.decoded (h : Spelled q parts inside) :
    ∃ given own, decodeFrom 0 inside = .ok given ∧ parts.flatMap StringPart.value = units own ∧
      own.length ≤ given.length ∧
      (own = given ↔ ∀ digits, .octal digits ∈ parts → digits = ['0']) := by
  induction h with
  | nil => exact ⟨[], [], rfl, rfl, Nat.le_refl 0, by simp⟩
  | cons stands rest ih =>
      obtain ⟨later, ownLater, decoded, value, short, same⟩ := ih
      obtain ⟨here, ownHere, first⟩ := exists_parted stands
      refine ⟨here ++ later, ownHere ++ ownLater, ?_, ?_, ?_, ?_⟩
      · rw [first.decoded, decoded]
        rfl
      · rw [List.flatMap_cons, first.value, value]
        exact List.flatMap_append.symm
      · simpa using Nat.add_le_add first.short short
      · have parts : ownHere ++ ownLater = here ++ later ↔ ownHere = here ∧ ownLater = later := by
          constructor
          · intro same
            have lengths := congrArg List.length same
            rw [List.length_append, List.length_append] at lengths
            have shorter := first.short
            exact List.append_inj same (by omega)
          · rintro ⟨rfl, rfl⟩
            rfl
        rw [parts, first.same, same]
        simp only [List.mem_cons, or_imp, forall_and, eq_comm]

/-- What a literal is decoded to is its value, read as text, if and only if it has no octal escape
other than `\0` and no two surrogates that make up one code point. Every literal that is taken is one
of the language, if its line breaks and numbers are as they should be. -/
theorem decode_spelled {text literal left : List Char}
    (taken : takeString text = some (literal, left)) :
    (Regular (literal.drop 1).dropLast → ∃ parts, StringLiteral parts literal) ∧
    ∀ parts, StringLiteral parts literal → ∃ points, decode literal = .ok points ∧
      (points = codePoints (parts.flatMap StringPart.value) ↔
        (∀ digits, .octal digits ∈ parts → digits = ['0']) ∧ Unpaired points) := by
  refine ⟨takeString_spelled taken, ?_⟩
  rintro parts ⟨q, inside, hq, spelled, rfl⟩
  obtain ⟨given, own, decoded, value, short, same⟩ := spelled.decoded
  refine ⟨given, by rw [decode, inner_quoted, decoded], ?_⟩
  rw [value, ← same]
  constructor
  · intro read
    obtain ⟨most, fewer⟩ := length_codePoints own
    rw [← read] at most fewer
    have unpaired : Unpaired own := by
      by_contra paired
      exact absurd (fewer paired) (Nat.not_lt.mpr short)
    rw [codePoints_units unpaired] at read
    rw [read]
    exact ⟨rfl, unpaired⟩
  · rintro ⟨rfl, unpaired⟩
    exact (codePoints_units unpaired).symm

/-- A pair of surrogates stands for one character, and is decoded to its two halves. -/
theorem decode_spelled_pair :
    ∃ parts, StringLiteral parts "'\\uD83D\\uDE00'".toList ∧
      codePoints (parts.flatMap StringPart.value) = [0x1F600] ∧
      decode "'\\uD83D\\uDE00'".toList = .ok [0xD83D, 0xDE00] ∧
      ¬ Unpaired [0xD83D, 0xDE00] := by
  have taken : takeString "'\\uD83D\\uDE00'".toList = some ("'\\uD83D\\uDE00'".toList, []) := by
    decide
  have literal : StringLiteral [.unicode "D83D".toList, .unicode "DE00".toList]
      "'\\uD83D\\uDE00'".toList :=
    ⟨'\'', _, rfl, .cons ⟨rfl, rfl⟩ (.cons ⟨rfl, rfl⟩ .nil), rfl⟩
  have halves : decode "'\\uD83D\\uDE00'".toList = .ok [0xD83D, 0xDE00] := rfl
  have value : codePoints
      ([.unicode "D83D".toList, .unicode "DE00".toList].flatMap StringPart.value) = [0x1F600] := by
    decide
  obtain ⟨points, decoded, wanted⟩ := (decode_spelled taken).2 _ literal
  rw [halves] at decoded
  cases decoded
  refine ⟨_, literal, value, halves, fun unpaired => ?_⟩
  have joined := wanted.mpr ⟨by simp, unpaired⟩
  rw [value] at joined
  cases joined

end Restyle.Value
