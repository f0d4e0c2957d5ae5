import Restyle.Proofs.Utf8
import Restyle.Syntax.Comments
import Restyle.Value.Literal

/-!
# Escapes of string literals

Which numbers the escapes of a literal write, and what becomes of them: a number past the last code
point has no value, and one of a surrogate has a value that is no text.
-/

namespace Restyle.Value

open Syntax Text

/-- Whether a text ends in an odd number of backslashes, so that what follows it is escaped. -/
def endsEscaping (text : List Char) : Bool :=
  text.foldl (fun odd c => c == '\\' && !odd) false

/-- A number that an escape in the inside of a literal writes. -/
def EscapeNumber (inside : List Char) (n : Nat) : Prop :=
  ∃ before after length, inside = before ++ '\\' :: after ∧ endsEscaping before = false ∧
    numericEscape? after = some (n, length)

/-- The number of a code point that text has no place for. -/
def IsSurrogateNumber (n : Nat) : Prop :=
  0xD800 ≤ n ∧ n ≤ 0xDFFF

theorem endsEscaping_replicate {front : List Char} (h : front.getLast? ≠ some '\\') (count : Nat) :
    endsEscaping (front ++ List.replicate count '\\') = decide (count % 2 = 1) := by
  induction count with
  | zero =>
      rw [List.replicate_zero, List.append_nil, endsEscaping]
      rcases List.eq_nil_or_concat front with rfl | ⟨init, c, rfl⟩
      · rfl
      · have plain : c ≠ '\\' := by simpa using h
        simp [plain]
  | succ count ih =>
      rw [List.replicate_succ', ← List.append_assoc, endsEscaping, List.foldl_append, ← endsEscaping,
        ih]
      rcases Nat.mod_two_eq_zero_or_one count with even | odd
      · simp [even, Nat.add_mod]
      · simp [odd, Nat.add_mod]

variable {text rest : List Char} {c : Char} {n m length : Nat}

theorem not_escapeNumber_nil : ¬ EscapeNumber [] n := by
  rintro ⟨before, after, length, split, -⟩
  cases before <;> cases split

theorem escapeNumber_cons (plain : c ≠ '\\') : EscapeNumber (c :: rest) n ↔ EscapeNumber rest n := by
  have skip (before : List Char) : endsEscaping (c :: before) = endsEscaping before := by
    rw [endsEscaping, List.foldl_cons, beq_false_of_ne plain]
    rfl
  constructor
  · rintro ⟨before, after, length, split, even, number⟩
    cases before with
    | nil => exact absurd (List.cons.inj split).1 plain
    | cons b before =>
        obtain ⟨rfl, rfl⟩ := List.cons.inj split
        exact ⟨before, after, length, rfl, (skip before).symm.trans even, number⟩
  · rintro ⟨before, after, length, rfl, even, number⟩
    exact ⟨c :: before, after, length, rfl, (skip before).trans even, number⟩

theorem escapeNumber_append {front : List Char} (plain : '\\' ∉ front) :
    EscapeNumber (front ++ rest) n ↔ EscapeNumber rest n := by
  induction front with
  | nil => rfl
  | cons c front ih =>
      rw [List.mem_cons, not_or] at plain
      rw [List.cons_append, escapeNumber_cons fun same => plain.1 same.symm, ih plain.2]

theorem escapeNumber_backslash : EscapeNumber ('\\' :: c :: rest) n ↔
    (∃ length, numericEscape? (c :: rest) = some (n, length)) ∨ EscapeNumber rest n := by
  have pair (before : List Char) :
      endsEscaping ('\\' :: c :: before) = endsEscaping before := by
    simp [endsEscaping]
  constructor
  · rintro ⟨before, after, length, split, even, number⟩
    cases before with
    | nil =>
        obtain ⟨-, rfl⟩ := List.cons.inj split
        exact .inl ⟨length, number⟩
    | cons b before =>
        cases before with
        | nil =>
            cases split
            cases even
        | cons b before =>
            cases split
            exact .inr ⟨before, after, length, rfl, (pair before).symm.trans even, number⟩
  · rintro (⟨length, number⟩ | ⟨before, after, length, rfl, even, number⟩)
    · exact ⟨[], c :: rest, length, rfl, rfl, number⟩
    · exact ⟨'\\' :: c :: before, after, length, rfl, (pair before).trans even, number⟩

theorem not_escapeNumber_last : ¬ EscapeNumber ['\\'] n := by
  rintro ⟨before, after, length, split, even, number⟩
  cases before with
  | nil =>
      obtain ⟨-, rfl⟩ := List.cons.inj split
      cases number
  | cons b before => cases before <;> cases split

theorem ne_of_isHexDigit {d : Char} (h : isHexDigit c) (other : isHexDigit d = false) : c ≠ d := by
  rintro rfl
  rw [h] at other
  cases other

private theorem not_mem_of_all {digits : List Char} (h : ∀ c ∈ digits, isHexDigit c) :
    '\\' ∉ digits :=
  fun mem => ne_of_isHexDigit (h _ mem) rfl rfl

private theorem fixedHex?_eq_some {count : Nat} (h : fixedHex? count text = some n) :
    '\\' ∉ text.take count := by
  rw [fixedHex?] at h
  split at h
  · rename_i digits
    exact not_mem_of_all (List.all_eq_true.mp digits.2)
  · cases h

private theorem bracedHex?_eq_some (h : bracedHex? text = some (n, length)) :
    '\\' ∉ text.take (length + 1) := by
  simp only [bracedHex?] at h
  split at h
  · rename_i digit digits rest taken left
    cases h
    have whole : text = text.takeWhile isHexDigit ++ '}' :: rest := by
      rw [← left, List.takeWhile_append_dropWhile]
    have plain : '\\' ∉ text.takeWhile isHexDigit :=
      not_mem_of_all (List.all_eq_true.mp List.all_takeWhile)
    generalize text.takeWhile isHexDigit = front at whole plain
    rw [whole, List.take_length_add_append]
    simpa using plain
  · cases h

theorem numericEscape?_eq_some (h : numericEscape? text = some (n, length)) :
    length ≠ 0 ∧ '\\' ∉ text.take length := by
  unfold numericEscape? at h
  split at h
  · obtain ⟨m, read, same⟩ := Option.map_eq_some_iff.mp h
    cases same
    exact ⟨by decide, by simpa using fixedHex?_eq_some read⟩
  · obtain ⟨⟨m, digits⟩, read, same⟩ := Option.map_eq_some_iff.mp h
    cases same
    exact ⟨by simp, by simpa using bracedHex?_eq_some read⟩
  · obtain ⟨m, read, same⟩ := Option.map_eq_some_iff.mp h
    cases same
    exact ⟨by decide, by simpa using fixedHex?_eq_some read⟩
  · cases h

/-- After an escape that is no number, it goes on with what the escape does not take. -/
theorem escapeNumber_drop {value : Except Failure (List CodePoint)}
    (h : escape? rest = some (value, length)) : EscapeNumber ('\\' :: rest) n ↔
      (∃ length, numericEscape? rest = some (n, length)) ∨ EscapeNumber (rest.drop length) n := by
  cases rest with
  | nil => cases h
  | cons c rest =>
      rw [escapeNumber_backslash]
      refine or_congr_right ?_
      unfold escape? at h
      split at h
      · rename_i m taken number
        cases h
        obtain ⟨positive, plain⟩ := numericEscape?_eq_some number
        obtain ⟨taken, rfl⟩ := Nat.exists_eq_succ_of_ne_zero positive
        rw [List.take_succ_cons, List.mem_cons, not_or] at plain
        have skip : EscapeNumber (rest.take taken ++ rest.drop taken) n ↔ _ :=
          escapeNumber_append plain.2
        rwa [List.take_append_drop] at skip
      · split at h
        · rename_i nil
          cases nil
        · rename_i after split
          cases h
          cases split
          exact escapeNumber_cons (by decide)
        · cases h
          rename_i c after _ split
          cases split
          rfl

section Written

variable {digits : List Char} (hex : digits.all isHexDigit)
include hex

private theorem fixedHex?_append :
    fixedHex? digits.length (digits ++ rest) = some (hexNumber digits) := by
  rw [fixedHex?, List.take_left]
  exact if_pos ⟨rfl, hex⟩

private theorem bracedHex?_append (some : digits ≠ []) :
    bracedHex? (digits ++ '\x7d' :: rest) = .some (hexNumber digits, digits.length) := by
  have hex := List.all_eq_true.mp hex
  have brace : ∀ c ∈ ('\x7d' :: rest).head?, isHexDigit c = false := by
    rintro c ⟨⟩
    rfl
  simp only [bracedHex?, takeWhile_upTo hex brace, dropWhile_upTo hex brace]
  cases digits with
  | nil => exact absurd rfl some
  | cons digit digits => rfl

theorem numericEscape?_hex (two : digits.length = 2) : numericEscape? ('x' :: digits ++ rest) =
    some (hexNumber digits, ('x' :: digits).length) := by
  have fixed : fixedHex? 2 (digits ++ rest) = some (hexNumber digits) := by
    rw [← two, fixedHex?_append hex]
  simp only [List.cons_append, numericEscape?, fixed, List.length_cons, two, Option.map_some]

theorem numericEscape?_unicode (four : digits.length = 4) :
    numericEscape? ('u' :: digits ++ rest) = some (hexNumber digits, ('u' :: digits).length) := by
  have fixed : fixedHex? 4 (digits ++ rest) = some (hexNumber digits) := by
    rw [← four, fixedHex?_append hex]
  have notBraced : ∀ more, digits ++ rest ≠ '\x7b' :: more := by
    intro more same
    cases digits with
    | nil => cases four
    | cons a digits =>
        rw [(List.cons.inj same).1] at hex
        cases hex
  rw [List.cons_append, numericEscape?, fixed, List.length_cons, four, Option.map_some]
  exact notBraced

theorem numericEscape?_braced (some : digits ≠ []) :
    numericEscape? ('u' :: '\x7b' :: (digits ++ ['\x7d']) ++ rest) =
      .some (hexNumber digits, ('u' :: '\x7b' :: (digits ++ ['\x7d'])).length) := by
  simp [numericEscape?, bracedHex?_append hex some]

end Written

theorem decodeFrom_skip (front more : List Char) :
    decodeFrom front.length (front ++ more) = decodeFrom 0 more := by
  induction front with
  | nil => rfl
  | cons a front ih => exact ih

theorem decodeFrom_plain (plain : c ≠ '\\') :
    decodeFrom 0 (c :: rest) = (do return .ofChar c :: (← decodeFrom 0 rest)) := by
  rw [decodeFrom]
  simp only [if_neg plain]

theorem decodeFrom_plains {front : List Char} (plain : '\\' ∉ front) :
    decodeFrom 0 (front ++ rest) = (do return ofChars front ++ (← decodeFrom 0 rest)) := by
  induction front with
  | nil =>
      rw [List.nil_append]
      cases decodeFrom 0 rest <;> rfl
  | cons c front ih =>
      rw [List.mem_cons, not_or] at plain
      rw [List.cons_append, decodeFrom_plain (Ne.symm plain.1), ih plain.2]
      cases decodeFrom 0 rest <;> rfl

/-- What an escape stands for comes before the value of what it does not take. -/
theorem decodeFrom_escape {front : List Char} {value : Except Failure (List CodePoint)}
    (h : escape? (front ++ rest) = some (value, front.length)) :
    decodeFrom 0 ('\\' :: (front ++ rest)) = (do return (← value) ++ (← decodeFrom 0 rest)) := by
  rw [decodeFrom]
  simp only [if_pos, h]
  rw [decodeFrom_skip]

theorem decodeFrom_number {front : List Char}
    (number : numericEscape? (front ++ rest) = some (n, front.length)) (small : n < 0x110000) :
    decodeFrom 0 ('\\' :: (front ++ rest)) = (do return [⟨n, small⟩] ++ (← decodeFrom 0 rest)) := by
  have found : escape? (front ++ rest) = some (.ok [⟨n, small⟩], front.length) := by
    simp only [escape?, number, dif_pos small]
  exact decodeFrom_escape found

/-- What becomes of numbers: they are code points, or one of them is too large. -/
inductive Decoded (numbers : Nat → Prop) : Except Failure (List CodePoint) → Prop
  | value {points : List CodePoint} : (∀ n, numbers n → n < 0x110000) →
      ((∃ p ∈ points, p.IsSurrogate) ↔ ∃ n, numbers n ∧ IsSurrogateNumber n) →
      Decoded numbers (.ok points)
  | failed {e : Failure} {n : Nat} : numbers n → 0x110000 ≤ n →
      e = .noSuchCodePoint ∨ e = .numberTooLarge → Decoded numbers (.error e)

namespace Decoded

variable {these those : Nat → Prop} {here later : Except Failure (List CodePoint)}

theorem congr (same : ∀ n, these n ↔ those n) (h : Decoded these here) : Decoded those here := by
  have same : these = those := funext fun n => propext (same n)
  rwa [← same]

theorem chars (written : List Char) : Decoded (fun _ => False) (.ok (ofChars written)) := by
  refine .value (by simp) ?_
  rw [← toChars?_eq_none, toChars?_ofChars]
  simp

theorem append (h : Decoded these here) (k : Decoded those later) :
    Decoded (fun n => these n ∨ those n) (do return (← here) ++ (← later)) := by
  cases h with
  | failed number large cause => exact .failed (.inl number) large cause
  | value small surrogates =>
      cases k with
      | failed number large cause => exact .failed (.inr number) large cause
      | value small' surrogates' =>
          refine .value (fun n number => number.elim (small n) (small' n)) ?_
          simp only [List.mem_append, or_and_right, exists_or, surrogates, surrogates']

end Decoded

private theorem decoded_escape {value : Except Failure (List CodePoint)}
    (h : escape? text = some (value, length)) :
    Decoded (fun n => ∃ length, numericEscape? text = some (n, length)) value := by
  unfold escape? at h
  split at h
  · rename_i m taken number
    cases h
    have only (n : Nat) : (∃ length, numericEscape? text = some (n, length)) ↔ n = m := by
      rw [number]
      simp [eq_comm]
    refine Decoded.congr (fun n => (only n).symm) ?_
    split
    · rename_i small
      refine .value (fun n same => same ▸ small) ?_
      simp [CodePoint.IsSurrogate, IsSurrogateNumber]
    · rename_i large
      split
      · exact .failed rfl (Nat.le_of_not_lt large) (.inl rfl)
      · exact .failed rfl (Nat.le_of_not_lt large) (.inr rfl)
  · rename_i none
    have nothing (n : Nat) : False ↔ ∃ length, numericEscape? text = some (n, length) := by
      simp [none]
    refine Decoded.congr nothing ?_
    split at h
    · cases h
    · cases h
      exact .chars []
    · rename_i c _ _
      cases h
      split
      · exact .chars []
      · exact .chars [escaped c]

private theorem escape?_eq_none (h : escape? text = none) : text = [] := by
  unfold escape? at h
  split at h
  · cases h
  · split at h
    · rfl
    · cases h
    · cases h

theorem decodeFrom_spec (skip : Nat) (text : List Char) :
    Decoded (EscapeNumber (text.drop skip)) (decodeFrom skip text) := by
  induction text generalizing skip with
  | nil =>
      rw [List.drop_nil]
      refine Decoded.congr (fun n => ?_) (?_ : Decoded (fun _ => False) _)
      · simp [not_escapeNumber_nil]
      · cases skip
        all_goals exact .chars []
  | cons c rest ih =>
      cases skip with
      | succ skip => exact ih skip
      | zero =>
          rw [List.drop_zero]
          by_cases backslash : c = '\\'
          · subst backslash
            cases found : escape? rest with
            | none =>
                cases escape?_eq_none found
                refine Decoded.congr (fun n => ?_) (Decoded.chars ['\\'])
                simp [not_escapeNumber_last]
            | some escape =>
                obtain ⟨value, length⟩ := escape
                have step : decodeFrom 0 ('\\' :: rest) =
                    (do return (← value) ++ (← decodeFrom length rest)) := by
                  rw [decodeFrom]
                  simp only [if_pos, found]
                rw [step]
                refine Decoded.congr (fun n => ?_) ((decoded_escape found).append (ih length))
                exact (escapeNumber_drop found).symm
          · have step : decodeFrom 0 (c :: rest) =
                (do return (← .ok (ofChars [c])) ++ (← decodeFrom 0 rest)) := by
              rw [decodeFrom]
              simp only [if_neg backslash]
              rfl
            rw [step]
            refine Decoded.congr (fun n => ?_) ((Decoded.chars [c]).append (ih 0))
            rw [List.drop_zero, escapeNumber_cons backslash, false_or]

theorem decode_spec (literal : List Char) :
    Decoded (EscapeNumber (literal.drop 1).dropLast) (decode literal) :=
  decodeFrom_spec 0 _

end Restyle.Value
