import Mathlib.Data.List.TakeDrop
import Restyle.Proofs.JsonStrings

/-!
# Reading numbers and words of JSON

A number or a word is read exactly if nothing follows by which it could go on.
-/

namespace Restyle.Json

open Text

variable {p : CodePoint} {text rest digits : List CodePoint}

/-- What comes after a value: nothing, a blank, a comma or a closing character. -/
def Ends : Form := fun rest =>
  ∀ c ∈ rest.head?, IsBlank c ∨ c = ',' ∨ c = ']' ∨ c = '\x7d'

@[simp] theorem isBlank_iff {c : CodePoint} : isBlank c = true ↔ IsBlank c := by
  simp [isBlank, IsBlank, or_assoc]

theorem isDigit_iff : isDigit p = true ↔ 0x30 ≤ p.val ∧ p.val ≤ 0x39 := by
  simp [isDigit]

/-- What comes after digits is no digit. -/
def NoDigit : Form := fun rest => ∀ c ∈ rest.head?, isDigit c = false

theorem readDigits_eq_some : readDigits text = some (digits, rest) ↔
    text = digits ++ rest ∧ Digits digits ∧ NoDigit rest := by
  constructor
  · intro h
    rw [readDigits, List.span_eq_takeWhile_dropWhile] at h
    split at h
    · cases h
    · rename_i some
      cases h
      refine ⟨List.takeWhile_append_dropWhile.symm, ⟨fun none => some _ (by rw [none]), ?_⟩, ?_⟩
      · intro c mem
        exact isDigit_iff.mp (List.all_eq_true.mp List.all_takeWhile c mem)
      · intro c head
        have stops := List.head?_dropWhile_not isDigit text
        rw [head] at stops
        exact stops
  · rintro ⟨rfl, some, after⟩
    have all : ∀ c ∈ digits, isDigit c = true := fun c mem => isDigit_iff.mpr (some.2 c mem)
    rw [readDigits, List.span_eq_takeWhile_dropWhile, Syntax.takeWhile_upTo all after,
      Syntax.dropWhile_upTo all after]
    split
    · rename_i none
      exact absurd (Prod.mk.inj none).1 some.1
    · rfl

theorem readWhole_sound (h : readWhole text = some (digits, rest)) :
    text = digits ++ rest ∧ Whole digits := by
  rw [readWhole] at h
  split at h
  · rename_i zero
    cases h
    exact ⟨after?_eq_some.mp zero, .inl rfl⟩
  · rename_i noZero
    obtain ⟨rfl, some, -⟩ := readDigits_eq_some.mp h
    refine ⟨rfl, .inr ⟨some, fun zero => ?_⟩⟩
    obtain ⟨more, rfl⟩ := List.head?_eq_some_iff.mp zero
    rw [List.cons_append, after?_cons] at noZero
    cases noZero

theorem readWhole_append (h : Whole digits) (after : NoDigit rest) :
    readWhole (digits ++ rest) = some (digits, rest) := by
  rcases h with rfl | ⟨some, noZero⟩
  · rfl
  · have read := readDigits_eq_some.mpr ⟨rfl, some, after⟩
    cases digits with
    | nil => exact absurd rfl some.1
    | cons c digits =>
        have other : c ≠ '0' := fun zero => noZero (congrArg _ zero)
        rw [List.cons_append, readWhole, after?_cons_of_ne other]
        exact read

theorem afterFraction?_eq_some : afterFraction? text = some rest ↔
    ∃ own, text = own ++ rest ∧ Fraction own ∧ NoDigit rest := by
  simp only [afterFraction?, Option.bind_eq_bind, Option.bind_eq_some_iff, Prod.exists, Option.pure_def,
    Option.some.injEq, after?_eq_some, readDigits_eq_some]
  constructor
  · rintro ⟨more, rfl, digits, left, ⟨rfl, some, after⟩, rfl⟩
    exact ⟨_, rfl, ⟨digits, rfl, some⟩, after⟩
  · rintro ⟨own, rfl, ⟨digits, rfl, some⟩, after⟩
    exact ⟨_, rfl, digits, rest, ⟨rfl, some, after⟩, rfl⟩

theorem skipSign_cases (text : List CodePoint) :
    ∃ sign, Optional Sign sign ∧ text = sign ++ skipSign text := by
  cases text with
  | nil => exact ⟨[], .inl rfl, rfl⟩
  | cons c rest =>
      rw [skipSign]
      split
      · rename_i sign
        exact ⟨[c], .inr ⟨c, rfl, sign⟩, rfl⟩
      · exact ⟨[], .inl rfl, rfl⟩

theorem skipSign_append {sign : List CodePoint} (some : Digits digits) (rest : List CodePoint)
    (h : Optional Sign sign) :
    skipSign (sign ++ (digits ++ rest)) = digits ++ rest := by
  rcases h with rfl | ⟨c, rfl, isSign⟩
  · cases digits with
    | nil => exact absurd rfl some.1
    | cons d digits =>
        have digit := some.2 d List.mem_cons_self
        have noSign : ¬ (d = '+' ∨ d = '-') := by
          rintro (rfl | rfl) <;> exact absurd digit (by decide)
        exact if_neg noSign
  · exact if_pos isSign

theorem afterExponent?_eq_some : afterExponent? text = some rest ↔
    ∃ own, text = own ++ rest ∧ Exponent own ∧ NoDigit rest := by
  cases text with
  | nil =>
      refine iff_of_false nofun ?_
      rintro ⟨own, split, ⟨mark, sign, digits, rfl, -⟩, -⟩
      cases split
  | cons c text =>
      rw [afterExponent?, Option.ite_none_right_eq_some, Option.map_eq_some_iff]
      simp only [Prod.exists, readDigits_eq_some]
      constructor
      · rintro ⟨mark, digits, left, ⟨split, some, after⟩, rfl⟩
        obtain ⟨sign, isSign, whole⟩ := skipSign_cases text
        rw [split] at whole
        refine ⟨c :: (sign ++ digits), ?_, ⟨c, sign, digits, rfl, mark, isSign, some⟩, after⟩
        rw [whole, List.cons_append, List.append_assoc]
      · rintro ⟨own, split, ⟨mark, sign, digits, rfl, isMark, isSign, some⟩, after⟩
        obtain ⟨rfl, rfl⟩ := List.cons.inj split
        refine ⟨isMark, digits, rest, ⟨?_, some, after⟩, rfl⟩
        have whole := skipSign_append some rest isSign
        rwa [← List.append_assoc] at whole

theorem Fraction.noDigit {own : List CodePoint} (h : Fraction own) (rest : List CodePoint) :
    NoDigit (own ++ rest) := by
  obtain ⟨digits, rfl, -⟩ := h
  rintro c ⟨⟩
  decide

theorem Exponent.noDigit {own : List CodePoint} (h : Exponent own) (rest : List CodePoint) :
    NoDigit (own ++ rest) := by
  obtain ⟨mark, sign, digits, rfl, isMark, -⟩ := h
  rintro c ⟨⟩
  rcases isMark with rfl | rfl <;> decide

/-- What follows a value is no digit and begins neither a fraction nor an exponent. -/
theorem Ends.not_number (ends : Ends rest) :
    NoDigit rest ∧ afterFraction? rest = none ∧ afterExponent? rest = none := by
  cases rest with
  | nil => exact ⟨nofun, rfl, rfl⟩
  | cons c rest =>
      have first : c = ' ' ∨ c = '\t' ∨ c = '\n' ∨ c = '\r' ∨ c = ',' ∨ c = ']' ∨ c = '\x7d' := by
        simpa [IsBlank, or_assoc] using ends c rfl
      have noDigit : isDigit c = false := by
        rcases first with rfl | rfl | rfl | rfl | rfl | rfl | rfl <;> decide
      have noPoint : c ≠ '.' := by
        rcases first with rfl | rfl | rfl | rfl | rfl | rfl | rfl <;> decide
      have noMark : ¬ (c = 'e' ∨ c = 'E') := by
        rcases first with rfl | rfl | rfl | rfl | rfl | rfl | rfl <;> decide
      refine ⟨?_, ?_, if_neg noMark⟩
      · rintro d ⟨⟩
        exact noDigit
      · rw [afterFraction?, after?_cons_of_ne noPoint]
        rfl

theorem afterParts?_sound (h : afterParts? text = some rest) :
    ∃ fraction exponent, text = fraction ++ exponent ++ rest ∧ Optional Fraction fraction ∧
      Optional Exponent exponent ∧ ¬ (fraction = [] ∧ exponent = []) := by
  rw [afterParts?] at h
  split at h
  · rename_i left found
    obtain ⟨fraction, rfl, first, -⟩ := afterFraction?_eq_some.mp found
    have some : fraction ≠ [] := by
      obtain ⟨digits, rfl, -⟩ := first
      nofun
    cases next : afterExponent? left with
    | none =>
        rw [next] at h
        cases h
        exact ⟨fraction, [], by simp, .inr first, .inl rfl, fun none => some none.1⟩
    | some left' =>
        rw [next] at h
        cases h
        obtain ⟨exponent, rfl, second, -⟩ := afterExponent?_eq_some.mp next
        exact ⟨fraction, exponent, by simp, .inr first, .inr second, fun none => some none.1⟩
  · obtain ⟨exponent, rfl, second, -⟩ := afterExponent?_eq_some.mp h
    have some : exponent ≠ [] := by
      obtain ⟨mark, sign, digits, rfl, -⟩ := second
      nofun
    exact ⟨[], exponent, rfl, .inl rfl, .inr second, fun none => some none.2⟩

theorem afterParts?_append {fraction exponent : List CodePoint} (first : Optional Fraction fraction)
    (second : Optional Exponent exponent) (some : ¬ (fraction = [] ∧ exponent = [])) (ends : Ends rest) :
    afterParts? (fraction ++ exponent ++ rest) = .some rest := by
  obtain ⟨noDigit, -, noExponent⟩ := ends.not_number
  rw [afterParts?, List.append_assoc]
  rcases second with rfl | second
  · have first := first.resolve_left fun none => some ⟨none, rfl⟩
    rw [List.nil_append, afterFraction?_eq_some.mpr ⟨fraction, rfl, first, noDigit⟩]
    simp only [noExponent, Option.getD_none]
  · have next := afterExponent?_eq_some.mpr ⟨exponent, rfl, second, noDigit⟩
    rcases first with rfl | first
    · have noFraction : afterFraction? (exponent ++ rest) = none := by
        obtain ⟨mark, sign, digits, rfl, isMark, -⟩ := second
        have noPoint : mark ≠ '.' := by
          rcases isMark with rfl | rfl <;> decide
        rw [List.cons_append, afterFraction?, after?_cons_of_ne noPoint]
        rfl
      rw [List.nil_append, noFraction, next]
    · rw [afterFraction?_eq_some.mpr ⟨fraction, rfl, first, second.noDigit rest⟩]
      simp only [next, Option.getD_some]

theorem afterParts?_none (ends : Ends rest) : afterParts? rest = none := by
  obtain ⟨-, noFraction, noExponent⟩ := ends.not_number
  rw [afterParts?, noFraction, noExponent]

theorem ofDigits_eq (digits : List CodePoint) :
    ofDigits (digits.map fun d => d.val - 0x30) = natural digits := by
  rw [natural, Nat.ofDigits_eq_foldr, List.map_reverse, List.foldr_reverse, ofDigits]
  congr 1
  funext n d
  exact Nat.add_comm _ _

theorem natOf?_eq_some {n : Nat} :
    natOf? digits = some n ↔ digits.length ≤ 4300 ∧ natural digits = n := by
  rw [natOf?, ofDigits_eq, Option.ite_none_right_eq_some, Option.some.injEq]
  rfl

theorem readNumber_sound {v : Json} (h : readNumber text = some (v, rest)) :
    ∃ own, text = own ++ rest ∧ Literal v own := by
  simp only [readNumber, Option.bind_eq_bind, Option.bind_eq_some_iff, Prod.exists] at h
  obtain ⟨digits, left, read, h⟩ := h
  obtain ⟨split, whole⟩ := readWhole_sound read
  have signed : ∃ sign, Optional (· = [('-' : CodePoint)]) sign ∧ text = sign ++ (digits ++ left) ∧
      (digits.length ≤ 4300 → Literal (.integer (if (after? '-' text).isSome then
        -(natural digits : Int) else natural digits)) (sign ++ digits)) := by
    rw [← split]
    cases negative : after? '-' text with
    | none => exact ⟨[], .inl rfl, rfl, .natural whole⟩
    | some more => exact ⟨_, .inr rfl, after?_eq_some.mp negative, .negative whole⟩
  obtain ⟨sign, isSign, own, integer⟩ := signed
  split at h
  · rename_i parts
    cases h
    obtain ⟨fraction, exponent, rfl, first, second, some⟩ := afterParts?_sound parts
    refine ⟨sign ++ digits ++ fraction ++ exponent, ?_, .inexact isSign whole first second some⟩
    simpa only [List.append_assoc] using own
  · simp only [Option.bind_eq_some_iff, natOf?_eq_some, Option.pure_def, Option.some.injEq,
      Prod.mk.injEq] at h
    obtain ⟨n, ⟨short, rfl⟩, rfl, rfl⟩ := h
    refine ⟨sign ++ digits, ?_, integer short⟩
    rw [own, List.append_assoc]

theorem word_head : ∀ w ∈ words, ∃ c d more, Text.ofChars w.1.toList = c :: d :: more ∧
    isDigit c = false ∧ (c = '-' → isDigit d = false) := by
  intro w word
  simp only [words, List.mem_cons, List.not_mem_nil, or_false] at word
  rcases word with rfl | rfl | rfl | rfl | rfl | rfl <;> exact ⟨_, _, _, rfl, rfl, by decide⟩

theorem readScalar_number {sign : List CodePoint} (some : Digits digits)
    (isSign : Optional (· = [('-' : CodePoint)]) sign) :
    readScalar (sign ++ (digits ++ rest)) = readNumber (sign ++ (digits ++ rest)) := by
  have noWord : (words.find? fun w =>
      (Text.ofChars w.1.toList).isPrefixOf (sign ++ (digits ++ rest))) = none := by
    rw [List.find?_eq_none]
    intro w word begins
    obtain ⟨c, d, more, spelled, letter, other⟩ := word_head w word
    obtain ⟨left, split⟩ := List.isPrefixOf_iff_prefix.mp begins
    rw [spelled] at split
    cases digits with
    | nil => exact some.1 rfl
    | cons digit digits =>
        have isDigit := isDigit_iff.mpr (some.2 digit List.mem_cons_self)
        rcases isSign with rfl | rfl
        · rw [(List.cons.inj split).1, isDigit] at letter
          cases letter
        · have next := other (List.cons.inj split).1
          rw [(List.cons.inj (List.cons.inj split).2).1, isDigit] at next
          cases next
  rw [readScalar, noWord]

theorem Whole.isDigits (h : Whole digits) : Digits digits := by
  rcases h with rfl | ⟨some, -⟩
  · refine ⟨nofun, fun c mem => ?_⟩
    rw [List.mem_singleton.mp mem]
    decide
  · exact some

theorem after?_sign {sign : List CodePoint} (some : Digits digits)
    (isSign : Optional (· = [('-' : CodePoint)]) sign) (rest : List CodePoint) :
    ∃ negative, after? '-' (sign ++ (digits ++ rest)) = negative ∧
      negative.getD (sign ++ (digits ++ rest)) = digits ++ rest ∧ (negative.isSome ↔ sign ≠ []) := by
  rcases isSign with rfl | rfl
  · cases digits with
    | nil => exact absurd rfl some.1
    | cons c digits =>
        have digit := some.2 c List.mem_cons_self
        have other : c ≠ '-' := by
          rintro rfl
          exact absurd digit (by decide)
        exact ⟨_, after?_cons_of_ne other _, rfl, by simp⟩
  · exact ⟨_, after?_cons _ _, rfl, by simp⟩

theorem readNumber_inexact {sign fraction exponent : List CodePoint} (whole : Whole digits)
    (isSign : Optional (· = [('-' : CodePoint)]) sign) (first : Optional Fraction fraction)
    (second : Optional Exponent exponent) (some : ¬ (fraction = [] ∧ exponent = [])) (ends : Ends rest) :
    readNumber (sign ++ (digits ++ (fraction ++ exponent ++ rest))) = .some (.inexact, rest) := by
  have parts := afterParts?_append first second some ends
  have after : NoDigit (fraction ++ exponent ++ rest) := by
    rw [List.append_assoc]
    rcases first with rfl | first
    · rcases second with rfl | second
      · exact absurd ⟨rfl, rfl⟩ some
      · exact second.noDigit rest
    · exact first.noDigit _
  have read := readWhole_append whole after
  obtain ⟨negative, minus, unsigned, -⟩ :=
    after?_sign whole.isDigits isSign (fraction ++ exponent ++ rest)
  simp only [readNumber, minus, unsigned, read, parts, Option.bind_eq_bind, Option.bind_some,
    Option.pure_def]

theorem readNumber_integer {sign : List CodePoint} (whole : Whole digits)
    (isSign : Optional (· = [('-' : CodePoint)]) sign) (short : digits.length ≤ 4300) (ends : Ends rest) :
    readNumber (sign ++ (digits ++ rest)) =
      some (.integer (if sign = [] then natural digits else -(natural digits : Int)), rest) := by
  have parts := afterParts?_none ends
  have read := readWhole_append whole ends.not_number.1
  have number := natOf?_eq_some.mpr ⟨short, rfl⟩
  obtain ⟨negative, minus, unsigned, isNegative⟩ := after?_sign whole.isDigits isSign rest
  simp only [readNumber, minus, unsigned, read, parts, number, isNegative, ite_not,
    Option.bind_eq_bind, Option.bind_some, Option.pure_def]

theorem readScalar_sound {v : Json} (h : readScalar text = some (v, rest)) :
    ∃ own, text = own ++ rest ∧ Literal v own := by
  rw [readScalar] at h
  split at h
  · rename_i w value found
    cases h
    have begins := List.find?_some found
    have word := List.mem_of_find?_eq_some found
    obtain ⟨left, rfl⟩ := List.isPrefixOf_iff_prefix.mp begins
    have length : (Text.ofChars w.toList).length = w.length := by
      rw [Text.ofChars, List.length_map, String.length_toList]
    rw [← length, List.drop_left]
    refine ⟨_, rfl, ?_⟩
    simp only [words, List.mem_cons, List.not_mem_nil, or_false, Prod.mk.injEq] at word
    rcases word with ⟨rfl, rfl⟩ | ⟨rfl, rfl⟩ | ⟨rfl, rfl⟩ | ⟨rfl, rfl⟩ | ⟨rfl, rfl⟩ | ⟨rfl, rfl⟩
    · exact .null
    · exact .yes
    · exact .no
    · exact .nan
    · exact .infinite
    · exact .below
  · exact readNumber_sound h

theorem readScalar_append {v : Json} {own : List CodePoint} (h : Literal v own) (ends : Ends rest) :
    readScalar (own ++ rest) = some (v, rest) := by
  cases h with
  | null => rfl
  | yes => rfl
  | no => rfl
  | nan => rfl
  | infinite => rfl
  | below => rfl
  | natural whole short =>
      have sign : Optional (· = [('-' : CodePoint)]) [] := .inl rfl
      have read := readNumber_integer whole sign short ends
      rw [← readScalar_number whole.isDigits sign] at read
      exact read
  | negative whole short =>
      have sign : Optional (· = [('-' : CodePoint)]) ['-'] := .inr rfl
      have read := readNumber_integer whole sign short ends
      rw [← readScalar_number whole.isDigits sign] at read
      exact read
  | inexact isSign whole first second some =>
      have read := readNumber_inexact whole isSign first second some ends
      rw [← readScalar_number whole.isDigits isSign] at read
      simpa only [List.append_assoc] using read

end Restyle.Json
