import Mathlib.Data.List.TakeWhile
import Restyle.Syntax.Problem

/-!
# Messages

The words for a problem always come about, and they stand on one line. Only one step of putting a
problem into words could fail: the first of the lines of what is quoted is asked for, and a text without
characters has no lines. It is asked for only where the text is not blank. What is quoted may hold line
breaks, but none of them is printable, so that quoting writes them by number or by name.
-/

namespace Restyle.Text

variable {text front back : List Char} {c : Char}

/-- No character of a text ends a line. -/
def Unbroken (text : List Char) : Prop :=
  ∀ c ∈ text, isLineBreak c = false

instance (text : List Char) : Decidable (Unbroken text) :=
  List.decidableBAll (fun c => isLineBreak c = false) text

theorem Unbroken.append (h : Unbroken front) (k : Unbroken back) : Unbroken (front ++ back) := by
  intro c hc
  rcases List.mem_append.mp hc with hc | hc
  · exact h c hc
  · exact k c hc

theorem isLineBreak_iff : isLineBreak c ↔ (10 ≤ c.toNat ∧ c.toNat ≤ 13) ∨
    (0x1C ≤ c.toNat ∧ c.toNat ≤ 0x1E) ∨ c.toNat = 0x85 ∨ c.toNat = 0x2028 ∨ c.toNat = 0x2029 := by
  simp [isLineBreak, or_assoc]

/-- The lines of a text. A carriage return and a line feed after it end one line, and a line break at
the end begins no other. -/
def splitLines : List Char → List (List Char)
  | [] => []
  | '\r' :: '\n' :: rest => [] :: splitLines rest
  | c :: rest =>
      if isLineBreak c then [] :: splitLines rest
      else
        match splitLines rest with
        | [] => [[c]]
        | line :: lines => (c :: line) :: lines

theorem getElem?_splitLines (text : List Char) :
    (splitLines text)[0]? = if text = [] then none else some (firstLine text) := by
  induction text using splitLines.induct with
  | case1 => rfl
  | case2 => rfl
  | case3 c rest other breaks =>
      rw [splitLines.eq_3 c rest other, if_pos breaks, if_neg (List.cons_ne_nil c rest), firstLine,
        List.takeWhile_cons_of_neg (by simp [breaks])]
      rfl
  | case4 c rest other goesOn nothing ih =>
      have last : rest = [] := by
        by_contra more
        rw [nothing, if_neg more] at ih
        cases ih
      rw [splitLines.eq_3 c rest other, if_neg goesOn, nothing, last, firstLine,
        List.takeWhile_cons_of_pos (by simpa using goesOn)]
      rfl
  | case5 c rest other goesOn line lines found ih =>
      have same : line = firstLine rest := by
        rw [found] at ih
        split at ih
        · cases ih
        · exact Option.some.inj ih
      rw [splitLines.eq_3 c rest other, if_neg goesOn, found, same, firstLine, firstLine,
        List.takeWhile_cons_of_pos (by simpa using goesOn)]
      rfl

theorem splitLines_unbroken (h : Unbroken text) (some : text ≠ []) : splitLines text = [text] := by
  induction text using splitLines.induct with
  | case1 => exact absurd rfl some
  | case2 => cases h '\r' List.mem_cons_self
  | case3 c rest other breaks =>
      rw [h c List.mem_cons_self] at breaks
      cases breaks
  | case4 c rest other goesOn nothing ih =>
      have last : rest = [] := by
        by_contra more
        rw [ih (fun d hd => h d (List.mem_cons_of_mem c hd)) more] at nothing
        cases nothing
      rw [splitLines.eq_3 c rest other, if_neg goesOn, nothing, last]
  | case5 c rest other goesOn line lines found ih =>
      have more : rest ≠ [] := by
        rintro rfl
        cases found
      have whole := ih (fun d hd => h d (List.mem_cons_of_mem c hd)) more
      rw [splitLines.eq_3 c rest other, if_neg goesOn, whole]

/-- Nothing is left of a text without its surrounding blanks exactly if it is blank throughout. -/
theorem trim_isEmpty (text : List Char) : (trim text).isEmpty ↔ ∀ c ∈ text, isBlank c := by
  rw [List.isEmpty_iff, trim, trimEnd, List.reverse_eq_nil_iff, List.dropWhile_eq_nil_iff]
  constructor
  · intro inside
    rw [← List.dropWhile_eq_nil_iff, ← trimStart]
    cases left : trimStart text with
    | nil => rfl
    | cons c rest =>
        have first := List.head?_dropWhile_not isBlank text
        rw [← trimStart, left, List.head?_cons] at first
        have blank := inside c (by simp [left])
        simp [blank] at first
  · intro blank c hc
    exact blank c ((List.dropWhile_sublist _).mem (List.mem_reverse.mp hc))

theorem isPrintable_of_isLineBreak (h : isLineBreak c) : isPrintable c = false := by
  have number : c.toNat < 0x20 ∨ c.toNat = 0x85 ∨ c.toNat = 0x2028 ∨ c.toNat = 0x2029 := by
    rw [isLineBreak_iff] at h
    omega
  rw [isPrintable]
  rcases number with control | nextLine | lineSeparator | paragraphSeparator
  · rw [if_pos (by omega)]
    simpa using control
  · rw [nextLine]
    decide +kernel
  · rw [lineSeparator]
    decide +kernel
  · rw [paragraphSeparator]
    decide +kernel

theorem hexDigits_unbroken (digits n : Nat) : Unbroken (hexDigits digits n) := by
  have digit : ∀ d < 16, isLineBreak (hexDigit d) = false := by decide
  intro c hc
  obtain ⟨d, small, rfl⟩ := exists_of_mem_hexDigits hc
  exact digit d small

/-- What a character is written as holds no line break: it is printable, or it is escaped. -/
theorem quotedChar_unbroken {quote : Char} (h : isLineBreak quote = false) (c : Char) :
    Unbroken (quotedChar quote c) := by
  have escape {d : Char} (hd : isLineBreak d = false) : Unbroken ['\\', d] := by
    simpa [Unbroken, hd] using (by decide : isLineBreak '\\' = false)
  have number {letter : Char} (hl : isLineBreak letter = false) (digits : Nat) :
      Unbroken ('\\' :: letter :: hexDigits digits c.toNat) :=
    (escape hl).append (hexDigits_unbroken digits c.toNat)
  rw [quotedChar]
  split
  · rename_i own
    rcases own with rfl | rfl
    · exact escape h
    · exact escape rfl
  split
  · exact escape rfl
  split
  · exact escape rfl
  split
  · exact escape rfl
  split
  · rename_i printable
    intro d hd
    rw [List.mem_singleton.mp hd, Bool.eq_false_iff]
    intro breaks
    rw [isPrintable_of_isLineBreak breaks] at printable
    cases printable
  split
  · exact number rfl 2
  split
  · exact number rfl 4
  · exact number rfl 8

theorem quoted_unbroken (text : List Char) : Unbroken (quoted text) := by
  have quote : isLineBreak (quoteFor text) = false := by
    rw [quoteFor]
    split <;> rfl
  have ends : Unbroken [quoteFor text] := fun c hc => by rwa [List.mem_singleton.mp hc]
  have inside : Unbroken (text.flatMap (quotedChar (quoteFor text))) := by
    intro c hc
    obtain ⟨d, -, hc⟩ := List.mem_flatMap.mp hc
    exact quotedChar_unbroken quote d c hc
  exact ends.append (inside.append ends)

theorem decimal_unbroken (n : Nat) : Unbroken (decimal n) := by
  intro c hc
  have digit : 48 ≤ c.toNat ∧ c.toNat ≤ 57 := by
    simpa [Char.isDigit, UInt32.le_iff_toNat_le] using
      Nat.isDigit_of_mem_toDigits (by decide) (by decide) hc
  rw [Bool.eq_false_iff, ne_eq, isLineBreak_iff]
  omega

/-- What of a text a message quotes: all of it if it is blank, else what comes before its first line
break. -/
inductive Quotable (text : List Char) : List Char → Prop
  | blank : (∀ c ∈ text, isBlank c) → Quotable text text
  | line {line rest : List Char} : (∃ c ∈ text, ¬ isBlank c) → text = line ++ rest → Unbroken line →
      (∀ c ∈ rest.head?, isLineBreak c) → Quotable text line

theorem quotable_firstLine (h : ¬ (trim text).isEmpty) : Quotable text (firstLine text) := by
  rw [trim_isEmpty] at h
  refine .line (by simpa using h) List.takeWhile_append_dropWhile.symm (fun c hc => ?_) fun c hc => ?_
  · simpa using List.all_eq_true.mp List.all_takeWhile c hc
  · have stops := List.head?_dropWhile_not (fun c => !isLineBreak c) text
    rw [hc] at stops
    simpa using stops

end Restyle.Text

namespace Restyle.Syntax

open Text

/-- What is quoted of some bytes, if the line that is asked for is there. -/
def snippet? (bytes : List UInt8) : Option (List Char) :=
  let text := decodeLossy bytes
  let line? := if (trim text).isEmpty then some text else (splitLines text)[0]?
  line?.map fun line =>
    if snippetLimit < line.length then line.take snippetLimit ++ "...".toList else line

namespace Problem

/-- The bytes that a problem covers, as far as there are any. -/
def covered (data : List UInt8) (p : Problem) : List UInt8 :=
  (data.drop p.start).take (p.stop - p.start)

/-- Where a problem is, in words. -/
def place (p : Problem) : List Char :=
  " at line ".toList ++ decimal (p.row + 1) ++ ", column ".toList ++ decimal (p.column + 1)

/-- A problem in words, if what is quoted is there. -/
def describe? (data : List UInt8) (p : Problem) : Option (List Char) :=
  match p.missing with
  | some name => some ("Missing ".toList ++ quoted name ++ p.place)
  | none => (snippet? (p.covered data)).map fun quote => "Unexpected ".toList ++ quoted quote ++ p.place

end Problem

/-- What is quoted is there, and is the beginning of the text, or of its first line unless the text is
blank. -/
theorem snippet_quotable (bytes : List UInt8) :
    snippet? bytes = some (snippet bytes) ∧ ∃ line, Quotable (decodeLossy bytes) line ∧
      snippet bytes = line.take 40 ++ if 40 < line.length then "...".toList else [] := by
  have cut (line : List Char) : (if snippetLimit < line.length then
      line.take snippetLimit ++ "...".toList else line) =
      line.take 40 ++ if 40 < line.length then "...".toList else [] := by
    rw [snippetLimit]
    split
    · rfl
    · rename_i short
      rw [List.append_nil, List.take_of_length_le (Nat.le_of_not_lt short)]
  by_cases blank : (trim (decodeLossy bytes)).isEmpty
  · simp only [snippet?, snippet, if_pos blank]
    exact ⟨rfl, _, .blank ((trim_isEmpty _).mp blank), cut _⟩
  · have characters : decodeLossy bytes ≠ [] := by
      intro none
      exact blank (by rw [none]; rfl)
    simp only [snippet?, snippet, if_neg blank, getElem?_splitLines, if_neg characters]
    exact ⟨rfl, _, quotable_firstLine blank, cut _⟩

namespace Problem

variable {data : List UInt8} {p : Problem}

private theorem append_place (what : List Char) (p : Problem) :
    what ++ " at line ".toList ++ decimal (p.row + 1) ++ ", column ".toList ++ decimal (p.column + 1) =
      what ++ p.place := by
  have parts (line row column place : List Char) :
      what ++ line ++ row ++ column ++ place = what ++ (line ++ row ++ column ++ place) := by
    simp only [List.append_assoc]
  exact parts _ _ _ _

theorem describe_missing {name : List Char} (h : p.missing = some name) :
    p.describe data = "Missing ".toList ++ quoted name ++ p.place := by
  rw [← append_place, describe, h]

theorem describe_unexpected (h : p.missing = none) :
    p.describe data = "Unexpected ".toList ++ quoted (snippet (p.covered data)) ++ p.place := by
  rw [← append_place, describe, h, covered]

theorem place_unbroken (p : Problem) : Unbroken p.place := by
  have line : Unbroken " at line ".toList := by decide
  have column : Unbroken ", column ".toList := by decide
  exact ((line.append (decimal_unbroken _)).append column).append (decimal_unbroken _)

theorem describe_unbroken (data : List UInt8) (p : Problem) : Unbroken (p.describe data) := by
  have missing : Unbroken "Missing ".toList := by decide
  have unexpected : Unbroken "Unexpected ".toList := by decide
  cases h : p.missing with
  | some name =>
      rw [describe_missing h]
      exact (missing.append (quoted_unbroken _)).append p.place_unbroken
  | none =>
      rw [describe_unexpected h]
      exact (unexpected.append (quoted_unbroken _)).append p.place_unbroken

/-- Of any bytes and any problem, wherever it is said to be, there are words for it, and they stand on
one line. A missing token is named. Of what is unexpected at most forty characters are quoted, from its
first line, or from all of it if it is blank; more are left out with three dots. -/
theorem describe_one_line (data : List UInt8) (p : Problem) :
    p.describe? data = some (p.describe data) ∧
      (∀ c ∈ p.describe data, isLineBreak c = false) ∧
      splitLines (p.describe data) = [p.describe data] ∧
      (∀ name, p.missing = some name →
        p.describe data = "Missing ".toList ++ quoted name ++ p.place) ∧
      (p.missing = none → ∃ line, Quotable (decodeLossy (p.covered data)) line ∧
        p.describe data = "Unexpected ".toList ++
          quoted (line.take 40 ++ if 40 < line.length then "...".toList else []) ++ p.place) := by
  obtain ⟨there, line, quotable, same⟩ := snippet_quotable (p.covered data)
  have words : p.describe data ≠ [] := by
    cases h : p.missing with
    | some name =>
        rw [describe_missing h]
        nofun
    | none =>
        rw [describe_unexpected h]
        nofun
  have unbroken := describe_unbroken data p
  refine ⟨?_, unbroken, splitLines_unbroken unbroken words, fun name => describe_missing,
    fun unexpected => ⟨line, quotable, ?_⟩⟩
  · cases h : p.missing with
    | some name =>
        rw [describe_missing h]
        simp only [describe?, h]
    | none =>
        rw [describe_unexpected h]
        simp only [describe?, h, there, Option.map_some]
  · rw [describe_unexpected unexpected, same]

/-- A blank stretch is quoted with its line break, which is written by number. -/
theorem describe_one_line_blank :
    let data : List UInt8 := [0x20, 0xE2, 0x80, 0xA8, 0x62]
    let p : Problem := ⟨0, 4, 0, 0, none⟩
    p.missing = none ∧ p.describe data = "Unexpected ' \\u2028' at line 1, column 1".toList ∧
      splitLines (p.describe data) = [p.describe data] ∧
      ∃ line, Quotable (decodeLossy (p.covered data)) line ∧
        p.describe data = "Unexpected ".toList ++
          quoted (line.take 40 ++ if 40 < line.length then "...".toList else []) ++ p.place := by
  intro data p
  obtain ⟨-, -, oneLine, -, unexpected⟩ := describe_one_line data p
  exact ⟨rfl, by decide +kernel, oneLine, unexpected rfl⟩

end Problem

end Restyle.Syntax
