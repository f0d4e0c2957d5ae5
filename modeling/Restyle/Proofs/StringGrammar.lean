import Restyle.Proofs.Escapes
import Restyle.Syntax.Quotes

/-!
# The grammar of string literals

A string literal is spelled by parts: characters, line continuations and escapes. Every literal that
is taken is spelled so, if its line breaks are escaped and its numbers are those of code points.
-/

namespace Restyle.Value

open Syntax Text

def isOctalDigit (c : Char) : Bool :=
  '0' ≤ c && c ≤ '7'

def octalNumber (digits : List Char) : Nat :=
  digits.foldl (fun n c => 8 * n + (c.toNat - 48)) 0

/-- The digits of an octal escape, in front of a text: as many as there are, up to the number 255. -/
def OctalDigits (next : List Char) : List Char → Prop
  | [a] => isOctalDigit a ∧ ¬ next.head?.any isOctalDigit
  | [a, b] => isOctalDigit a ∧ isOctalDigit b ∧ (a ≤ '3' → ¬ next.head?.any isOctalDigit)
  | [a, b, c] => isOctalDigit a ∧ isOctalDigit b ∧ isOctalDigit c ∧ a ≤ '3'
  | _ => False

/-- A part of the inside of a literal: a character, or what a backslash begins. -/
inductive StringPart
  | char (c : Char)
  | continuation (lineBreak : List Char)
  | escape (c : Char)
  | octal (digits : List Char)
  | hex (digits : List Char)
  | unicode (digits : List Char)
  | braced (digits : List Char)

namespace StringPart

def written : StringPart → List Char
  | char c => [c]
  | continuation lineBreak => '\\' :: lineBreak
  | escape c => ['\\', c]
  | octal digits => '\\' :: digits
  | hex digits => '\\' :: 'x' :: digits
  | unicode digits => '\\' :: 'u' :: digits
  | braced digits => '\\' :: 'u' :: '\x7b' :: (digits ++ ['\x7d'])

theorem written_pos (part : StringPart) : 0 < part.written.length := by
  cases part <;> exact Nat.succ_pos _

/-- Whether a part may stand between two quotes, in front of a text. -/
def MayStand (quote : Char) (next : List Char) : StringPart → Prop
  | char c => c ≠ quote ∧ c ≠ '\\' ∧ c ≠ '\n' ∧ c ≠ '\r'
  | continuation lineBreak =>
      lineBreak ∈ [['\n'], ['\r', '\n'], ['\u2028'], ['\u2029']] ∨
        (lineBreak = ['\r'] ∧ next.head? ≠ some '\n')
  | escape c => ¬ isLineEnd c ∧ ¬ isOctalDigit c ∧ c ≠ 'x' ∧ c ≠ 'u'
  | octal digits => OctalDigits next digits
  | hex digits => digits.length = 2 ∧ digits.all isHexDigit
  | unicode digits => digits.length = 4 ∧ digits.all isHexDigit
  | braced digits => digits ≠ [] ∧ digits.all isHexDigit ∧ hexNumber digits < 0x110000

end StringPart

/-- The inside of a literal is spelled by parts. -/
inductive Spelled (quote : Char) : List StringPart → List Char → Prop
  | nil : Spelled quote [] []
  | cons {part : StringPart} {parts : List StringPart} {next : List Char} :
      part.MayStand quote next → Spelled quote parts next →
      Spelled quote (part :: parts) (part.written ++ next)

/-- A string literal of the language, with its parts. -/
def StringLiteral (parts : List StringPart) (literal : List Char) : Prop :=
  ∃ quote inside, isQuote quote ∧ Spelled quote parts inside ∧ literal = quote :: (inside ++ [quote])

/-- The characters of the inside of a literal that belong to no escape. -/
def bare : List Char → List Char
  | [] => []
  | '\\' :: '\r' :: '\n' :: rest => bare rest
  | '\\' :: _ :: rest => bare rest
  | c :: rest => c :: bare rest

/-- Every line break is escaped, and every number is one of a code point. The strings that are taken
need not be like that; those of the language are. -/
structure Regular (inside : List Char) : Prop where
  lines : '\n' ∉ bare inside ∧ '\r' ∉ bare inside
  numbers : ∀ n, EscapeNumber inside n → n < 0x110000

variable {c q : Char} {rest next digits inside left : List Char}

theorem bare_char (plain : c ≠ '\\') : bare (c :: rest) = c :: bare rest := by
  rw [bare]
  all_goals simp [plain]

theorem bare_escape (pair : c = '\r' → rest.head? ≠ some '\n') :
    bare ('\\' :: c :: rest) = bare rest := by
  rw [bare]
  rintro rest rfl rfl
  exact pair rfl rfl

namespace Regular

theorem char (h : Regular (c :: rest)) (plain : c ≠ '\\') : c ≠ '\n' ∧ c ≠ '\r' ∧ Regular rest := by
  have lines := h.lines
  rw [bare_char plain, List.mem_cons, List.mem_cons, not_or, not_or] at lines
  exact ⟨Ne.symm lines.1.1, Ne.symm lines.2.1, ⟨lines.1.2, lines.2.2⟩,
    fun n number => h.numbers n ((escapeNumber_cons plain).mpr number)⟩

theorem plains {front : List Char} (h : Regular (front ++ rest)) (plain : '\\' ∉ front) :
    Regular rest := by
  induction front with
  | nil => exact h
  | cons c front ih =>
      rw [List.mem_cons, not_or] at plain
      exact ih (char h (Ne.symm plain.1)).2.2 plain.2

theorem escape (h : Regular ('\\' :: c :: rest)) (pair : c = '\r' → rest.head? ≠ some '\n') :
    Regular rest := by
  have lines := h.lines
  rw [bare_escape pair] at lines
  exact ⟨lines, fun n number => h.numbers n (escapeNumber_backslash.mpr (.inr number))⟩

theorem lineBreak (h : Regular ('\\' :: '\r' :: '\n' :: rest)) : Regular rest := by
  refine ⟨h.lines, fun n number => h.numbers n (escapeNumber_backslash.mpr (.inr ?_))⟩
  exact (escapeNumber_cons (by decide)).mpr number

end Regular

/-- A text closed by a quote is read up to this quote. -/
def Closes (q : Char) (inside left : List Char) : Prop :=
  stringTail q 0 false (inside ++ q :: left) = some (inside ++ [q], left)

namespace Closes

theorem char (h : Closes q (c :: inside) left) (plain : c ≠ '\\') (line : c ≠ '\n' ∧ c ≠ '\r') :
    c ≠ q ∧ Closes q inside left := by
  rw [Closes, List.cons_append, stringTail_eq] at h
  obtain ⟨more, next, same⟩ := inFront_eq_some h
  cases same
  simp only [beq_iff_eq, plain, if_false, Bool.or_self, beq_eq_false_iff_ne.mpr line.1,
    beq_eq_false_iff_ne.mpr line.2, Bool.false_eq_true] at next
  split at next
  · simp at next
  · rename_i other
    exact ⟨other, next⟩

theorem skip {n : Nat} (h : stringTail q n false (inside ++ q :: left) = some (inside ++ [q], left)) :
    ∃ front back, inside = front ++ back ∧ front.length = n ∧ Closes q back left := by
  induction n generalizing inside with
  | zero => exact ⟨[], inside, rfl, rfl, h⟩
  | succ n ih =>
      cases inside with
      | nil =>
          rw [List.nil_append, stringTail_eq] at h
          obtain ⟨more, next, same⟩ := inFront_eq_some h
          cases same
          obtain ⟨inside, -, same⟩ := stringTail_append next
          simp at same
      | cons c inside =>
          rw [List.cons_append, stringTail_eq] at h
          obtain ⟨more, next, same⟩ := inFront_eq_some h
          cases same
          obtain ⟨front, back, rfl, rfl, closes⟩ := ih next
          exact ⟨c :: front, back, rfl, rfl, closes⟩

theorem escape (hq : q ≠ '\\') (h : Closes q ('\\' :: inside) left) :
    ∃ front back, inside = front ++ back ∧
      escapeLength (front ++ (back ++ q :: left)) = some front.length ∧ Closes q back left := by
  rw [Closes, List.cons_append, stringTail_eq] at h
  obtain ⟨more, next, same⟩ := inFront_eq_some h
  cases same
  simp only [beq_iff_eq, hq.symm, if_false, Bool.false_eq_true, if_true] at next
  split at next
  · rename_i n found
    obtain ⟨front, back, rfl, rfl, closes⟩ := skip next
    rw [List.append_assoc] at found
    exact ⟨front, back, rfl, found, closes⟩
  · cases next

theorem plains {front : List Char} (h : Closes q inside left)
    (split : inside ++ q :: left = front ++ rest)
    (plain : ∀ c ∈ front, c ≠ '\\' ∧ (c ≠ '\n' ∧ c ≠ '\r') ∧ c ≠ q) :
    ∃ back, inside = front ++ back ∧ Closes q back left := by
  induction front generalizing inside with
  | nil => exact ⟨inside, rfl, h⟩
  | cons c front ih =>
      obtain ⟨first, later⟩ := List.forall_mem_cons.mp plain
      cases inside with
      | nil => exact absurd (List.cons.inj split).1.symm first.2.2
      | cons d inside =>
          obtain ⟨rfl, tail⟩ := List.cons.inj split
          obtain ⟨back, rfl, closes⟩ := ih (char h first.1 first.2.1).2 tail later
          exact ⟨back, rfl, closes⟩

end Closes

/-- What an escape takes, from the character after the backslash. -/
inductive EscapeBody : List Char → List Char → Prop
  | hex {digits rest : List Char} : digits.length = 2 → digits.all isHexDigit →
      EscapeBody ('x' :: digits) rest
  | unicode {digits rest : List Char} : digits.length = 4 → digits.all isHexDigit →
      EscapeBody ('u' :: digits) rest
  | braced {rest : List Char} : bracedHexAhead rest → EscapeBody ['u', '\x7b'] rest
  | lineBreak {rest : List Char} : EscapeBody ['\r', '\n'] rest
  | single {c : Char} {rest : List Char} : c ≠ 'x' → c ≠ 'u' →
      (c = '\r' → rest.head? ≠ some '\n') → EscapeBody [c] rest

theorem escapeBody_of_length {front : List Char}
    (h : escapeLength (front ++ rest) = some front.length) : EscapeBody front rest := by
  have body (text tail : List Char) (whole : front ++ rest = text ++ tail)
      (length : text.length = front.length) (taken : EscapeBody text tail) :
      EscapeBody front rest := by
    obtain ⟨rfl, rfl⟩ := List.append_inj whole length.symm
    exact taken
  generalize whole : front ++ rest = text at h
  unfold escapeLength at h
  split at h
  · cases h
  · rename_i a b tail
    split at h
    · rename_i hex
      exact body ['x', a, b] tail whole (Option.some.inj h) (.hex rfl (by simpa using hex))
    · cases h
  · cases h
  · rename_i tail
    split at h
    · rename_i ahead
      exact body ['u', '\x7b'] tail whole (Option.some.inj h) (.braced ahead)
    · cases h
  · rename_i a b c d tail _
    split at h
    · rename_i hex
      refine body ['u', a, b, c, d] tail whole (Option.some.inj h) (.unicode rfl ?_)
      simpa [and_assoc] using hex
    · cases h
  · cases h
  · rename_i tail
    exact body ['\r', '\n'] tail whole (Option.some.inj h) .lineBreak
  · rename_i c tail _ hx _ _ hu pair
    refine body [c] tail whole (Option.some.inj h) (.single hx hu fun same head => ?_)
    cases tail with
    | nil => cases head
    | cons d tail =>
        cases head
        exact pair tail same rfl

theorem braced_of_ahead (h : bracedHexAhead rest) :
    ∃ digits more, rest = digits ++ '\x7d' :: more ∧ digits ≠ [] ∧ digits.all isHexDigit := by
  simp only [bracedHexAhead] at h
  split at h
  · rename_i more left
    refine ⟨rest.takeWhile isHexDigit, more, ?_, by simpa using h, List.all_takeWhile⟩
    rw [← left, List.takeWhile_append_dropWhile]
  · cases h

theorem isHexDigit_of_octal (h : isOctalDigit c) : isHexDigit c := by
  simp only [isOctalDigit, Bool.and_eq_true, decide_eq_true_eq] at h
  simp only [isHexDigit, isDigit, Bool.or_eq_true, Bool.and_eq_true, decide_eq_true_eq]
  exact .inl (.inl ⟨h.1, Char.le_trans h.2 (by decide)⟩)

theorem exists_octalDigits (digit : isOctalDigit c) (text : List Char) :
    ∃ more rest, text = more ++ rest ∧ (∀ d ∈ more, isOctalDigit d) ∧
      OctalDigits rest (c :: more) := by
  by_cases ahead : text.head?.any isOctalDigit
  · cases text with
    | nil => cases ahead
    | cons d text =>
        by_cases longer : c ≤ '3' ∧ text.head?.any isOctalDigit
        · cases text with
          | nil => cases longer.2
          | cons e text =>
              exact ⟨[d, e], text, rfl, by simpa using ⟨ahead, longer.2⟩,
                ⟨digit, ahead, longer.2, longer.1⟩⟩
        · exact ⟨[d], text, rfl, by simpa using ahead,
            ⟨digit, ahead, fun small digit => longer ⟨small, digit⟩⟩⟩
  · exact ⟨[], text, rfl, nofun, ⟨digit, ahead⟩⟩

/-- A text up to its closing quote begins with a part, and goes on as it should. -/
def BeginsWithPart (q : Char) (left text : List Char) : Prop :=
  ∃ part next, text = StringPart.written part ++ next ∧ part.MayStand q next ∧
    Closes q next left ∧ Regular next

section Step

variable (hq : isQuote q)
include hq

theorem isHexDigit_inside (hex : isHexDigit c) : c ≠ '\\' ∧ (c ≠ '\n' ∧ c ≠ '\r') ∧ c ≠ q := by
  refine ⟨ne_of_isHexDigit hex rfl, ⟨ne_of_isHexDigit hex rfl, ne_of_isHexDigit hex rfl⟩, ?_⟩
  rcases isQuote_iff.mp hq with rfl | rfl
  all_goals exact ne_of_isHexDigit hex rfl

private theorem braced_part (ahead : bracedHexAhead (next ++ q :: left)) (closes : Closes q next left)
    (regular : Regular ('\\' :: 'u' :: '\x7b' :: next)) :
    BeginsWithPart q left ('\\' :: 'u' :: '\x7b' :: next) := by
  obtain ⟨digits, more, split, some, hex⟩ := braced_of_ahead ahead
  have plain : ∀ c ∈ digits ++ ['\x7d'], c ≠ '\\' ∧ (c ≠ '\n' ∧ c ≠ '\r') ∧ c ≠ q := by
    intro c mem
    rcases List.mem_append.mp mem with digit | last
    · exact isHexDigit_inside hq (List.all_eq_true.mp hex c digit)
    · rw [List.mem_singleton.mp last]
      rcases isQuote_iff.mp hq with rfl | rfl <;> decide
  have split : next ++ q :: left = digits ++ ['\x7d'] ++ more := by simpa using split
  obtain ⟨back, rfl, closed⟩ := closes.plains split plain
  have number : EscapeNumber ('\\' :: 'u' :: '\x7b' :: (digits ++ ['\x7d'] ++ back))
      (hexNumber digits) :=
    escapeNumber_backslash.mpr (.inl ⟨_, numericEscape?_braced hex some⟩)
  have free : '\\' ∉ '\x7b' :: (digits ++ ['\x7d']) := by
    rw [List.mem_cons, not_or]
    exact ⟨by decide, fun mem => (plain _ mem).1 rfl⟩
  have later : Regular ('\x7b' :: (digits ++ ['\x7d']) ++ back) := regular.escape nofun
  exact ⟨.braced digits, back, by simp [StringPart.written],
    ⟨some, hex, regular.numbers _ number⟩, closed, later.plains free⟩

private theorem octal_part (octal : isOctalDigit c) (closes : Closes q next left)
    (regular : Regular next) : BeginsWithPart q left ('\\' :: c :: next) := by
  obtain ⟨more, back, rfl, digits, stands⟩ := exists_octalDigits octal next
  obtain ⟨back', same, closed⟩ := closes.plains (List.append_assoc more back (q :: left))
    fun d mem => isHexDigit_inside hq (isHexDigit_of_octal (digits d mem))
  cases List.append_cancel_left same
  have plain : '\\' ∉ more := fun mem =>
    ne_of_isHexDigit (isHexDigit_of_octal (digits _ mem)) rfl rfl
  exact ⟨.octal (c :: more), back, rfl, stands, closed, regular.plains plain⟩

private theorem single_part (hx : c ≠ 'x') (hu : c ≠ 'u') (apart : c = '\r' → next.head? ≠ some '\n')
    (closes : Closes q next left) (regular : Regular ('\\' :: c :: next)) :
    BeginsWithPart q left ('\\' :: c :: next) := by
  have regular : Regular next := regular.escape apart
  by_cases line : isLineEnd c
  · refine ⟨.continuation [c], next, rfl, ?_, closes, regular⟩
    simp only [isLineEnd, Bool.or_eq_true, beq_iff_eq] at line
    rcases line with ((rfl | rfl) | rfl) | rfl
    · exact .inl (by simp)
    · exact .inr ⟨rfl, apart rfl⟩
    · exact .inl (by simp)
    · exact .inl (by simp)
  by_cases octal : isOctalDigit c
  · exact octal_part hq octal closes regular
  · exact ⟨.escape c, next, rfl, ⟨line, octal, hx, hu⟩, closes, regular⟩

theorem escape_part {front : List Char} (body : EscapeBody front (next ++ q :: left))
    (closes : Closes q next left) (regular : Regular ('\\' :: (front ++ next))) :
    BeginsWithPart q left ('\\' :: (front ++ next)) := by
  cases body with
  | hex two hex =>
      refine ⟨.hex _, next, rfl, ⟨two, hex⟩, closes, ?_⟩
      refine (regular.escape nofun).plains fun mem => ?_
      exact ne_of_isHexDigit (List.all_eq_true.mp hex _ mem) rfl rfl
  | unicode four hex =>
      refine ⟨.unicode _, next, rfl, ⟨four, hex⟩, closes, ?_⟩
      refine (regular.escape nofun).plains fun mem => ?_
      exact ne_of_isHexDigit (List.all_eq_true.mp hex _ mem) rfl rfl
  | braced ahead => exact braced_part hq ahead closes regular
  | lineBreak => exact ⟨.continuation _, next, rfl, .inl (by simp), closes, regular.lineBreak⟩
  | single hx hu pair =>
      refine single_part hq hx hu (fun same head => pair same ?_) closes regular
      cases next with
      | nil => cases head
      | cons d next => exact head

theorem Closes.part (h : Closes q (c :: inside) left) (regular : Regular (c :: inside)) :
    BeginsWithPart q left (c :: inside) := by
  have backslash : q ≠ '\\' := by rcases isQuote_iff.mp hq with rfl | rfl <;> decide
  by_cases escape : c = '\\'
  · subst escape
    obtain ⟨front, back, rfl, length, closes⟩ := h.escape backslash
    exact escape_part hq (escapeBody_of_length length) closes regular
  · obtain ⟨newline, carriage, regular⟩ := regular.char escape
    obtain ⟨other, closes⟩ := h.char escape ⟨newline, carriage⟩
    exact ⟨.char c, inside, rfl, ⟨other, escape, newline, carriage⟩, closes, regular⟩

theorem Closes.spelled (h : Closes q inside left) (regular : Regular inside) :
    ∃ parts, Spelled q parts inside := by
  induction size : inside.length using Nat.strongRecOn generalizing inside with
  | ind n ih =>
      subst size
      cases inside with
      | nil => exact ⟨[], .nil⟩
      | cons c inside =>
          obtain ⟨part, next, whole, stands, closes, regular⟩ := h.part hq regular
          have shorter : next.length < (c :: inside).length := by
            rw [whole, List.length_append]
            exact Nat.lt_add_of_pos_left part.written_pos
          obtain ⟨parts, spelled⟩ := ih _ shorter closes regular rfl
          rw [whole]
          exact ⟨part :: parts, .cons stands spelled⟩

end Step

theorem takeString_closes {text literal : List Char}
    (taken : takeString text = some (literal, left)) :
    ∃ q inside, isQuote q ∧ literal = q :: (inside ++ [q]) ∧ Closes q inside left := by
  cases text with
  | nil => cases taken
  | cons q text =>
      obtain ⟨inside, rfl, rfl⟩ := takeString_append taken
      rw [takeString] at taken
      split at taken
      · rename_i hq
        split at taken
        · rename_i found left' tail
          cases taken
          exact ⟨q, inside, hq, rfl, tail⟩
        · cases taken
      · cases taken

theorem inner_quoted (q : Char) (inside : List Char) :
    ((q :: (inside ++ [q])).drop 1).dropLast = inside :=
  List.dropLast_concat

/-- A literal that is taken is one of the language, if its line breaks and numbers are as they should
be. -/
theorem takeString_spelled {text literal : List Char} (taken : takeString text = some (literal, left))
    (regular : Regular (literal.drop 1).dropLast) : ∃ parts, StringLiteral parts literal := by
  obtain ⟨q, inside, hq, rfl, closes⟩ := takeString_closes taken
  rw [inner_quoted] at regular
  obtain ⟨parts, spelled⟩ := closes.spelled hq regular
  exact ⟨parts, q, inside, hq, spelled, rfl⟩

end Restyle.Value
