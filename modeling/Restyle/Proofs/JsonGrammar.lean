import Mathlib.Data.Nat.Digits.Defs
import Restyle.Json.Basic
import Restyle.Text.Encodings
import Restyle.Value.Literal

/-!
# The grammar of JSON

The texts that write a value, with so many arrays and objects one inside another, and the texts that
begin by opening more than that. A code point of a string may be written in several ways; a surrogate
pair that is escaped is one code point.
-/

namespace Restyle.Json

open Text

abbrev Form := List CodePoint → Prop

def IsBlank (c : CodePoint) : Prop :=
  c = ' ' ∨ c = '\t' ∨ c = '\n' ∨ c = '\r'

def Blanks : Form := fun t => ∀ c ∈ t, IsBlank c

/-- A backslash, the letter u and four hexadecimal digits. -/
def EscapedUnit (p : CodePoint) : Form := fun t =>
  ∃ digits : List Char, t = Text.ofChars ('\\' :: 'u' :: digits) ∧ digits.length = 4 ∧
    digits.all Syntax.isHexDigit ∧ p.val = Value.hexNumber digits

/-- The characters that come after a backslash, and what they stand for there. -/
def escapes : List (Char × Char) :=
  [('"', '"'), ('\\', '\\'), ('/', '/'), ('b', '\x08'), ('f', '\x0c'), ('n', '\n'), ('r', '\r'),
    ('t', '\t')]

/-- An escape of a code point in front of some text. An escape of the first half of a surrogate pair is
no escape by itself if one of the second half comes next. -/
inductive Escape (after : List CodePoint) : CodePoint → Form
  | simple {c p : Char} : (c, p) ∈ escapes → Escape after p ['\\', c]
  | pair {high low p : CodePoint} {u v : List CodePoint} : EscapedUnit high u → EscapedUnit low v →
      IsHigh high.val → IsLow low.val →
      p.val = 0x10000 + (high.val - 0xD800) * 0x400 + (low.val - 0xDC00) → Escape after p (u ++ v)
  | unit {p : CodePoint} {u : List CodePoint} : EscapedUnit p u →
      (∀ low v rest, EscapedUnit low v → after = v ++ rest → ¬ (IsHigh p.val ∧ IsLow low.val)) →
      Escape after p u

/-- What stands between the quotes of a string of code points. -/
inductive Inside : List CodePoint → Form
  | nil : Inside [] []
  | plain {p : CodePoint} {points t : List CodePoint} :
      0x20 ≤ p.val → p ≠ '"' → p ≠ '\\' → Inside points t → Inside (p :: points) (p :: t)
  | escape {p : CodePoint} {e points t : List CodePoint} : Escape t p e → Inside points t →
      Inside (p :: points) (e ++ t)

def Quoted (points : List CodePoint) : Form := fun t =>
  ∃ inside, t = ('"' : CodePoint) :: (inside ++ [('"' : CodePoint)]) ∧ Inside points inside

def Digits : Form := fun t =>
  t ≠ [] ∧ ∀ c ∈ t, 0x30 ≤ c.val ∧ c.val ≤ 0x39

/-- The digits before any fraction do not begin with a zero that could be left out. -/
def Whole : Form := fun t =>
  t = [('0' : CodePoint)] ∨ Digits t ∧ t.head? ≠ some ('0' : CodePoint)

def Fraction : Form := fun t =>
  ∃ digits, t = ('.' : CodePoint) :: digits ∧ Digits digits

def Optional (W : Form) : Form := fun t =>
  t = [] ∨ W t

def Sign : Form := fun t =>
  ∃ c : CodePoint, t = [c] ∧ (c = '+' ∨ c = '-')

def Exponent : Form := fun t =>
  ∃ (mark : CodePoint) (sign digits : List CodePoint), t = mark :: (sign ++ digits) ∧
    (mark = 'e' ∨ mark = 'E') ∧ Optional Sign sign ∧ Digits digits

/-- The number that digits write. -/
def natural (digits : List CodePoint) : Nat :=
  Nat.ofDigits 10 (digits.reverse.map fun c => c.val - 0x30)

/-- The numbers and words that stand for a value. An integer may have 4300 digits. -/
inductive Literal : Json → Form
  | null : Literal .null (Text.ofChars "null".toList)
  | yes : Literal (.boolean true) (Text.ofChars "true".toList)
  | no : Literal (.boolean false) (Text.ofChars "false".toList)
  | nan : Literal .inexact (Text.ofChars "NaN".toList)
  | infinite : Literal .inexact (Text.ofChars "Infinity".toList)
  | below : Literal .inexact (Text.ofChars "-Infinity".toList)
  | natural {digits : List CodePoint} : Whole digits → digits.length ≤ 4300 →
      Literal (.integer (natural digits)) digits
  | negative {digits : List CodePoint} : Whole digits → digits.length ≤ 4300 →
      Literal (.integer (-natural digits)) ('-' :: digits)
  | inexact {sign digits fraction exponent : List CodePoint} : Optional (· = [('-' : CodePoint)]) sign →
      Whole digits → Optional Fraction fraction → Optional Exponent exponent →
      ¬ (fraction = [] ∧ exponent = []) →
      Literal .inexact (sign ++ digits ++ fraction ++ exponent)

/-- A value that holds no others. -/
inductive Scalar : Json → Form
  | string {points t : List CodePoint} : Quoted points t → Scalar (.string points) t
  | literal {v : Json} {t : List CodePoint} : Literal v t → Scalar v t

def Led (W : Form) : Form := fun t =>
  ∃ blanks own, t = blanks ++ own ∧ Blanks blanks ∧ W own

/-- Something after a name and a colon. -/
def Named (name : List CodePoint) (W : Form) : Form := fun t =>
  ∃ quoted blanks value, t = quoted ++ blanks ++ (':' : CodePoint) :: value ∧ Led (Quoted name) quoted ∧
    Blanks blanks ∧ Led W value

section Sequences

variable {α : Type} (M : α → Form)

/-- Elements with commas between them, blanks after each. -/
inductive Listed : List α → Form
  | last {a : α} {t blanks : List CodePoint} : M a t → Blanks blanks → Listed [a] (t ++ blanks)
  | cons {a : α} {as : List α} {t blanks more : List CodePoint} : M a t → Blanks blanks →
      Listed as more → Listed (a :: as) (t ++ blanks ++ (',' : CodePoint) :: more)

/-- What stands between the brackets of an array or an object. -/
inductive Content : List α → Form
  | none {t : List CodePoint} : Blanks t → Content [] t
  | some {as : List α} {t : List CodePoint} : Listed M as t → Content as t

/-- Elements, and something in the place of another one. -/
inductive Cut (B : Form) : Form
  | here {t : List CodePoint} : B t → Cut B t
  | later {a : α} {t blanks more : List CodePoint} : M a t → Blanks blanks → Cut B more →
      Cut B (t ++ blanks ++ (',' : CodePoint) :: more)

end Sequences

def Item (W : Json → Form) (v : Json) : Form :=
  Led (W v)

def Member (W : Json → Form) (m : List CodePoint × Json) : Form :=
  Named m.1 (W m.2)

inductive Container (W : Json → Form) : Json → Form
  | array {items : List Json} {t : List CodePoint} : Content (Item W) items t →
      Container W (.array items) ('[' :: (t ++ [(']' : CodePoint)]))
  | object {members : List (List CodePoint × Json)} {t : List CodePoint} :
      Content (Member W) members t → Container W (.object members) ('\x7b' :: (t ++ [('\x7d' : CodePoint)]))

/-- A value with at most so many arrays and objects one inside another. -/
def Nested : Nat → Json → Form
  | 0, v => Scalar v
  | n + 1, v => fun t => Scalar v t ∨ Container (Nested n) v t

/-- The beginning of an array or an object, in which another one begins. -/
inductive Opening (W : Json → Form) (B : Form) : Form
  | array {t : List CodePoint} : Cut (Item W) (Led B) t → Opening W B ('[' :: t)
  | object {t : List CodePoint} : Cut (Member W) (fun t => ∃ name, Named name B t) t →
      Opening W B ('\x7b' :: t)

/-- More than so many arrays and objects are opened one inside another. What comes after the last one
of them may be anything. -/
def Opens : Nat → Form
  | 0 => fun t => ∃ rest, t = ('[' : CodePoint) :: rest ∨ t = ('\x7b' : CodePoint) :: rest
  | n + 1 => Opening (Nested n) (Opens n)

/-- A text writes a value: blanks may stand around it. -/
def Writes (n : Nat) (v : Json) : Form := fun text =>
  ∃ before own after, text = before ++ own ++ after ∧ Blanks before ∧ Blanks after ∧ Nested n v own

end Restyle.Json
