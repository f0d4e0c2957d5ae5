import Restyle.Text.Printable

/-!
# Quoted text

A text between quotes, as messages show it. Single quotes are used, unless the text holds a
single quote and no double one. The quote in use and the backslash are escaped; line feed,
carriage return and tab have escapes of their own; other unprintable characters are written by
number, in two, four or eight hexadecimal digits.
-/

namespace Restyle.Text

def hexDigit (n : Nat) : Char :=
  if n < 10 then Char.ofNat (48 + n) else Char.ofNat (87 + n)

def hexDigits : Nat → Nat → List Char
  | 0, _ => []
  | digits + 1, n => hexDigits digits (n / 16) ++ [hexDigit (n % 16)]

theorem exists_of_mem_hexDigits {digits n : Nat} {c : Char} (h : c ∈ hexDigits digits n) :
    ∃ d < 16, hexDigit d = c := by
  induction digits generalizing n with
  | zero => cases h
  | succ digits ih =>
      rw [hexDigits, List.mem_append, List.mem_singleton] at h
      rcases h with front | last
      · exact ih front
      · exact ⟨n % 16, Nat.mod_lt n (by decide), last.symm⟩

/-- The written form of a character between the given quotes. -/
def quotedChar (quote c : Char) : List Char :=
  if c = quote ∨ c = '\\' then ['\\', c]
  else if c = '\n' then ['\\', 'n']
  else if c = '\r' then ['\\', 'r']
  else if c = '\t' then ['\\', 't']
  else if isPrintable c then [c]
  else if c.toNat < 0x100 then '\\' :: 'x' :: hexDigits 2 c.toNat
  else if c.toNat < 0x10000 then '\\' :: 'u' :: hexDigits 4 c.toNat
  else '\\' :: 'U' :: hexDigits 8 c.toNat

def quoteFor (text : List Char) : Char :=
  if text.contains '\'' && !text.contains '"' then '"' else '\''

def quoted (text : List Char) : List Char :=
  let quote := quoteFor text
  quote :: (text.flatMap (quotedChar quote) ++ [quote])

end Restyle.Text
