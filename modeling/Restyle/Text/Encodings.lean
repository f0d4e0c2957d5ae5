import Restyle.Text.CodePoint

/-!
# Encodings of code points

The encodings in which JSON may be sent, and the bytes of the strings that name files. Unlike text,
a string may hold surrogates. In JSON they are encoded as if they were characters; in the name of a
file some of them stand for bytes that are not UTF-8.
-/

namespace Restyle.Text

/-- An encoding by units of one, two or four bytes. If it is `big`, the first byte of a unit counts
most. -/
inductive Encoding
  | utf8
  | utf16 (big : Bool)
  | utf32 (big : Bool)
  deriving DecidableEq, Repr

def IsHigh (n : Nat) : Prop :=
  0xD800 ≤ n ∧ n < 0xDC00

def IsLow (n : Nat) : Prop :=
  0xDC00 ≤ n ∧ n < 0xE000

instance (n : Nat) : Decidable (IsHigh n) :=
  inferInstanceAs (Decidable (_ ∧ _))

instance (n : Nat) : Decidable (IsLow n) :=
  inferInstanceAs (Decidable (_ ∧ _))

def pairNumber (high low : Nat) : Nat :=
  0x10000 + (high - 0xD800) * 0x400 + (low - 0xDC00)

namespace Encoding

/-- The bytes of a unit, given with the most significant one first. -/
def ordered (big : Bool) (unit : List UInt8) : List UInt8 :=
  if big then unit else unit.reverse

def pair (big : Bool) (n : Nat) : List UInt8 :=
  ordered big [UInt8.ofNat (n / 256), UInt8.ofNat n]

def point : Encoding → CodePoint → List UInt8
  | utf8, p =>
      let n := p.val
      if n < 0x80 then [UInt8.ofNat n]
      else if n < 0x800 then [UInt8.ofNat (0xC0 + n / 64), UInt8.ofNat (0x80 + n % 64)]
      else if n < 0x10000 then
        [UInt8.ofNat (0xE0 + n / 4096), UInt8.ofNat (0x80 + n / 64 % 64), UInt8.ofNat (0x80 + n % 64)]
      else
        [UInt8.ofNat (0xF0 + n / 262144), UInt8.ofNat (0x80 + n / 4096 % 64),
          UInt8.ofNat (0x80 + n / 64 % 64), UInt8.ofNat (0x80 + n % 64)]
  | utf16 big, p =>
      if p.val < 0x10000 then pair big p.val
      else
        pair big (0xD800 + (p.val - 0x10000) / 0x400) ++ pair big (0xDC00 + (p.val - 0x10000) % 0x400)
  | utf32 big, p =>
      ordered big [0, UInt8.ofNat (p.val / 65536), UInt8.ofNat (p.val / 256), UInt8.ofNat p.val]

def encode (e : Encoding) (text : List CodePoint) : List UInt8 :=
  text.flatMap e.point

def mark (e : Encoding) : List UInt8 :=
  e.point 0xFEFF

/-- The number that bytes write, the first one counting most. -/
def number (bytes : List UInt8) : Nat :=
  bytes.foldl (fun n b => 256 * n + b.toNat) 0

/-- The number of the code point that begins some bytes, if one does. -/
def leading : Encoding → List UInt8 → Nat
  | utf8, bytes =>
      let tail (i : Nat) := (bytes[i]?.getD 0).toNat % 64
      let first := (bytes[0]?.getD 0).toNat
      if first < 0x80 then first
      else if first < 0xE0 then first % 32 * 64 + tail 1
      else if first < 0xF0 then first % 16 * 4096 + tail 1 * 64 + tail 2
      else first % 8 * 262144 + tail 1 * 4096 + tail 2 * 64 + tail 3
  | utf16 big, bytes =>
      let high := number (ordered big (bytes.take 2))
      let low := number (ordered big ((bytes.drop 2).take 2))
      if IsHigh high ∧ IsLow low then pairNumber high low else high
  | utf32 big, bytes => number (ordered big (bytes.take 4))

/-- The code point that begins some bytes, and the bytes after its own. -/
def first? (e : Encoding) (bytes : List UInt8) : Option (CodePoint × List UInt8) :=
  if h : e.leading bytes < 0x110000 then
    let own := e.point ⟨e.leading bytes, h⟩
    if own.isPrefixOf bytes then some (⟨e.leading bytes, h⟩, bytes.drop own.length) else none
  else none

/-- The code points of some bytes; at most one for each of `bound`. -/
def decodeWithin (e : Encoding) : List UInt8 → List UInt8 → Option (List CodePoint)
  | _, [] => some []
  | [], _ :: _ => none
  | _ :: bound, bytes => do
      let (p, rest) ← e.first? bytes
      return p :: (← decodeWithin e bound rest)

def decode (e : Encoding) (bytes : List UInt8) : Option (List CodePoint) :=
  e.decodeWithin bytes bytes

end Encoding

/-- The bytes that a code point in the name of a file stands for. Of the surrogates, some stand for
single bytes. The others cannot be part of a name, no more than zero can. -/
def systemPoint (p : CodePoint) : List UInt8 :=
  if 0xDC80 ≤ p.val ∧ p.val < 0xDD00 then [UInt8.ofNat p.val]
  else if p.IsSurrogate then [0]
  else Encoding.utf8.point p

/-- The bytes that a string stands for in the name of a file. -/
def systemBytes (string : List CodePoint) : List UInt8 :=
  string.flatMap systemPoint

/-- The string of some bytes in the name of a file; at most one code point for each of `bound`. -/
def systemStringWithin : List UInt8 → List UInt8 → List CodePoint
  | _ :: bound, b :: bytes =>
      match Encoding.utf8.first? (b :: bytes) with
      | some (p, rest) =>
          if p.IsSurrogate then Fin.ofNat _ (0xDC00 + b.toNat) :: systemStringWithin bound bytes
          else p :: systemStringWithin bound rest
      | none => Fin.ofNat _ (0xDC00 + b.toNat) :: systemStringWithin bound bytes
  | _, _ => []

/-- The string of some bytes in the name of a file. Bytes that are no UTF-8 become surrogates. -/
def systemString (bytes : List UInt8) : List CodePoint :=
  systemStringWithin bytes bytes

end Restyle.Text
