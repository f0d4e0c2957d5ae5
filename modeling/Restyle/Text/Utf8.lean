import Restyle.Text.CodePoint

/-!
# UTF-8

Encoding, and decoding of arbitrary bytes. A decoder reads the bytes into pieces: characters, and
maximal stretches that begin no character. Strict decoding stops at the first such stretch and
says what is wrong there; lossy decoding puts one replacement character for each.
-/

namespace Restyle.Text

def encodeChar (c : Char) : List UInt8 :=
  let n := c.toNat
  if n < 0x80 then [UInt8.ofNat n]
  else if n < 0x800 then
    [UInt8.ofNat (0xC0 + n / 64), UInt8.ofNat (0x80 + n % 64)]
  else if n < 0x10000 then
    [UInt8.ofNat (0xE0 + n / 4096), UInt8.ofNat (0x80 + n / 64 % 64), UInt8.ofNat (0x80 + n % 64)]
  else
    [UInt8.ofNat (0xF0 + n / 262144), UInt8.ofNat (0x80 + n / 4096 % 64),
      UInt8.ofNat (0x80 + n / 64 % 64), UInt8.ofNat (0x80 + n % 64)]

def encode (text : List Char) : List UInt8 :=
  text.flatMap encodeChar

instance coeEncode : Coe (List Char) (List UInt8) :=
  ⟨encode⟩

def bytes (text : String) : List UInt8 :=
  encode text.toList

def charWidth (c : Char) : Nat :=
  let n := c.toNat
  if n < 0x80 then 1 else if n < 0x800 then 2 else if n < 0x10000 then 3 else 4

def byteLength : List Char → Nat
  | [] => 0
  | c :: rest => charWidth c + byteLength rest

inductive Flaw
  | unexpectedEnd
  | invalidContinuation
  | invalidStart
  deriving DecidableEq, Repr

def Flaw.reason : Flaw → String
  | .unexpectedEnd => "unexpected end of data"
  | .invalidContinuation => "invalid continuation byte"
  | .invalidStart => "invalid start byte"

structure Malformed where
  flaw : Flaw
  offset : Nat
  deriving DecidableEq, Repr

/-- A character under way: the value so far, the bytes still missing, and the range that the next
of them has to lie in. -/
structure Pending where
  value : Nat
  missing : Nat
  low : Nat
  high : Nat

inductive Opening
  | whole (c : Char)
  | lead (p : Pending)
  | stray

/-- Overlong forms, surrogates and numbers past the last code point are excluded by the range of
the second byte. -/
def opening (byte : UInt8) : Opening :=
  let b := byte.toNat
  if b < 0x80 then .whole (Char.ofNat b)
  else if b < 0xC2 then .stray
  else if b < 0xE0 then .lead ⟨b - 0xC0, 1, 0x80, 0xBF⟩
  else if b = 0xE0 then .lead ⟨b - 0xE0, 2, 0xA0, 0xBF⟩
  else if b = 0xED then .lead ⟨b - 0xE0, 2, 0x80, 0x9F⟩
  else if b < 0xF0 then .lead ⟨b - 0xE0, 2, 0x80, 0xBF⟩
  else if b = 0xF0 then .lead ⟨b - 0xF0, 3, 0x90, 0xBF⟩
  else if b < 0xF4 then .lead ⟨b - 0xF0, 3, 0x80, 0xBF⟩
  else if b = 0xF4 then .lead ⟨b - 0xF0, 3, 0x80, 0x8F⟩
  else .stray

inductive Piece
  | char (c : Char)
  | malformed (m : Malformed)

/-- The pieces of some bytes. `offset` is that of the next byte, and `open?` the character under
way with the offset where it began. -/
def pieces : Nat → Option (Pending × Nat) → List UInt8 → List Piece
  | _, none, [] => []
  | _, some (_, start), [] => [.malformed ⟨.unexpectedEnd, start⟩]
  | offset, none, b :: rest =>
      match opening b with
      | .whole c => .char c :: pieces (offset + 1) none rest
      | .lead p => pieces (offset + 1) (some (p, offset)) rest
      | .stray => .malformed ⟨.invalidStart, offset⟩ :: pieces (offset + 1) none rest
  | offset, some (p, start), b :: rest =>
      if p.low ≤ b.toNat ∧ b.toNat ≤ p.high then
        let value := p.value * 64 + (b.toNat - 0x80)
        if p.missing ≤ 1 then .char (Char.ofNat value) :: pieces (offset + 1) none rest
        else pieces (offset + 1) (some (⟨value, p.missing - 1, 0x80, 0xBF⟩, start)) rest
      else
        .malformed ⟨.invalidContinuation, start⟩ ::
          match opening b with
          | .whole c => .char c :: pieces (offset + 1) none rest
          | .lead q => pieces (offset + 1) (some (q, offset)) rest
          | .stray => .malformed ⟨.invalidStart, offset⟩ :: pieces (offset + 1) none rest

def collect : List Piece → Except Malformed (List Char)
  | [] => .ok []
  | .char c :: rest =>
      match collect rest with
      | .ok text => .ok (c :: text)
      | .error m => .error m
  | .malformed m :: _ => .error m

/-- The text of some bytes, or the first place where they are none. -/
def decode (bytes : List UInt8) : Except Malformed (List Char) :=
  collect (pieces 0 none bytes)

/-- A malformed piece reads as the replacement character. -/
def Piece.lossy : Piece → Char
  | .char c => c
  | .malformed _ => '\uFFFD'

/-- The text of some bytes, malformed stretches replaced. -/
def decodeLossy (bytes : List UInt8) : List Char :=
  (pieces 0 none bytes).map Piece.lossy

end Restyle.Text
