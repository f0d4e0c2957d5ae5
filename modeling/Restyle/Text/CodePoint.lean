/-!
# Code points

Source text is a list of characters. A value decoded from a string literal may also hold
surrogates, which are code points but no characters, so it is a list of code points; it turns
into text only if it holds none of them.
-/

namespace Restyle.Text

abbrev CodePoint := Fin 0x110000

instance neZeroCodePoints : @NeZero Nat Zero.ofOfNat0 0x110000 :=
  Nat.instNeZeroSucc

def CodePoint.ofChar (c : Char) : CodePoint :=
  ⟨c.toNat, by
    rcases c.valid with h | h
    · exact Nat.lt_trans h (by decide)
    · exact h.2⟩

instance : Coe Char CodePoint :=
  ⟨CodePoint.ofChar⟩

def CodePoint.IsSurrogate (p : CodePoint) : Prop :=
  0xD800 ≤ p.val ∧ p.val ≤ 0xDFFF

instance (p : CodePoint) : Decidable p.IsSurrogate :=
  inferInstanceAs (Decidable (_ ∧ _))

/-- The character at a code point; surrogates have none. -/
def CodePoint.toChar? (p : CodePoint) : Option Char :=
  if p.IsSurrogate then none else some (Char.ofNat p.val)

def ofChars (text : List Char) : List CodePoint :=
  text.map CodePoint.ofChar

/-- Code points as text, unless one of them is a surrogate. -/
def toChars? (points : List CodePoint) : Option (List Char) :=
  points.mapM CodePoint.toChar?

/-- A name as text. One that is no text is the name of nothing, like the empty one. -/
def asName (name : List CodePoint) : List Char :=
  (toChars? name).getD []

@[simp] theorem CodePoint.toChar?_ofChar (c : Char) : (CodePoint.ofChar c).toChar? = some c := by
  have h : ¬ (CodePoint.ofChar c).IsSurrogate := by
    simp only [CodePoint.IsSurrogate, CodePoint.ofChar]
    rcases c.valid with h | h
    · exact fun hs => Nat.lt_irrefl _ (Nat.lt_of_le_of_lt hs.1 h)
    · exact fun hs => Nat.lt_irrefl _ (Nat.lt_of_lt_of_le h.1 hs.2)
  rw [CodePoint.toChar?, if_neg h]
  simp [CodePoint.ofChar]

@[simp] theorem toChars?_ofChars (text : List Char) : toChars? (ofChars text) = some text := by
  induction text with
  | nil => rfl
  | cons c rest ih =>
      simp only [toChars?, ofChars] at ih
      simp [toChars?, ofChars, ih]

end Restyle.Text
