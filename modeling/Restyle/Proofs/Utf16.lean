import Mathlib.Data.List.Chain
import Restyle.Text.Encodings

/-!
# Code units

The values of strings are sequences of 16-bit code units. Read as text, a high surrogate and a low one
after it are one code point, and any other unit is one by itself. The units of code points are read
back as these code points unless a high surrogate comes directly before a low one.
-/

namespace Restyle.Text

/-- The code units of a code point. -/
def utf16 (n : Nat) : List UInt16 :=
  if n < 0x10000 then [n.toUInt16]
  else [(0xD800 + (n - 0x10000) / 0x400).toUInt16, (0xDC00 + (n - 0x10000) % 0x400).toUInt16]

/-- The code point of a unit that is not half of a pair. -/
def CodePoint.ofUnit (unit : UInt16) : CodePoint :=
  ⟨unit.toNat, Nat.lt_trans unit.toNat_lt (by decide)⟩

/-- The code point of a pair. -/
def CodePoint.ofPair (high low : UInt16) (h : IsHigh high.toNat) (l : IsLow low.toNat) : CodePoint :=
  ⟨0x10000 + 0x400 * (high.toNat - 0xD800) + (low.toNat - 0xDC00), by
    rw [IsHigh] at h
    rw [IsLow] at l
    omega⟩

def codePoints : List UInt16 → List CodePoint
  | [] => []
  | [unit] => [.ofUnit unit]
  | unit :: next :: rest =>
      if pair : IsHigh unit.toNat ∧ IsLow next.toNat then
        .ofPair unit next pair.1 pair.2 :: codePoints rest
      else .ofUnit unit :: codePoints (next :: rest)

/-- Code points none of which is the first half of a pair with the next one. -/
def Unpaired (points : List CodePoint) : Prop :=
  points.IsChain fun p q => ¬ (IsHigh p.val ∧ IsLow q.val)

/-- The code units of code points. -/
def units (points : List CodePoint) : List UInt16 :=
  points.flatMap fun p => utf16 p.val

variable {p q : CodePoint} {points : List CodePoint}

private theorem toNat_unit {n : Nat} (small : n < 0x10000) : n.toUInt16.toNat = n :=
  Nat.mod_eq_of_lt small

theorem ofUnit_toUInt16 (small : p.val < 0x10000) : CodePoint.ofUnit p.val.toUInt16 = p :=
  Fin.ext (toNat_unit small)

theorem utf16_small {n : Nat} (small : n < 0x10000) : utf16 n = [n.toUInt16] :=
  if_pos small

theorem units_cons : units (p :: points) = utf16 p.val ++ units points :=
  List.flatMap_cons

/-- The first unit of a code point is the second half of a pair only if the code point is. -/
theorem utf16_head : ∃ unit more, utf16 p.val = unit :: more ∧ (IsLow unit.toNat ↔ IsLow p.val) := by
  have bound := p.isLt
  rw [utf16]
  split
  · rename_i small
    exact ⟨_, [], rfl, by rw [toNat_unit small]⟩
  · refine ⟨_, _, rfl, ?_⟩
    rw [toNat_unit (by omega), IsLow, IsLow]
    omega

theorem codePoints_large (large : 0x10000 ≤ p.val) (rest : List UInt16) :
    codePoints (utf16 p.val ++ rest) = p :: codePoints rest := by
  have bound := p.isLt
  rw [utf16, if_neg (Nat.not_lt.mpr large)]
  have high : 0xD800 + (p.val - 0x10000) / 0x400 ≤ 0xDBFF := by omega
  have low : 0xDC00 + (p.val - 0x10000) % 0x400 ≤ 0xDFFF := by omega
  have halves : 0x400 * ((p.val - 0x10000) / 0x400) + (p.val - 0x10000) % 0x400 = p.val - 0x10000 :=
    Nat.div_add_mod _ _
  generalize (p.val - 0x10000) / 0x400 = first at *
  generalize (p.val - 0x10000) % 0x400 = second at *
  have front : (0xD800 + first).toUInt16.toNat = 0xD800 + first := toNat_unit (by omega)
  have back : (0xDC00 + second).toUInt16.toNat = 0xDC00 + second := toNat_unit (by omega)
  have pair : IsHigh (0xD800 + first).toUInt16.toNat ∧ IsLow (0xDC00 + second).toUInt16.toNat := by
    rw [front, back, IsHigh, IsLow]
    omega
  simp only [List.cons_append, List.nil_append, codePoints]
  rw [dif_pos pair]
  refine congrArg (· :: codePoints rest) (Fin.ext ?_)
  change 0x10000 + 0x400 * ((0xD800 + first).toUInt16.toNat - 0xD800) +
    ((0xDC00 + second).toUInt16.toNat - 0xDC00) = _
  rw [front, back, Nat.add_sub_cancel_left, Nat.add_sub_cancel_left, Nat.add_assoc, halves,
    Nat.add_sub_of_le large]

theorem codePoints_units_cons (alone : ¬ (IsHigh p.val ∧ IsLow q.val)) :
    codePoints (units (p :: q :: points)) = p :: codePoints (units (q :: points)) := by
  rcases Nat.lt_or_ge p.val 0x10000 with small | large
  · obtain ⟨unit, more, head, low⟩ := utf16_head (p := q)
    rw [units_cons, units_cons, utf16_small small, head]
    simp only [List.cons_append, List.nil_append, codePoints]
    rw [dif_neg (by rwa [toNat_unit small, low]), ofUnit_toUInt16 small]
  · rw [units_cons, codePoints_large large]

theorem codePoints_units_pair (points : List CodePoint) (high : IsHigh p.val) (low : IsLow q.val) :
    ∃ joined, codePoints (units (p :: q :: points)) = joined :: codePoints (units points) := by
  have small : p.val < 0x10000 := Nat.lt_of_lt_of_le high.2 (by decide)
  have small' : q.val < 0x10000 := Nat.lt_of_lt_of_le low.2 (by decide)
  rw [units_cons, units_cons, utf16_small small, utf16_small small']
  simp only [List.cons_append, List.nil_append, codePoints]
  rw [dif_pos (by rw [toNat_unit small, toNat_unit small']; exact ⟨high, low⟩)]
  exact ⟨_, rfl⟩

theorem codePoints_units_singleton : codePoints (units [p]) = [p] := by
  rcases Nat.lt_or_ge p.val 0x10000 with small | large
  · rw [units_cons, utf16_small small]
    exact congrArg (· :: []) (ofUnit_toUInt16 small)
  · rw [units_cons, codePoints_large large]
    rfl

theorem codePoints_units (h : Unpaired points) : codePoints (units points) = points := by
  induction points with
  | nil => rfl
  | cons p points ih =>
      cases points with
      | nil => exact codePoints_units_singleton
      | cons q points =>
          obtain ⟨alone, h⟩ := List.isChain_cons_cons.mp h
          rw [codePoints_units_cons alone, ih h]

theorem length_codePoints : ∀ points : List CodePoint,
    (codePoints (units points)).length ≤ points.length ∧
      (¬ Unpaired points → (codePoints (units points)).length < points.length)
  | [] => ⟨Nat.le_refl 0, fun paired => absurd List.IsChain.nil paired⟩
  | [p] => by
      rw [codePoints_units_singleton]
      exact ⟨Nat.le_refl 1, fun paired => absurd (List.IsChain.singleton p) paired⟩
  | p :: q :: points => by
      by_cases pair : IsHigh p.val ∧ IsLow q.val
      · obtain ⟨joined, first⟩ := codePoints_units_pair points pair.1 pair.2
        obtain ⟨most, -⟩ := length_codePoints points
        rw [first]
        simp only [List.length_cons]
        exact ⟨by omega, fun _ => by omega⟩
      · obtain ⟨most, fewer⟩ := length_codePoints (q :: points)
        rw [codePoints_units_cons pair]
        refine ⟨Nat.succ_le_succ most, fun paired => Nat.succ_lt_succ (fewer fun rest => paired ?_)⟩
        exact List.isChain_cons_cons.mpr ⟨pair, rest⟩

end Restyle.Text
