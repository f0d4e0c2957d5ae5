import Restyle.Json.Read
import Restyle.Proofs.JsonGrammar
import Restyle.Proofs.StringValues

/-!
# Reading strings of JSON

A string is read exactly where one stands, up to its closing quote.
-/

namespace Restyle.Json

open Text

variable {c : Char} {p q : CodePoint} {text rest points digits : List CodePoint}

theorem after?_eq_some : after? c text = some rest ↔ text = (c : CodePoint) :: rest := by
  cases text with
  | nil => exact ⟨nofun, nofun⟩
  | cons d more =>
      simp only [after?]
      split
      · rename_i same
        rw [same]
        simp
      · rename_i other
        simp [other]

@[simp] theorem after?_cons (c : Char) (rest : List CodePoint) :
    after? c ((c : CodePoint) :: rest) = some rest :=
  after?_eq_some.mpr rfl

theorem after?_cons_of_ne {d : CodePoint} (h : d ≠ c) (rest : List CodePoint) :
    after? c (d :: rest) = none :=
  if_neg h

theorem unit?_eq_some (short : digits.length ≤ 4) : unit? digits = some p ↔
    ∃ hex : List Char, digits = Text.ofChars hex ∧ hex.length = 4 ∧ hex.all Syntax.isHexDigit ∧
      p.val = Value.hexNumber hex := by
  rw [unit?]
  cases chars : toChars? digits with
  | none =>
      refine iff_of_false (by simp) ?_
      rintro ⟨hex, rfl, -⟩
      rw [toChars?_ofChars] at chars
      cases chars
  | some hex =>
      obtain rfl := toChars?_eq_some.mp chars
      rw [Text.ofChars, List.length_map] at short
      rw [Option.bind_some, Value.fixedHex?, List.take_of_length_le short]
      split
      · rename_i n found
        obtain ⟨four, number⟩ := Option.ite_none_right_eq_some.mp found
        obtain rfl := Option.some.inj number
        have small : Value.hexNumber hex < 0x110000 := by
          have bound := Value.hexNumber_lt four.2
          rw [four.1] at bound
          exact Nat.lt_trans bound (by decide)
        rw [dif_pos small, Option.some.injEq]
        constructor
        · rintro rfl
          exact ⟨hex, rfl, four.1, four.2, rfl⟩
        · rintro ⟨hex', same, -, -, number⟩
          obtain rfl := ofChars_injective same
          exact Fin.ext number.symm
      · rename_i none
        refine iff_of_false (by simp) ?_
        rintro ⟨hex', same, four⟩
        obtain rfl := ofChars_injective same
        rw [if_pos ⟨four.1, four.2.1⟩] at none
        cases none

theorem readUnit_eq_some : readUnit text = some (p, rest) ↔
    ∃ u, EscapedUnit p (('\\' : CodePoint) :: u) ∧ text = u ++ rest := by
  simp only [readUnit, Option.bind_eq_bind, Option.bind_eq_some_iff, Option.pure_def,
    Option.some.injEq, Prod.mk.injEq, after?_eq_some]
  constructor
  · rintro ⟨more, rfl, p', found, rfl, rfl⟩
    obtain ⟨hex, taken, four, digits, number⟩ := (unit?_eq_some (List.length_take_le 4 more)).mp found
    refine ⟨('u' : CodePoint) :: Text.ofChars hex, ⟨hex, rfl, four, digits, number⟩, ?_⟩
    rw [← taken, List.cons_append, List.take_append_drop]
  · rintro ⟨u, ⟨hex, same, four, digits, number⟩, rfl⟩
    obtain rfl := (List.cons.inj same).2
    have length : (Text.ofChars hex).length = 4 := (List.length_map _).trans four
    refine ⟨Text.ofChars hex ++ rest, rfl, p, ?_, rfl, List.drop_left' length⟩
    rw [List.take_left' length]
    exact (unit?_eq_some (Nat.le_of_eq length)).mpr ⟨hex, rfl, four, digits, number⟩

theorem simpleEscape?_eq_some :
    simpleEscape? p = some q ↔ ∃ c e : Char, (c, e) ∈ escapes ∧ p = c ∧ q = e := by
  rw [simpleEscape?]
  cases chars : p.toChar? with
  | none =>
      refine iff_of_false nofun ?_
      rintro ⟨c, e, -, rfl, -⟩
      rw [CodePoint.toChar?_ofChar] at chars
      cases chars
  | some d =>
      obtain rfl := CodePoint.toChar?_eq_some chars
      simp only [CodePoint.ofChar_inj, escapes]
      split <;> simp_all [eq_comm]

theorem EscapedUnit.quote_not_mem {u : List CodePoint} (h : EscapedUnit p u) :
    ('"' : CodePoint) ∉ u := by
  obtain ⟨digits, rfl, -, hex, -⟩ := h
  intro mem
  obtain ⟨c, mem, same⟩ := List.mem_map.mp mem
  obtain rfl := CodePoint.ofChar_inj.mp same
  rcases List.mem_cons.mp mem with slash | mem
  · cases slash
  rcases List.mem_cons.mp mem with u | mem
  · cases u
  · exact absurd (List.all_eq_true.mp hex _ mem) (by decide)

theorem EscapedUnit.before {u t left : List CodePoint} (h : EscapedUnit p u)
    (split : t ++ ('"' : CodePoint) :: rest = u ++ left) : ∃ more, t = u ++ more := by
  rcases List.append_eq_append_iff.mp split with ⟨more, unit, after⟩ | ⟨more, before, -⟩
  · cases more with
    | nil => exact ⟨[], by simpa using unit.symm⟩
    | cons c more =>
        obtain rfl := (List.cons.inj after).1
        exact absurd (unit ▸ List.mem_append_right t List.mem_cons_self) h.quote_not_mem
  · exact ⟨more, before⟩

theorem pair?_eq_some {high low : CodePoint} : pair? high low = some p ↔
    IsHigh high.val ∧ IsLow low.val ∧
      p.val = 0x10000 + (high.val - 0xD800) * 0x400 + (low.val - 0xDC00) := by
  rw [pair?, Option.ite_none_right_eq_some, and_assoc]
  refine and_congr_right fun isHigh => and_congr_right fun isLow => ?_
  have small : pairNumber high.val low.val < 0x110000 := by
    unfold pairNumber
    rw [IsHigh] at isHigh
    rw [IsLow] at isLow
    omega
  rw [Option.some.injEq, Fin.ext_iff, eq_comm]
  rw [Fin.val_ofNat, Nat.mod_eq_of_lt small]
  rfl

theorem readLow_eq_some {high : CodePoint} : readLow high text = some (p, rest) ↔
    ∃ low v, EscapedUnit low v ∧ text = v ++ rest ∧ IsHigh high.val ∧ IsLow low.val ∧
      p.val = 0x10000 + (high.val - 0xD800) * 0x400 + (low.val - 0xDC00) := by
  simp only [readLow, Option.bind_eq_bind, Option.bind_eq_some_iff, Prod.exists, Option.pure_def,
    Option.some.injEq, Prod.mk.injEq, after?_eq_some, readUnit_eq_some, pair?_eq_some]
  constructor
  · rintro ⟨more, rfl, low, left, ⟨u, unit, rfl⟩, p, pair, rfl, rfl⟩
    exact ⟨low, _, unit, rfl, pair⟩
  · rintro ⟨low, v, unit, rfl, pair⟩
    obtain ⟨digits, rfl, h⟩ := unit
    exact ⟨_, rfl, low, rest, ⟨_, ⟨digits, rfl, h⟩, rfl⟩, p, pair, rfl, rfl⟩

theorem exists_pair {high low : CodePoint} (isHigh : IsHigh high.val) (isLow : IsLow low.val) :
    ∃ p : CodePoint, p.val = 0x10000 + (high.val - 0xD800) * 0x400 + (low.val - 0xDC00) := by
  rw [IsHigh] at isHigh
  rw [IsLow] at isLow
  exact ⟨⟨0x10000 + (high.val - 0xD800) * 0x400 + (low.val - 0xDC00), by omega⟩, rfl⟩

theorem EscapedUnit.cons {t : List CodePoint} (h : EscapedUnit p t) :
    ∃ u, t = ('\\' : CodePoint) :: u := by
  obtain ⟨digits, rfl, -⟩ := h
  exact ⟨_, rfl⟩

theorem readLow_eq_none {high : CodePoint} : readLow high text = none ↔
    ∀ low v more, EscapedUnit low v → text = v ++ more → ¬ (IsHigh high.val ∧ IsLow low.val) := by
  constructor
  · rintro none low v more second rfl ⟨isHigh, isLow⟩
    obtain ⟨q, number⟩ := exists_pair isHigh isLow
    rw [readLow_eq_some.mpr ⟨low, v, second, rfl, isHigh, isLow, number⟩] at none
    cases none
  · intro alone
    rw [Option.eq_none_iff_forall_ne_some]
    rintro ⟨q, more⟩ found
    obtain ⟨low, v, second, split, isHigh, isLow, -⟩ := readLow_eq_some.mp found
    exact alone low v more second split ⟨isHigh, isLow⟩

theorem readUnit_simple {c d : Char} (escape : (c, d) ∈ escapes) (rest : List CodePoint) :
    readUnit ((c : CodePoint) :: rest) = none := by
  rw [Option.eq_none_iff_forall_ne_some]
  rintro ⟨q, more⟩ found
  obtain ⟨u, ⟨digits, same, -⟩, split⟩ := readUnit_eq_some.mp found
  obtain rfl := (List.cons.inj same).2
  have isU : c = 'u' := CodePoint.ofChar_inj.mp (List.cons.inj split).1
  rw [isU] at escape
  exact absurd escape (by simp [escapes])

theorem readEscape_sound (h : readEscape text = some (p, rest)) :
    ∃ e, Escape rest p (('\\' : CodePoint) :: e) ∧ text = e ++ rest := by
  unfold readEscape at h
  split at h
  · rename_i high left unit
    obtain ⟨u, first, rfl⟩ := readUnit_eq_some.mp unit
    cases next : readLow high left with
    | none =>
        rw [next] at h
        cases h
        exact ⟨u, .unit first (readLow_eq_none.mp next), rfl⟩
    | some found =>
        obtain ⟨q, more⟩ := found
        rw [next] at h
        cases h
        obtain ⟨low, v, second, rfl, isHigh, isLow, number⟩ := readLow_eq_some.mp next
        exact ⟨u ++ v, .pair first second isHigh isLow number, (List.append_assoc u v rest).symm⟩
  · split at h
    · simp only [Option.map_eq_some_iff, Prod.mk.injEq] at h
      obtain ⟨q, simple, rfl, rfl⟩ := h
      obtain ⟨c, e, escape, rfl, rfl⟩ := simpleEscape?_eq_some.mp simple
      exact ⟨[(c : CodePoint)], .simple escape, rfl⟩
    · cases h

theorem Escape.read {e : List CodePoint} (h : Escape rest p (('\\' : CodePoint) :: e)) :
    readEscape (e ++ rest) = some (p, rest) := by
  generalize whole : ('\\' : CodePoint) :: e = t at h
  cases h with
  | @simple c d escape =>
      obtain rfl := (List.cons.inj whole).2
      have simple := simpleEscape?_eq_some.mpr ⟨c, d, escape, rfl, rfl⟩
      simp only [List.cons_append, List.nil_append, readEscape.eq_def, readUnit_simple escape, simple,
        Option.map_some]
  | @pair high low _ _ v first second isHigh isLow number =>
      obtain ⟨u, rfl⟩ := first.cons
      obtain rfl : e = u ++ v := (List.cons.inj whole).2
      have unit : readUnit (u ++ v ++ rest) = some (high, v ++ rest) :=
        readUnit_eq_some.mpr ⟨u, first, List.append_assoc u v rest⟩
      have low : readLow high (v ++ rest) = some (p, rest) :=
        readLow_eq_some.mpr ⟨_, v, second, rfl, isHigh, isLow, number⟩
      simp only [readEscape.eq_def, unit, low, Option.getD_some]
  | unit first alone =>
      obtain rfl := whole
      have unit : readUnit (e ++ rest) = some (p, rest) :=
        readUnit_eq_some.mpr ⟨e, first, rfl⟩
      simp only [readEscape.eq_def, unit, readLow_eq_none.mpr alone, Option.getD_none]

/-- Whether an escape stands by itself does not depend on what follows the string. -/
theorem Escape.append_quote {t e : List CodePoint} :
    Escape (t ++ ('"' : CodePoint) :: rest) p e ↔ Escape t p e := by
  constructor
  · intro h
    cases h with
    | simple escape => exact .simple escape
    | pair first second isHigh isLow number => exact .pair first second isHigh isLow number
    | unit first alone =>
        refine .unit first ?_
        rintro low v more second rfl
        exact alone low v _ second (List.append_assoc v more _)
  · intro h
    cases h with
    | simple escape => exact .simple escape
    | pair first second isHigh isLow number => exact .pair first second isHigh isLow number
    | unit first alone =>
        refine .unit first ?_
        intro low v more second split
        obtain ⟨more, same⟩ := second.before split
        exact alone low v more second same

theorem Escape.cons {t e : List CodePoint} (h : Escape t p e) :
    ∃ own, e = ('\\' : CodePoint) :: own := by
  cases h with
  | simple escape => exact ⟨_, rfl⟩
  | unit first alone => exact first.cons
  | pair first second isHigh isLow number =>
      obtain ⟨u, rfl⟩ := first.cons
      exact ⟨_, rfl⟩

theorem readPoints_sound {bound : List CodePoint} (h : readPoints bound text = some (points, rest)) :
    ∃ inside, text = inside ++ ('"' : CodePoint) :: rest ∧ Inside points inside := by
  induction bound generalizing text points with
  | nil => cases h
  | cons _ bound ih =>
      cases text with
      | nil => cases h
      | cons c text =>
          rw [readPoints] at h
          split at h
          · rename_i quote
            cases h
            exact ⟨[], congrArg (· :: rest) quote, .nil⟩
          split at h
          · rename_i slash
            simp only [Option.bind_eq_bind, Option.bind_eq_some_iff, Prod.exists, Option.pure_def,
              Option.some.injEq, Prod.mk.injEq] at h
            obtain ⟨p, left, escaped, points, rest', more, rfl, rfl⟩ := h
            obtain ⟨e, escape, rfl⟩ := readEscape_sound escaped
            obtain ⟨inside, rfl, within⟩ := ih more
            refine ⟨c :: e ++ inside, by simp, ?_⟩
            rw [slash]
            exact .escape (Escape.append_quote.mp escape) within
          split at h
          · cases h
          · rename_i quote slash control
            simp only [Option.bind_eq_bind, Option.bind_eq_some_iff, Prod.exists, Option.pure_def,
              Option.some.injEq, Prod.mk.injEq] at h
            obtain ⟨points, rest', more, rfl, rfl⟩ := h
            obtain ⟨inside, rfl, within⟩ := ih more
            exact ⟨c :: inside, rfl, .plain (Nat.le_of_not_lt control) quote slash within⟩

theorem readPoints_inside {bound inside : List CodePoint} (h : Inside points inside)
    (enough : inside.length < bound.length) :
    readPoints bound (inside ++ ('"' : CodePoint) :: rest) = some (points, rest) := by
  induction h generalizing bound with
  | nil =>
      cases bound with
      | nil => cases enough
      | cons _ bound => rfl
  | plain control quote slash within ih =>
      cases bound with
      | nil => cases enough
      | cons _ bound =>
          have later := ih (Nat.lt_of_succ_lt_succ enough)
          rw [List.cons_append, readPoints, if_neg quote, if_neg slash,
            if_neg (Nat.not_lt.mpr control), later]
          rfl
  | @escape p e points t escape within ih =>
      obtain ⟨own, rfl⟩ := escape.cons
      cases bound with
      | nil => cases enough
      | cons _ bound =>
          have shorter : t.length < bound.length := by
            simp only [List.length_append, List.length_cons] at enough
            omega
          have first : readEscape (own ++ (t ++ ('"' : CodePoint) :: rest)) = some (p, _) :=
            (Escape.append_quote.mpr escape).read
          have later := ih shorter
          rw [List.append_assoc, List.cons_append, readPoints, if_neg (by decide), if_pos rfl]
          simp only [first, later, Option.bind_eq_bind, Option.bind_some, Option.pure_def]

theorem readString_eq_some : readString text = some (points, rest) ↔
    ∃ inside, text = inside ++ ('"' : CodePoint) :: rest ∧ Inside points inside := by
  constructor
  · exact readPoints_sound
  · rintro ⟨inside, rfl, h⟩
    apply readPoints_inside h
    rw [List.length_append, List.length_cons]
    omega

end Restyle.Json
