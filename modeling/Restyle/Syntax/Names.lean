import Restyle.Syntax.Comments

/-!
# Names

What the rules for names take is the front of a text and holds no white space.
-/

namespace Restyle.Syntax

/-- A lexical rule that takes the front of a text, without white space. -/
def TakesWords (rule : List Char → List Char × List Char) : Prop :=
  ∀ text, text = (rule text).1 ++ (rule text).2 ∧ ∀ c ∈ (rule text).1, isSpace c = false

variable {c : Char} {text : List Char}

private theorem solid_of_ascii (low : 32 < c.toNat) (high : c.toNat < 127) : isSpace c = false := by
  simp [isSpace]
  omega

private theorem ascii_of_isDigit (h : isDigit c) : 32 < c.toNat ∧ c.toNat < 127 := by
  simp only [isDigit, Bool.and_eq_true, decide_eq_true_eq, Char.le_def,
    UInt32.le_iff_toNat_le] at h
  change 48 ≤ c.toNat ∧ c.toNat ≤ 57 at h
  omega

private theorem ascii_of_isLetter (h : isLetter c) : 32 < c.toNat ∧ c.toNat < 127 := by
  simp only [isLetter, Bool.or_eq_true, Bool.and_eq_true, decide_eq_true_eq, Char.le_def,
    UInt32.le_iff_toNat_le] at h
  change (97 ≤ c.toNat ∧ c.toNat ≤ 122) ∨ 65 ≤ c.toNat ∧ c.toNat ≤ 90 at h
  omega

private theorem solid_of_isHexDigit (h : isHexDigit c) : isSpace c = false := by
  simp only [isHexDigit, Bool.or_eq_true] at h
  rcases h with (digit | lower) | upper
  · exact solid_of_ascii (ascii_of_isDigit digit).1 (ascii_of_isDigit digit).2
  · simp only [Bool.and_eq_true, decide_eq_true_eq, Char.le_def, UInt32.le_iff_toNat_le] at lower
    change 97 ≤ c.toNat ∧ c.toNat ≤ 102 at lower
    exact solid_of_ascii (by omega) (by omega)
  · simp only [Bool.and_eq_true, decide_eq_true_eq, Char.le_def, UInt32.le_iff_toNat_le] at upper
    change 65 ≤ c.toNat ∧ c.toNat ≤ 70 at upper
    exact solid_of_ascii (by omega) (by omega)

private theorem solid_of_isNamePart (h : isNamePart c) : isSpace c = false := by
  simp only [isNamePart, isNameStart, Bool.or_eq_true, Bool.and_eq_true, Bool.not_eq_true',
    beq_iff_eq] at h
  rcases h with (((letter | rfl) | rfl) | other) | digit
  · exact solid_of_ascii (ascii_of_isLetter letter).1 (ascii_of_isLetter letter).2
  · rfl
  · rfl
  · exact other.2
  · exact solid_of_ascii (ascii_of_isDigit digit).1 (ascii_of_isDigit digit).2

theorem nameTail_words (braced : Bool) : TakesWords (nameTail braced) := by
  intro text
  fun_induction nameTail braced text with
  | case1 => simp
  | case2 braced rest ahead taken left found ih =>
      rw [found] at ih
      refine ⟨by rw [ih.1]; rfl, ?_⟩
      simpa using ⟨by decide, by decide, by decide, ih.2⟩
  | case3 => simp
  | case4 braced a b c d rest _ hex taken left found ih =>
      rw [found] at ih
      simp only [Bool.and_eq_true] at hex
      obtain ⟨⟨⟨ha, hb⟩, hc⟩, hd⟩ := hex
      refine ⟨by rw [ih.1]; rfl, ?_⟩
      simpa using ⟨by decide, by decide, solid_of_isHexDigit ha, solid_of_isHexDigit hb,
        solid_of_isHexDigit hc, solid_of_isHexDigit hd, ih.2⟩
  | case5 => simp
  | case6 braced c rest _ _ goesOn taken left found ih =>
      rw [found] at ih
      have solid : isSpace c = false := by
        simp only [Bool.or_eq_true, Bool.and_eq_true, beq_iff_eq] at goesOn
        rcases goesOn with part | ⟨-, rfl⟩
        · exact solid_of_isNamePart part
        · rfl
      exact ⟨by rw [ih.1]; rfl, by simpa using ⟨solid, ih.2⟩⟩
  | case7 => simp

theorem takeName_words : TakesWords takeName := by
  intro text
  unfold takeName
  split
  · split
    · exact nameTail_words false _
    · simp
  · simp

theorem takeMarkupName_words : TakesWords takeMarkupName := by
  intro text
  let ascii (c : Char) : Bool := isLetter c || isDigit c || c == '$' || c == '_'
  have solid {c : Char} (h : ascii c) : isSpace c = false := by
    refine solid_of_isNamePart ?_
    simp only [ascii, Bool.or_eq_true] at h
    simp only [isNamePart, isNameStart, Bool.or_eq_true]
    rcases h with ((h | h) | h) | h <;> simp [h]
  have mem {p : Char → Bool} {text : List Char} {c : Char} (hc : c ∈ text.takeWhile p) : p c :=
    List.all_eq_true.mp List.all_takeWhile c hc
  unfold takeMarkupName
  dsimp only
  split
  · rename_i first stem rest hstem hrest
    split
    · exact takeName_words text
    · have front := text.takeWhile_append_dropWhile (p := ascii)
      have back := rest.takeWhile_append_dropWhile (p := fun c => ascii c || c == '-')
      rw [List.span, span_loop]
      refine ⟨?_, fun c hc => ?_⟩
      · rw [hrest] at front
        simp only [List.reverse_nil, List.nil_append, List.append_assoc, List.cons_append]
        exact front.symm.trans (congrArg (fun rest => _ ++ '-' :: rest) back.symm)
      · rcases List.mem_append.mp hc with hc | hc
        · exact solid (mem hc)
        rcases List.mem_cons.mp hc with rfl | hc
        · rfl
        rcases Bool.or_eq_true_iff.mp (mem hc) with part | hyphen
        · exact solid part
        · rw [eq_of_beq hyphen]
          rfl
  · exact takeName_words text

end Restyle.Syntax
