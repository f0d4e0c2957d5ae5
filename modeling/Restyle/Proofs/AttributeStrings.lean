import Restyle.Syntax.Quotes

/-!
# Strings of attributes

Which texts an attribute string can hold. It has no escapes, but an ampersand in it begins a
character reference, or else takes the character after it, be it the closing quote.
-/

namespace Restyle.Syntax

/-- A text that an attribute string can hold. -/
inductive AttributeText : List Char → Prop
  | nil : AttributeText []
  | char {c : Char} {rest : List Char} : c ≠ '&' → AttributeText rest → AttributeText (c :: rest)
  /-- An ampersand with the character reference that it begins. -/
  | reference {rest : List Char} : (takeReference rest).isSome → AttributeText rest →
      AttributeText ('&' :: rest)
  /-- An ampersand with the character that it takes. -/
  | taken {c : Char} {rest : List Char} : c ≠ '#' → ¬ isLetter c → AttributeText rest →
      AttributeText ('&' :: c :: rest)

variable {c d q : Char} {text rest left : List Char}

theorem takeReference_head (h : (takeReference (c :: rest)).isSome) : c = '#' ∨ isLetter c := by
  by_cases sign : c = '#'
  · exact .inl sign
  · right
    unfold takeReference at h
    split at h
    · rename_i split
      exact absurd (List.cons.inj split).1 sign
    · rename_i split
      exact absurd (List.cons.inj split).1 sign
    · rename_i split
      exact absurd (List.cons.inj split).1 sign
    · refine Classical.byContradiction fun other => ?_
      rw [takeReferenceBody, List.takeWhile_cons_of_neg other] at h
      simp only [List.isEmpty_nil, Bool.true_or, if_true] at h
      split at h
      all_goals cases h

private theorem takeWhile_quote {p : Char → Bool} (stops : p q = false) :
    (text ++ q :: rest).takeWhile p = text.takeWhile p := by
  induction text with
  | nil => simp [stops]
  | cons c text ih => rw [List.cons_append, List.takeWhile_cons, List.takeWhile_cons, ih]

private theorem dropWhile_quote {p : Char → Bool} (stops : p q = false) :
    (text ++ q :: rest).dropWhile p = text.dropWhile p ++ q :: rest := by
  induction text with
  | nil => simp [stops]
  | cons c text ih =>
      rw [List.cons_append, List.dropWhile_cons, List.dropWhile_cons, ih]
      split <;> rfl

private theorem takeReferenceBody_quote {p : Char → Bool} {most : Nat} {lead : List Char}
    (stops : p q = false) (semicolon : q ≠ ';') :
    (takeReferenceBody p most lead (text ++ q :: rest)).isSome =
      (takeReferenceBody p most lead text).isSome := by
  rw [takeReferenceBody, takeReferenceBody, takeWhile_quote stops, dropWhile_quote stops]
  cases text.dropWhile p with
  | nil =>
      rw [List.nil_append]
      split
      · rename_i split
        exact absurd (List.cons.inj split).1 semicolon
      · rfl
  | cons c left =>
      by_cases ended : c = ';'
      · subst ended
        simp only [List.cons_append]
        split <;> rfl
      · simp [ended]

private theorem takeReference_number (lower : ∀ tail, text ≠ 'x' :: tail)
    (upper : ∀ tail, text ≠ 'X' :: tail) :
    takeReference ('#' :: text) = takeReferenceBody isDigit 5 ['#'] text := by
  unfold takeReference
  split
  all_goals simp_all

private theorem takeReference_name (named : ∀ tail, text ≠ '#' :: tail) :
    takeReference text = takeReferenceBody isLetter 30 [] text := by
  unfold takeReference
  split
  all_goals simp_all

theorem takeReference_quote (hq : isQuote q) (text rest : List Char) :
    (takeReference (text ++ q :: rest)).isSome = (takeReference text).isSome := by
  have quotes := isQuote_iff.mp hq
  have body {p : Char → Bool} {most : Nat} {lead t : List Char}
      (stops : p '"' = false ∧ p '\'' = false) :
      (takeReferenceBody p most lead (t ++ q :: rest)).isSome =
        (takeReferenceBody p most lead t).isSome := by
    rcases quotes with rfl | rfl
    · exact takeReferenceBody_quote stops.1 (by decide)
    · exact takeReferenceBody_quote stops.2 (by decide)
  have plain : q ≠ '#' ∧ q ≠ 'x' ∧ q ≠ 'X' := by
    rcases quotes with rfl | rfl <;> decide
  cases text with
  | nil =>
      rw [List.nil_append, takeReference_name (by simp [plain]), takeReference_name (by simp)]
      exact body (t := []) (by decide)
  | cons c text =>
      by_cases sign : c = '#'
      · subst sign
        cases text with
        | nil =>
            rw [List.singleton_append, takeReference_number (by simp [plain]) (by simp [plain]),
              takeReference_number (by simp) (by simp)]
            exact body (t := []) (by decide)
        | cons d text =>
            by_cases lower : d = 'x'
            · subst lower
              exact body (by decide)
            by_cases upper : d = 'X'
            · subst upper
              exact body (by decide)
            rw [List.cons_append, takeReference_number (by simp [lower]) (by simp [upper]),
              takeReference_number (by simp [lower]) (by simp [upper])]
            exact body (by decide)
      · rw [takeReference_name (by simp [sign]), takeReference_name (by simp [sign])]
        exact body (by decide)

section Steps

variable (hq : isQuote q)
include hq

private theorem quote_plain : q ≠ '&' ∧ q ≠ '#' ∧ ¬ isLetter q := by
  rcases isQuote_iff.mp hq with rfl | rfl
  · decide
  · decide

omit hq in
private theorem tail_quote : attributeStringTail q false (q :: rest) = some ([q], rest) := by
  rw [attributeStringTail_cons, if_neg (by decide), if_pos (by simp)]
  rfl

omit hq in
private theorem tail_char (other : c ≠ q) (plain : c ≠ '&') :
    attributeStringTail q false (c :: rest) = inFront c (attributeStringTail q false rest) := by
  rw [attributeStringTail_cons, if_neg (by decide), if_neg (by simpa using other),
    if_neg (by simpa using plain)]

private theorem tail_reference (begins : d = '#' ∨ isLetter d) :
    attributeStringTail q false ('&' :: d :: rest) = inFront '&'
      (if (takeReference (d :: rest)).isSome then attributeStringTail q false (d :: rest)
      else none) := by
  have found : (d == '#' || isLetter d) = true := by simpa using begins
  have other : ¬ ('&' == q) = true := by simpa using (quote_plain hq).1.symm
  rw [attributeStringTail_cons, if_neg (by decide), if_neg other, if_pos (by decide)]
  simp only [found, if_true]

private theorem tail_taken (sign : d ≠ '#') (letter : ¬ isLetter d) :
    attributeStringTail q false ('&' :: d :: rest) =
      inFront '&' (inFront d (attributeStringTail q false rest)) := by
  have found : (d == '#' || isLetter d) = false := by simp [sign, letter]
  have other : ¬ ('&' == q) = true := by simpa using (quote_plain hq).1.symm
  rw [attributeStringTail_cons, if_neg (by decide), if_neg other, if_pos (by decide)]
  simp only [found, Bool.false_eq_true, if_false]
  rw [attributeStringTail_cons, if_pos rfl]

end Steps

namespace AttributeText

theorem char_iff (plain : c ≠ '&') : AttributeText (c :: rest) ↔ AttributeText rest := by
  refine ⟨fun h => ?_, .char plain⟩
  cases h with
  | char _ h => exact h
  | reference => exact absurd rfl plain
  | taken => exact absurd rfl plain

theorem reference_iff (begins : d = '#' ∨ isLetter d) : AttributeText ('&' :: d :: rest) ↔
    (takeReference (d :: rest)).isSome ∧ AttributeText (d :: rest) := by
  refine ⟨fun h => ?_, fun h => .reference h.1 h.2⟩
  cases h with
  | char plain _ => exact absurd rfl plain
  | reference some h => exact ⟨some, h⟩
  | taken sign letter _ => exact absurd begins (by simp [sign, letter])

theorem taken_iff (sign : d ≠ '#') (letter : ¬ isLetter d) :
    AttributeText ('&' :: d :: rest) ↔ AttributeText rest := by
  refine ⟨fun h => ?_, .taken sign letter⟩
  cases h with
  | char plain _ => exact absurd rfl plain
  | reference some _ => exact absurd (takeReference_head some) (by simp [sign, letter])
  | taken _ _ h => exact h

theorem not_ampersand : ¬ AttributeText ['&'] := by
  intro h
  cases h with
  | char plain _ => exact plain rfl
  | reference some _ => cases some

end AttributeText

private theorem inFront_eq_cons {found : Option (List Char × List Char)} {string : List Char} :
    inFront c found = some (c :: string, rest) ↔ found = some (string, rest) := by
  constructor
  · intro h
    obtain ⟨more, next, same⟩ := inFront_eq_some h
    rw [next, (List.cons.inj same).2]
  · rintro rfl
    rfl

/-- The rest of an attribute string is read up to a quote exactly if it can hold what comes
before. -/
theorem attributeStringTail_iff (hq : isQuote q) (text : List Char) (free : q ∉ text) :
    attributeStringTail q false (text ++ q :: rest) = some (text ++ [q], rest) ↔
      AttributeText text := by
  cases text with
  | nil => exact iff_of_true tail_quote .nil
  | cons c text =>
      by_cases ampersand : c = '&'
      · subst ampersand
        cases text with
        | nil =>
            refine iff_of_false (fun h => ?_) AttributeText.not_ampersand
            have plain := quote_plain hq
            rw [List.singleton_append, tail_taken hq plain.2.1 plain.2.2, List.singleton_append,
              inFront_eq_cons, inFront_eq_cons] at h
            obtain ⟨inside, -, same⟩ := attributeStringTail_append h
            simp at same
        | cons d text =>
            simp only [List.mem_cons, not_or] at free
            by_cases begins : d = '#' ∨ isLetter d
            · have ih := attributeStringTail_iff hq (d :: text) (by simp [free])
              have reference := takeReference_quote hq (d :: text) rest
              rw [List.cons_append] at ih reference
              simp only [List.cons_append] at ih ⊢
              rw [tail_reference hq begins, inFront_eq_cons, reference,
                AttributeText.reference_iff begins, ← ih]
              split
              · rename_i some
                simp [some]
              · rename_i none
                simp [none]
            · rw [not_or] at begins
              simp only [List.cons_append]
              rw [tail_taken hq begins.1 begins.2, inFront_eq_cons, inFront_eq_cons,
                AttributeText.taken_iff begins.1 begins.2]
              exact attributeStringTail_iff hq text free.2.2
      · rw [List.mem_cons, not_or] at free
        rw [List.cons_append, List.cons_append, tail_char (Ne.symm free.1) ampersand,
          inFront_eq_cons, AttributeText.char_iff ampersand]
        exact attributeStringTail_iff hq text free.2
termination_by text.length

/-- An attribute string is read up to its closing quote exactly if it can hold its text. -/
theorem takeAttributeString_iff (hq : isQuote q) (text : List Char) (free : q ∉ text) :
    takeAttributeString (q :: (text ++ q :: rest)) = some (q :: (text ++ [q]), rest) ↔
      AttributeText text := by
  have quotes : (q == '"' || q == '\'') = true := hq
  rw [← attributeStringTail_iff hq text free, takeAttributeString, if_pos quotes]
  cases attributeStringTail q false (text ++ q :: rest) with
  | none => simp
  | some found => simp [Prod.ext_iff]

/-- A string whose text an attribute string cannot hold is none, unless a later quote closes it. -/
theorem takeAttributeString_none (hq : isQuote q) (free : q ∉ text) (last : q ∉ rest)
    (h : ¬ AttributeText text) : takeAttributeString (q :: (text ++ q :: rest)) = none := by
  cases found : takeAttributeString (q :: (text ++ q :: rest)) with
  | none => rfl
  | some read =>
      obtain ⟨taken, left⟩ := read
      obtain ⟨inside, split, rfl⟩ := takeAttributeString_append found
      suffices whole : inside = text ∧ left = rest by
        rw [whole.1, whole.2] at found
        exact absurd ((takeAttributeString_iff hq text free).mp found) h
      rcases List.append_eq_append_iff.mp split with ⟨more, front, back⟩ | ⟨more, front, back⟩
      · cases more with
        | nil => simp_all
        | cons c more =>
            cases back
            exact absurd (by simp) last
      · cases more with
        | nil => simp_all
        | cons c more =>
            cases back
            exact absurd (by simp [front]) free

end Restyle.Syntax
