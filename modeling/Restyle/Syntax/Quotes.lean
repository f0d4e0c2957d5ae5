import Restyle.Syntax.Lexical

/-!
# Strings between quotes

What the rules for string literals and for attribute strings take begins with a quote and ends with
the same one.
-/

namespace Restyle.Syntax

def Quoted (text : List Char) : Prop :=
  ∃ q inside, isQuote q ∧ text = q :: (inside ++ [q])

variable {c q : Char} {text rest left found : List Char}

theorem isQuote_iff : isQuote q ↔ q = '"' ∨ q = '\'' := by
  simp [isQuote]

def inFront (c : Char) : Option (List Char × List Char) → Option (List Char × List Char) :=
  Option.map fun found => (c :: found.1, found.2)

theorem inFront_eq_some {found : Option (List Char × List Char)} {string : List Char}
    (h : inFront c found = some (string, left)) :
    ∃ more, found = some (more, left) ∧ string = c :: more := by
  obtain ⟨⟨more, _⟩, rfl, same⟩ := Option.map_eq_some_iff.mp h
  cases same
  exact ⟨more, rfl, rfl⟩

theorem inFront_eq (c : Char) (found : Option (List Char × List Char)) :
    inFront c found = match found with
      | some (text, left) => some (c :: text, left)
      | none => none := by
  cases found <;> rfl

theorem attributeStringTail_cons (taken : Bool) :
    attributeStringTail q taken (c :: rest) = inFront c
      (if taken then attributeStringTail q false rest
      else if c == q then some ([], rest)
      else if c == '&' then
        match rest with
        | [] => none
        | d :: _ =>
            if d == '#' || isLetter d then
              if (takeReference rest).isSome then attributeStringTail q false rest else none
            else attributeStringTail q true rest
      else attributeStringTail q false rest) := by
  rw [attributeStringTail.eq_def]
  exact (inFront_eq c _).symm

theorem attributeStringTail_append {taken : Bool}
    (h : attributeStringTail q taken text = some (found, left)) :
    ∃ inside, text = inside ++ q :: left ∧ found = inside ++ [q] := by
  induction text generalizing taken found with
  | nil => cases h
  | cons c text ih =>
      rw [attributeStringTail_cons] at h
      obtain ⟨more, next, rfl⟩ := inFront_eq_some h
      have longer {taken : Bool} (h : attributeStringTail q taken text = some (more, left)) :
          ∃ inside, c :: text = inside ++ q :: left ∧ c :: more = inside ++ [q] := by
        obtain ⟨inside, rfl, rfl⟩ := ih h
        exact ⟨c :: inside, rfl, rfl⟩
      split at next
      · exact longer next
      split at next
      · rename_i same
        cases next
        exact ⟨[], by rw [eq_of_beq same]; rfl, by rw [eq_of_beq same]; rfl⟩
      split at next
      · split at next
        · cases next
        · split at next
          · split at next
            · exact longer next
            · cases next
          · exact longer next
      · exact longer next

theorem takeAttributeString_append (h : takeAttributeString (q :: text) = some (found, left)) :
    ∃ inside, text = inside ++ q :: left ∧ found = q :: (inside ++ [q]) := by
  rw [takeAttributeString] at h
  split at h
  · split at h
    · rename_i taken left' tail
      cases h
      obtain ⟨inside, rfl, rfl⟩ := attributeStringTail_append tail
      exact ⟨inside, rfl, rfl⟩
    · cases h
  · cases h

theorem stringTail_eq (skip : Nat) (broken : Bool) :
    stringTail q skip broken (c :: rest) = inFront c
      (match skip with
      | skip + 1 => stringTail q skip false rest
      | 0 =>
          if c == q then some ([], rest)
          else if broken then if isSpace c then stringTail q 0 true rest else none
          else if c == '\\' then
            match escapeLength rest with
            | some n => stringTail q n false rest
            | none => none
          else if c == '\n' || c == '\r' then stringTail q 0 true rest
          else stringTail q 0 false rest) := by
  rw [stringTail.eq_def]
  exact (inFront_eq c _).symm

theorem stringTail_append {skip : Nat} {broken : Bool}
    (h : stringTail q skip broken text = some (found, left)) :
    ∃ inside, text = inside ++ q :: left ∧ found = inside ++ [q] := by
  induction text generalizing skip broken found with
  | nil => cases h
  | cons c text ih =>
      rw [stringTail_eq] at h
      obtain ⟨more, next, rfl⟩ := inFront_eq_some h
      have longer {skip : Nat} {broken : Bool}
          (h : stringTail q skip broken text = some (more, left)) :
          ∃ inside, c :: text = inside ++ q :: left ∧ c :: more = inside ++ [q] := by
        obtain ⟨inside, rfl, rfl⟩ := ih h
        exact ⟨c :: inside, rfl, rfl⟩
      cases skip with
      | succ skip => exact longer next
      | zero =>
          simp only at next
          split at next
          · rename_i same
            cases next
            exact ⟨[], by rw [eq_of_beq same]; rfl, by rw [eq_of_beq same]; rfl⟩
          split at next
          · split at next
            · exact longer next
            · cases next
          split at next
          · split at next
            · exact longer next
            · cases next
          split at next
          · exact longer next
          · exact longer next

theorem takeString_append (h : takeString (q :: text) = some (found, left)) :
    ∃ inside, text = inside ++ q :: left ∧ found = q :: (inside ++ [q]) := by
  rw [takeString] at h
  split at h
  · split at h
    · rename_i taken left' tail
      cases h
      obtain ⟨inside, rfl, rfl⟩ := stringTail_append tail
      exact ⟨inside, rfl, rfl⟩
    · cases h
  · cases h

private theorem quoted_take {inside : List Char} (hq : isQuote q)
    (split : text = inside ++ q :: left) :
    Quoted ((q :: text).take (q :: (inside ++ [q])).length) := by
  refine ⟨q, inside, hq, ?_⟩
  have whole : q :: text = (q :: (inside ++ [q])) ++ left := by simp [split]
  rw [whole, List.take_left]

theorem takeString_quoted (h : takeString text = some (found, left)) :
    Quoted (text.take found.length) := by
  cases text with
  | nil => cases h
  | cons q text =>
      have hq : isQuote q := by
        rw [takeString] at h
        split at h
        · assumption
        · cases h
      obtain ⟨inside, split, rfl⟩ := takeString_append h
      exact quoted_take hq split

theorem takeAttributeString_quoted (h : takeAttributeString text = some (found, left)) :
    Quoted (text.take found.length) := by
  cases text with
  | nil => cases h
  | cons q text =>
      have hq : isQuote q := by
        rw [takeAttributeString] at h
        split at h
        · assumption
        · cases h
      obtain ⟨inside, split, rfl⟩ := takeAttributeString_append h
      exact quoted_take hq split

end Restyle.Syntax
