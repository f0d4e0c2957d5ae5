/-!
# Blanks

The characters that count as surrounding space of a value or a snippet, and their removal.
-/

namespace Restyle.Text

/-- White space: the separators of Unicode, the ASCII controls that move the position, the four
information separators and the next-line control. -/
def isBlank (c : Char) : Bool :=
  let n := c.toNat
  (9 ≤ n && n ≤ 13) || (0x1C ≤ n && n ≤ 0x20) || n == 0x85 || n == 0xA0 || n == 0x1680 ||
    (0x2000 ≤ n && n ≤ 0x200A) || n == 0x2028 || n == 0x2029 || n == 0x202F || n == 0x205F ||
    n == 0x3000

def trimStart (text : List Char) : List Char :=
  text.dropWhile isBlank

def trimEnd (text : List Char) : List Char :=
  (text.reverse.dropWhile isBlank).reverse

def trim (text : List Char) : List Char :=
  trimEnd (trimStart text)

variable {text : List Char} {c : Char}

theorem trimStart_eq_self (h : ∀ c ∈ text.head?, isBlank c = false) : trimStart text = text := by
  cases text with
  | nil => rfl
  | cons c text => rw [trimStart, List.dropWhile_cons_of_neg (by simp [h c rfl])]

theorem trimEnd_eq_self (h : ∀ c ∈ text.getLast?, isBlank c = false) : trimEnd text = text := by
  have reversed : text.reverse.dropWhile isBlank = text.reverse :=
    trimStart_eq_self (by rwa [List.head?_reverse])
  rw [trimEnd, reversed, List.reverse_reverse]

theorem trim_eq_self (first : ∀ c ∈ text.head?, isBlank c = false)
    (last : ∀ c ∈ text.getLast?, isBlank c = false) : trim text = text := by
  rw [trim, trimStart_eq_self first, trimEnd_eq_self last]

private theorem head?_trimStart (text : List Char) (h : c ∈ (trimStart text).head?) : isBlank c = false := by
  have first := List.head?_dropWhile_not isBlank text
  rw [← trimStart, h] at first
  simpa using first

theorem getLast?_trimEnd (h : c ∈ (trimEnd text).getLast?) : isBlank c = false := by
  rw [trimEnd, List.getLast?_reverse] at h
  exact head?_trimStart text.reverse h

theorem mem_of_mem_trim (h : c ∈ trim text) : c ∈ text := by
  have back : c ∈ (trimStart text).reverse := (List.dropWhile_sublist _).mem (List.mem_reverse.mp h)
  exact (List.dropWhile_sublist _).mem (List.mem_reverse.mp back)

theorem trim_trim (text : List Char) : trim (trim text) = trim text := by
  refine trim_eq_self (fun c hc => ?_) fun c => getLast?_trimEnd
  have prefixed : trim text <+: trimStart text := by
    have suffixed := List.dropWhile_suffix isBlank (l := (trimStart text).reverse)
    rw [← List.reverse_prefix, List.reverse_reverse] at suffixed
    exact suffixed
  obtain ⟨rest, whole⟩ := prefixed
  refine head?_trimStart text ?_
  rw [← whole, List.head?_append, hc]
  rfl

theorem trim_append_blank (h : isBlank c) : trim (text ++ [c]) = trim text := by
  rw [trim, trim, trimStart, trimStart, List.dropWhile_append]
  split
  · rename_i blank
    rw [List.isEmpty_iff.mp blank, List.dropWhile_cons_of_pos h]
    rfl
  · rw [trimEnd, List.reverse_append, List.reverse_singleton, List.singleton_append,
      List.dropWhile_cons_of_pos h, ← trimEnd]

end Restyle.Text
