import Restyle.Syntax.Lexical

/-!
# Comments

What the rule for comments takes: two slashes and the rest of their line, or all up to the first star
with a slash after it.
-/

namespace Restyle.Syntax

inductive Comment : List Char → List Char → Prop
  | line {inside left : List Char} : (∀ c ∈ inside, isLineEnd c = false) →
      (∀ c ∈ left.head?, isLineEnd c = true) → Comment ('/' :: '/' :: inside) left
  | block {inside left : List Char} :
      (∀ after, blockCommentTail (inside ++ after) = some (inside, after)) →
      Comment ('/' :: '*' :: inside) left

section Spans

variable {α : Type} {p : α → Bool} {taken left : List α}

theorem span_loop (p : α → Bool) (text passed : List α) :
    List.span.loop p text passed = (passed.reverse ++ text.takeWhile p, text.dropWhile p) := by
  induction text generalizing passed with
  | nil =>
      change (passed.reverse, []) = _
      simp
  | cons c text ih =>
      change (match p c with
        | true => List.span.loop p text (c :: passed)
        | false => (passed.reverse, c :: text)) = _
      rw [List.takeWhile_cons, List.dropWhile_cons]
      cases p c with
      | true => simp [ih]
      | false => simp

theorem takeWhile_upTo (inside : ∀ c ∈ taken, p c)
    (ended : ∀ c ∈ left.head?, p c = false) : (taken ++ left).takeWhile p = taken := by
  rw [List.takeWhile_append_of_pos inside]
  cases left with
  | nil => exact List.append_nil taken
  | cons c left => rw [List.takeWhile_cons_of_neg (by simp [ended c rfl]), List.append_nil]

theorem dropWhile_upTo (inside : ∀ c ∈ taken, p c)
    (ended : ∀ c ∈ left.head?, p c = false) : (taken ++ left).dropWhile p = left := by
  rw [List.dropWhile_append_of_pos inside]
  cases left with
  | nil => rfl
  | cons c left => rw [List.dropWhile_cons_of_neg (by simp [ended c rfl])]

end Spans

variable {text taken left : List Char}

theorem blockCommentTail_append (h : blockCommentTail text = some (taken, left)) :
    text = taken ++ left ∧ ∀ after, blockCommentTail (taken ++ after) = some (taken, after) := by
  fun_induction blockCommentTail text generalizing taken with
  | case1 => cases h
  | case2 rest =>
      cases h
      exact ⟨rfl, fun after => by simp [blockCommentTail]⟩
  | case3 c rest goesOn more left found ih =>
      cases h
      obtain ⟨rfl, whole⟩ := ih found
      refine ⟨rfl, fun after => ?_⟩
      cases more with
      | nil => cases whole []
      | cons d more =>
          have goesOn' : ∀ tail, c = '*' → d :: more ++ after = '/' :: tail → False := by
            intro tail star slash
            rw [(List.cons.inj slash).1] at goesOn
            exact goesOn _ star rfl
          rw [List.cons_append, blockCommentTail.eq_3 _ _ goesOn', whole]
  | case4 => cases h

theorem takeComment_append (h : takeComment text = some (taken, left)) :
    text = taken ++ left ∧ Comment taken left := by
  unfold takeComment at h
  split at h
  · rename_i rest
    cases h
    refine ⟨?_, .line (fun c hc => ?_) fun c hc => ?_⟩
    · simp [span_loop]
    · rw [span_loop] at hc
      simpa using List.all_eq_true.mp List.all_takeWhile c hc
    · rw [span_loop] at hc
      have first := List.head?_dropWhile_not (fun c => !isLineEnd c) rest
      rw [Option.mem_def.mp hc] at first
      simpa using first
  · split at h
    · rename_i rest more left' found
      cases h
      obtain ⟨rfl, whole⟩ := blockCommentTail_append found
      exact ⟨rfl, .block whole⟩
    · cases h
  · cases h

theorem Comment.takes (h : Comment taken left) :
    takeComment (taken ++ left) = some (taken, left) := by
  cases h with
  | @line inside _ oneLine ended =>
      have goesOn : ∀ c ∈ inside, !isLineEnd c := fun c hc => by simp [oneLine c hc]
      have stops : ∀ c ∈ left.head?, (!isLineEnd c) = false := fun c hc => by simp [ended c hc]
      simp [takeComment, List.span, span_loop, takeWhile_upTo goesOn stops,
        dropWhile_upTo goesOn stops]
  | block whole => simp [takeComment, whole]

theorem blockCommentTail_getLast (h : blockCommentTail text = some (taken, left)) :
    taken.getLast? = some '/' := by
  fun_induction blockCommentTail text generalizing taken with
  | case1 => cases h
  | case2 rest =>
      cases h
      rfl
  | case3 c rest goesOn more left found ih =>
      cases h
      rw [List.getLast?_cons, ih found]
      rfl
  | case4 => cases h

theorem Comment.getLast {inside : List Char} (h : Comment ('/' :: '*' :: inside) left) :
    ('/' :: '*' :: inside).getLast? = some '/' := by
  cases h with
  | block whole =>
      have last := blockCommentTail_getLast (whole [])
      rw [List.getLast?_cons, List.getLast?_cons, last]
      rfl

end Restyle.Syntax
