import Restyle.Proofs.Rendering
import Restyle.Proofs.Spans

/-!
# Comments and closing braces

A conditional goes into braces. The comments of its source lie inside it, and the closing brace comes
after all of them: one that begins with two slashes and reaches the end of the conditional begins on
its last line, and then a line feed stands before the brace.
-/

namespace Restyle.Value

open Syntax Text

variable {dialect : Dialect} {value before comment after left : List Char} {root n : Node}

/-- A value has a comment, as the grammar sees it, between two parts. -/
structure HasComment (dialect : Dialect) (value before comment after : List Char) : Prop where
  split : value = before ++ comment ++ after
  seen : ∃ root n : Node, Grammar.parse dialect (wrapped value) = .ok root ∧ n ∈ root.subtrees ∧
    n.kind = .comment ∧ n.start = byteLength before + 2 ∧ n.stop = n.start + byteLength comment

/-- What closes the parentheses around a value. -/
def closing : List Char :=
  "\n);".toList

theorem wrapped_eq (value : List Char) : wrapped value = '(' :: '\n' :: (value ++ closing) :=
  rfl

private theorem byteLength_opened (before : List Char) :
    byteLength ('(' :: '\n' :: before) = byteLength before + 2 := by
  change 1 + (1 + byteLength before) = _
  omega

private theorem comment_ends {front more : List Char} (h : Comment comment left)
    (split : comment = front ++ more) (closed : closing = more ++ left) : more = [] := by
  cases more with
  | nil => rfl
  | cons c more =>
      have first : '\n' = c := (List.cons.inj closed).1
      subst first
      cases h with
      | @line inside _ oneLine _ =>
          have mem : '\n' ∈ '/' :: '/' :: inside := by
            rw [split]
            exact List.mem_append_right front List.mem_cons_self
          have mem : '\n' ∈ inside := by simpa using mem
          exact absurd (oneLine _ mem) (by decide)
      | @block inside _ whole =>
          have last := (Comment.block whole : Comment _ left).getLast
          rw [split, List.getLast?_append, List.getLast?_cons] at last
          have slash : '/' ∈ '\n' :: more := by
            refine List.mem_of_getLast? ?_
            rw [List.getLast?_cons]
            exact last
          have mem : '/' ∈ closing := by
            rw [closed]
            exact List.mem_append_left left slash
          exact absurd mem (by decide)

/-- What begins with neither character that opens the parentheses begins in the value. -/
theorem wrapped_begins {front taken : List Char} (split : wrapped value = front ++ taken ++ left)
    (head : ∀ c ∈ taken.head?, c ≠ '(' ∧ c ≠ '\n') (some : taken ≠ []) :
    ∃ before, front = '(' :: '\n' :: before ∧ value ++ closing = before ++ (taken ++ left) := by
  obtain ⟨c, more, rfl⟩ := List.exists_cons_of_ne_nil some
  obtain ⟨paren, line⟩ := head c rfl
  rw [wrapped_eq, List.append_assoc] at split
  match front with
  | [] => exact absurd (List.cons.inj split).1.symm paren
  | [b] => exact absurd (List.cons.inj (List.cons.inj split).2).1.symm line
  | a :: b :: before =>
      obtain ⟨first, tail⟩ := List.cons.inj split
      obtain ⟨second, inner⟩ := List.cons.inj tail
      subst first second
      exact ⟨before, rfl, inner⟩

private theorem comment_inside {front : List Char} (h : Comment comment left)
    (split : wrapped value = front ++ comment ++ left) :
    ∃ before after, front = '(' :: '\n' :: before ∧ value = before ++ comment ++ after ∧
      left = after ++ closing := by
  obtain ⟨more, slash⟩ : ∃ more, comment = '/' :: more := by
    cases h <;> exact ⟨_, rfl⟩
  obtain ⟨before, rfl, inner⟩ := wrapped_begins split (by simp [slash]) (by simp [slash])
  rcases List.append_eq_append_iff.mp inner with ⟨late, -, closed⟩ | ⟨rest, rfl, parts⟩
  · have mem : '/' ∈ closing := by
      rw [closed, slash]
      simp
    exact absurd mem (by decide)
  · rcases List.append_eq_append_iff.mp parts with ⟨after, rfl, rest⟩ | ⟨excess, whole, closed⟩
    · exact ⟨before, after, rfl, (List.append_assoc ..).symm, rest⟩
    · cases comment_ends h whole closed
      refine ⟨before, [], rfl, ?_, closed.symm⟩
      rw [whole, List.append_nil, List.append_nil]

/-- A comment is one in front of another text, too, if a line break still comes after two slashes. -/
private theorem comment_elsewhere {more : List Char} (h : Comment comment (after ++ left))
    (broken : after = [] → ['/', '/'] <+: comment → ∀ c ∈ more.head?, isLineEnd c) :
    Comment comment (after ++ more) := by
  cases h with
  | line oneLine ended =>
      refine .line oneLine fun c head => ?_
      cases after with
      | nil => exact broken rfl (List.prefix_append ['/', '/'] _) c head
      | cons d after => exact ended c head
  | block whole => exact .block whole

theorem hasComment_of_mem (parsed : Grammar.parse dialect (wrapped value) = .ok root)
    (mem : n ∈ root.subtrees) (kind : n.kind = .comment) :
    ∃ before comment after, HasComment dialect value before comment after ∧
      n.start = byteLength before + 2 := by
  obtain ⟨front, comment, left, split, start, stop, whole⟩ :=
    (Grammar.parse_sound parsed n mem).comment kind
  obtain ⟨before, after, rfl, inside, -⟩ := comment_inside whole split
  have place : n.start = byteLength before + 2 := by
    rw [← start]
    exact byteLength_opened before
  exact ⟨before, comment, after, ⟨inside, root, n, parsed, mem, kind, place, stop.symm⟩, place⟩

namespace HasComment

variable (h : HasComment dialect value before comment after)
include h

theorem whole : Comment comment (after ++ closing) := by
  obtain ⟨root, n, parsed, mem, kind, start, stop⟩ := h.seen
  obtain ⟨front, taken, left, split, start', stop', whole⟩ :=
    (Grammar.parse_sound parsed n mem).comment kind
  have opened : byteLength ('(' :: '\n' :: before) = byteLength front := by
    rw [byteLength_opened, start', start]
  rw [wrapped_eq, h.split, List.append_assoc, List.append_assoc, List.append_assoc] at split
  obtain ⟨-, split⟩ := append_inj_byteLength split opened
  obtain ⟨rfl, rfl⟩ := append_inj_byteLength split (by omega)
  exact whole

theorem wrapped_split : wrapped value = '(' :: '\n' :: before ++ (comment ++ (after ++ closing)) := by
  rw [wrapped_eq, h.split]
  simp

/-- The row of a comment counts the line feeds in front of it and the one after the parenthesis. -/
theorem row_eq (parsed : Grammar.parse dialect (wrapped value) = .ok root) (mem : n ∈ root.subtrees)
    (start : n.start = byteLength before + 2) : n.row = before.count '\n' + 1 := by
  have sound := Grammar.parse_sound parsed n mem
  rw [sound.row_eq h.wrapped_split ((byteLength_opened before).trans start.symm)]
  simp

theorem slashes_iff (start : n.start = byteLength before + 2) :
    ((Text.encode (wrapped value)).drop n.start).take 2 = [47, 47] ↔ ['/', '/'] <+: comment := by
  have place : n.start = (Text.encode ('(' :: '\n' :: before)).length := by
    rw [length_encode, byteLength_opened, start]
  rw [h.wrapped_split, encode_append, List.drop_left' place.symm]
  cases h.whole with
  | line => exact iff_of_true rfl (List.prefix_append ['/', '/'] _)
  | block =>
      refine iff_of_false (fun same => ?_) fun begun => ?_
      · cases same
      · cases (List.cons_prefix_cons.mp (List.cons_prefix_cons.mp begun).2).1

theorem oneLine (slashes : ['/', '/'] <+: comment) : '\n' ∉ comment := by
  cases h.whole with
  | line inside =>
      intro mem
      have mem := by simpa using mem
      exact absurd (inside _ mem) (by decide)
  | block => cases (List.cons_prefix_cons.mp (List.cons_prefix_cons.mp slashes).2).1

end HasComment

theorem lineCommentOn_iff (parsed : Grammar.parse dialect (wrapped value) = .ok root) (row : Nat) :
    lineCommentOn root (Text.encode (wrapped value)) row ↔ ∃ before comment after,
      HasComment dialect value before comment after ∧ ['/', '/'] <+: comment ∧
        before.count '\n' + 1 = row := by
  rw [lineCommentOn, Tree.preorder_eq, List.any_map, List.any_eq_true]
  constructor
  · rintro ⟨n, mem, test⟩
    simp only [Function.comp_apply, Bool.and_eq_true, beq_iff_eq] at test
    obtain ⟨⟨kind, row⟩, bytes⟩ := test
    obtain ⟨before, comment, after, h, start⟩ := hasComment_of_mem parsed mem kind
    exact ⟨before, comment, after, h, (h.slashes_iff start).mp bytes,
      (h.row_eq parsed mem start).symm.trans row⟩
  · rintro ⟨before, comment, after, h, slashes, row⟩
    obtain ⟨root', n, parsed', mem, kind, start, -⟩ := h.seen
    rw [parsed] at parsed'
    cases parsed'
    refine ⟨n, mem, ?_⟩
    simp only [Function.comp_apply, Bool.and_eq_true, beq_iff_eq]
    exact ⟨⟨kind, (h.row_eq parsed mem start).trans row⟩, (h.slashes_iff start).mpr slashes⟩

theorem classify_ternary {commentAtEnd : Bool}
    (conditional : classify dialect value = .ok (.ternary commentAtEnd)) :
    ∃ root, Grammar.parse dialect (wrapped (trim value)) = .ok root ∧ commentAtEnd =
      lineCommentOn root (Text.encode (wrapped (trim value))) ((trim value).count '\n' + 1) := by
  unfold classify at conditional
  by_cases empty : trim value = []
  · simp only [empty, List.isEmpty_nil, if_true] at conditional
    cases conditional
  simp only [List.isEmpty_iff, empty, if_false] at conditional
  unfold shapeOf at conditional
  simp only at conditional
  cases parsed : Grammar.parse dialect (wrapped (trim value)) with
  | error reach =>
      rw [parsed] at conditional
      cases conditional
  | ok root =>
      rw [parsed] at conditional
      simp only at conditional
      cases whole : wholeExpression? root (Text.encode (wrapped (trim value))).length with
      | none =>
          rw [whole] at conditional
          cases conditional
      | some e =>
          rw [whole] at conditional
          simp only at conditional
          split at conditional
          · exact ⟨root, rfl, (Shape.ternary.inj (Except.ok.inj conditional)).symm⟩
          · generalize decode _ = decoded at conditional
            cases decoded <;> cases conditional
          · cases conditional

/-- What is looked for is a comment with two slashes that begins on the last line. -/
theorem commentAtEnd_iff {commentAtEnd : Bool}
    (conditional : classify dialect value = .ok (.ternary commentAtEnd)) :
    commentAtEnd ↔ ∃ before comment after, HasComment dialect (trim value) before comment after ∧
      ['/', '/'] <+: comment ∧ '\n' ∉ comment ++ after := by
  obtain ⟨root, parsed, rfl⟩ := classify_ternary conditional
  rw [lineCommentOn_iff parsed]
  refine exists_congr fun before => exists_congr fun comment => exists_congr fun after => ?_
  refine and_congr_right fun h => and_congr_right fun _ => ?_
  rw [h.split, List.append_assoc, List.count_append, ← List.count_eq_zero]
  omega

/-- What stands before the closing brace of a conditional. -/
def padding (commentAtEnd : Bool) : List Char :=
  if commentAtEnd then ['\n'] else []

theorem braced_eq (commentAtEnd : Bool) (expression : List Char) : braced commentAtEnd expression =
    '\x7b' :: (expression ++ padding commentAtEnd ++ ['\x7d']) := by
  cases commentAtEnd <;> simp [braced, padding]

theorem trim_padding (commentAtEnd : Bool) (value : List Char) :
    trim (trim value ++ padding commentAtEnd) = trim value := by
  cases commentAtEnd with
  | true => exact (trim_append_blank rfl).trans (trim_trim value)
  | false =>
      rw [padding, if_neg Bool.false_ne_true, List.append_nil]
      exact trim_trim value

/-- A conditional is rendered in braces as it is, with a line feed before the closing one exactly if a
comment with two slashes begins on its last line, as one does that reaches its end. So every comment
of it ends before the brace. -/
theorem render_conditional {commentAtEnd : Bool}
    (conditional : classify dialect value = .ok (.ternary commentAtEnd)) :
    (render dialect (ofChars value)).result =
      .ok (ofChars ('\x7b' :: (trim value ++ padding commentAtEnd ++ ['\x7d']))) ∧
    trim (trim value ++ padding commentAtEnd) = trim value ∧
    (commentAtEnd ↔ ∃ before comment after, HasComment dialect (trim value) before comment after ∧
      ['/', '/'] <+: comment ∧ '\n' ∉ comment ++ after) ∧
    (∀ before comment, HasComment dialect (trim value) before comment [] → ['/', '/'] <+: comment →
      commentAtEnd) ∧
    (∀ root n : Node, Grammar.parse dialect (wrapped (trim value)) = .ok root →
      n ∈ root.subtrees → n.kind = .comment → ∃ before comment after,
        HasComment dialect (trim value) before comment after ∧ n.start = byteLength before + 2) ∧
    ∀ before comment after, HasComment dialect (trim value) before comment after →
      takeComment (comment ++ (after ++ padding commentAtEnd ++ ['\x7d'])) =
        some (comment, after ++ padding commentAtEnd ++ ['\x7d']) := by
  have atEnd (before comment : List Char) (h : HasComment dialect (trim value) before comment [])
      (slashes : ['/', '/'] <+: comment) : commentAtEnd := by
    refine (commentAtEnd_iff conditional).mpr ⟨before, comment, [], h, slashes, ?_⟩
    rw [List.append_nil]
    exact h.oneLine slashes
  refine ⟨?_, trim_padding commentAtEnd value, commentAtEnd_iff conditional, atEnd,
    fun root n parsed mem => hasComment_of_mem parsed mem, ?_⟩
  · unfold render
    simp only [toChars?_ofChars]
    rw [Report.result_bind (Report.result_ofExcept _ |>.trans conditional), renderAs,
      Report.result_pure, braced_eq]
  · intro before comment after h
    rw [List.append_assoc]
    refine (comment_elsewhere h.whole fun nothing slashes => ?_).takes
    subst nothing
    rw [atEnd before comment h slashes]
    rintro c ⟨⟩
    rfl

/-- A comment at the end of a conditional moves the closing brace to a line of its own. -/
theorem render_conditional_commented :
    classify .tsx "a ? b : c // d".toList = .ok (.ternary true) ∧
    (render .tsx (ofChars "a ? b : c // d".toList)).result =
      .ok (ofChars "\x7ba ? b : c // d\n\x7d".toList) ∧
    ∃ before comment after, HasComment .tsx "a ? b : c // d".toList before comment after ∧
      ['/', '/'] <+: comment ∧ '\n' ∉ comment ++ after := by
  have conditional : classify .tsx "a ? b : c // d".toList = .ok (.ternary true) := by
    decide +kernel
  obtain ⟨rendered, -, commented, -⟩ := render_conditional conditional
  exact ⟨conditional, rendered, commented.mp rfl⟩

end Restyle.Value
