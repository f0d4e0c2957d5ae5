import Restyle.Grammar.Parse
import Restyle.Proofs.QuotedStrings
import Restyle.Proofs.Reading

/-!
# Values as they are read back

The literal that is written for a text is read back as one value of an attribute, whatever file it
stands in and wherever, exactly if it is in braces or an attribute string can hold its text.
-/

namespace Restyle.Grammar

open Syntax Parser Text

variable {self : Recur} {text rest after : List Char} {q : Char}

private theorem next_quote (hq : isQuote q) : NextToken (q :: rest) (q :: rest) := by
  have quotes := isQuote_iff.mp hq
  rcases quotes with rfl | rfl
  · exact next_of_head (by decide) (by decide)
  · exact next_of_head (by decide) (by decide)

private theorem next_brace : NextToken ('\x7d' :: after) ('\x7d' :: after) :=
  next_of_head (by decide) (by decide)

/-- An attribute string is taken up to its closing quote exactly if it can hold its text. -/
theorem attributeString_takes (hq : isQuote q) (free : q ∉ text) :
    attributeString.Takes (q :: (text ++ q :: after)) () after ↔ AttributeText text := by
  have token : NextToken (q :: (text ++ q :: after)) _ := next_quote hq
  have whole : q :: (text ++ q :: after) = (q :: (text ++ [q])) ++ after := by simp
  rw [← takeAttributeString_iff hq text free]
  constructor
  · intro h
    cases found : takeAttributeString (q :: (text ++ q :: after)) with
    | none => exact absurd (refuses_delimited takeAttributeString_taken token found) h.not_refuses
    | some read =>
        obtain ⟨taken, left⟩ := read
        obtain ⟨inside, split, rfl⟩ := takeAttributeString_append found
        have pieces : q :: (text ++ q :: after) = (q :: (inside ++ [q])) ++ left := by simp [split]
        rw [pieces] at h token found
        obtain ⟨-, rfl⟩ := h.unique (takes_delimited takeAttributeString_taken token found)
        have same : text = inside := List.append_cancel_right split
        rw [same]
  · intro h
    rw [whole] at token h ⊢
    exact takes_delimited takeAttributeString_taken token h

/-- An attribute string that cannot hold its text is refused, unless a later quote closes it. -/
theorem attributeString_refuses (hq : isQuote q) (free : q ∉ text) (last : q ∉ after)
    (h : ¬ AttributeText text) : attributeString.Refuses (q :: (text ++ q :: after)) :=
  refuses_delimited takeAttributeString_taken (next_quote hq)
    (takeAttributeString_none hq free last h)

theorem attributeValue_quote (hq : isQuote q) :
    (attributeValue self).Takes (q :: rest) () after ↔ attributeString.Takes (q :: rest) () after := by
  have quotes := isQuote_iff.mp hq
  rw [attributeValue, takes_peek_bind (next_quote hq)]
  rcases quotes with rfl | rfl <;> rfl

section Braces

variable {inside : List Char} {dialect : Dialect} {depth : Nat}
  (string : takeString ('"' :: (inside ++ '"' :: '\x7d' :: after)) =
    some ('"' :: (inside ++ ['"']), '\x7d' :: after))
include string

private theorem stringLiteral_takes (e : Expectation) :
    (stringLiteral e).Takes ('"' :: (inside ++ '"' :: '\x7d' :: after)) () ('\x7d' :: after) := by
  have whole : '"' :: (inside ++ '"' :: '\x7d' :: after) =
      ('"' :: (inside ++ ['"'])) ++ '\x7d' :: after := by simp
  have token : NextToken ('"' :: (inside ++ '"' :: '\x7d' :: after)) _ := next_quote rfl
  rw [whole] at token string ⊢
  exact takes_delimited takeString_taken token string

omit string in
private theorem withTrailers_takes {p : Parser Unit} (h : p.Takes text () ('\x7d' :: after)) :
    (withTrailers self .inner p).Takes text () ('\x7d' :: after) := by
  have trailer : (trailer self .inner).Refuses ('\x7d' :: after) := by
    refine (takes_pure _ _).bind_refuses ?_
    exact (takes_peek next_brace).bind_refuses (refuses_refuse _ _)
  refine h.bind (trailer.many.bind ((takes_peek next_brace).bind ?_))
  refine takes_lastNode_bind fun n => ?_
  cases n with
  | none => exact takes_pure _ _
  | some n => exact takes_pure _ _

private theorem operand_takes :
    (operand self dialect .inner).Takes ('"' :: (inside ++ '"' :: '\x7d' :: after)) ()
      ('\x7d' :: after) := by
  have token : NextToken ('"' :: (inside ++ '"' :: '\x7d' :: after)) _ := next_quote rfl
  have comment : htmlComment.Refuses ('"' :: (inside ++ '"' :: '\x7d' :: after)) :=
    (takes_peek token).bind_refuses (refuses_decline _)
  refine Takes.isolate (comment.many.bind ((takes_peek token).bind ?_))
  change (withTrailers self .inner (stringLiteral .operand)).Takes _ _ _
  exact withTrailers_takes (stringLiteral_takes string _)

private theorem expression_takes :
    (expression (rules dialect (depth + 1)) .inner).Takes
      ('"' :: (inside ++ '"' :: '\x7d' :: after)) () ('\x7d' :: after) := by
  have operator : (operatorStep (rules dialect (depth + 1)) .inner).Refuses ('\x7d' :: after) := by
    refine (takes_pure _ _).bind_refuses ?_
    exact (takes_peek next_brace).bind_refuses (refuses_refuse _ _)
  refine Takes.isolate ((operand_takes string).bind ?_)
  refine ((operator.bind _).orElse (takes_pure false _)).bind ?_
  exact (takes_pure _ _).bind ((takes_peek next_brace).bind (takes_pure _ _))

theorem container_takes :
    (container (rules dialect (depth + 2))).Takes
      ('\x7b' :: '"' :: (inside ++ '"' :: '\x7d' :: after)) () after := by
  have brace : NextToken ('\x7b' :: '"' :: (inside ++ '"' :: '\x7d' :: after)) _ :=
    next_of_head (by decide) (by decide)
  have quote : NextToken ('"' :: (inside ++ '"' :: '\x7d' :: after)) _ := next_quote rfl
  have spread : (construct .spread do
      punct "..."
      (rules dialect (depth + 2)) (.expression .inner)).Refuses
        ('"' :: (inside ++ '"' :: '\x7d' :: after)) :=
    ((refuses_punctAs _ quote rfl).bind _).construct
  have value : (expressions (rules dialect (depth + 2)) .inner).Takes
      ('"' :: (inside ++ '"' :: '\x7d' :: after)) () ('\x7d' :: after) := by
    refine Takes.isolate ((expression_takes string).bind ?_)
    exact (takes_sees next_brace ",").bind (takes_pure () _)
  have inner : (containerInside (rules dialect (depth + 2))).Takes _ () ('\x7d' :: after) :=
    (spread.orElse value).orElse _
  have whole : (braces (rules dialect (depth + 2))).Takes
      ('\x7b' :: '"' :: (inside ++ '"' :: '\x7d' :: after)) .container after := by
    refine (takes_punctAs .other "\x7b" brace).bind (inner.bind ?_)
    exact (takes_punctAs _ "\x7d" next_brace).bind (takes_pure Kind.container after)
  exact whole.openConstruct (takes_pure () after)

end Braces

section Written

variable {stored written : List Char} {dialect : Dialect} (h : Value.Written stored written)
include h

/-- What is written for a text is taken as the value of an attribute exactly if it reads back. -/
theorem attributeValue_written (depth : Nat) (after : List Char) :
    (attributeValue (rules dialect (depth + 2))).Takes (written ++ after) () after ↔
      Value.ReadsBack stored := by
  cases h with
  | quoted hq free =>
      rw [Value.readsBack_quoted hq free, ← attributeString_takes hq free]
      simp only [List.cons_append, List.append_assoc, List.nil_append]
      exact attributeValue_quote hq
  | braced double single _ string =>
      refine iff_of_true ?_ (.inl ⟨double, single⟩)
      simp only [List.cons_append, List.append_assoc, List.nil_append]
      refine (takes_peek_bind (next_of_head (by decide) (by decide))).mpr ?_
      exact container_takes (string _)

theorem attributeValue_unwritten (unread : ¬ Value.ReadsBack stored) (depth : Nat)
    (double : '"' ∉ after) (single : '\'' ∉ after) :
    (attributeValue (rules dialect (depth + 2))).Refuses (written ++ after) := by
  cases h with
  | @quoted q hq free =>
      rw [Value.readsBack_quoted hq free] at unread
      have token : NextToken (q :: (stored ++ q :: after)) _ := next_quote hq
      have quotes := isQuote_iff.mp hq
      simp only [List.cons_append, List.append_assoc, List.nil_append]
      refine (takes_peek token).bind_refuses ?_
      rcases quotes with rfl | rfl
      · exact attributeString_refuses hq free double unread
      · exact attributeString_refuses hq free single unread
  | braced double single _ _ => exact absurd (.inl ⟨double, single⟩) unread

end Written

end Restyle.Grammar
