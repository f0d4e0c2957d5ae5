import Restyle.Proofs.WrittenValues

/-!
# A file of one element

A file that is nothing but one element with one attribute is accepted exactly if the value of the
attribute is taken as such.
-/

namespace Restyle.Grammar

open Syntax Parser Text

variable {self : Recur} {value : List Char}

def ending : List Char := ['/', '>']

private theorem next_ending : NextToken ending ending :=
  AtToken.next ⟨fun c hc => by cases hc; decide, rfl⟩

/-- What follows the name of the element. -/
private def entry (value : List Char) : List Char :=
  ' ' :: ("className".toList ++ '=' :: value)

private theorem next_entry :
    NextToken (entry value) ("className".toList ++ '=' :: value) :=
  AtToken.next_space ⟨fun c hc => by cases hc; decide, rfl⟩

private theorem next_equals : NextToken ('=' :: value) ('=' :: value) :=
  next_of_head (by decide) (by decide)

private theorem attributeName_takes : attributeName.Takes (entry value) () ('=' :: value) := by
  refine Takes.constructOf (Takes.bind (takes_lexeme next_entry (by decide) rfl) ?_)
  exact (takes_punct?_other next_equals rfl).bind (takes_pure () _)

private theorem tagEntry_takes (h : (attributeValue self).Takes value () ending) :
    (tagEntry self).Takes (entry value) () ending := by
  refine (takes_sees next_entry "\x7b").bind ?_
  have parts : (attributeParts self).Takes (entry value) .attribute ending := by
    refine attributeName_takes.bind ((takes_punct? "=" next_equals).bind ?_)
    exact h.bind (takes_pure Kind.attribute _)
  change (namedEntry self).Takes _ () _
  exact parts.openConstruct (takes_pure () ending)

private theorem tagEntry_refuses (h : (attributeValue self).Refuses value) :
    (tagEntry self).Refuses (entry value) := by
  refine (takes_sees next_entry "\x7b").bind_refuses ?_
  change (namedEntry self).Refuses _
  refine Refuses.openConstruct (attributeName_takes.bind_refuses ?_)
  exact (takes_punct? "=" next_equals).bind_refuses (h.bind _)

private theorem tagEntry_ending : (tagEntry self).Refuses ending := by
  refine (takes_sees next_ending "\x7b").bind_refuses ?_
  change (namedEntry self).Refuses _
  refine Refuses.openConstruct (Refuses.bind (Refuses.constructOf (Refuses.bind ?_ _)) _)
  exact refuses_lexeme next_ending rfl

private theorem next_name : NextToken ('p' :: entry value) (['p'] ++ entry value) :=
  next_of_head (by decide) (by decide)

private theorem tagName_takes : tagName.Takes ('p' :: entry value) true (entry value) := by
  refine Takes.constructOf ((takes_peek next_name).bind ?_)
  have name : markupName.Takes ('p' :: entry value) () (entry value) :=
    takes_lexeme next_name (by decide) rfl
  refine name.bind ?_
  refine (takes_punct?_other next_entry rfl).bind ?_
  have point : (do punct "."; Parser.name .identifier).Refuses (entry value) :=
    (refuses_punctAs .other next_entry rfl).bind _
  exact point.many.bind (takes_pure true _)

private theorem tagArguments_takes : (tagArguments self).Takes (entry value) () (entry value) :=
  (takes_sees next_entry "<").bind (takes_pure () _)

private theorem next_start :
    NextToken ('<' :: 'p' :: entry value) ("<".toList ++ 'p' :: entry value) :=
  next_of_head (by decide) (by decide)

private theorem tag_takes (h : (attributeValue self).Takes value () ending) :
    (tag self).Takes ('<' :: 'p' :: entry value) .selfClosing [] := by
  have moved : entry value ≠ ending := by
    intro same
    cases same
  have entries := (tagEntry_takes h).many moved tagEntry_ending
  have inside : (tagInside self).Takes ('p' :: entry value) () ending := by
    refine (takes_sees next_name ">").bind ?_
    exact tagName_takes.bind (tagArguments_takes.bind entries)
  have stop : NextToken ending ("/>".toList ++ []) := next_ending
  refine (takes_punctAs .other "<" next_start).bind (inside.bind ?_)
  exact (takes_punct? "/>" stop).bind (takes_pure Kind.selfClosing [])

private theorem tag_refuses (h : (attributeValue self).Refuses value) :
    (tag self).Refuses ('<' :: 'p' :: entry value) := by
  have entries := (tagEntry_refuses h).many
  have inside : (tagInside self).Takes ('p' :: entry value) () (entry value) := by
    refine (takes_sees next_name ">").bind ?_
    exact tagName_takes.bind (tagArguments_takes.bind entries)
  refine (takes_punctAs .other "<" next_start).bind_refuses (inside.bind_refuses ?_)
  refine (takes_punct?_other next_entry rfl).bind_refuses ?_
  exact (refuses_punctAs _ next_entry rfl).bind _

private theorem arrowHead_refuses (setting : Setting) :
    (arrowHead self setting).Refuses ('<' :: 'p' :: entry value) := by
  have name : (Parser.name .identifier).Takes ('p' :: entry value) () (entry value) := by
    unfold Parser.name nameAs
    exact takes_lexeme next_name (by decide) rfl
  have bound : (do
      keyword "extends" <|> punct ":"
      self (.type false)).Refuses (entry value) := by
    have word : (keyword "extends").Refuses (entry value) := refuses_keyword next_entry rfl
    exact (word.orElse_refuses (refuses_punctAs .other next_entry rfl)).bind _
  have default : (do
      equals
      self (.type false)).Refuses (entry value) := by
    refine Refuses.bind ((takes_peek next_entry).bind_refuses ?_) _
    exact refuses_punctAs .other next_entry rfl
  have parameter : (typeParameter self).Takes ('p' :: entry value) () (entry value) := by
    refine (Refuses.orElse (Refuses.bind ?_ _) name).bind ?_
    · exact refuses_keyword next_name rfl
    · exact (bound.orElse (takes_pure () _)).bind (default.orElse (takes_pure () _))
  have comma : (do punct ","; typeParameter self).Refuses (entry value) :=
    (refuses_punctAs .other next_entry rfl).bind _
  refine (takes_sees next_start "<").bind_refuses (Refuses.bind ?_ _)
  refine Refuses.construct ((takes_punctAs .other "<" next_start).bind_refuses ?_)
  refine (parameter.bind comma.many).bind_refuses ?_
  refine (Refuses.orElse (refuses_punctAs .other next_entry rfl) (takes_pure () _)).bind_refuses ?_
  exact refuses_punctAs _ next_entry rfl

private theorem next_nothing : NextToken [] [] :=
  AtToken.next ⟨by simp, rfl⟩

private theorem reconsider_refused {p : Parser Unit} {text : List Char} (h : p.Refuses text) :
    (reconsider p).Takes text false text := by
  refine (h.bind _).orElse (Takes.bind (a := ()) ?_ (takes_pure false text))
  exact fun s hs => ⟨_, rfl, hs⟩

private theorem htmlComment_refuses : htmlComment.Refuses ('<' :: 'p' :: entry value) :=
  (takes_peek next_start).bind_refuses (refuses_decline _)

private theorem htmlComment_nothing : htmlComment.Refuses [] :=
  (takes_peek next_nothing).bind_refuses (refuses_decline _)

private theorem mayEnd_nothing (place : EndPlace) : (mayEnd place).Takes [] true [] := by
  intro s hs
  refine ⟨s, ?_, hs⟩
  change Outcome.accepted (endsStatement place s.rest) s = _
  rw [hs]
  rfl

private theorem unlessEnded_nothing (place : EndPlace) : (unlessEnded true place).Refuses [] :=
  (mayEnd_nothing place).bind_refuses (refuses_decline [])

private theorem trailers_nothing {p : Parser Unit} {text : List Char} (h : p.Takes text () []) :
    (withTrailers self .outer p).Takes text () [] := by
  have trailer : (trailer self .outer).Refuses [] := (unlessEnded_nothing _).bind _
  refine h.bind (trailer.many.bind ((takes_peek next_nothing).bind ?_))
  refine takes_lastNode_bind fun n => ?_
  cases n with
  | none => exact takes_pure _ _
  | some n => exact takes_pure _ _

private theorem operand_element
    (h : (self .element).Takes ('<' :: 'p' :: entry value) () []) :
    (operand self .tsx .outer).Takes ('<' :: 'p' :: entry value) () [] := by
  refine Takes.isolate (htmlComment_refuses.many.bind ((takes_peek next_start).bind ?_))
  change (bracketOperand self .tsx .outer '<').Takes _ () _
  exact (reconsider_refused (arrowHead_refuses _)).bind (trailers_nothing h)

private theorem operand_no_element
    (h : (self .element).Refuses ('<' :: 'p' :: entry value)) :
    (operand self .tsx .outer).Refuses ('<' :: 'p' :: entry value) := by
  refine Refuses.isolate (htmlComment_refuses.many.bind_refuses ((takes_peek next_start).bind_refuses ?_))
  change (bracketOperand self .tsx .outer '<').Refuses _
  exact (reconsider_refused (arrowHead_refuses _)).bind_refuses (h.bind _)

private theorem expression_element
    (h : (self (.operand .outer)).Takes ('<' :: 'p' :: entry value) () []) :
    (expression self .outer).Takes ('<' :: 'p' :: entry value) () [] := by
  have operator : (operatorStep self .outer).Refuses [] := (unlessEnded_nothing _).bind _
  refine Takes.isolate (h.bind ?_)
  refine ((operator.bind _).orElse (takes_pure false _)).bind ?_
  exact (mayEnd_nothing _).bind ((takes_peek next_nothing).bind (takes_pure () _))

private theorem expressions_takes
    (h : (self (.expression .outer)).Takes ('<' :: 'p' :: entry value) () []) :
    (expressions self .outer).Takes ('<' :: 'p' :: entry value) () [] :=
  Takes.isolate (h.bind ((takes_sees next_nothing ",").bind (takes_pure () _)))

private theorem forget_takes (text : List Char) : forget.Takes text () text := by
  intro s hs
  refine ⟨forgotten s, rfl, ?_⟩
  rw [forgotten]
  split
  · exact hs
  · exact hs

private theorem semicolon_nothing (place : EndPlace) : (semicolon place).Takes [] () [] :=
  (mayEnd_nothing place).bind (forget_takes [])

private theorem statement_takes
    (h : (self (.expression .outer)).Takes ('<' :: 'p' :: entry value) () []) :
    (statement self).Takes ('<' :: 'p' :: entry value) () [] := by
  refine htmlComment_refuses.many.bind ((takes_peek next_start).bind ?_)
  change (expressionStatement self).Takes _ () _
  exact Takes.construct ((expressions_takes h).bind (semicolon_nothing _))

private theorem statement_refuses
    (h : (self (.expression .outer)).Refuses ('<' :: 'p' :: entry value)) :
    (statement self).Refuses ('<' :: 'p' :: entry value) := by
  refine htmlComment_refuses.many.bind_refuses ((takes_peek next_start).bind_refuses ?_)
  change (expressionStatement self).Refuses _
  exact Refuses.construct (((h.bind _).isolate).bind _)

private theorem statement_nothing : (statement self).Refuses [] :=
  htmlComment_nothing.many.bind_refuses ((takes_peek next_nothing).bind_refuses (refuses_refuse _ _))

private theorem interpreterLine_refuses : interpreterLine.Refuses ('<' :: 'p' :: entry value) :=
  (takes_peek next_start).bind_refuses (refuses_decline _)

private theorem program_takes
    (h : (self .statement).Takes ('<' :: 'p' :: entry value) () [])
    (last : (self .statement).Refuses []) :
    (program self).Takes ('<' :: 'p' :: entry value) () [] := by
  refine (interpreterLine_refuses.orElse (takes_pure () _)).bind ?_
  refine (h.many (List.cons_ne_nil _ _) last).bind (htmlComment_nothing.many.bind ?_)
  exact (takes_peek next_nothing).bind (takes_toToken next_nothing)

private theorem program_refuses
    (h : (self .statement).Refuses ('<' :: 'p' :: entry value)) :
    (program self).Refuses ('<' :: 'p' :: entry value) := by
  refine (interpreterLine_refuses.orElse (takes_pure () _)).bind_refuses ?_
  refine h.many.bind_refuses (htmlComment_refuses.many.bind_refuses ?_)
  exact (takes_peek next_start).bind_refuses ((refuses_refuse _ _).bind _)

/-- A file of one element with the given text as the value of its attribute. -/
def paragraph (value : List Char) : List Char :=
  "<p className=".toList ++ (value ++ ending)

private theorem paragraph_eq (value : List Char) :
    paragraph value = '<' :: 'p' :: entry (value ++ ending) := rfl

private theorem depthFor_eq (text : List Char) : ∃ depth, depthFor text = depth + 6 :=
  ⟨4 * text.length + 10, by rw [depthFor]⟩

theorem parse_takes
    (h : ∀ depth, (attributeValue (rules .tsx (depth + 2))).Takes (value ++ ending) () ending) :
    ∃ n, parse .tsx (paragraph value) = .ok n := by
  rw [paragraph_eq]
  generalize value ++ ending = value at h ⊢
  obtain ⟨depth, deep⟩ := depthFor_eq ('<' :: 'p' :: entry value)
  have element : (element (rules .tsx (depth + 2))).Takes ('<' :: 'p' :: entry value) () [] :=
    Takes.openConstruct (tag_takes (h depth)) (takes_pure () [])
  have operand : (operand (rules .tsx (depth + 3)) .tsx .outer).Takes _ () [] :=
    operand_element element
  have expression : (expression (rules .tsx (depth + 4)) .outer).Takes _ () [] :=
    expression_element operand
  have statement : (statement (rules .tsx (depth + 5))).Takes _ () [] :=
    statement_takes expression
  have program : (program (rules .tsx (depth + 6))).Takes _ () [] :=
    program_takes statement statement_nothing
  obtain ⟨t, ht, -⟩ := program (beginning ('<' :: 'p' :: entry value)) rfl
  rw [parse, deep, ht]
  exact ⟨_, rfl⟩

/-- A file of one element is not accepted if the value of its attribute is refused. -/
theorem parse_refuses
    (h : ∀ depth, (attributeValue (rules .tsx (depth + 2))).Refuses (value ++ ending)) :
    ∃ r, parse .tsx (paragraph value) = .error r := by
  rw [paragraph_eq]
  generalize value ++ ending = value at h ⊢
  obtain ⟨depth, deep⟩ := depthFor_eq ('<' :: 'p' :: entry value)
  have element : (element (rules .tsx (depth + 2))).Refuses ('<' :: 'p' :: entry value) :=
    Refuses.openConstruct (tag_refuses (h depth))
  have operand : (operand (rules .tsx (depth + 3)) .tsx .outer).Refuses _ :=
    operand_no_element element
  have expression : (expression (rules .tsx (depth + 4)) .outer).Refuses _ :=
    (operand.bind _).isolate
  have statement : (statement (rules .tsx (depth + 5))).Refuses _ :=
    statement_refuses expression
  have program : (program (rules .tsx (depth + 6))).Refuses _ :=
    program_refuses statement
  obtain ⟨r, hr⟩ := program (beginning ('<' :: 'p' :: entry value)) rfl
  rw [parse, deep, hr]
  exact ⟨r, rfl⟩

end Restyle.Grammar
