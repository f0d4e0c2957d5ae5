import Restyle.Syntax.Acceptance

/-!
# The rules that refer to one another

Each module of the grammar defines parsers in terms of the recursive rules named here. A rule is
given its meaning only once, when all of them are put together.
-/

namespace Restyle.Grammar

open Restyle.Syntax

/-- Where an expression stands: whether the end of a statement may end it, and whether the
parameters of an arrow function there may be followed by a result type. The latter does not hold
between `?` and `:`, where it is tried second. -/
structure Setting where
  ends : Bool
  typedArrows : Bool
  deriving DecidableEq, Repr

namespace Setting

def inner : Setting := ⟨false, true⟩

def outer : Setting := ⟨true, true⟩

end Setting

/-- The recursive rules. For a type, `ends` says whether the end of a statement may end it. -/
inductive Rule
  | statement
  | expression (setting : Setting)
  | operand (setting : Setting)
  | type (ends : Bool)
  | typeOperand (ends : Bool)
  | pattern
  | element
  deriving DecidableEq, Repr

open Parser

/-- The meaning of the rules. An element is read as one node that closes, after comments. -/
structure Recur where
  rule : Rule → Parser Unit
  element : ∀ {s t u}, (rule .element).run s = .accepted u t → Tops (fun n => n.kind.closes) s t

instance : CoeFun Recur fun _ => Rule → Parser Unit :=
  ⟨Recur.rule⟩

def afterExpression : EndPlace := ⟨true, false⟩

/-- The end of a statement after a type, or where an operand could follow. -/
def afterType : EndPlace := ⟨false, false⟩

def afterSignature : EndPlace := ⟨false, true⟩

def unlessEnded (ends : Bool) (place : EndPlace) : Parser Unit := do
  if ends then
    if ← mayEnd place then decline

/-- An equals sign that is no part of a longer operator. -/
def equals : Parser Unit := do
  match ← peek with
  | '=' :: '=' :: _ | '=' :: '>' :: _ => refuse .other
  | _ => punct "="

/-- The words that name no member of their own when they stand before one. -/
def memberModifiers : List String :=
  ["public", "private", "protected", "static", "override", "readonly", "abstract", "declare",
    "accessor", "async", "get", "set"]

theorem memberModifiers_loose {word : String} (h : word ∈ memberModifiers) :
    (Kind.token word).isLoose = true := by
  revert h word
  decide

/-- Whether a text goes on after the name of a member, and not with another word of it. -/
def endsMemberName : List Char → Bool
  | [] => true
  | c :: _ => c ∈ "(<?!:,;\x7d=".toList

/-- A word before the name of a member, or the star of a generator. -/
def memberModifier (ends : Bool) : Parser Unit := do
  let text ← peek
  match text with
  | '*' :: _ => punct "*"
  | _ =>
      let (word, _) := takeName text
      if modifier : String.ofList word ∈ memberModifiers then
        toToken
        take (.token (String.ofList word)) word.length (memberModifiers_loose modifier)
        unlessEnded ends afterType
        if endsMemberName (← peek) then decline
      else decline

/-- A number sign with a name after it, empty if there is none. -/
def takePrivateName (text : List Char) : List Char × List Char :=
  match text with
  | '#' :: rest =>
      match takeName rest with
      | ([], _) => ([], text)
      | (taken, left) => ('#' :: taken, left)
  | _ => ([], text)

theorem takePrivateName_words : TakesWords takePrivateName := by
  intro text
  unfold takePrivateName
  split
  · rename_i rest
    obtain ⟨split, solid⟩ := takeName_words rest
    cases found : takeName rest with
    | mk taken left =>
        rw [found] at split solid
        cases taken with
        | nil => simp
        | cons c taken =>
            refine ⟨by rw [split]; rfl, fun b hb => ?_⟩
            rcases List.mem_cons.mp hb with rfl | hb
            · rfl
            · exact solid b hb
  · simp

def privateName (kind : Kind) (plain : kind.isPlain = true := by exact @rfl Bool true) :
    Parser Unit :=
  lexeme kind .other takePrivateName takePrivateName_words plain

theorem takeString_taken {text found left : List Char} (h : takeString text = some (found, left)) :
    Kind.string.Taken (text.take found.length) (text.drop found.length) :=
  .of_quoted (takeString_quoted h) _

def stringLiteral (e : Expectation) : Parser Unit :=
  delimited .string e takeString isQuote openString takeString_taken

def regexLiteral : Parser Unit :=
  delimited .regex .operand takeRegex (· == '/') (fun _ rest => openRegex rest)
    fun _ => .of_loose rfl _ _

/-- The name of a member: a word, a private name, a string, a number, or an expression in
brackets. -/
def memberKey (self : Recur) : Parser Unit :=
  construct .key do
    match ← peek with
    | '[' :: _ =>
        punct "["
        self (.expression .inner)
        close "]"
    | '#' :: _ => privateName .identifier
    | c :: _ =>
        if isQuote c then stringLiteral .other
        else if isDigit c ∨ c = '.' then number .other
        else name .identifier
    | [] => refuse .other

def initializer (self : Recur) (setting : Setting) : Parser Unit := do
  equals
  self (.expression setting)

end Restyle.Grammar
