import Restyle.Grammar.Rule

/-!
# Types, parameters and patterns
-/

namespace Restyle.Grammar

open Restyle.Syntax Parser

variable (self : Recur)

def typeList : Parser Unit := do
  punct "<"
  sepBy1 "," (self (.type false))
  optional (punct ",")
  close ">"

theorem typeList_made {self : Recur} {s t : Progress} {x : Unit}
    (h : (typeList self).run s = .accepted x t) : Kind.typeArguments.Made t.nodes := by
  obtain ⟨_, _, _, h⟩ := accepted_of_bind h
  obtain ⟨_, _, _, h⟩ := accepted_of_bind h
  obtain ⟨_, _, _, h⟩ := accepted_of_bind h
  exact (closed_of_punctAs (by decide) h).made rfl nofun

def typeArguments : Parser Unit :=
  constructOf .typeArguments (typeList self) typeList_made

def typing (ends : Bool) : Parser Unit :=
  construct .type do
    punct ":"
    self (.type ends)

/-- What a function says of its result: a type, or a statement about an argument. -/
def resultType (ends : Bool) : Parser Unit :=
  (do
    keyword "asserts"
    name .identifier
    optional do
      keyword "is"
      self (.type ends)) <|>
  (do
    name .identifier
    keyword "is"
    self (.type ends)) <|>
  self (.type ends)

def resultTyping (ends : Bool) : Parser Unit :=
  construct .type do
    punct ":"
    resultType self ends

def typeParameter : Parser Unit := do
  (do
    keyword "const"
    name .identifier) <|> name .identifier
  optional do
    keyword "extends" <|> punct ":"
    self (.type false)
  optional do
    equals
    self (.type false)

def typeParameters : Parser Unit :=
  construct .type do
    punct "<"
    sepBy1 "," (typeParameter self)
    optional (punct ",")
    close ">"

def arguments : Parser Unit :=
  construct .arguments do
    punct "("
    commaList
      (do
        if ← sees "..." then
          construct .spread do
            punct "..."
            self (.expression .inner)
        else self (.expression .inner))
      ")"

/-- A decorator: a name, perhaps with arguments, or an expression in parentheses. -/
def decorator : Parser Unit :=
  construct .expression do
    punct "@"
    if ← sees "(" then
      punct "("
      self (.expression .inner)
      close ")"
    else
      name .identifier
      many do
        punct "."
        name .identifier
      optional do
        optional (typeArguments self)
        arguments self

/-- The words that may stand before a parameter of a constructor. -/
def parameterModifiers : List String :=
  ["public", "private", "protected", "override", "readonly"]

theorem parameterModifiers_loose {word : String} (h : word ∈ parameterModifiers) :
    (Kind.token word).isLoose = true := by
  revert h word
  decide

def parameterModifier : Parser Unit := do
  let text ← peek
  let (word, _) := takeName text
  if modifier : String.ofList word ∈ parameterModifiers then
    toToken
    take (.token (String.ofList word)) word.length (parameterModifiers_loose modifier)
    match ← peek with
    | c :: _ => unless isNameStart c || c = '[' || c = '{' || c = '\\' do decline
    | [] => decline
  else decline

def parameter : Parser Unit :=
  construct .pattern do
    many (decorator self)
    many parameterModifier
    self .pattern
    let _ ← punct? "?"
    optional (typing self false)
    optional (initializer self .inner)

def parameters : Parser Unit :=
  construct .parameters do
    punct "("
    optional do
      sepBy1 "," (parameter self)
      optional (punct ",")
    close ")"

def callSignature (ends : Bool) : Parser Unit := do
  if ← sees "<" then typeParameters self
  parameters self
  if ← sees ":" then resultTyping self ends

def patternEntry : Parser Unit :=
  construct .pattern do
    if ← sees "..." then
      punct "..."
      self .pattern
    else
      (do
        memberKey self
        punct ":"
        self .pattern) <|> name .identifier
      optional (initializer self .inner)

/-- A pattern that a value is taken apart by: a name, a list, an object, or the rest. -/
def pattern : Parser Unit :=
  construct .pattern do
    match ← peek with
    | '[' :: _ =>
        punct "["
        commaList
          (do
            self .pattern
            optional (initializer self .inner))
          "]"
    | '{' :: _ =>
        punct "\x7b"
        commaList (patternEntry self) "\x7d"
    | '.' :: _ =>
        punct "..."
        self .pattern
    | _ => name .identifier

/-- The index of an index signature or of a mapped type, in brackets. -/
def indexKey : Parser Unit := do
  punct "["
  name .identifier
  (do
    keyword "in"
    self (.type false)
    optional do
      keyword "as"
      self (.type false)) <|>
    typing self false
  close "]"

/-- A signature for all members whose names have a type. -/
def indexSignature (ends : Bool) : Parser Unit := do
  optional do
    optional (punct "+" <|> punct "-")
    keyword "readonly"
  indexKey self
  let _ ← punct? "-"
  let _ ← punct? "+"
  let _ ← punct? "?"
  typing self ends

def typeMember : Parser Unit :=
  construct .entry do
    let text ← peek
    match text with
    | '(' :: _ | '<' :: _ => callSignature self true
    | _ =>
        indexSignature self true <|>
        (do
          keyword "new"
          callSignature self true) <|>
        (do
          many (memberModifier true)
          memberKey self
          let _ ← punct? "?"
          if (← sees "(") || (← sees "<") then callSignature self true
          else optional (typing self true))

def objectType : Parser Unit :=
  construct .type do
    punct "\x7b"
    optional (punct "," <|> punct ";")
    many do
      typeMember self
      punct "," <|> semicolon afterType <|> (do require (← sees "\x7d"))
    close "\x7d"

def tupleMember : Parser Unit :=
  (do
    let _ ← punct? "..."
    name .identifier
    let _ ← punct? "?"
    typing self false) <|>
  (do
    let _ ← punct? "..."
    self (.type false)
    let _ ← punct? "?")

/-- Characters of a template up to a backquote, a backslash or a substitution. -/
def takeTemplateText : List Char → List Char × List Char
  | [] => ([], [])
  | '$' :: '{' :: rest => ([], '$' :: '{' :: rest)
  | c :: rest =>
      if c = '\x60' ∨ c = '\\' then ([], c :: rest)
      else
        let (taken, left) := takeTemplateText rest
        (c :: taken, left)

def templatePiece (substitution : Parser Unit) : Parser Unit := do
  match ← peekHere with
  | [] | '\x60' :: _ => decline
  | '$' :: '{' :: _ =>
      take (.token "$\x7b") 2
      substitution
      close "\x7d"
  | '\\' :: rest =>
      match escapeLength rest with
      | some n => take .text (n + 1)
      | none => refuse .other
  | text =>
      let (taken, _) := takeTemplateText text
      take .text taken.length

def template (substitution : Parser Unit) : Parser Unit :=
  construct .template do
    punct "`"
    many (templatePiece substitution)
    match ← peekHere with
    | '\x60' :: _ => take (.token "`") 1
    | _ => refuse .other

/-- What a function type, or the type of a constructor, has after its parameters. -/
def functionTypeTail (ends : Bool) : Parser Unit := do
  if ← sees "<" then typeParameters self
  parameters self
  punct "=>"
  resultType self ends

def typeName : Parser Unit := do
  nameAs .type .identifier
  many do
    punct "."
    name .identifier
  if ← sees "<" then optional (typeArguments self)

def typeQuery : Parser Unit := do
  (do
    keyword "import"
    arguments self) <|> name .identifier
  many do
    let _ ← punct? "?"
    punct "."
    privateName .identifier <|> name .identifier
  if ← sees "<" then optional (typeArguments self)

def primaryType (ends : Bool) : Parser Unit := do
  let text ← peek
  match text with
  | [] => refuse .type
  | c :: _ =>
      if c = '{' then objectType self
      else if c = '[' then
        punct "["
        commaList (tupleMember self) "]"
      else if c = '(' then
        (functionTypeTail self ends) <|>
        (do
          punct "("
          self (.type false)
          close ")")
      else if c = '<' then functionTypeTail self ends
      else if isQuote c then stringLiteral .type
      else if c = '\x60' then template (self (.type false))
      else if c = '*' then punct "*"
      else if c = '-' ∨ c = '+' then
        punct (String.singleton c)
        number .other
      else if isDigit c then number .type
      else typeName self

/-- The operators that come before a type, with what they apply to. -/
def leadingType (ends : Bool) : Parser Unit := do
  let word := String.ofList (takeName (← peek)).1
  match word with
  | "keyof" | "readonly" | "unique" =>
      keyword word
      self (.typeOperand ends)
  | "typeof" =>
      keyword word
      typeQuery self
  | "infer" =>
      keyword word
      name .identifier
      optional do
        keyword "extends"
        self (.typeOperand false)
        require (!(← sees "?"))
  | "new" =>
      keyword word
      functionTypeTail self ends
  | "abstract" =>
      keyword word
      keyword "new"
      functionTypeTail self ends
  | "import" =>
      keyword word
      arguments self
      many do
        punct "."
        name .identifier
      if ← sees "<" then optional (typeArguments self)
  | _ =>
      if ← sees "?" then
        punct "?"
        self (.typeOperand ends)
      else decline

def typeOperand (ends : Bool) : Parser Unit :=
  isolate do
    leadingType self ends <|> primaryType self ends
    regroup .type
    many do
      unlessEnded ends afterType
      punct "["
      optional (self (.type false))
      close "]"
      regroup .type

def typeOperator : Parser Unit := do
  match ← peek with
  | '|' :: '|' :: _ | '&' :: '&' :: _ => refuse .other
  | '|' :: _ => punct "|"
  | _ => punct "&"

/-- A type: unions and intersections, and a condition on one. -/
def type (ends : Bool) : Parser Unit :=
  isolate do
    many typeOperator
    self (.typeOperand ends)
    many do
      unlessEnded ends afterType
      typeOperator
      self (.typeOperand ends)
    regroup .type
    optional do
      unlessEnded ends afterType
      keyword "extends"
      self (.type false)
      punct "?"
      self (.type false)
      punct ":"
      self (.type ends)
      regroup .type

end Restyle.Grammar
