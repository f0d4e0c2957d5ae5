import Restyle.Grammar.Markup

/-!
# Expressions

Operands with what precedes and follows them, and rows of operands. Operators of different
strength are kept in one row, since nothing here asks which of them binds tighter; only the
conditional operator, which binds loosest, makes a node of its own over a row.
-/

namespace Restyle.Grammar

open Restyle.Syntax Parser

mutual

/-- Whether an expression can be assigned to, as a whole or by its parts. -/
def isTarget : Node → Bool
  | .node l cs =>
      match l.kind with
      | .identifier | .member | .subscript | .nonNull | .pattern | .shorthand | .assignment
      | .key | .comment | .token _ => true
      | .array | .object | .entry | .spread => areTargets cs
      | _ => false

def areTargets : List Node → Bool
  | [] => true
  | c :: cs => isTarget c && areTargets cs

end

variable (self : Recur)

def block : Parser Unit :=
  construct .block do
    punct "\x7b"
    many (self .statement)
    many htmlComment
    close "\x7d"

/-- Whether braces that open here could only belong to an object. -/
def objectAhead (text : List Char) : Bool :=
  match text with
  | '\x7b' :: rest =>
      let inside := rest.dropWhile isSpace
      match inside with
      | '.' :: '.' :: '.' :: _ => true
      | _ =>
          let tail :=
            match takeString inside with
            | some (_, left) => left
            | none =>
                match takeNumber inside with
                | ([], _) => (takeName inside).2
                | (_, left) => left
          tail.length < inside.length &&
            match tail.dropWhile isSpace with
            | ':' :: _ | ',' :: _ => true
            | _ => false
  | _ => false

/-- What follows the parameters of an arrow function. Braces hold a block, unless they can only be
an object. -/
def arrowBody (setting : Setting) : Parser Unit := do
  let text ← peek
  match text with
  | '\x7b' :: _ =>
      block self <|>
      (do
        require (objectAhead text)
        self (.expression setting))
  | _ => self (.expression setting)

def arrowHead (setting : Setting) : Parser Unit := do
  if ← sees "<" then typeParameters self
  parameters self
  if setting.typedArrows then
    optional do
      resultTyping self false
      require (← sees "=>")
  punct "=>"

def plainArrowHead : Parser Unit := do
  construct .pattern (name .identifier)
  punct "=>"

/-- A function: its parameters, its result type and its body. -/
def functionRest : Parser Unit := do
  callSignature self false
  block self

def functionExpression : Parser Unit := do
  let _ ← keyword? "async"
  keyword "function"
  let _ ← punct? "*"
  optional (name .identifier)
  functionRest self

def entryModifiers : Parser Bool :=
  advances (many (memberModifier false))

/-- An entry of an object: a spread, a method, a pair, or a name alone. -/
def objectEntry : Parser Unit := do
  let text ← peek
  match text with
  | '.' :: _ =>
      construct .spread do
        punct "..."
        self (.expression .inner)
  | _ =>
      isolate do
        let marked ← entryModifiers
        let alone := !(takeName (← peek)).1.isEmpty
        memberKey self
        let _ ← punct? "?"
        if (← sees "(") || (← sees "<") then
          functionRest self
          regroup .entry
        else
          require (!marked)
          if ← punct? ":" then
            self (.expression .inner)
            regroup .entry
          else
            require (alone && ((← sees ",") || (← sees "\x7d")))
            regroup .shorthand

def object : Parser Unit :=
  construct .object do
    punct "\x7b"
    commaList (objectEntry self) "\x7d"

def array : Parser Unit :=
  construct .array do
    punct "["
    commaList
      (do
        if ← sees "..." then
          construct .spread do
            punct "..."
            self (.expression .inner)
        else self (.expression .inner))
      "]"

/-- A literal that may also be a pattern on the left of an equals sign. -/
def arrayOrObject : Parser Unit := do
  (match ← peek with
    | '[' :: _ => array self
    | _ => object self) <|>
  (do
    pattern self
    match ← peek with
    | '=' :: '=' :: _ | '=' :: '>' :: _ => decline
    | '=' :: _ => return ()
    | _ => decline)

/-- Expressions in parentheses. A single one may be given a type. -/
def parenthesized : Parser Unit :=
  construct .parenthesized do
    punct "("
    isolate do
      self (.expression .inner)
      if ← sees ":" then typing self false
      else if ← sees "," then
        many do
          punct ","
          self (.expression .inner)
        regroup .sequence
    close ")"

def memberName : Parser Unit := do
  match ← peek with
  | '#' :: _ => privateName .identifier
  | _ => name .identifier

/-- Whether something to compute with comes next, rather than an operator or an end. -/
def operandAhead (text : List Char) : Bool :=
  match text with
  | [] => false
  | '!' :: '=' :: _ => false
  | c :: rest =>
      let word := String.ofList (takeName text).1
      if word.isEmpty then
        isDigit c || c ∈ "\"'\x60[\x7b<!~+-/@#".toList ||
          (c = '.' && (rest.head?.map isDigit).getD false)
      else word ∉ ["in", "instanceof", "as", "satisfies", "of"]

/-- Something that applies to the operand before it: a member, a subscript, arguments, a template,
an assertion that it is not null, or a step. -/
def trailer (setting : Setting) : Parser Unit := do
  unlessEnded setting.ends afterExpression
  match ← peek with
  | '?' :: '.' :: _ =>
      punct "?."
      let text ← peek
      match text with
      | '[' :: _ =>
          punct "["
          expressions self .inner
          close "]"
          regroup .subscript
      | '(' :: _ =>
          arguments self
          regroup .expression
      | '<' :: _ =>
          typeArguments self
          arguments self
          regroup .expression
      | _ =>
          memberName
          regroup .member
  | '.' :: _ =>
      punct "."
      memberName
      regroup .member
  | '[' :: _ =>
      punct "["
      expressions self .inner
      close "]"
      regroup .subscript
  | '(' :: _ =>
      arguments self
      regroup .expression
  | '\x60' :: _ =>
      template (expressions self .inner)
      regroup .expression
  | '!' :: '=' :: _ => decline
  | '!' :: _ =>
      punct "!"
      regroup .nonNull
  | '+' :: '+' :: _ =>
      punct "++"
      regroup .expression
  | '-' :: '-' :: _ =>
      punct "--"
      regroup .expression
  | '<' :: _ =>
      typeArguments self
      if ← sees "(" then arguments self
      else require (!operandAhead (← peek))
      regroup .expression
  | _ => refuse .other

/-- The operators that change their left side, the longer ones first. -/
def updateOperators : List String :=
  [">>>=", "**=", "<<=", ">>=", "&&=", "||=", "??=", "+=", "-=", "*=", "/=", "%=", "&=", "|=", "^="]

/-- The first of some tokens that the text begins with. -/
def tokenAhead? (tokens : List String) (text : List Char) : Option String :=
  tokens.find? fun token => (after? token.toList text).isSome

/-- An assignment to the operand before it, if one follows. -/
def assignment (setting : Setting) : Parser Unit := do
  let text ← peek
  match ← lastNode with
  | none => return ()
  | some target =>
      match text with
      | '=' :: '=' :: _ | '=' :: '>' :: _ => return ()
      | '=' :: _ =>
          if target.kind == .parenthesized || isTarget target then
            punct "="
            self (.expression setting)
            regroup .assignment
      | _ =>
          match tokenAhead? updateOperators text with
          | none => return ()
          | some token =>
              if target.kind ∈ [.identifier, .member, .subscript, .nonNull, .parenthesized] then
                punct token
                self (.expression setting)
                regroup .expression

/-- An operand with all that follows it up to the next operator. -/
def withTrailers (setting : Setting) (p : Parser Unit) : Parser Unit := do
  p
  many (trailer self setting)
  assignment self setting

def heritage : Parser Unit := do
  if ← keyword? "extends" then
    sepBy1 "," do
      isolate do
        self (.operand .inner)
        if ← sees "<" then optional (typeArguments self)
  if ← keyword? "implements" then
    sepBy1 "," (self (.type false))

/-- A member of a class: a method, its signature, a field, or an index signature. -/
def classMember : Parser Unit :=
  construct .entry do
    many (decorator self)
    (do
      let _ ← keyword? "static"
      let _ ← keyword? "readonly"
      indexSignature self true
      punct "," <|> semicolon afterType) <|>
    (do
      many (memberModifier true)
      memberKey self
      let marked ← punct? "?"
      unless marked do
        let _ ← punct? "!"
      if (← sees "(") || (← sees "<") then
        callSignature self true
        if ← sees "\x7b" then block self
        else punct "," <|> semicolon afterSignature
      else
        optional (typing self true)
        if ← attempt (initializer self .outer) then semicolon afterExpression
        else punct "," <|> semicolon afterType)

def classEntry : Parser Unit := do
  match ← peek with
  | ';' :: _ => punct ";"
  | _ =>
      (do
        keyword "static"
        block self) <|> classMember self

def classRest : Parser Unit := do
  keyword "class"
  let word := String.ofList (takeName (← peek)).1
  if word ≠ "extends" ∧ word ≠ "implements" then optional (name .identifier)
  if ← sees "<" then typeParameters self
  heritage self
  construct .block do
    punct "\x7b"
    many (classEntry self)
    close "\x7d"

def classExpression : Parser Unit := do
  many (decorator self)
  classRest self

def wordOperand (setting : Setting) (word : String) : Parser Unit := do
  match word with
  | "typeof" | "void" | "delete" | "await" =>
      keyword word
      self (.operand setting)
      regroup .expression
  | "yield" =>
      keyword word
      if ← punct? "*" then self (.expression setting)
      else
        optional do
          unlessEnded setting.ends afterType
          self (.expression setting)
      regroup .expression
  | "function" =>
      withTrailers self setting do
        functionExpression self
        regroup .expression
  | "class" =>
      withTrailers self setting do
        classExpression self
        regroup .expression
  | "this" | "super" | "true" | "false" | "null" =>
      withTrailers self setting (name .expression)
  | "import" =>
      withTrailers self setting do
        keyword word
        if ← punct? "." then
          name .identifier
          regroup .member
        else
          if ← sees "<" then typeArguments self
          arguments self
          regroup .expression
  | "new" =>
      withTrailers self setting <|
        (do
          keyword word
          if ← punct? "." then
            keyword "target"
            regroup .expression
          else
            isolate (self (.operand setting))
            regroup .expression) <|>
        name .identifier
  | "async" =>
      (do
        require (← seesWord "async")
        functionExpression self
        regroup .expression
        many (trailer self setting)) <|>
      (do
        keyword word
        plainArrowHead <|> arrowHead self setting
        arrowBody self setting
        regroup .expression) <|>
      withTrailers self setting (name .identifier)
  | _ => withTrailers self setting (nameAs .operand .identifier)

def bracketOperand (dialect : Dialect) (setting : Setting) (c : Char) : Parser Unit := do
  if c ∈ ['(', '<'] then
    if ← reconsider (arrowHead self setting) then
      arrowBody self setting
      regroup .expression
      many (trailer self setting)
    else if c = '(' then withTrailers self setting (parenthesized self)
    else
      match dialect with
      | .tsx => withTrailers self setting (self .element)
      | .typescript =>
          typeArguments self
          self (.operand setting)
          regroup .expression
  else withTrailers self setting (arrayOrObject self)

/-- The operators in front of an operand that are not words. -/
def leadingOperators : List String :=
  ["++", "--", "!", "~", "+", "-"]

def operand (dialect : Dialect) (setting : Setting) : Parser Unit :=
  isolate do
    many htmlComment
    let text ← peek
    match text with
    | [] => refuse .operand
    | c :: rest =>
        let (word, left) := takeName text
        if !word.isEmpty then
          if (after? "=>".toList (left.dropWhile isSpace)).isSome then
            plainArrowHead
            arrowBody self setting
            regroup .expression
            many (trailer self setting)
          else wordOperand self setting (String.ofList word)
        else if c ∈ ['(', '<', '[', '\x7b'] then bracketOperand self dialect setting c
        else if isQuote c then
          withTrailers self setting (stringLiteral .operand)
        else if c = '\x60' then
          withTrailers self setting (template (expressions self .inner))
        else if c = '/' then withTrailers self setting regexLiteral
        else if c = '@' then
          withTrailers self setting do
            classExpression self
            regroup .expression
        else if c = '#' then
          privateName .identifier
          require (← seesWord "in")
        else if isDigit c || (c = '.' && (rest.head?.map isDigit).getD false) then
          withTrailers self setting (number .operand)
        else
          match tokenAhead? leadingOperators text with
          | some token =>
              punct token
              self (.operand setting)
              regroup .expression
          | none => refuse .operand

/-- The operators between operands that are not words, the longer ones first. -/
def rowOperators : List String :=
  [">>>", "===", "!==", "&&", "||", "??", ">>", "<<", "**", "<=", ">=", "==", "!=", "&", "|", "^",
    "+", "-", "*", "/", "%", "<", ">"]

/-- An operator and the operand, or the type, after it. -/
def operatorStep (setting : Setting) : Parser Unit := do
  unlessEnded setting.ends afterExpression
  let text ← peek
  match String.ofList (takeName text).1 with
  | "in" =>
      keyword "in"
      self (.operand setting)
  | "instanceof" =>
      keyword "instanceof"
      self (.operand setting)
  | "as" =>
      keyword "as"
      self (.type setting.ends)
  | "satisfies" =>
      keyword "satisfies"
      self (.type setting.ends)
  | _ =>
      if (tokenAhead? updateOperators text).isSome then refuse .other
      else
        match tokenAhead? rowOperators text with
        | some token =>
            punct token
            self (.operand setting)
        | none => refuse .other

/-- Whether a question mark begins a conditional: it is no part of `??` or `?.`, and neither a
closing parenthesis, a comma nor a colon follows. -/
def conditionalAhead : List Char → Bool
  | '?' :: '?' :: _ => false
  | '?' :: '.' :: _ => false
  | '?' :: rest =>
      match rest.dropWhile isBreakingSpace with
      | ':' :: _ | ')' :: _ | ',' :: _ => false
      | '.' :: c :: _ => isDigit c
      | '.' :: [] => false
      | _ => true
  | _ => false

/-- A row of operands, and a conditional on it if a question mark follows. Between `?` and `:` an
arrow function may have a result type only if a colon is left after it. -/
def expression (setting : Setting) : Parser Unit :=
  isolate do
    self (.operand setting)
    if ← attempt (operatorStep self setting) then
      many (operatorStep self setting)
      regroup .expression
    let ended ← if setting.ends then mayEnd afterExpression else pure false
    if !ended && conditionalAhead (← peek) then
      punct "?"
      (do
        self (.expression ⟨false, true⟩)
        close ":") <|>
      (do
        self (.expression ⟨false, false⟩)
        close ":")
      self (.expression setting)
      regroup .ternary

end Restyle.Grammar
