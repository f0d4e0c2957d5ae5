import Restyle.Grammar.Expressions

/-!
# Statements and declarations
-/

namespace Restyle.Grammar

open Restyle.Syntax Parser

variable (self : Recur)

def qualifiedName : Parser Unit := do
  name .identifier
  many do
    punct "."
    name .identifier

/-- A variable with its type and its value. Says whether it has a value. -/
def declarator (setting : Setting) : Parser Bool := do
  self .pattern
  let _ ← punct? "!"
  optional (typing self setting.ends)
  attempt (initializer self setting)

/-- Variables between commas, after the word that declares them. Says whether the last has a
value. -/
def declarators (setting : Setting) : Parser Bool := do
  let valued ← declarator self setting
  moreDeclarators (← peek) valued
where
  moreDeclarators (bound : List Char) (valued : Bool) : Parser Bool :=
    match bound with
    | [] => return valued
    | _ :: bound => do
        if ← punct? "," then
          let valued ← declarator self setting
          moreDeclarators bound valued
        else return valued

def bindings : Parser Unit := do
  keyword "var" <|> keyword "let" <|> keyword "const"
  if ← declarators self .outer then semicolon afterExpression
  else semicolon afterType

def functionDeclaration : Parser Unit := do
  let _ ← keyword? "async"
  keyword "function"
  let _ ← punct? "*"
  name .identifier
  callSignature self true
  if ← sees "\x7b" then block self else semicolon afterSignature

def classDeclaration : Parser Unit := do
  let _ ← keyword? "abstract"
  require (← seesWord "class")
  classRest self

def interfaceDeclaration : Parser Unit := do
  keyword "interface"
  name .identifier
  if ← sees "<" then typeParameters self
  if ← keyword? "extends" then sepBy1 "," (typeName self)
  objectType self

def enumDeclaration : Parser Unit := do
  let _ ← keyword? "const"
  keyword "enum"
  name .identifier
  punct "\x7b"
  optional do
    sepBy1 "," do
      memberKey self
      optional (initializer self .inner)
    optional (punct ",")
  close "\x7d"

def typeDeclaration : Parser Unit := do
  keyword "type"
  name .identifier
  if ← sees "<" then typeParameters self
  equals
  self (.type true)
  semicolon afterType

def moduleDeclaration : Parser Unit := do
  keyword "namespace" <|> keyword "module"
  stringLiteral .other <|> qualifiedName
  if ← sees "\x7b" then block self

def importAlias : Parser Unit := do
  keyword "import"
  name .identifier
  equals
  qualifiedName
  semicolon afterExpression

/-- A declaration that is no statement about what is declared elsewhere. -/
def plainDeclaration : Parser Unit := do
  let word := String.ofList (takeName (← peek)).1
  match word with
  | "var" | "let" => bindings self
  | "const" => enumDeclaration self <|> bindings self
  | "function" => functionDeclaration self
  | "async" => functionDeclaration self
  | "class" | "abstract" => classDeclaration self
  | "interface" => interfaceDeclaration self
  | "enum" => enumDeclaration self
  | "type" => typeDeclaration self
  | "namespace" | "module" => moduleDeclaration self
  | "import" => importAlias
  | _ => refuse .other

def declaration : Parser Unit := do
  if ← keyword? "declare" then
    (do
      keyword "global"
      block self) <|>
    (do
      keyword "module"
      punct "."
      name .identifier
      punct ":"
      self (.type true)
      semicolon afterType) <|>
    plainDeclaration self
  else plainDeclaration self

def exportedName : Parser Unit :=
  stringLiteral .other <|> name .identifier

/-- One of the names in a list of imports or exports, and what it is called instead. -/
def specifier : Parser Unit :=
  (do
    keyword "type" <|> keyword "typeof"
    plain) <|> plain
where
  plain : Parser Unit := do
    exportedName
    optional do
      keyword "as"
      exportedName
    require ((← sees ",") || (← sees "\x7d"))

def specifiers : Parser Unit := do
  punct "\x7b"
  optional do
    sepBy1 "," specifier
    optional (punct ",")
  close "\x7d"

def source : Parser Unit := do
  keyword "from"
  stringLiteral .other

def importClause : Parser Unit := do
  let everything : Parser Unit := do
    punct "*"
    keyword "as"
    name .identifier
  everything <|> specifiers <|>
    (do
      name .identifier
      if ← punct? "," then everything <|> specifiers)

def importStatement : Parser Unit := do
  keyword "import"
  let clause : Parser Unit :=
    (do
      importClause
      source) <|>
    (do
      name .identifier
      equals
      keyword "require"
      punct "("
      stringLiteral .other
      close ")") <|>
    stringLiteral .other
  (do
    keyword "type" <|> keyword "typeof"
    clause) <|> clause
  optional do
    keyword "with"
    object self
  semicolon afterType

def exportStatement : Parser Unit := do
  many (decorator self)
  keyword "export"
  let renamed : Parser Unit := do
    punct "*"
    optional do
      keyword "as"
      exportedName
    source
    semicolon afterType
  let listed : Parser Unit := do
    let _ ← keyword? "type"
    specifiers
    optional source
    semicolon afterType
  let assigned : Parser Unit := do
    equals
    self (.expression .outer)
    semicolon afterExpression
  let named : Parser Unit := do
    keyword "as"
    keyword "namespace"
    name .identifier
    semicolon afterType
  let byDefault : Parser Unit := do
    keyword "default"
    (do
      many (decorator self)
      declaration self) <|>
    (do
      self (.expression .outer)
      semicolon afterExpression)
  renamed <|> listed <|> assigned <|> named <|> byDefault <|> declaration self

def expressionStatement : Parser Unit :=
  construct .expressionStatement do
    expressions self .outer
    semicolon afterExpression

def labelled : Parser Unit :=
  construct .statement do
    name .identifier
    punct ":"
    self .statement

def countingHeader : Parser Unit := do
  punct "("
  (do
    keyword "var" <|> keyword "let" <|> keyword "const"
    let _ ← declarators self .inner
    close ";") <|>
    (do
      if ← sees ";" then punct ";"
      else
        expressions self .inner
        close ";")
  unless ← sees ";" do expressions self .inner
  close ";"
  unless ← sees ")" do expressions self .inner
  close ")"

/-- The clauses of a loop over the elements or the keys of something. -/
def iteratingHeader : Parser Unit := do
  punct "("
  (do
    keyword "var" <|> keyword "let" <|> keyword "const"
    self .pattern
    optional (initializer self .inner)) <|>
    (do
      isolate do
        pattern self <|> parenthesized self
        many (trailer self .inner))
  keyword "in" <|> keyword "of"
  expressions self .inner
  close ")"

def jump (word : String) : Parser Unit := do
  keyword word
  unless ← mayEnd afterType do
    optional (name .identifier)
  semicolon afterType

def caseStatement : Parser Unit := do
  match String.ofList (takeName (← peek)).1 with
  | "case" | "default" => decline
  | _ => self .statement

def switchCase : Parser Unit :=
  construct .block do
    (do
      keyword "default") <|>
    (do
      keyword "case"
      expressions self .inner)
    close ":"
    many (caseStatement self)

/-- A statement that a word of its own begins; the others are declined. -/
def keywordStatement (word : String) : Parser Unit := do
  match word with
  | "debugger" =>
      keyword word
      semicolon afterType
  | "break" | "continue" => jump word
  | "if" =>
      keyword word
      parenthesized self
      self .statement
      if ← keyword? "else" then self .statement
  | "switch" =>
      keyword word
      parenthesized self
      punct "\x7b"
      many (switchCase self)
      close "\x7d"
  | "for" =>
      keyword word
      let _ ← keyword? "await"
      iteratingHeader self <|> countingHeader self
      self .statement
  | "while" | "with" =>
      keyword word
      parenthesized self
      self .statement
  | "do" =>
      keyword word
      self .statement
      keyword "while"
      parenthesized self
      optional (semicolon afterExpression)
  | "try" =>
      keyword word
      block self
      if ← keyword? "catch" then
        if ← punct? "(" then
          self .pattern
          optional (typing self false)
          close ")"
        block self
      if ← keyword? "finally" then block self
  | "return" =>
      keyword word
      unless ← mayEnd afterType do
        unless ← sees ";" do expressions self .outer
      semicolon afterExpression
  | "throw" =>
      keyword word
      expressions self .outer
      semicolon afterExpression
  | _ => decline

/-- The words that can only begin a statement of their own kind. -/
def statementWords : List String :=
  ["debugger", "break", "continue", "if", "switch", "for", "while", "with", "do", "try", "return",
    "throw", "var", "const", "enum", "interface", "abstract"]

/-- The text after a word that is followed by another, if it is. -/
def afterWordBefore? (word : String) (text : List Char) : Option (List Char) :=
  (afterWord? word.toList text).map (List.dropWhile isSpace)

/-- Whether a function or a class comes next that has a name, so that it is a declaration. -/
def declaresName (text : List Char) : Bool :=
  let text := (afterWordBefore? "async" text).getD text
  match afterWordBefore? "function" text with
  | some rest =>
      let rest := match rest with
        | '*' :: more => more.dropWhile isSpace
        | _ => rest
      !(takeName rest).1.isEmpty
  | none =>
      match afterWordBefore? "class" text with
      | some rest =>
          let word := String.ofList (takeName rest).1
          !word.isEmpty && word ∉ ["extends", "implements"]
      | none => false

def wordStatement (word : String) : Parser Unit := do
  let own : Parser Unit :=
    construct .statement do
      match word with
      | "export" => exportStatement self
      | "import" => importStatement self <|> importAlias
      | "var" | "let" | "const" | "async" | "function" | "class" | "abstract" | "interface"
      | "enum" | "type" | "namespace" | "module" | "declare" => declaration self
      | _ => keywordStatement self word
  if word ∈ statementWords then own
  else if word ∈ ["async", "function", "class"] then
    if declaresName (← peek) then own else labelled self <|> expressionStatement self
  else own <|> labelled self <|> expressionStatement self

/-- A statement. Braces hold a block, unless they can only be an object. -/
def statement : Parser Unit := do
  many htmlComment
  let text ← peek
  match text with
  | [] => refuse .other
  | '\x7b' :: _ =>
      block self <|>
      (do
        require (objectAhead text)
        expressionStatement self)
  | ';' :: _ => construct .statement (punct ";")
  | '@' :: _ =>
      (construct .statement do
        many (decorator self)
        if ← seesWord "export" then exportStatement self else classDeclaration self) <|>
      expressionStatement self
  | _ =>
      let word := (takeName text).1
      if word.isEmpty then expressionStatement self
      else wordStatement self (String.ofList word)

/-- The first line of a script that names its interpreter. -/
def interpreterLine : Parser Unit := do
  let text ← peek
  match text with
  | '#' :: '!' :: _ =>
      toToken
      let (taken, _) := text.span (· != '\n')
      take .text taken.length
  | _ => decline

def program : Parser Unit := do
  optional interpreterLine
  many (self .statement)
  many htmlComment
  unless (← peek).isEmpty do refuse .other
  toToken

end Restyle.Grammar
