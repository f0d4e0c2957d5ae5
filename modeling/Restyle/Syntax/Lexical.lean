import Restyle.Text.Utf8

/-!
# Lexical rules

How far words, numbers, strings, comments and regular expressions reach. Each rule splits a list
of characters into the part it takes and the rest.
-/

namespace Restyle.Syntax

def isSpace (c : Char) : Bool :=
  let n := c.toNat
  (9 ≤ n && n ≤ 13) || n == 0x20 || n == 0xA0 || n == 0x1680 || (0x2000 ≤ n && n ≤ 0x200B) ||
    n == 0x2028 || n == 0x2029 || n == 0x202F || n == 0x205F || n == 0x2060 || n == 0x3000 ||
    n == 0xFEFF

def isLineEnd (c : Char) : Bool :=
  c == '\n' || c == '\r' || c == '\u2028' || c == '\u2029'

def isDigit (c : Char) : Bool :=
  '0' ≤ c && c ≤ '9'

def isHexDigit (c : Char) : Bool :=
  isDigit c || ('a' ≤ c && c ≤ 'f') || ('A' ≤ c && c ≤ 'F')

def isLetter (c : Char) : Bool :=
  ('a' ≤ c && c ≤ 'z') || ('A' ≤ c && c ≤ 'Z')

/-- A character that may begin a name. Beyond ASCII, all but white space may. -/
def isNameStart (c : Char) : Bool :=
  isLetter c || c == '$' || c == '_' || (0x7F ≤ c.toNat && !isSpace c)

def isNamePart (c : Char) : Bool :=
  isNameStart c || isDigit c

/-- Whether hexadecimal digits, at least one, and a closing brace follow. -/
def bracedHexAhead (text : List Char) : Bool :=
  let digits := text.takeWhile isHexDigit
  match text.dropWhile isHexDigit with
  | '}' :: _ => !digits.isEmpty
  | _ => false

def nameTail (braced : Bool) : List Char → List Char × List Char
  | [] => ([], [])
  | '\\' :: 'u' :: '{' :: rest =>
      if bracedHexAhead rest then
        let (taken, left) := nameTail true rest
        ('\\' :: 'u' :: '{' :: taken, left)
      else ([], '\\' :: 'u' :: '{' :: rest)
  | '\\' :: 'u' :: a :: b :: c :: d :: rest =>
      if isHexDigit a && isHexDigit b && isHexDigit c && isHexDigit d then
        let (taken, left) := nameTail false rest
        ('\\' :: 'u' :: a :: b :: c :: d :: taken, left)
      else ([], '\\' :: 'u' :: a :: b :: c :: d :: rest)
  | c :: rest =>
      if isNamePart c || (braced && c == '}') then
        let (taken, left) := nameTail (braced && c != '}') rest
        (c :: taken, left)
      else ([], c :: rest)

/-- The name at the head of the text, empty if there is none. -/
def takeName (text : List Char) : List Char × List Char :=
  match text with
  | c :: _ => if isNameStart c || c == '\\' then nameTail false text else ([], text)
  | [] => ([], [])

/-- Digits of the kind `digit`, single underscores between them. -/
def digitTail (digit : Char → Bool) : List Char → List Char × List Char
  | [] => ([], [])
  | '_' :: c :: rest =>
      if digit c then
        let (taken, left) := digitTail digit rest
        ('_' :: c :: taken, left)
      else ([], '_' :: c :: rest)
  | c :: rest =>
      if digit c then
        let (taken, left) := digitTail digit rest
        (c :: taken, left)
      else ([], c :: rest)

def takeDigits (digit : Char → Bool) (text : List Char) : List Char × List Char :=
  match text with
  | c :: _ => if digit c then digitTail digit text else ([], text)
  | [] => ([], [])

def takeExponent (text : List Char) : List Char × List Char :=
  match text with
  | e :: rest =>
      if e == 'e' || e == 'E' then
        let (sign, tail) := match rest with
          | '+' :: r => (['+'], r)
          | '-' :: r => (['-'], r)
          | r => ([], r)
        match takeDigits isDigit tail with
        | ([], _) => ([], text)
        | (digits, left) => (e :: sign ++ digits, left)
      else ([], text)
  | [] => ([], [])

/-- The suffix of a big integer, empty if there is none. -/
def takeBigSuffix (text : List Char) : List Char × List Char :=
  match text with
  | 'n' :: rest => (['n'], rest)
  | _ => ([], text)

/-- Whether digits may stand before a point: a zero, or a number with at most one leading zero. -/
def isPlainInteger (digits : List Char) : Bool :=
  match digits with
  | ['0'] => true
  | '0' :: c :: _ => c != '0' && c != '_'
  | _ => true

/-- A number written with a radix prefix, empty if there is none. -/
def takeRadixNumber (text : List Char) : List Char × List Char :=
  match text with
  | '0' :: x :: rest =>
      let digit : Option (Char → Bool) :=
        if x == 'x' || x == 'X' then some isHexDigit
        else if x == 'b' || x == 'B' then some fun c => c == '0' || c == '1'
        else if x == 'o' || x == 'O' then some fun c => '0' ≤ c && c ≤ '7'
        else none
      match digit with
      | none => ([], text)
      | some digit =>
          match takeDigits digit rest with
          | ([], _) => ([], text)
          | (digits, left) =>
              let (suffix, left) := takeBigSuffix left
              ('0' :: x :: digits ++ suffix, left)
  | _ => ([], text)

/-- The decimal number at the head of the text, empty if there is none. -/
def takeDecimal (text : List Char) : List Char × List Char :=
  match takeDigits isDigit text with
  | ([], _) =>
      match text with
      | '.' :: rest =>
          match takeDigits isDigit rest with
          | ([], _) => ([], text)
          | (fraction, left) =>
              let (exponent, left) := takeExponent left
              ('.' :: fraction ++ exponent, left)
      | _ => ([], text)
  | (digits, left) =>
      match left with
      | '.' :: rest =>
          if isPlainInteger digits then
            let (fraction, left) := takeDigits isDigit rest
            let (exponent, left) := takeExponent left
            (digits ++ '.' :: fraction ++ exponent, left)
          else (digits, left)
      | _ =>
          let (exponent, tail) := takeExponent left
          if isPlainInteger digits && !exponent.isEmpty then (digits ++ exponent, tail)
          else
            let (suffix, tail) := takeBigSuffix left
            (digits ++ suffix, tail)

/-- The number at the head of the text, empty if there is none. -/
def takeNumber (text : List Char) : List Char × List Char :=
  match takeRadixNumber text with
  | ([], _) => takeDecimal text
  | found => found

def blockCommentTail : List Char → Option (List Char × List Char)
  | [] => none
  | '*' :: '/' :: rest => some (['*', '/'], rest)
  | c :: rest =>
      match blockCommentTail rest with
      | some (taken, left) => some (c :: taken, left)
      | none => none

def takeComment (text : List Char) : Option (List Char × List Char) :=
  match text with
  | '/' :: '/' :: rest =>
      let (taken, left) := rest.span fun c => !isLineEnd c
      some ('/' :: '/' :: taken, left)
  | '/' :: '*' :: rest =>
      match blockCommentTail rest with
      | some (taken, left) => some ('/' :: '*' :: taken, left)
      | none => none
  | _ => none

/-- What may follow a backslash in a string or a template: how many characters are part of the
escape, or nothing if it is malformed. -/
def escapeLength (text : List Char) : Option Nat :=
  match text with
  | [] => none
  | 'x' :: a :: b :: _ => if isHexDigit a && isHexDigit b then some 3 else none
  | 'x' :: _ => none
  | 'u' :: '{' :: rest => if bracedHexAhead rest then some 2 else none
  | 'u' :: a :: b :: c :: d :: _ =>
      if isHexDigit a && isHexDigit b && isHexDigit c && isHexDigit d then some 5 else none
  | 'u' :: _ => none
  | '\r' :: '\n' :: _ => some 2
  | _ :: _ => some 1

/-- A string literal after its opening quote. `skip` characters belong to an escape. After a bare
line break, which `broken` records, only space and the closing quote may follow. -/
def stringTail (quote : Char) (skip : Nat) (broken : Bool) :
    List Char → Option (List Char × List Char)
  | [] => none
  | c :: rest =>
      let next : Option (List Char × List Char) :=
        match skip with
        | skip + 1 => stringTail quote skip false rest
        | 0 =>
            if c == quote then some ([], rest)
            else if broken then if isSpace c then stringTail quote 0 true rest else none
            else if c == '\\' then
              match escapeLength rest with
              | some n => stringTail quote n false rest
              | none => none
            else if c == '\n' || c == '\r' then stringTail quote 0 true rest
            else stringTail quote 0 false rest
      match next with
      | some (taken, left) => some (c :: taken, left)
      | none => none

def takeString (text : List Char) : Option (List Char × List Char) :=
  match text with
  | q :: rest =>
      if q == '"' || q == '\'' then
        match stringTail q 0 false rest with
        | some (taken, left) => some (q :: taken, left)
        | none => none
      else none
  | [] => none

def isQuote (c : Char) : Bool :=
  c == '"' || c == '\''

/-- What can be read of a string literal that is not closed; the text follows the opening quote. -/
def openString (quote : Char) : List Char → List Char × List Char
  | [] => ([], [])
  | '\\' :: c :: rest =>
      let (taken, left) := openString quote rest
      ('\\' :: c :: taken, left)
  | c :: rest =>
      if c == quote || c == '\n' || c == '\r' then ([], c :: rest)
      else
        let (taken, left) := openString quote rest
        (c :: taken, left)

/-- What makes up a character reference after `lead`, at most `most` characters, up to its
semicolon. -/
def takeReferenceBody (p : Char → Bool) (most : Nat) (lead body : List Char) :
    Option (List Char × List Char) :=
  let taken := body.takeWhile p
  match body.dropWhile p with
  | ';' :: left =>
      if taken.isEmpty || most < taken.length then none else some (lead ++ taken ++ [';'], left)
  | _ => none

/-- The character reference after an ampersand, up to its semicolon. -/
def takeReference (text : List Char) : Option (List Char × List Char) :=
  match text with
  | '#' :: 'x' :: rest => takeReferenceBody isHexDigit 6 ['#', 'x'] rest
  | '#' :: 'X' :: rest => takeReferenceBody isHexDigit 6 ['#', 'X'] rest
  | '#' :: rest => takeReferenceBody isDigit 5 ['#'] rest
  | rest => takeReferenceBody isLetter 30 [] rest

/-- An attribute string after its opening quote. It has no escapes and may hold line breaks. An
ampersand begins a character reference if a letter or a number sign follows, and otherwise takes
the next character with it, be it the quote. -/
def attributeStringTail (quote : Char) (taken : Bool) :
    List Char → Option (List Char × List Char)
  | [] => none
  | c :: rest =>
      let next : Option (List Char × List Char) :=
        if taken then attributeStringTail quote false rest
        else if c == quote then some ([], rest)
        else if c == '&' then
          match rest with
          | [] => none
          | d :: _ =>
              if d == '#' || isLetter d then
                if (takeReference rest).isSome then attributeStringTail quote false rest else none
              else attributeStringTail quote true rest
        else attributeStringTail quote false rest
      match next with
      | some (text, left) => some (c :: text, left)
      | none => none

def takeAttributeString (text : List Char) : Option (List Char × List Char) :=
  match text with
  | q :: rest =>
      if q == '"' || q == '\'' then
        match attributeStringTail q false rest with
        | some (taken, left) => some (q :: taken, left)
        | none => none
      else none
  | [] => none

/-- What can be read of an attribute string that is not closed: all of it, or what comes before an
ampersand that would have to begin a character reference. The text follows the opening quote. -/
def openAttributeString : List Char → List Char × List Char
  | [] => ([], [])
  | ['&'] => ([], ['&'])
  | '&' :: d :: rest =>
      if d == '#' || isLetter d then
        if (takeReference (d :: rest)).isSome then
          let (taken, left) := openAttributeString (d :: rest)
          ('&' :: taken, left)
        else ([], '&' :: d :: rest)
      else
        let (taken, left) := openAttributeString rest
        ('&' :: d :: taken, left)
  | c :: rest =>
      let (taken, left) := openAttributeString rest
      (c :: taken, left)

/-- The pattern of a regular expression up to and with its closing slash. `escaped` holds after a
backslash and `bracketed` inside a character class. -/
def regexTail (escaped bracketed : Bool) : List Char → Option (List Char × List Char)
  | [] => none
  | c :: rest =>
      if c == '\n' then none
      else
        let next : Option (List Char × List Char) :=
          if escaped then regexTail false bracketed rest
          else if c == '\\' then regexTail true bracketed rest
          else if bracketed then regexTail false (c != ']') rest
          else if c == '/' then some ([], rest)
          else regexTail false (c == '[') rest
        match next with
        | some (taken, left) => some (c :: taken, left)
        | none => none

/-- The regular expression at the head of the text, with its flags. -/
def takeRegex (text : List Char) : Option (List Char × List Char) :=
  match text with
  | '/' :: rest =>
      match rest with
      | '/' :: _ => none
      | _ =>
          match regexTail false false rest with
          | some (taken, left) =>
              let (flags, left) := left.span fun c => 'a' ≤ c && c ≤ 'z'
              some ('/' :: taken ++ flags, left)
          | none => none
  | _ => none

/-- What can be read of a regular expression that is not closed. -/
def openRegex (rest : List Char) : List Char × List Char :=
  rest.span (· != '\n')

/-- A name that may hold hyphens, as elements and attributes have: letters, digits, `$` and `_`,
and, once there is a hyphen, only ASCII. -/
def takeMarkupName (text : List Char) : List Char × List Char :=
  let ascii (c : Char) : Bool := isLetter c || isDigit c || c == '$' || c == '_'
  let stem := text.takeWhile ascii
  match stem, text.dropWhile ascii with
  | c :: _, '-' :: rest =>
      if isDigit c then takeName text
      else
        let (tail, left) := rest.span fun c => ascii c || c == '-'
        (stem ++ '-' :: tail, left)
  | _, _ => takeName text

/-- Characters between tags up to the next brace, angle bracket or ampersand. -/
def takeMarkupText (text : List Char) : List Char × List Char :=
  text.span fun c => c != '<' && c != '>' && c != '{' && c != '}' && c != '&'

end Restyle.Syntax
