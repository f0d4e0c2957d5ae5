import Restyle.Syntax.Names
import Restyle.Syntax.Progress

/-!
# Parsers

A parser reads tokens from the head of a text and leaves nodes behind. It either goes on from a
later place or refuses the text. Every outcome remembers how far any attempt got, and what was
awaited there: that is where a text that is refused as a whole goes wrong. A parser comes with the
proof that it only goes on by the steps of a reading.
-/

namespace Restyle.Syntax

structure Parser (α : Type) where
  run : Progress → Outcome α
  reads : ∀ {s t : Progress} {a : α}, run s = .accepted a t → Reads s t

namespace Parser

variable {α β : Type}

@[always_inline, inline]
protected def pure (a : α) : Parser α where
  run s := .accepted a s
  reads h := by
    cases h
    exact .refl _

@[always_inline, inline]
protected def bind (p : Parser α) (f : α → Parser β) : Parser β where
  run s :=
    match p.run s with
    | .accepted a t => (f a).run t
    | .refused r => .refused r
  reads h := by
    split at h
    · rename_i hp
      exact (p.reads hp).trans ((f _).reads h)
    · cases h

instance : Monad Parser where
  pure := Parser.pure
  bind := Parser.bind

@[always_inline, inline]
protected def orElse (p : Parser α) (q : Unit → Parser α) : Parser α where
  run s :=
    match p.run s with
    | .accepted a t => .accepted a t
    | .refused r => (q ()).run (s.remember r)
  reads h := by
    split at h
    · rename_i hp
      cases h
      exact p.reads hp
    · exact (Reads.remember _ _).trans ((q ()).reads h)

instance : OrElse (Parser α) where
  orElse := Parser.orElse

/-- Read white space and comments; comments become nodes. There are at most as many as `bound` has
characters. -/
def skipTrivia : List Char → Progress → Progress
  | bound, s =>
    let s := s.advance (s.rest.takeWhile isSpace).length
    match bound, takeComment s.rest with
    | _ :: bound, some (taken, _) => skipTrivia bound (s.leaf .comment taken.length)
    | _, _ => s

theorem skipTrivia_reads (bound : List Char) (s : Progress) : Reads s (skipTrivia bound s) := by
  have space := Reads.advance s (s.rest.takeWhile isSpace).length
  fun_induction skipTrivia bound s with
  | case1 s t head bound taken left comment ih =>
      obtain ⟨split, whole⟩ := takeComment_append comment
      have spelling : Comment (t.rest.take taken.length) (t.rest.drop taken.length) := by
        rwa [split, List.take_left, List.drop_left]
      have found : Kind.comment.Taken (t.rest.take taken.length) (t.rest.drop taken.length) :=
        ⟨spelling, nofun⟩
      exact space.trans ((Reads.leaf t .comment taken.length found).trans (ih (.advance _ _)))
  | case2 => exact space

def atToken (s : Progress) : Progress :=
  match s.rest with
  | c :: _ => if isSpace c || c == '/' then skipTrivia s.rest s else s
  | [] => s

theorem atToken_reads (s : Progress) : Reads s (atToken s) := by
  rw [atToken]
  split
  · split
    · exact skipTrivia_reads _ s
    · exact .refl s
  · exact .refl s

def refuse (e : Expectation) : Parser α where
  run s :=
    let t := atToken s
    .refused (s.reach.refuse t.offset e (s.nodes :: s.outer))
  reads h := nomatch h

def decline : Parser α where
  run s := .refused s.reach
  reads h := nomatch h

def ask (f : Progress → α) : Parser α where
  run s := .accepted (f s) s
  reads h := by
    cases h
    exact .refl _

def step (f : Progress → Progress) (reads : ∀ s, Reads s (f s)) : Parser Unit where
  run s := .accepted () (f s)
  reads h := by
    cases h
    exact reads _

/-- The text from the next token on, nothing being taken. -/
def peek : Parser (List Char) :=
  ask fun s => (atToken s).rest

def peekHere : Parser (List Char) :=
  ask fun s => s.rest

/-- Take `count` characters from the head of the text, and leave a node of the given kind. -/
def take (kind : Kind) (count : Nat) (loose : kind.isLoose = true := by exact @rfl Bool true) :
    Parser Unit :=
  step (fun s => s.leaf kind count) fun s => .leaf s kind count (.of_loose loose _ _)

/-- Go to the next token. Comments on the way become nodes, so a token has to follow. -/
def toToken : Parser Unit :=
  step atToken atToken_reads

/-- Read what a rule takes at the next token, given by its length, and go on with another parser where
the rule takes nothing. What is taken has to be spelt and to end as the kind says. -/
def leafOr (kind : Kind) (rule : List Char → Option Nat) (other : Parser Unit)
    (taken : ∀ {text count}, rule text = some count →
      kind.Taken (text.take count) (text.drop count)) : Parser Unit where
  run s :=
    let t := atToken s
    match rule t.rest with
    | some count => .accepted () (t.leaf kind count)
    | none => other.run s
  reads h := by
    dsimp only at h
    split at h
    · rename_i found
      cases h
      exact (atToken_reads _).trans (.leaf _ kind _ (taken found))
    · exact other.reads h

def taking (rule : List Char → List Char × List Char) (text : List Char) : Option Nat :=
  match rule text with
  | ([], _) => none
  | (taken, _) => some taken.length

theorem taken_of_words {kind : Kind} {rule : List Char → List Char × List Char}
    (plain : kind.isPlain = true) (words : TakesWords rule) {text : List Char} {count : Nat}
    (h : taking rule text = some count) : kind.Taken (text.take count) (text.drop count) := by
  obtain ⟨split, solid⟩ := words text
  rw [taking] at h
  cases found : rule text with
  | mk taken left =>
      rw [found] at h split solid
      cases taken with
      | nil => cases h
      | cons c taken =>
          cases h
          refine ⟨.of_plain plain _ _, fun _ => ?_⟩
          rw [split, List.take_left]
          exact ⟨_, List.getLast?_eq_some_getLast (List.cons_ne_nil c taken),
            solid _ (List.getLast_mem _)⟩

def lexeme (kind : Kind) (e : Expectation) (rule : List Char → List Char × List Char)
    (words : TakesWords rule) (plain : kind.isPlain = true := by exact @rfl Bool true) :
    Parser Unit :=
  leafOr kind (taking rule) (refuse e) (taken_of_words plain words)

def number (e : Expectation) : Parser Unit :=
  leafOr .number (taking takeNumber) (refuse e) fun _ => .of_loose rfl _ _

/-- Refuse a literal that is not closed, once it is read as far as `inside` takes it. -/
def unclosed (e : Expectation) (opens : Char → Bool)
    (inside : Char → List Char → List Char × List Char) : Parser Unit where
  run s :=
    let t := atToken s
    match t.rest with
    | c :: rest =>
        if opens c then
          let delimiter := String.singleton c
          let opened := t.leaf (.token delimiter) 1
          let taken := (inside c rest).1
          let read := if taken.isEmpty then opened else opened.leaf .text taken.length
          (refuse (.closer delimiter)).run read
        else (refuse e).run s
    | [] => (refuse e).run s
  reads h := by
    dsimp only at h
    split at h
    · split at h <;> cases h
    · cases h

def spanning (rule : List Char → Option (List Char × List Char)) (text : List Char) : Option Nat :=
  (rule text).map fun found => found.1.length

theorem taken_of_spanning {kind : Kind} {rule : List Char → Option (List Char × List Char)}
    (taken : ∀ {text found left}, rule text = some (found, left) →
      kind.Taken (text.take found.length) (text.drop found.length)) {text : List Char} {count : Nat}
    (h : spanning rule text = some count) : kind.Taken (text.take count) (text.drop count) := by
  obtain ⟨⟨found, left⟩, hfound, rfl⟩ := Option.map_eq_some_iff.mp h
  exact taken hfound

/-- Read a literal between delimiters. What the rule takes has to be spelt and to end as the kind
says. -/
def delimited (kind : Kind) (e : Expectation) (rule : List Char → Option (List Char × List Char))
    (opens : Char → Bool) (inside : Char → List Char → List Char × List Char)
    (taken : ∀ {text found left}, rule text = some (found, left) →
      kind.Taken (text.take found.length) (text.drop found.length)) : Parser Unit :=
  leafOr kind (spanning rule) (unclosed e opens inside) (taken_of_spanning taken)

def after? (word text : List Char) : Option (List Char) :=
  match word, text with
  | [], text => some text
  | w :: word, c :: text => if w = c then after? word text else none
  | _ :: _, [] => none

theorem eq_append_of_after? {word text left : List Char} (h : after? word text = some left) :
    text = word ++ left := by
  induction word generalizing text with
  | nil =>
      cases h
      rfl
  | cons w word ih =>
      cases text with
      | nil => cases h
      | cons c text =>
          rw [after?] at h
          split at h
          · rename_i hw
            rw [hw, ih h]
            rfl
          · cases h

/-- How long a token is, if it comes next; `after` is what comes after it. -/
def tokenLength? (token : String) (after : Option (List Char)) : Option Nat :=
  after.map fun _ => token.toList.length

theorem taken_token {token : String} {after : Option (List Char)} {text : List Char} {count : Nat}
    (found : ∀ left, after = some left → after? token.toList text = some left)
    (h : tokenLength? token after = some count) :
    (Kind.token token).Taken (text.take count) (text.drop count) := by
  obtain ⟨left, some, rfl⟩ := Option.map_eq_some_iff.mp h
  refine ⟨trivial, fun closes => ?_⟩
  rw [eq_append_of_after? (found left some), List.take_left]
  simp only [Kind.closes, Bool.or_eq_true, beq_iff_eq] at closes
  rcases closes with (rfl | rfl) | rfl
  all_goals exact ⟨_, rfl, rfl⟩

def punctAs (e : Expectation) (token : String) : Parser Unit :=
  leafOr (.token token) (fun text => tokenLength? token (after? token.toList text)) (refuse e)
    (taken_token fun _ => id)

def punct (token : String) : Parser Unit :=
  punctAs .other token

def close (token : String) : Parser Unit :=
  punctAs (.closer token) token

/-- The text after a word that is not part of a longer name. -/
def afterWord? (word text : List Char) : Option (List Char) :=
  match after? word text with
  | some (c :: left) => if isNamePart c || c == '\\' then none else some (c :: left)
  | found => found

theorem after?_of_afterWord? {word text left : List Char} (h : afterWord? word text = some left) :
    after? word text = some left := by
  rw [afterWord?] at h
  split at h
  · rename_i found
    split at h
    · cases h
    · rwa [found]
  · exact h

def keyword (word : String) : Parser Unit :=
  leafOr (.token word) (fun text => tokenLength? word (afterWord? word.toList text))
    (refuse .other) (taken_token fun _ => after?_of_afterWord?)

def sees (token : String) : Parser Bool := do
  let text ← peek
  return (after? token.toList text).isSome

def seesWord (word : String) : Parser Bool := do
  let text ← peek
  return (afterWord? word.toList text).isSome

def punct? (token : String) : Parser Bool := do
  if ← sees token then
    punct token
    return true
  else return false

def keyword? (word : String) : Parser Bool := do
  if ← seesWord word then
    keyword word
    return true
  else return false

/-- Read a name of any sort, where `e` is awaited, as a node of the given kind. -/
def nameAs (e : Expectation) (kind : Kind)
    (plain : kind.isPlain = true := by exact @rfl Bool true) : Parser Unit :=
  lexeme kind e takeName takeName_words plain

/-- Read a name of any sort as a node of the given kind. -/
def name (kind : Kind) (plain : kind.isPlain = true := by exact @rfl Bool true) : Parser Unit :=
  nameAs .other kind plain

def optional (p : Parser Unit) : Parser Unit :=
  (do p) <|> (do return ())

def attempt (p : Parser Unit) : Parser Bool :=
  (do p; return true) <|> (do return false)

/-- Whether a parser accepts. If not, what it awaited gives way to what is awaited there next. -/
def reconsider (p : Parser Unit) : Parser Bool :=
  let forget (s : Progress) : Progress := s.remember { s.reach with awaited := [] }
  (do p; return true) <|> (do step forget fun s => .remember s _; return false)

/-- Run a parser as often as it accepts and moves on; at most once for each character of
`bound`. -/
def manyUpTo (p : Parser Unit) : List Char → Parser Unit
  | [] => return ()
  | _ :: bound =>
    { run := fun s =>
        match p.run s with
        | .accepted () t => if t.offset = s.offset then .accepted () t else (manyUpTo p bound).run t
        | .refused r => .accepted () (s.remember r)
      reads := fun h => by
        split at h
        · rename_i hp
          split at h
          · cases h
            exact p.reads hp
          · exact (p.reads hp).trans ((manyUpTo p bound).reads h)
        · cases h
          exact .remember _ _ }

def many (p : Parser Unit) : Parser Unit := do
  manyUpTo p (← peekHere)

def advances (p : Parser Unit) : Parser Bool := do
  let before ← ask Progress.offset
  p
  return before != (← ask Progress.offset)

/-- Run a parser once and then, as often as a separator follows, again. -/
def sepBy1 (separator : String) (p : Parser Unit) : Parser Unit := do
  p
  many do
    punct separator
    p

/-- Entries between commas, any of which may be missing, up to a closing token. -/
def commaList (p : Parser Unit) (closer : String) : Parser Unit := do
  optional p
  many do
    punct ","
    optional p
  close closer

/-- Run a parser with no nodes behind it, and put its nodes on top of those before. -/
def isolate (p : Parser α) : Parser α where
  run s :=
    match p.run s.enter with
    | .accepted a t => .accepted a (s.leave t)
    | .refused r => .refused r
  reads h := by
    split at h
    · rename_i hp
      cases h
      exact .within (p.reads hp)
    · cases h

/-- Make one node of all nodes read since the last `isolate`. -/
def regroup (kind : Kind) (loose : kind.isLoose = true := by exact @rfl Bool true) : Parser Unit :=
  step (fun s => s.group kind) fun s => .group s kind (.of_loose loose _)

def construct (kind : Kind) (p : Parser Unit)
    (loose : kind.isLoose = true := by exact @rfl Bool true) : Parser Unit :=
  isolate do
    p
    regroup kind loose

/-- Make one node of what a parser reads and of all nodes read before it since the last `isolate`. They
have to be such as one of that kind is made of. -/
def regroupAfter (kind : Kind) (p : Parser α)
    (made : ∀ {s t a}, p.run s = .accepted a t → kind.Made t.nodes) : Parser α where
  run s :=
    match p.run s with
    | .accepted a t => .accepted a (t.group kind)
    | .refused r => .refused r
  reads h := by
    split at h
    · rename_i hp
      cases h
      exact (p.reads hp).trans (.group _ _ (made hp))
    · cases h

/-- Make one node of what a parser reads, which has to be such as one of that kind is made of. -/
def constructOf (kind : Kind) (p : Parser α)
    (made : ∀ {s t a}, p.run s = .accepted a t → kind.Made t.nodes) : Parser α :=
  isolate (regroupAfter kind p made)

/-- Read a construct with no nodes behind it, make one node of it, of the kind that it says, and go
on. The nodes have to be such as one of that kind is made of. -/
def openConstruct (p : Parser Kind) (next : Kind → Parser Unit)
    (made : ∀ {s t kind}, s.nodes = [] → p.run s = .accepted kind t → kind.Made t.nodes) :
    Parser Unit where
  run s :=
    match p.run s.enter with
    | .accepted kind t =>
        match (next kind).run (t.group kind) with
        | .accepted () u => .accepted () (s.leave u)
        | .refused r => .refused r
    | .refused r => .refused r
  reads h := by
    split at h
    · rename_i hp
      split at h
      · rename_i hn
        cases h
        have tail := (Reads.group _ _ (made rfl hp)).trans ((next _).reads hn)
        exact .within ((p.reads hp).trans tail)
      · cases h
    · cases h

def lastNode : Parser (Option Node) :=
  ask fun s => s.nodes.head?

/-- Whether a statement may end here without a semicolon. -/
def mayEnd (place : EndPlace) : Parser Bool :=
  ask fun s => endsStatement place s.rest

def forgotten (s : Progress) : Progress :=
  if s.reach.offset = (atToken s).offset then s.remember { s.reach with awaited := [] } else s

def forget : Parser Unit :=
  step forgotten fun s => by
    rw [forgotten]
    split
    · exact .remember s _
    · exact .refl s

/-- Read the end of a statement: nothing where none need be written, else a semicolon. Once a
statement has ended, what could have gone on with it no longer counts. -/
def semicolon (place : EndPlace) : Parser Unit := do
  if ← mayEnd place then forget else close ";"

def require (condition : Bool) : Parser Unit :=
  if condition then return () else refuse .other

end Parser

end Restyle.Syntax
