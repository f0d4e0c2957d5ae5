import Restyle.Cli.Arguments
import Restyle.Workspace.Edit

/-!
# Commands

The command line: reading, setting and listing the class names of a file, finding the entry file
of a project, and serving one.
-/

namespace Restyle.Cli

open Disk
open Text (CodePoint)

def version : String := "0.1.0"

structure Serving where
  workspace : Workspace
  host : List Char
  socket : Int
  debug : Bool

/-- What a command has done. `crash` is a trouble that it has no words for, and `serving` a server
that is to run once the output is printed. -/
structure Outcome where
  exitCode : Nat
  stdout : List Char
  stderr : List Char
  crash : Option Trouble
  serving : Option Serving

namespace Outcome

def success (stdout : List Char) : Outcome := ⟨0, stdout, [], none, none⟩

def failure (line : List Char) : Outcome := ⟨1, [], line ++ ['\n'], none, none⟩

def misused : Outcome := ⟨2, [], [], none, none⟩

def crashed (e : Trouble) : Outcome := ⟨1, [], [], some e, none⟩

/-- Lines that are printed one after another. One that is no text cannot be, and ends it. -/
def ofLines (lines : List (List CodePoint)) : Outcome :=
  let texts := lines.map Text.toChars?
  let printed := ((texts.takeWhile Option.isSome).map fun t => t.getD [] ++ ['\n']).flatten
  if texts.all Option.isSome then success printed
  else { crashed (.text .surrogate) with stdout := printed }

def ofMisuse : Misuse → Outcome
  | .usage => misused
  | .path e => crashed (.disk e)

/-- An operation that came to nothing. Only a text that does not parse is put into words. -/
def ofTrouble : Trouble → Outcome
  | .text (.refused reason) => failure ("Parse error: ".toList ++ reason.message)
  | e => crashed e

end Outcome

inductive Command
  | get
  | set
  | list
  | discover
  | serve
  deriving DecidableEq, Repr

def commandNamed (name : Word) : Option Command :=
  match String.ofList (Text.asName (Text.systemString name)) with
  | "get" => some .get
  | "set" => some .set
  | "list" => some .list
  | "discover" => some .discover
  | "serve" => some .serve
  | _ => none

def generalUsage : Usage :=
  ⟨[("--version", .flag), ("--verbose", .flag), ("--help", .flag)], ['v'], []⟩

def Command.usage : Command → Usage
  | .get =>
      ⟨[("--index", .integer), ("--attribute", .text), ("--help", .flag)], [],
        [("FILE", .existingFile), ("TAG", .text)]⟩
  | .set =>
      ⟨[("--index", .integer), ("--attribute", .text), ("--dry-run", .flag), ("--help", .flag)],
        [], [("FILE", .existingFile), ("TAG", .text), ("VALUE", .text)]⟩
  | .list =>
      ⟨[("--tag", .text), ("--attribute", .text), ("--help", .flag)], [],
        [("FILE", .existingFile)]⟩
  | .discover => ⟨[("--help", .flag)], [], [("PROJECT", .existingDirectory)]⟩
  | .serve =>
      ⟨[("--project", .existingDirectory), ("--file", .text), ("--host", .text),
        ("--port", .integer), ("--debug", .flag), ("--no-debug", .flag), ("--help", .flag)],
        [], []⟩

def attributeString (s : Sorted) : List CodePoint :=
  match s.value? "--attribute" with
  | some word => Text.systemString word
  | none => Text.ofChars defaultAttribute

def attributeName (s : Sorted) : List Char :=
  Text.asName (attributeString s)

def tagName (word : Word) : List Char :=
  Text.asName (Text.systemString word)

def ordinal (s : Sorted) : Option Int :=
  (s.value? "--index").bind integer?

def readText (d : Disk) (file : Path) : Except Trouble (List Char) := do
  let bytes ← ofDisk (d.contents (tidied file))
  match Text.decode bytes with
  | .ok text => return text
  | .error _ => throw (.text .notText)

def resultOf {α : Type} (r : Report α) : Except Trouble α :=
  r.result.mapError .text

/-- Print the value of the attribute on an element, or an empty line. -/
def get (d : Disk) (s : Sorted) (file tag : Word) : Except Trouble (List Char) := do
  let source ← readText d file
  let value ← resultOf (readClass (dialectFor file) source (tagName tag) (ordinal s) (attributeName s))
  return value.getD [] ++ ['\n']

/-- Whether the name of the attribute is text. No element has one that is not. -/
def hasPlainAttribute (s : Sorted) : Bool :=
  (Text.toChars? (attributeString s)).isSome

/-- The text of a file and what setting the value makes of it. -/
def revised (d : Disk) (s : Sorted) (file tag value : Word) :
    Except Trouble (List Char × List Char) := do
  let source ← readText d file
  let doc ← (Document.parse (dialectFor file) source).mapError .text
  let updated ← resultOf (doc.update (tagName tag) (Text.systemString value) (ordinal s)
    (attributeName s))
  if !hasPlainAttribute s ∧ doc.locate (tagName tag) (ordinal s) ≠ [] then throw (.text .surrogate)
  return (source, updated)

/-- Set the value of the attribute on an element. With `--dry-run` the new text is printed, else it
is written if it is another one. -/
def set (d : Disk) (s : Sorted) (file tag value : Word) : Disk × Outcome :=
  match revised d s file tag value with
  | .error e => (d, .ofTrouble e)
  | .ok (source, updated) =>
      if s.has "--dry-run" then (d, .success updated)
      else if updated = source then (d, .success "No changes made\n".toList)
      else
        match d.overwrite (tidied file) (Text.encode updated) with
        | .error e => (d, .crashed (.disk e))
        | .ok d => (d, .ofLines [Text.systemString (Text.bytes "Updated " ++ fileName file)])

def aligned (n : Nat) : List Char :=
  let digits := Text.decimal n
  List.replicate (5 - digits.length) ' ' ++ digits

/-- The line for an element: its line number, its address, and the value of the attribute if it
has one. -/
def listLine (e : Element) (name : List Char) (value : Option (List Char)) : List Char :=
  let address :=
    aligned e.line ++ "  ".toList ++ e.tagName ++ '[' :: Text.decimal e.ordinal ++ [']']
  match value with
  | some value => address ++ "  ".toList ++ name ++ '=' :: value ++ ['\n']
  | none => address ++ ['\n']

def listLines (d : Document) (name : List Char) : List Element → Report (List Char)
  | [] => pure []
  | e :: rest => do
      let value ← d.readAttribute e name
      let lines ← listLines d name rest
      return listLine e name value ++ lines

def list (d : Disk) (s : Sorted) (file : Path) : Except Trouble (List Char) := do
  let source ← readText d file
  let doc ← (Document.parse (dialectFor file) source).mapError .text
  let wanted := doc.outline.filter fun e =>
    match s.value? "--tag" with
    | some tag => e.tagName = tagName tag
    | none => true
  resultOf (listLines doc (attributeName s) wanted)

def discover (d : Disk) (project : Path) : Outcome :=
  match discoverEntryFile d project with
  | .ok (some pattern) => .success (pattern.toList ++ ['\n'])
  | .ok none => .failure noEntryText.toList
  | .error e => .crashed (.disk e)

def lastOf (s : Sorted) (yes no : String) : Bool :=
  match s.options.reverse.find? fun o => o.1 = yes ∨ o.1 = no with
  | some (name, _) => name = yes
  | none => false

/-- A string as it is shown where what is no text is escaped. -/
def shown (string : List CodePoint) : List Char :=
  string.flatMap fun p =>
    match p.toChar? with
    | some c => [c]
    | none => '\\' :: 'u' :: Text.hexDigits 4 p.val

def host (s : Sorted) : Word :=
  (s.value? "--host").getD (Text.bytes "127.0.0.1")

def socket (s : Sorted) : Int :=
  ((s.value? "--port").bind integer?).getD 5175

def announcement (w : Workspace) (s : Sorted) : List (List CodePoint) :=
  [Text.bytes "Seam server running at http://" ++ host s ++
      Text.encode (':' :: Text.decimalInt (socket s)),
    Text.bytes "  Project: " ++ w.root.path,
    Text.bytes "  File: " ++ w.relative w.defaultFile].map Text.systemString

def serve (d : Disk) (s : Sorted) (project : Path) : Outcome :=
  match Workspace.openProject d project (s.value? "--file") defaultAttribute with
  | .error (.workspace e) =>
      .failure ("Error: ".toList ++ shown (Text.systemString e.message))
  | .error e => .crashed e
  | .ok w =>
      let printed := Outcome.ofLines (announcement w s)
      if printed.crash.isSome then printed
      else
        let debug := lastOf s "--debug" "--no-debug"
        let name := Text.asName (Text.systemString (host s))
        { printed with serving := some ⟨w, name, socket s, debug⟩ }

def printed (r : Except Trouble (List Char)) : Outcome :=
  match r with
  | .ok text => .success text
  | .error e => .ofTrouble e

def runChecked (d : Disk) (c : Command) (s : Sorted) : Disk × Outcome :=
  match c, s.positional with
  | .get, [file, tag] => (d, printed (get d s file tag))
  | .set, [file, tag, value] => set d s file tag value
  | .list, [file] => (d, printed (list d s file))
  | .discover, [project] => (d, discover d project)
  | .serve, [] =>
      match s.value? "--project" with
      | some project => (d, serve d s project)
      | none => (d, .misused)
  | _, _ => (d, .misused)

def runCommand (d : Disk) (c : Command) (words : List Word) : Disk × Outcome :=
  match sortWords c.usage true words with
  | none => (d, .misused)
  | some s =>
      if s.has "--help" then (d, .success [])
      else
        match readWords c.usage d words with
        | .ok s => runChecked d c s
        | .error e => (d, .ofMisuse e)

def run (d : Disk) (words : List Word) : Disk × Outcome :=
  match sortWords generalUsage false words with
  | none => (d, .misused)
  | some s =>
      if s.has "--version" then (d, .success ("seam, version " ++ version ++ "\n").toList)
      else if s.has "--help" then (d, .success [])
      else
        match s.positional with
        | name :: rest =>
            match commandNamed name with
            | some c => runCommand d c rest
            | none => (d, .misused)
        | [] => (d, .misused)

end Restyle.Cli
