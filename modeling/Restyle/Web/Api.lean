import Restyle.Json.Read
import Restyle.Web.Route
import Restyle.Workspace.Edit

/-!
# The interface for a browser

Requests that read or update a class name, and the answers to them. A body that is missing, is
not declared as JSON, or is no JSON counts as an empty object. One that is nested too deep to be read
ends in an answer without words.
-/

namespace Restyle.Web

open Text

/-- A request. `contentType` is empty if the request does not say what its body is. -/
structure Request where
  method : List Char
  target : List Char
  contentType : List Char
  body : List UInt8

/-- An answer. `cors` says whether every origin may read it. -/
structure Response where
  status : Nat
  body : Option Json
  cors : Bool

def answer (status : Nat) (members : List (String × Json)) : Response :=
  ⟨status, some (.object (members.map fun (name, v) => (ofChars name.toList, v))), true⟩

def complaint (status : Nat) (message : List CodePoint) (more : List (String × Json)) : Response :=
  answer status ([("success", .boolean false), ("error", .string message)] ++ more)

def wordless : Response :=
  ⟨500, none, true⟩

def declaresJson (contentType : List Char) : Bool :=
  let type := (trim (contentType.takeWhile (· != ';'))).map Char.toLower
  type == "application/json".toList ||
    ("application/".toList.isPrefixOf type && "+json".toList.isSuffixOf type)

/-- The arrays and objects that are read inside another one, as far as the interpreter's limit of
1000 calls goes when some have been made to get there. -/
def usualDepth : Nat := 950

def requestValue (depth : Nat) (r : Request) : Except Json.ReadError Json :=
  if declaresJson r.contentType then
    match Json.readBytes depth r.body with
    | .ok .null | .error .malformed => .ok (.object [])
    | value => value
  else .ok (.object [])

inductive Refused
  | notObject
  | tagRequired
  | tagAndValueRequired
  | ordinalNotInteger
  | fileNotString
  deriving DecidableEq, Repr

def Refused.message : Refused → String
  | .notObject => "Request body must be a JSON object"
  | .tagRequired => "tagName required"
  | .tagAndValueRequired => "tagName and newClassName required"
  | .ordinalNotInteger => "elementIndex must be an integer"
  | .fileNotString => "file must be a string"

structure Address where
  tag : List CodePoint
  ordinal : Option Int
  file : Option (List CodePoint)
  deriving DecidableEq

def nonemptyString : Option Json → Option (List CodePoint)
  | some (.string []) => none
  | some (.string text) => some text
  | _ => none

def ordinalOf (members : List (List CodePoint × Json)) : Except Refused (Option Int) :=
  match Json.member? "elementIndex" members with
  | none | some .null => .ok none
  | some (.integer n) => .ok (some n)
  | some _ => .error .ordinalNotInteger

def fileOf (members : List (List CodePoint × Json)) : Except Refused (Option (List CodePoint)) :=
  match Json.member? "file" members with
  | none | some .null => .ok none
  | some (.string file) => .ok (some file)
  | some _ => .error .fileNotString

def addressOf (tag : List CodePoint) (members : List (List CodePoint × Json)) :
    Except Refused Address := do
  let ordinal ← ordinalOf members
  let file ← fileOf members
  return ⟨tag, ordinal, file⟩

/-- What is asked for by a request to read that holds a value. -/
def readRequest : Json → Except Refused Address
  | .object members =>
      match nonemptyString (Json.member? "tagName" members) with
      | some tag => addressOf tag members
      | none => .error .tagRequired
  | _ => .error .notObject

/-- What is asked for by a request to update that holds a value. -/
def updateRequest : Json → Except Refused (Address × List CodePoint)
  | .object members =>
      match nonemptyString (Json.member? "tagName" members), Json.member? "newClassName" members with
      | some tag, some (.string value) => (addressOf tag members).map fun a => (a, value)
      | _, _ => .error .tagAndValueRequired
  | _ => .error .notObject

/-- The answer to an operation that came to nothing. Only what the workspace or the text is to
blame for is put into words. -/
def troubleResponse : Trouble → Response
  | .workspace e => complaint 500 (systemString e.message) []
  | .text (.refused reason) =>
      complaint 500 (Text.ofChars reason.message)
        [("line", .integer reason.line), ("column", .integer reason.column)]
  | _ => wordless

def Address.path (a : Address) : Option Disk.Path :=
  a.file.map systemBytes

def getClassName (w : Workspace) (desk : Desk) (a : Address) : Desk × Response :=
  let (desk, result) := w.readClass desk (asName a.tag) a.ordinal a.path
  match result with
  | .error e => (desk, troubleResponse e)
  | .ok value =>
      let ordinal : Json := match a.ordinal with | some n => .integer n | none => .null
      (desk, answer 200
        [("success", .boolean true), ("classNameExpression", .ofChars (value.getD [])),
          ("tagName", .string a.tag), ("elementIndex", ordinal)])

def updateClasses (w : Workspace) (desk : Desk) (a : Address) (value : List CodePoint) :
    Desk × Response :=
  let (desk, result) := w.updateClass desk (asName a.tag) value a.ordinal a.path
  match result with
  | .error e => (desk, troubleResponse e)
  | .ok done =>
      let message :=
        if done.changed then "Classes updated in source file" else "No changes made"
      (desk, answer 200
        [("success", .boolean true), ("message", .ofString message),
          ("file", .string (systemString done.file)), ("changed", .boolean done.changed)])

def Refused.response (reason : Refused) : Response :=
  complaint 400 (Text.ofChars reason.message.toList) []

/-- The answer to a request: what it asks for is done, if it can be read and is not refused. -/
def respond {α : Type} (desk : Desk) (value : Except Json.ReadError Json)
    (ask : Json → Except Refused α) (act : α → Desk × Response) : Desk × Response :=
  match value with
  | .error _ => (desk, wordless)
  | .ok value =>
      match ask value with
      | .error reason => (desk, reason.response)
      | .ok a => act a

def serve (w : Workspace) (desk : Desk) (r : Request) (depth : Nat) : Service → Desk × Response
  | .health =>
      if r.method.map Char.toUpper = "HEAD".toList then (desk, ⟨200, none, true⟩)
      else (desk, answer 200 [("status", .ofString "ok")])
  | .getClassName => respond desk (requestValue depth r) readRequest (getClassName w desk)
  | .updateClasses =>
      respond desk (requestValue depth r) updateRequest fun (a, value) => updateClasses w desk a value

/-- The paths that a request may look at: the default file, and the one that it names. -/
def footprint (w : Workspace) (r : Request) : List Disk.Path :=
  let file :=
    match requestValue usualDepth r with
    | .ok (.object members) => nonemptyString (Json.member? "file" members)
    | _ => none
  w.root.path :: w.defaultFile.path ::
    (file.map systemBytes).toList.map (Disk.joined w.root.path)

/-- The answer to a request, whose body is read to a depth. -/
def handle (w : Workspace) (desk : Desk) (r : Request) (depth : Nat := usualDepth) :
    Desk × Response :=
  match routeOf r.method r.target with
  | .service s => serve w desk r depth s
  | .options cors => (desk, ⟨200, none, cors⟩)
  | .redirect => (desk, ⟨308, none, false⟩)
  | .wrongMethod => (desk, ⟨405, none, false⟩)
  | .notFound => (desk, ⟨404, none, false⟩)

end Restyle.Web
