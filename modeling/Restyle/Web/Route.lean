import Restyle.Disk.Path
import Restyle.Text.Utf8
import Restyle.Value.Literal

/-!
# Routes

Which service a request asks for. The query is no part of the path, percent signs in it stand for
bytes, and a slash before it may be missing. A path with doubled slashes that would lead to a
service without them is redirected.
-/

namespace Restyle.Web

inductive Service
  | health
  | getClassName
  | updateClasses
  deriving DecidableEq, Repr

inductive Route
  | service (s : Service)
  /-- The methods of a service are asked for. -/
  | options (cors : Bool)
  | redirect
  | wrongMethod
  | notFound
  deriving DecidableEq, Repr

def serviceAt (path : List Char) : Option Service :=
  match String.ofList path with
  | "/api/health" => some .health
  | "/api/get-classname-expression" => some .getClassName
  | "/api/update-classes" => some .updateClasses
  | _ => none

/-- The method of a service, and the one that leaves out the body of its answer. -/
def Service.methods : Service → List String
  | .health => ["GET", "HEAD"]
  | _ => ["POST"]

/-- The characters of a path with percent signs replaced by what they stand for, as bytes. -/
def unescaped : List Char → List UInt8
  | [] => []
  | '%' :: a :: b :: rest =>
      match Value.fixedHex? 2 [a, b] with
      | some n => UInt8.ofNat n :: unescaped rest
      | none => 37 :: unescaped (a :: b :: rest)
  | c :: rest => Text.encodeChar c ++ unescaped rest

/-- The path that a request asks for, beginning with one slash. -/
def requestedPath (target : List Char) : List Char :=
  let path := target.takeWhile fun c => c != '?' && c != '#'
  '/' :: (Text.decodeLossy (unescaped path)).dropWhile (· == '/')

/-- A path with every pair of slashes replaced by one. -/
def mergeSlashes : List Char → List Char
  | [] => []
  | '/' :: '/' :: rest => '/' :: mergeSlashes rest
  | c :: rest => c :: mergeSlashes rest

/-- Whether a path lies where static files would be. There are none. -/
def isStatic (path : List Char) : Bool :=
  "/static/".toList.isPrefixOf path && "/static/".length < path.length

def routeOf (method target : List Char) : Route :=
  let method := String.ofList (method.map Char.toUpper)
  let path := requestedPath target
  match serviceAt path with
  | some s =>
      if method = "OPTIONS" then .options true
      else if method ∈ s.methods then .service s
      else .wrongMethod
  | none =>
      if isStatic path then
        if method = "OPTIONS" then .options false
        else if method = "GET" ∨ method = "HEAD" then .notFound
        else .wrongMethod
      else
        match serviceAt (mergeSlashes path) with
        | some s => if method = "OPTIONS" ∨ method ∈ s.methods then .redirect else .wrongMethod
        | none => .notFound

end Restyle.Web
