import Restyle.Cli.Footprint
import Restyle.Json.Write
import Restyle.Web.Api
import Std.Http.Server

/-!
# The program

Runs a command line on the part of the disk that it may look at, and serves a project over HTTP.
What a command or a request does is decided elsewhere; here the disk is looked at, changes are
written back, and text goes in and out.
-/

namespace Restyle.Main

open Disk

def systemPath (place : Location) : String :=
  String.ofList (Text.decodeLossy place.path)

/-- The location that a path of the system stands for, if there is anything. -/
def realLocation? (path : String) : IO (Option Location) := do
  try
    return some (parts (Text.bytes (toString (← IO.FS.realPath path))))
  catch _ => return none

def entryAt? (place : Location) : IO (Option Entry) := do
  match ← realLocation? (systemPath place ++ "/.") with
  | some _ => return some .directory
  | none =>
      try
        return some (.file (← IO.FS.readBinFile (systemPath place)).toList)
      catch _ => return none

/-- A disk with what steps from a place pass, links included. -/
def survey (d : Disk) (place : Location) : List Name → IO Disk
  | [] => return d
  | part :: rest =>
      if staysPut part then survey d place rest
      else if part = above then survey d place.dropLast rest
      else do
        let next := place ++ [part]
        match ← realLocation? (systemPath next) with
        | none => return d
        | some real =>
            let d := if real = next then d else d.put next (.link real.path)
            let d := d.makeDirectories real.dropLast
            let d := match ← entryAt? real with
              | some e => d.put real e
              | none => d
            survey d real rest

def surveyAll (paths : List Path) : IO Disk := do
  let current := parts (Text.bytes (toString (← IO.currentDir)))
  let d ← survey ⟨[], current⟩ [] current
  paths.foldlM
    (fun d path =>
      if holdsNul path then return d
      else survey d (if isAbsolute path then [] else current) (splitSlash path))
    d

/-- Write the files of a disk that are others than before. -/
def writeBack (before after : Disk) : IO Unit :=
  after.entries.forM fun (place, e) =>
    match e with
    | .file bytes =>
        if before.entry? place = some e then return ()
        else IO.FS.writeBinFile (systemPath place) ⟨bytes.toArray⟩
    | _ => return ()

def printTo (stream : IO.FS.Stream) (text : List Char) : IO Unit := do
  stream.putStr (String.ofList text)
  stream.flush

/-- What the server keeps between requests: the project, and the locks that have been made. Only
one request is answered at a time. -/
structure Office where
  workspace : Workspace
  locks : Std.Mutex Locks

def Office.answer (o : Office) (r : Web.Request) : IO Web.Response :=
  o.locks.atomically do
    let before ← surveyAll (Web.footprint o.workspace r)
    let (desk, response) := Web.handle o.workspace ⟨before, ← get⟩ r
    set desk.locks
    writeBack before desk.disk
    return response

def contentTypeOf (headers : Std.Http.Headers) : List Char :=
  match headers.get? .contentType with
  | some value => value.value.toList
  | none => []

def openHeaders : List (String × String) :=
  [("Access-Control-Allow-Origin", "*"), ("Access-Control-Allow-Headers", "Content-Type"),
    ("Access-Control-Allow-Methods", "GET, POST, OPTIONS")]

def sent (r : Web.Response) : Std.Async.Async (Std.Http.Response Std.Http.Body.Full) :=
  let status := (Std.Http.Status.ofCode none (UInt16.ofNat r.status)).getD .internalServerError
  let headers := if r.cors then openHeaders else []
  let answer := headers.foldl
    (fun (answer : Std.Http.Response.Builder) (name, value) =>
      (answer.header? name value).getD answer)
    (Std.Http.Response.withStatus status)
  match r.body with
  | some value => answer.json (String.ofList value.write)
  | none => answer.text ""

instance : Std.Http.Server.Handler Office where
  ResponseBody := Std.Http.Body.Full
  onRequest o request := do
    let body : ByteArray ← request.body.readAll
    let head := request.line
    let response ← o.answer
      ⟨(toString head.method).toList, (toString head.uri).toList, contentTypeOf head.headers,
        body.toList⟩
    sent response

def addressOf? (host : List Char) (socket : Int) : Option Std.Net.SocketAddress :=
  let name := String.ofList host
  let socket := UInt16.ofNat socket.toNat
  match Std.Net.IPv4Addr.ofString name, Std.Net.IPv6Addr.ofString name with
  | some address, _ => some (.v4 ⟨address, socket⟩)
  | none, some address => some (.v6 ⟨address, socket⟩)
  | none, none => none

def serve (s : Cli.Serving) : IO UInt32 := do
  match addressOf? s.host s.socket with
  | none =>
      printTo (← IO.getStderr) ("Error: no address: ".toList ++ s.host ++ ['\n'])
      return 1
  | some address =>
      let locks ← Std.Mutex.new ([] : Locks)
      let running := do
        let server ← Std.Http.Server.serve address (⟨s.workspace, locks⟩ : Office)
        server.waitShutdown
      running.block
      return 0

end Restyle.Main

open Restyle

def main (words : List String) : IO UInt32 := do
  let words := words.map Text.bytes
  let before ← Main.surveyAll (Cli.footprint words)
  let (after, outcome) := Cli.run before words
  Main.writeBack before after
  Main.printTo (← IO.getStdout) outcome.stdout
  Main.printTo (← IO.getStderr) outcome.stderr
  match outcome.crash, outcome.serving with
  | some _, _ => return 1
  | none, some serving => Main.serve serving
  | none, none => return UInt32.ofNat outcome.exitCode
