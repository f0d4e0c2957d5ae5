import Restyle.Disk.Resolve
import Restyle.Report

/-!
# Workspaces

A project directory with a file in it that is meant unless another one is named. Every file that
is named has to lie inside the project, links followed. The file that is meant by default is
looked up only once, when the workspace is opened.
-/

namespace Restyle

open Disk

inductive WorkspaceError
  | projectNotFound (root : Location)
  | noEntryFile
  | escapes (file : Path)
  | fileNotFound (place : Location)
  | notText (file : Path) (flaw : Text.Malformed)
  deriving DecidableEq, Repr

/-- Where a project has its entry file, the likeliest place first. -/
def entryPatterns : List String :=
  ["src/App.tsx", "src/App.jsx", "frontend/src/App.tsx", "frontend/src/App.jsx",
    "app/src/App.tsx", "app/src/App.jsx", "packages/frontend/src/App.tsx",
    "packages/web/src/App.tsx", "packages/app/src/App.tsx"]

/-- That no entry file has been found, and where it was looked for. -/
def noEntryText : String :=
  "No entry file found. Tried: " ++ String.intercalate ", " entryPatterns

/-- The wording of an error, as bytes, since paths need not be text. -/
def WorkspaceError.message : WorkspaceError → List UInt8
  | projectNotFound root => Text.bytes "Project directory not found: " ++ root.path
  | noEntryFile => Text.bytes (noEntryText ++ ". Pass a file explicitly.")
  | escapes file => Text.bytes "Path escapes the project root: " ++ file
  | fileNotFound place => Text.bytes "Source file not found: " ++ place.path
  | notText file flaw =>
      file ++ Text.bytes (" is not valid UTF-8: " ++ flaw.flaw.reason ++ " at byte ") ++
        Text.encode (Text.decimal flaw.offset)

inductive Trouble
  | workspace (e : WorkspaceError)
  | text (e : Failure)
  | disk (e : Fault)
  deriving DecidableEq, Repr

def ofDisk {α : Type} (r : Except Fault α) : Except Trouble α :=
  r.mapError .disk

def firstFile (d : Disk) (project : Path) : List String → Except Fault (Option String)
  | [] => .ok none
  | pattern :: rest => do
      if ← d.isFile (joined (tidied project) (Text.bytes pattern)) then return some pattern
      else firstFile d project rest

def discoverEntryFile (d : Disk) (project : Path) : Except Fault (Option String) :=
  firstFile d project entryPatterns

structure Workspace where
  root : Location
  attributeName : List Char
  defaultFile : Location
  deriving DecidableEq

/-- Whether a place lies below another one. Two slashes begin another root than one does. -/
def isBelow (root place : Location) : Bool :=
  root.isPrefixOf place && (place.head? == some [] → root.head? == some [])

def locateFile (d : Disk) (root : Location) (file : Path) : Except Trouble Location := do
  let place ← ofDisk (d.resolve root file)
  if !isBelow root place then throw (.workspace (.escapes file))
  if !(← ofDisk (d.isFile place.path)) then throw (.workspace (.fileNotFound place))
  return place

namespace Workspace

/-- Open a project. Without a file, it is the entry file that is meant by default. -/
def openProject (d : Disk) (project : Path) (file : Option Path)
    (attributeName : List Char) : Except Trouble Workspace := do
  let root ← ofDisk (d.resolve d.current project)
  if !(← ofDisk (d.isDirectory root.path)) then throw (.workspace (.projectNotFound root))
  let file ←
    match file with
    | some file => pure file
    | none =>
        match ← ofDisk (discoverEntryFile d root.path) with
        | some pattern => pure (Text.bytes pattern)
        | none => throw (.workspace .noEntryFile)
  return ⟨root, attributeName, ← locateFile d root file⟩

/-- The location of a file: the default one unless another one is named. -/
def resolve (w : Workspace) (d : Disk) : Option Path → Except Trouble Location
  | none => .ok w.defaultFile
  | some file => locateFile d w.root file

def relative (w : Workspace) (place : Location) : Path :=
  relativePath w.root place

end Workspace

end Restyle
