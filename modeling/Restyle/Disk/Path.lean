import Restyle.Syntax.Node
import Restyle.Text.Utf8

/-!
# Paths

A path is made of names with slashes between them, all of them bytes. A location is a path without
detours: the names that lead from the root to a place.
-/

namespace Restyle.Disk

abbrev Name := List UInt8

abbrev Path := List UInt8

def slash : UInt8 := 0x2F

def dot : UInt8 := 0x2E

abbrev Location := List Name

/-- The parts of a path between slashes; there is at least one. -/
def splitSlash : Path → List Name
  | [] => [[]]
  | c :: rest =>
      if c = slash then [] :: splitSlash rest
      else
        match splitSlash rest with
        | first :: more => (c :: first) :: more
        | [] => [[c]]

def here : Name := [dot]

def above : Name := [dot, dot]

def staysPut (part : Name) : Bool :=
  part.isEmpty || part == here

def isAbsolute (path : Path) : Bool :=
  path.head? == some slash

def parts (path : Path) : List Name :=
  (splitSlash path).filter fun part => !staysPut part

def joinSlash : List Name → Path
  | [] => []
  | [name] => name
  | name :: rest => name ++ slash :: joinSlash rest

def Location.path (place : Location) : Path :=
  slash :: joinSlash place

/-- The path of one location as seen from another one above it. -/
def relativePath (root place : Location) : Path :=
  match place.drop root.length with
  | [] => here
  | names => joinSlash names

def tidied (path : Path) : Path :=
  match isAbsolute path, parts path with
  | true, names => slash :: joinSlash names
  | false, [] => here
  | false, names => joinSlash names

def joined (base path : Path) : Path :=
  if isAbsolute path then path else base ++ slash :: path

/-- Where a few steps lead from a place, if no part of the path is a link. -/
def lexical (place : Location) : List Name → Location
  | [] => place
  | part :: rest =>
      if staysPut part then lexical place rest
      else if part = above then lexical place.dropLast rest
      else lexical (place ++ [part]) rest

def fileName (path : Path) : Name :=
  (parts path).getLast?.getD []

/-- The last dot of a name and what follows it, unless the dot is at its beginning or end. -/
def suffix (name : Name) : List UInt8 :=
  let tail := (name.reverse.takeWhile (· != dot)).reverse
  if tail.length = name.length ∨ tail.isEmpty ∨ tail.length + 1 = name.length then []
  else dot :: tail

def lowerCase (b : UInt8) : UInt8 :=
  if 0x41 ≤ b ∧ b ≤ 0x5A then b + 0x20 else b

/-- The dialect of a file, which the suffix of its name decides, in upper or lower case. -/
def dialectFor (path : Path) : Syntax.Dialect :=
  let ending := (suffix (fileName path)).map lowerCase
  if ending ∈ [Text.bytes ".ts", Text.bytes ".mts", Text.bytes ".cts"] then .typescript else .tsx

end Restyle.Disk
