import Restyle.Disk.Walk
import Restyle.Text.Decimal
import Restyle.Text.Encodings

/-!
# Arguments

How the words of a command line are sorted into options and positional arguments, and what values
they may have. Words are bytes: they need not be text. An option is given with its value after an
equals sign or as the next word; two hyphens end the options.
-/

namespace Restyle.Cli

open Disk

abbrev Word := List UInt8

instance : Coe (List (List Char)) (List Word) :=
  ⟨List.map Text.encode⟩

def integer? (word : Word) : Option Int :=
  (Text.toChars? (Text.systemString word)).bind Text.readInt?

inductive ValueType
  | flag
  | text
  | integer
  | existingFile
  | existingDirectory
  deriving DecidableEq, Repr

/-- The words that a command takes: options with their names, flags of one letter, and positional
arguments. -/
structure Usage where
  options : List (String × ValueType)
  letters : List Char
  arguments : List (String × ValueType)

/-- Words sorted into options with their values, in order, and positional arguments. -/
structure Sorted where
  options : List (String × Word)
  positional : List Word
  deriving DecidableEq

def Usage.option? (u : Usage) (word : Word) : Option (String × ValueType) :=
  u.options.find? fun o => Text.bytes o.1 = word

def hyphen : UInt8 := 0x2D

def equalsSign : UInt8 := 0x3D

/-- Sort words. Options that come after a positional argument count only if `mixed`. -/
def sortWords (u : Usage) (mixed : Bool) : List Word → Option Sorted
  | [] => some ⟨[], []⟩
  | word :: rest =>
      if word = [hyphen, hyphen] then some ⟨[], rest⟩
      else if word.head? = some hyphen ∧ 1 < word.length then
        let (name, value) := word.span (· != equalsSign)
        match u.option? name, value, rest with
        | some (name, .flag), [], rest =>
            (sortWords u mixed rest).map fun s => { s with options := (name, []) :: s.options }
        | some (_, .flag), _ :: _, _ => none
        | some (name, _), _ :: value, rest =>
            (sortWords u mixed rest).map fun s => { s with options := (name, value) :: s.options }
        | some (name, _), [], value :: rest =>
            (sortWords u mixed rest).map fun s => { s with options := (name, value) :: s.options }
        | some _, [], [] => none
        | none, _, rest =>
            if word.tail.head? ≠ some hyphen ∧ word.tail.all (· ∈ Text.encode u.letters) then
              sortWords u mixed rest
            else none
      else if mixed then
        (sortWords u mixed rest).map fun s => { s with positional := word :: s.positional }
      else some ⟨[], word :: rest⟩

/-- Why a command line is refused: the words do not fit, or a path cannot even be looked up. -/
inductive Misuse
  | usage
  | path (e : Fault)
  deriving DecidableEq, Repr

def checkPath (d : Disk) (holds : Entry → Bool) (path : Path) : Except Misuse Unit :=
  match d.status path with
  | .ok e => if holds e then .ok () else .error .usage
  | .error .nulInPath => .error (.path .nulInPath)
  | .error _ => .error .usage

def checkValue (d : Disk) (value : Word) : ValueType → Except Misuse Unit
  | .flag | .text => .ok ()
  | .integer => if (integer? value).isSome then .ok () else .error .usage
  | .existingFile => checkPath d (· != .directory) value
  | .existingDirectory => checkPath d (· == .directory) value

def Sorted.value? (s : Sorted) (name : String) : Option Word :=
  (s.options.reverse.find? fun o => o.1 = name).map fun o => o.2

def Sorted.has (s : Sorted) (name : String) : Bool :=
  (s.value? name).isSome

/-- Check the options that are given, in the order in which they are first met. -/
def checkOptions (u : Usage) (d : Disk) (s : Sorted) : Except Misuse Unit :=
  (s.options.map fun o => o.1).eraseDups.forM fun name =>
    match s.value? name, u.option? (Text.bytes name) with
    | some value, some (_, type) => checkValue d value type
    | _, _ => .ok ()

/-- Check the positional arguments: there have to be as many as the command takes. -/
def checkArguments (d : Disk) :
    List (String × ValueType) → List Word → Except Misuse Unit
  | [], [] => .ok ()
  | (_, type) :: types, value :: values => do
      checkValue d value type
      checkArguments d types values
  | _, _ => .error .usage

/-- Sort and check the words after the name of a command. -/
def readWords (u : Usage) (d : Disk) (words : List Word) : Except Misuse Sorted := do
  match sortWords u true words with
  | none => throw .usage
  | some s =>
      checkOptions u d s
      checkArguments d u.arguments s.positional
      return s

end Restyle.Cli
