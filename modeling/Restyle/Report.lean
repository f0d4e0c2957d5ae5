import Restyle.Syntax.Problem

/-!
# Reports

What can go wrong in an operation on a text, and what it notes on the way. Notes made before a
failure are kept.
-/

namespace Restyle

/-- A reason for which an operation on a text has no result. -/
inductive Failure
  | unknownDialect (name : List Char)
  | invalidSpan (start stop : Int)
  /-- The text does not parse. -/
  | refused (reason : Syntax.Refusal)
  /-- An escape in a string literal names no code point. -/
  | noSuchCodePoint
  /-- An escape in a string literal names a number past 31 bits. -/
  | numberTooLarge
  /-- A surrogate was to be written into a text. -/
  | surrogate
  /-- Bytes that were to be text are none, for instance because they cut a character. -/
  | notText
  deriving DecidableEq, Repr

instance decidableEqExcept {ε α : Type} [DecidableEq ε] [DecidableEq α] :
    DecidableEq (Except ε α)
  | .ok a, .ok b => decidable_of_iff (a = b) ⟨congrArg _, Except.ok.inj⟩
  | .error e, .error f => decidable_of_iff (e = f) ⟨congrArg _, Except.error.inj⟩
  | .ok _, .error _ => .isFalse nofun
  | .error _, .ok _ => .isFalse nofun

def Failure.message? : Failure → Option (List Char)
  | .unknownDialect name =>
      some ("Unknown dialect ".toList ++ Text.quoted name ++
        " (expected one of ['tsx', 'typescript'])".toList)
  | .invalidSpan start stop =>
      some ("Invalid edit span [".toList ++ Text.decimalInt start ++ ", ".toList ++
        Text.decimalInt stop ++ ")".toList)
  | .refused reason => some reason.message
  | _ => none

inductive Level
  | debug
  | warning
  | error
  deriving DecidableEq, Repr

def Level.name : Level → String
  | .debug => "DEBUG"
  | .warning => "WARNING"
  | .error => "ERROR"

inductive Channel
  | operations
  | writer
  | printer
  deriving DecidableEq, Repr

def Channel.name : Channel → String
  | .operations => "seam.engine.operations"
  | .writer => "seam.engine.writer"
  | .printer => "seam.engine.printer"

inductive Note
  | nothingToUpdate (tag : List Char) (ordinal : Option Int)
  | updatingAll (tag : List Char) (count : Nat)
  | reportingLast (tag : List Char) (count : Nat)
  | droppedEdit (start stop : Nat)
  | unparsedSource
  | storedAsLiteral
  deriving DecidableEq, Repr

namespace Note

def level : Note → Level
  | updatingAll .. | reportingLast .. => .warning
  | unparsedSource => .error
  | _ => .debug

def channel : Note → Channel
  | reportingLast .. | unparsedSource => .operations
  | droppedEdit .. => .printer
  | _ => .writer

def ordinalText : Option Int → List Char
  | some n => Text.decimalInt n
  | none => "None".toList

/-- Its words. The last two are given without the details that follow a colon in them. -/
def message : Note → List Char
  | nothingToUpdate tag ordinal =>
      "No <".toList ++ tag ++ "> at ordinal ".toList ++ ordinalText ordinal ++
        "; nothing to update".toList
  | updatingAll tag count =>
      "No ordinal given for <".toList ++ tag ++ ">; updating all ".toList ++ Text.decimal count ++
        " occurrences".toList
  | reportingLast tag count =>
      "No ordinal given for <".toList ++ tag ++ "> with ".toList ++ Text.decimal count ++
        " occurrences; reporting the last".toList
  | droppedEdit start stop =>
      "Dropping edit at [".toList ++ Text.decimal start ++ ", ".toList ++ Text.decimal stop ++
        "): inside an earlier replacement".toList
  | unparsedSource => "Could not parse source: %s".toList
  | storedAsLiteral => "Storing %r as a literal: %s".toList

end Note

/-- The result of an operation with the notes made on the way, in order. -/
structure Report (α : Type) where
  notes : List Note
  result : Except Failure α

namespace Report

variable {α β : Type}

protected def pure (a : α) : Report α := ⟨[], .ok a⟩

protected def bind (r : Report α) (f : α → Report β) : Report β :=
  match r.result with
  | .ok a => ⟨r.notes ++ (f a).notes, (f a).result⟩
  | .error e => ⟨r.notes, .error e⟩

instance : Monad Report where
  pure := Report.pure
  bind := Report.bind

def note (n : Note) : Report Unit := ⟨[n], .ok ()⟩

def fail (e : Failure) : Report α := ⟨[], .error e⟩

def ofExcept (r : Except Failure α) : Report α := ⟨[], r⟩

instance : LawfulMonad Report :=
  LawfulMonad.mk' Report
    (fun r => by
      obtain ⟨notes, result⟩ := r
      cases result with
      | ok a => exact congrArg (Report.mk · _) (List.append_nil notes)
      | error e => rfl)
    (fun _ _ => congrArg (Report.mk · _) (List.nil_append _))
    (fun r f _ => by
      obtain ⟨notes, result⟩ := r
      cases result with
      | error e => rfl
      | ok a =>
          simp only [bind, Report.bind]
          cases (f a).result with
          | error e => rfl
          | ok b => simp only [List.append_assoc])

@[simp] theorem result_pure (a : α) : (pure a : Report α).result = .ok a := rfl

@[simp] theorem result_fail (e : Failure) : (fail e : Report α).result = .error e := rfl

@[simp] theorem result_ofExcept (r : Except Failure α) : (ofExcept r).result = r := rfl

@[simp] theorem result_note (n : Note) : (note n).result = .ok () := rfl

theorem result_bind {r : Report α} {f : α → Report β} {a : α} (h : r.result = .ok a) :
    (r >>= f).result = (f a).result := by
  simp only [bind, Report.bind, h]

theorem result_bind_error {r : Report α} {f : α → Report β} {e : Failure}
    (h : r.result = .error e) : (r >>= f).result = .error e := by
  simp only [bind, Report.bind, h]

theorem result_bind_congr {r s : Report α} (h : r.result = s.result) (f : α → Report β) :
    (r >>= f).result = (s >>= f).result := by
  cases hs : s.result with
  | ok a => rw [result_bind hs, result_bind (h.trans hs)]
  | error e => rw [result_bind_error hs, result_bind_error (h.trans hs)]

theorem result_map {r : Report α} {a : α} (f : α → β) (h : r.result = .ok a) :
    (f <$> r).result = .ok (f a) :=
  result_bind h

end Report

end Restyle
