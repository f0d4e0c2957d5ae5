import Restyle.Report
import Restyle.Text.CodePoint

/-!
# Edits

The replacement of a stretch of bytes by a text, and the order in which edits are applied.
-/

namespace Restyle

/-- Replace the bytes from `start` up to `stop` by a text, which may be one that cannot be
written. An insertion has its ends at one place. -/
@[ext]
structure Edit where
  start : Nat
  stop : Nat
  text : List Text.CodePoint
  start_le_stop : start ≤ stop

instance : DecidableEq Edit := fun _ _ => decidable_of_iff _ Edit.ext_iff.symm

namespace Edit

def of? (start stop : Int) (text : List Text.CodePoint) : Except Failure Edit :=
  if h : 0 ≤ start ∧ start ≤ stop then
    .ok ⟨start.toNat, stop.toNat, text, Int.toNat_le_toNat h.2⟩
  else .error (.invalidSpan start stop)

def insertion (offset : Nat) (text : List Text.CodePoint) : Edit :=
  ⟨offset, offset, text, Nat.le_refl offset⟩

/-- Whether an edit comes no later than another: by start, and by end where both start together. -/
def before (a b : Edit) : Bool :=
  a.start < b.start || (a.start == b.start && a.stop ≤ b.stop)

/-- Put an edit in front of the first one that it comes no later than. -/
def insertSorted (e : Edit) : List Edit → List Edit
  | [] => [e]
  | f :: rest => if e.before f then e :: f :: rest else f :: insertSorted e rest

/-- Edits in order. Those of one stretch stay in the order in which they were recorded. -/
def sorted : List Edit → List Edit
  | [] => []
  | e :: rest => insertSorted e (sorted rest)

end Edit

end Restyle
