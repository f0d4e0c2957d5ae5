/-!
# Lines

The characters that end a line of a message, and the first line of a text.
-/

namespace Restyle.Text

def isLineBreak (c : Char) : Bool :=
  let n := c.toNat
  (10 ≤ n && n ≤ 13) || (0x1C ≤ n && n ≤ 0x1E) || n == 0x85 || n == 0x2028 || n == 0x2029

def firstLine (text : List Char) : List Char :=
  text.takeWhile fun c => !isLineBreak c

end Restyle.Text
