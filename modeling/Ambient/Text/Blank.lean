import Ambient.Text.Table

/-!
# White space

The Unicode property `White_Space`, and the text left when it is taken off both ends.
-/

namespace Ambient.Text

/-- The code points with the Unicode property `White_Space`. -/
def blankRanges : Ranges :=
  [9, 5, 18, 1, 100, 1, 26, 1, 5599, 1, 2431, 11, 29, 2, 5, 1, 47, 1, 4000, 1]

def isBlank (c : Char) : Bool :=
  blankRanges.has c.toNat

/-- `s` without the white space at its two ends. -/
def trim (s : String) : String :=
  String.ofList (((s.toList.dropWhile isBlank).reverse.dropWhile isBlank).reverse)

end Ambient.Text
