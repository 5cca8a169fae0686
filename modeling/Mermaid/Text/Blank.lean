/-!
Sets of characters given as closed ranges of code points, the blank characters among them, and text
without the blanks at its two ends.
-/
namespace Mermaid.Text

/-- Whether the code point of `c` lies in one of the closed ranges. -/
def inRanges (ranges : List (Nat × Nat)) (c : Char) : Bool :=
  ranges.any fun r => r.1 ≤ c.toNat && c.toNat ≤ r.2

/-- The white space of Unicode together with the four information separators U+001C to U+001F. -/
def blankRanges : List (Nat × Nat) := [
  (0x09, 0x0d), (0x1c, 0x20), (0x85, 0x85), (0xa0, 0xa0), (0x1680, 0x1680), (0x2000, 0x200a),
  (0x2028, 0x2029), (0x202f, 0x202f), (0x205f, 0x205f), (0x3000, 0x3000)]

def isBlank (c : Char) : Bool := inRanges blankRanges c

/-- The text from its first to its last character that is not blank. -/
def strip (s : List Char) : List Char :=
  ((s.dropWhile isBlank).reverse.dropWhile isBlank).reverse

def stripped (s : String) : String := String.ofList (strip s.toList)

/-- The words with one space between each two, and without blanks at the ends. -/
def joinWords (words : List String) : String := stripped (" ".intercalate words)

end Mermaid.Text
