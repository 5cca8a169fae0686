/-!
Patterns for the head of a text. A pattern takes as much as it can and is not tried again with
less, so its match is a number of characters.
-/
namespace Mermaid

inductive Pattern
  /-- Exactly these characters. -/
  | text (chars : List Char)
  /-- As many of one character as there are, and no fewer than `least`. -/
  | run (char : Char) (least : Nat)
  /-- Takes nothing; a character of this class follows. -/
  | ahead (inClass : Char → Bool)
  /-- Takes nothing; no character of this class follows. -/
  | notAhead (inClass : Char → Bool)
  | seq (first second : Pattern)
  /-- The second pattern where the first does not match. -/
  | either (first second : Pattern)

namespace Pattern

instance : Coe String Pattern := ⟨fun s => .text s.toList⟩
instance : Append Pattern := ⟨.seq⟩
instance : OrElse Pattern := ⟨fun p q => .either p (q ())⟩

def nothing : Pattern := .text []

/-- How many characters the pattern takes from the head of the text. -/
def length? : Pattern → List Char → Option Nat
  | text chars, s => if chars.isPrefixOf s then some chars.length else none
  | run c least, s =>
    let count := (s.takeWhile (· == c)).length
    if least ≤ count then some count else none
  | ahead p, s => if s.head?.any p then some 0 else none
  | notAhead p, s => if s.head?.any p then none else some 0
  | seq p q, s => do
    let n ← p.length? s
    let m ← q.length? (s.drop n)
    return n + m
  | either p q, s => (p.length? s).or (q.length? s)

end Pattern
end Mermaid
