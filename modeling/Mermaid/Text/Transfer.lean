/-!
What becomes of a text on its way in and out. Where it comes in, a carriage return with or without a
line feed ends a line as a line feed does. Where it goes to what is no terminal, the control sequences
of terminals are left out, such as those for colours: an escape character and a bracket, parameter
characters, intermediate characters, and one final character.
-/
namespace Mermaid.Text

/-- The text with every line break written as a line feed. -/
def unifyBreaks : List Char → List Char
  | '\r' :: '\n' :: s => '\n' :: unifyBreaks s
  | '\r' :: s => '\n' :: unifyBreaks s
  | c :: s => c :: unifyBreaks s
  | [] => []

/-- The digits, and the marks from `:` to `?`. -/
def isParameter (c : Char) : Bool := '0' ≤ c && c ≤ '?'

/-- The space, and the marks from `!` to `/`. -/
def isIntermediate (c : Char) : Bool := ' ' ≤ c && c ≤ '/'

/-- From `@` to `~`, the letters among them. -/
def isFinal (c : Char) : Bool := '@' ≤ c && c ≤ '~'

/-- How many characters the control sequence at the head of a text has. -/
def sequenceLength? : List Char → Option Nat
  | '\x1b' :: '[' :: s =>
    let afterParameters := s.dropWhile isParameter
    let left := afterParameters.dropWhile isIntermediate
    if left.head?.any isFinal then some (s.length - left.length + 3) else none
  | _ => none

/-- The text without its control sequences, past the first `skip` characters, which belong to a
sequence that began earlier. -/
def plainAfter : Nat → List Char → List Char
  | _, [] => []
  | skip + 1, _ :: s => plainAfter skip s
  | 0, c :: s =>
    match sequenceLength? (c :: s) with
    | some n => plainAfter (n - 1) s
    | none => c :: plainAfter 0 s

/-- The text as it goes to a file or a pipe that is no terminal. -/
def plain (s : String) : String := String.ofList (plainAfter 0 s.toList)

end Mermaid.Text
