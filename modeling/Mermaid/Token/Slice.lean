import Mermaid.Token.Lexicon

/-!
A text cut into slices: its tokens and the white space between them, in order and without a gap.
-/
namespace Mermaid

/-- A run of characters, and the kind and lexeme of the token it spells; white space spells none. -/
structure Slice where
  span : List Char
  token? : Option (TokenKind × List Char)
  deriving DecidableEq, Repr

namespace Slice

/-- The white space that separates tokens of one line. -/
def isGap (c : Char) : Bool := c == ' ' || c == '\t' || c == '\x0c' || c == '\x0b'

/-- How many characters the line break at the head of a text has. -/
def breakLength? : List Char → Option Nat
  | '\r' :: '\n' :: _ => some 2
  | '\r' :: _ | '\n' :: _ => some 1
  | _ => none

/-- The token of the first entry that matches at the head of a text. -/
def spelled? (s : List Char) : Option Slice :=
  Lexicon.entries.findSome? fun e => (e.length? s).map fun n => ⟨s.take n, some (e.read (s.take n))⟩

/-- The first slice of the text that begins with `c`; a character that begins nothing else is a
token of its own. -/
def cut (c : Char) (s : List Char) : Slice :=
  if isGap c then ⟨c :: s.takeWhile isGap, none⟩
  else match breakLength? (c :: s) with
    | some n => ⟨(c :: s).take n, some (.newline, ['\n'])⟩
    | none => (spelled? (c :: s)).getD ⟨[c], some (.unknown, [c])⟩

/-- The slices of a text, past the first `skip` characters, which an earlier slice has taken. -/
def ofTextAfter : Nat → List Char → List Slice
  | _, [] => []
  | skip + 1, _ :: s => ofTextAfter skip s
  | 0, c :: s => cut c s :: ofTextAfter ((cut c s).span.length - 1) s

def ofText (s : List Char) : List Slice := ofTextAfter 0 s

end Slice
end Mermaid
