import Mermaid.Proofs.Token.Link

/-! What a text can be written from: words, quoted strings, links and marks. Each of them is read
back as one token where what follows does not run on from it. -/
namespace Mermaid
open Lexicon Text

/-- One or more word characters. -/
structure Letters where
  chars : List Char
  ne_nil : chars ≠ []
  all : ∀ c ∈ chars, isWord c

/-- Letters joined by single hyphens, with a type argument or without. -/
structure Word where
  first : Letters
  more : List Letters := []
  argument : Option Letters := none

/-- A text that can stand between quotation marks on one line. -/
structure Quotation where
  chars : List Char
  all : ∀ c ∈ chars, c ≠ '"' ∧ c ≠ '\r' ∧ c ≠ '\n'

/-- A delimiter or a mark. -/
structure Sign where
  text : String
  kind : TokenKind
  mem : (text, kind) ∈ punctuation

/-- A link of any length, as its pattern spells it. -/
structure LinkText where
  chars : List Char
  kind : TokenKind
  spelled : ∃ p, (p, kind) ∈ links ∧ p.Spells chars

namespace Word

def hyphened (l : Letters) : List Char := '-' :: l.chars

def argumentChars : Option Letters → List Char
  | none => []
  | some l => '~' :: l.chars ++ ['~']

def chars (w : Word) : List Char :=
  w.first.chars ++ (w.more.flatMap hyphened ++ argumentChars w.argument)

def text (w : Word) : String := String.ofList w.chars

end Word

def Quotation.text (q : Quotation) : String := String.ofList q.chars

/-- A word that is not reserved. -/
structure Name extends Word where
  free : TokenKind.ofWord toWord.text = .identifier

/-- A text that a mark, a link or a comment can begin with. -/
def RunsOn (s : List Char) : Prop :=
  (∃ e ∈ punctuation, s <+: e.1.toList) ∨ opensLink s ∨ "%%".toList <+: s

instance (s : List Char) : Decidable (RunsOn s) := inferInstanceAs (Decidable (_ ∨ _ ∨ _))

inductive Piece
  | word (w : Word)
  | quotation (q : Quotation)
  | sign (s : Sign)
  | link (l : LinkText)

namespace Piece

def chars : Piece → List Char
  | word w => w.chars
  | quotation q => '"' :: q.chars ++ ['"']
  | sign s => s.text.toList
  | link l => l.chars

def kind : Piece → TokenKind
  | word w => TokenKind.ofWord w.text
  | quotation _ => .string
  | sign s => s.kind
  | link l => l.kind

def lexeme : Piece → String
  | word w => w.text
  | quotation q => q.text
  | sign s => s.text
  | link l => String.ofList l.chars

def slice (p : Piece) : Slice := ⟨p.chars, some (p.kind, p.lexeme.toList)⟩

/-- The characters that a piece does not run on with; a link needs a space behind it. -/
def Stops : Piece → Char → Prop
  | word _, c => isWord c = false ∧ c ≠ '-' ∧ c ≠ '~'
  | quotation _, _ => True
  | sign s, c => ¬ RunsOn (s.text.toList ++ [c])
  | link _, c => c = ' '

end Piece
end Mermaid
