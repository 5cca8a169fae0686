import Mermaid.Token.Slice

/-!
The token stream of a text. Every token knows the line and column of its first character, and a
last token stands for the end of the text.
-/
namespace Mermaid

/-- A place between two slices: how many characters lie before it, the number of its line, and
how many characters lie before that line. -/
structure Mark where
  offset : Nat
  line : Int
  lineStart : Int
  deriving DecidableEq, Repr

namespace Mark

def start : Mark := ⟨0, 1, 0⟩

def column (m : Mark) : Int := m.offset - m.lineStart + 1

def position (m : Mark) : Position := ⟨m.line, m.column⟩

/-- The place after a slice that begins at `m`. -/
def past (m : Mark) (s : Slice) : Mark :=
  let offset := m.offset + s.span.length
  match s.token? with
  | some (.newline, _) => ⟨offset, m.line + 1, offset⟩
  | _ => ⟨offset, m.line, m.lineStart⟩

/-- The token that a slice at `m` spells. -/
def token? (m : Mark) (s : Slice) : Option Token :=
  s.token?.map fun (kind, lexeme) => ⟨kind, String.ofList lexeme, m.position⟩

/-- The tokens that the slices from `m` on spell. -/
def tokens (m : Mark) : List Slice → List Token
  | [] => []
  | s :: slices => (m.token? s).toList ++ (m.past s).tokens slices

/-- One step of a scan through the text: what the slice at the mark spells, and the mark past it. -/
def step? (text : List Char) (m : Mark) : Option (Option Token × Mark) :=
  match text.drop m.offset with
  | [] => none
  | c :: s => some (m.token? (Slice.cut c s), m.past (Slice.cut c s))

end Mark

/-- The tokens of a text, and where the text ends. -/
structure Stream where
  tokens : List Token
  finish : Position
  deriving DecidableEq, Repr

namespace Stream

/-- The mark at the end of a text. -/
def finalMark (text : String) : Mark :=
  (Slice.ofText text.toList).foldl Mark.past Mark.start

def ofText (text : String) : Stream where
  tokens := Mark.start.tokens (Slice.ofText text.toList)
  finish := (finalMark text).position

/-- The token that stands for the end of the text. -/
def endToken (s : Stream) : Token := ⟨.eof, "", s.finish⟩

/-- All tokens, the one for the end included. -/
def toList (s : Stream) : List Token := s.tokens ++ [s.endToken]

/-- The stream that a list of tokens holds up to its first end token. -/
def ofTokens (ts : List Token) : Stream where
  tokens := ts.takeWhile (·.kind != .eof)
  finish := ((ts.dropWhile (·.kind != .eof)).head?.map (·.position)).getD ⟨1, 1⟩

/-- How many tokens come before `rest`, the remaining ones. -/
def index (s : Stream) (rest : List Token) : Nat := s.tokens.length - rest.length

/-- The token that comes before `rest`. -/
def previous? (s : Stream) (rest : List Token) : Option Token :=
  match s.index rest with
  | 0 => none
  | n + 1 => s.tokens[n]?

/-- The first of the remaining tokens; at the end of the text, the token that stands for it. -/
def current (s : Stream) (rest : List Token) : Token := rest.headD s.endToken

end Stream

/-- The tokens of a text and the one for its end. -/
def scan (text : String) : List Token := (Stream.ofText text).toList

end Mermaid
