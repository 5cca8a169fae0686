import Mermaid.Flowchart.Basic
import Mermaid.Text.Blank

/-!
The tokens with a meaning in flowcharts: directions, arrows, and the brackets of node shapes; and
the text between such brackets.
-/
namespace Mermaid.Flowchart

def direction? : TokenKind → Option Direction
  | .topDown | .topBottom => some .topDown
  | .bottomTop => some .bottomUp
  | .leftRight => some .leftRight
  | .rightLeft => some .rightLeft
  | _ => none

/-- What an arrow draws, and the character that makes it longer: the shortest form has `least`. -/
structure Arrow where
  style : EdgeStyle
  head : ArrowHead
  char : Char
  least : Nat
  deriving DecidableEq, Repr

def arrow? : TokenKind → Option Arrow
  | .solidArrow => some ⟨.solid, .normal, '-', 2⟩
  | .solidOpen => some ⟨.solid, .openHead, '-', 2⟩
  | .solidCross => some ⟨.solid, .cross, '-', 2⟩
  | .solidCircle => some ⟨.solid, .circle, '-', 2⟩
  | .solidLine => some ⟨.solid, .noHead, '-', 3⟩
  | .dottedArrow => some ⟨.dotted, .normal, '.', 1⟩
  | .dottedOpen => some ⟨.dotted, .openHead, '.', 1⟩
  | .dottedCross => some ⟨.dotted, .cross, '.', 1⟩
  | .dottedLine => some ⟨.dotted, .noHead, '.', 1⟩
  | .thickArrow => some ⟨.thick, .normal, '=', 2⟩
  | .thickLine => some ⟨.thick, .noHead, '=', 3⟩
  | .invisibleLink => some ⟨.invisible, .noHead, '~', 3⟩
  | _ => none

/-- Each character more than the shortest form has asks for one more rank. -/
def Arrow.minLength (a : Arrow) (lexeme : String) : Int :=
  max 1 ((lexeme.toList.count a.char : Int) - a.least + 1)

/-- A delimiter that ends the text of a node. -/
structure Closer where
  kind : TokenKind
  text : String
  deriving DecidableEq, Repr

def Closer.square : Closer := ⟨.closeSquare, "]"⟩

/-- The shape that an opening delimiter begins, and its closing delimiter. -/
def shape? : TokenKind → Option (NodeShape × Closer)
  | .openSquare => some (.rectangle, .square)
  | .openRound => some (.rounded, ⟨.closeRound, ")"⟩)
  | .openRoundSquare => some (.stadium, ⟨.closeSquareRound, "])"⟩)
  | .openDoubleSquare => some (.subroutine, ⟨.closeDoubleSquare, "]]"⟩)
  | .openSquareRound => some (.cylinder, ⟨.closeRoundSquare, ")]"⟩)
  | .openCurly => some (.rhombus, ⟨.closeCurly, "\x7d"⟩)
  | .openDoubleCurly => some (.hexagon, ⟨.closeDoubleCurly, "\x7d\x7d"⟩)
  | .openDoubleRound => some (.circle, ⟨.closeDoubleRound, "))"⟩)
  | .openTripleRound => some (.doubleCircle, ⟨.closeTripleRound, ")))"⟩)
  | .greater => some (.asymmetric, .square)
  | .openSquareSlash => some (.parallelogram, ⟨.closeSlashSquare, "/]"⟩)
  | .openSquareBackslash => some (.trapezoid, ⟨.closeBackslashSquare, "\\]"⟩)
  | _ => none

namespace NodeText

/-- Closing brackets and these marks stand right behind the word before them. -/
def hugsLeft : TokenKind → Bool
  | .question | .exclamation | .comma | .colon | .semicolon | .percent => true
  | k => k.closesShape

/-- These brackets stand right before the word behind them. -/
def hugsRight : TokenKind → Bool
  | .openRound | .openSquare | .openCurly => true
  | _ => false

/-- What comes between the token before, if there is one, and the next. -/
def gap (last : Option TokenKind) (next : TokenKind) : String :=
  match last with
  | none => ""
  | some k => if hugsLeft next || hugsRight k then "" else " "

/-- Whether the token ends with the closing text, as `)]` does for `]`. -/
def endsWith (c : Closer) (t : Token) : Bool :=
  t.kind.closesShape && c.text.toList.isSuffixOf t.lexeme.toList

/-- The part of a longer delimiter before the closing text; nothing, if there is no such text. -/
def stem (c : Closer) (lexeme : String) : String :=
  if c.text = "" then ""
  else String.ofList (lexeme.toList.take (lexeme.length - c.text.length))

/-- The pieces of text up to the closer, whether it was found on this line, and the tokens behind
it. `last` is the kind of the token that the piece before was read from. -/
def pieces (c : Closer) (last : Option TokenKind) : List Token → List String × Bool × List Token
  | [] => ([], false, [])
  | t :: ts =>
    if t.kind = .newline then ([], false, t :: ts)
    else if t.kind = c.kind then ([], true, ts)
    else if t.kind = .pipe then pieces c last ts
    else if endsWith c t then ([gap last t.kind, stem c t.lexeme], true, ts)
    else
      let (more, closed, rest) := pieces c (some t.kind) ts
      (gap last t.kind :: t.lexeme :: more, closed, rest)

/-- The text up to the closer, and whether the closer was found on this line. -/
def read (c : Closer) (ts : List Token) : (String × Bool) × List Token :=
  let (texts, closed, rest) := pieces c none ts
  ((Text.stripped (String.join texts), closed), rest)

end NodeText

/-- The words of an edge label, up to a pipe or the end of the line. -/
def readLabel (ts : List Token) : String × List Token :=
  let (words, rest) := ts.span fun t => t.kind != .pipe && t.kind != .newline
  (Text.joinWords (words.map (·.lexeme)), rest)

end Mermaid.Flowchart
