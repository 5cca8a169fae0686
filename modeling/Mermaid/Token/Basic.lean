/-!
Tokens of a diagram text: their kinds, the reserved words, and the line that tokens were cut from.
-/
namespace Mermaid

inductive TokenKind
  -- reserved words
  | flowchart | topDown | topBottom | bottomTop | leftRight | rightLeft | direction
  | subgraph | endSubgraph | style | classDef | linkStyle | classDiagram | classWord | title
  -- delimiters of node shapes
  | openSquare | closeSquare | openRound | closeRound | openCurly | closeCurly
  | openRoundSquare | closeSquareRound | openSquareRound | closeRoundSquare
  | openDoubleSquare | closeDoubleSquare | openDoubleCurly | closeDoubleCurly
  | openDoubleRound | closeDoubleRound | openTripleRound | closeTripleRound
  | greater | openSquareSlash | closeSlashSquare | openSquareBackslash | closeBackslashSquare
  -- links between nodes
  | solidArrow | dottedArrow | thickArrow | invisibleLink | solidOpen | dottedOpen
  | solidCross | dottedCross | solidCircle | solidLine | dottedLine | thickLine
  -- links between classes
  | aggregation | composition | inheritance | realization | dependency | solidLink | dashedLink
  -- punctuation
  | pipe | colon | semicolon | comma | plus | minus | hash | tilde | asterisk | question
  | exclamation | percent | ampersand | dot | slash | backslash | equals | less
  | openGuillemet | closeGuillemet
  -- the rest
  | identifier | string | comment | newline | unknown | eof
  deriving DecidableEq, Repr

namespace TokenKind

def reserved : List (String × TokenKind) := [
  ("flowchart", flowchart), ("graph", flowchart), ("flowchart-elk", flowchart),
  ("TD", topDown), ("TB", topBottom), ("BT", bottomTop), ("LR", leftRight), ("RL", rightLeft),
  ("direction", direction), ("subgraph", subgraph), ("end", endSubgraph), ("style", style),
  ("classDef", classDef), ("linkStyle", linkStyle),
  ("classDiagram", classDiagram), ("classDiagram-v2", classDiagram), ("class", classWord),
  ("title", title)]

/-- The kind of a whole word. -/
def ofWord (word : String) : TokenKind := (reserved.lookup word).getD identifier

/-- The delimiters that can close the text of a node. -/
def closesShape : TokenKind → Bool
  | closeSquare | closeRound | closeCurly | closeSquareRound | closeRoundSquare
  | closeDoubleSquare | closeDoubleCurly | closeDoubleRound | closeTripleRound
  | closeSlashSquare | closeBackslashSquare => true
  | _ => false

end TokenKind

/-- A place in a text; lines and columns count from one. -/
structure Position where
  line : Int
  column : Int
  deriving DecidableEq, Repr

structure Token where
  kind : TokenKind
  lexeme : String
  position : Position
  deriving DecidableEq, Repr

namespace Token

/-- Identifiers and reserved words, which can both name a member of a class. -/
def isWord (t : Token) : Bool :=
  t.kind == .identifier || TokenKind.reserved.lookup t.lexeme == some t.kind

/-- The token as the text spells it. -/
def spelling (t : Token) : String :=
  if t.kind == .string then "\"" ++ t.lexeme ++ "\"" else t.lexeme

/-- Where the token's spelling ends on its line. -/
def endColumn (t : Token) : Int := t.position.column + t.spelling.length

/-- The tokens of one line without its comment, after a token that ended at column `edge`: one
space stands wherever a token begins beyond the end of the one before it. -/
def joinAfter (edge : Int) : List Token → String
  | [] => ""
  | t :: ts =>
    if t.kind == .comment then joinAfter edge ts
    else (if edge < t.position.column then " " else "") ++ t.spelling ++ joinAfter t.endColumn ts

/-- The text of one line. -/
def joinSource : List Token → String
  | [] => ""
  | t :: ts =>
    if t.kind == .comment then joinSource ts else t.spelling ++ joinAfter t.endColumn ts

end Token
end Mermaid
