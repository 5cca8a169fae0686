import Mermaid.Text.Blank
import Mermaid.Text.WordChar
import Mermaid.Token.Basic
import Mermaid.Token.Pattern

/-!
The tokens that a text can hold: comments, quoted strings, links, words and punctuation, each by
how much of the text it takes and what it reads there.
-/
namespace Mermaid.Lexicon
open Text TokenKind

structure Entry where
  /-- How many characters the entry takes from the head of a text. -/
  length? : List Char → Option Nat
  /-- The kind and the lexeme of the characters taken. -/
  read : List Char → TokenKind × List Char

def isBreak (c : Char) : Bool := c == '\r' || c == '\n'

/-- `%%` and all that follows on the line; the lexeme is the remark itself. -/
def comment : Entry where
  length?
    | '%' :: '%' :: s => some (2 + (s.takeWhile (!isBreak ·)).length)
    | _ => none
  read span := (.comment, strip (span.drop 2))

def inString (c : Char) : Bool := c != '"' && !isBreak c

/-- Text between quotation marks; the second one may be missing at the end of a line. -/
def string : Entry where
  length?
    | '"' :: s => some (1 + (s.takeWhile inString).length
        + if (s.dropWhile inString).head? == some '"' then 1 else 0)
    | _ => none
  read span := (.string, (span.drop 1).takeWhile inString)

/-- How far a word runs on: a hyphen belongs to it where a word character follows. -/
def wordLength : List Char → Nat
  | [] => 0
  | c :: s =>
    if isWord c || c == '-' && s.head?.any isWord then 1 + wordLength s else 0

/-- A type argument `~T~` right after a word. -/
def argumentLength : List Char → Nat
  | '~' :: s =>
    let n := (s.takeWhile isWord).length
    if 0 < n && s[n]? == some '~' then n + 2 else 0
  | _ => 0

/-- A word, with hyphens inside it and a type argument behind it. -/
def word : Entry where
  length? s :=
    if s.head?.any isWord then
      let n := wordLength s
      some (n + argumentLength (s.drop n))
    else none
  read span := (ofWord (String.ofList span), span)

def ofPattern (kind : TokenKind) (pattern : Pattern) : Entry where
  length? := pattern.length?
  read span := (kind, span)

section links
open Pattern

def dashes := run '-' 2
def dots := run '.' 2
/-- A dotted line up to its second hyphen. -/
def dotted : Pattern := "-" ++ run '.' 1 ++ "-"
/-- The letter `x` or `o` as an arrowhead, not as the first letter of a word. -/
def letter (s : String) : Pattern := s ++ notAhead isWord
/-- A diamond link that may bear a diamond at both ends, with an operand behind it. -/
def diamond (start : String) : Pattern :=
  let operand := ahead fun c => isBlank c || isWord c || c == '"'
  start ++ dashes ++ (("*" <|> letter "o") ++ operand <|> operand)

/-- The links, the most specific ones first. -/
def links : List (Pattern × TokenKind) := [
  ("<|" ++ dashes, inheritance), ("<|" ++ dots, realization), ("<" ++ dots, dependency),
  ("<" ++ dashes ++ (">" <|> "*" <|> letter "o" <|> nothing), solidLink),
  (dots ++ "|>", realization), (dots ++ ">", dependency), (dots, dashedLink),
  (diamond "*", composition), (diamond "o", aggregation),
  (dotted ++ ">", dottedArrow), (dotted ++ letter "x", dottedCross), (dotted ++ ")", dottedOpen),
  (dotted, dottedLine),
  (dashes ++ "|>", inheritance), (dashes ++ "*", composition), (dashes ++ ">", solidArrow),
  (dashes ++ letter "x", solidCross), (dashes ++ letter "o", solidCircle),
  (dashes ++ ")", solidOpen), (run '-' 3, solidLine), ("--", solidLink),
  (run '=' 2 ++ ">", thickArrow), (run '=' 3, thickLine), (run '~' 3, invisibleLink)]

end links

/-- The delimiters and marks, those of three characters before those of two and one. -/
def punctuation : List (String × TokenKind) := [
  ("(((", openTripleRound), (")))", closeTripleRound),
  ("((", openDoubleRound), ("))", closeDoubleRound),
  ("([", openRoundSquare), ("])", closeSquareRound),
  ("[(", openSquareRound), (")]", closeRoundSquare),
  ("[[", openDoubleSquare), ("]]", closeDoubleSquare),
  ("[/", openSquareSlash), ("/]", closeSlashSquare),
  ("[\\", openSquareBackslash), ("\\]", closeBackslashSquare),
  ("\x7b\x7b", openDoubleCurly), ("\x7d\x7d", closeDoubleCurly),
  ("<<", openGuillemet), (">>", closeGuillemet),
  ("[", openSquare), ("]", closeSquare), ("(", openRound), (")", closeRound),
  ("\x7b", openCurly), ("\x7d", closeCurly), (">", greater), ("<", less), ("|", pipe),
  (":", colon), (";", semicolon), (",", comma), ("+", plus), ("-", minus), ("#", hash),
  ("~", tilde), ("*", asterisk), ("?", question), ("!", exclamation), ("%", percent),
  ("&", ampersand), (".", dot), ("/", slash), ("\\", backslash), ("=", equals)]

/-- All entries, in the order in which they are tried. -/
def entries : List Entry :=
  comment :: string :: links.map (fun (p, kind) => ofPattern kind p) ++
    word :: punctuation.map fun (s, kind) => ofPattern kind s

end Mermaid.Lexicon
